import RecordCodec.Machine.Memory
import RecordCodec.Proofs.Locality
import RecordCodec.Proofs.MachineSlots

/-! # Room for elements

Readers only move on. A machine follows a reader if it does what the reader does, or stops further on
because there is no room for elements. It does not stop where the room for the elements of every
collection is given.
-/
namespace RecordCodec

/-! ## Readers move on -/

/-- On the same bytes under the same options, where the reader was or further on. -/
structure Reader.Onward (r s : Reader) : Prop where
  position_le : r.position ≤ s.position
  bytes_eq : s.bytes = r.bytes
  options_eq : s.options = r.options

theorem Reader.Onward.refl (r : Reader) : r.Onward r := ⟨Nat.le_refl _,rfl,rfl⟩

theorem Reader.Onward.trans {r s t : Reader} (h : r.Onward s) (k : s.Onward t) : r.Onward t :=
  ⟨Nat.le_trans h.position_le k.position_le,k.bytes_eq.trans h.bytes_eq,
    k.options_eq.trans h.options_eq⟩

theorem Reader.Onward.remaining_le {r s : Reader} (h : r.Onward s) : s.remaining ≤ r.remaining := by
  have hr := r.remaining_eq
  have hs := s.remaining_eq
  have hp := h.position_le
  rw [h.bytes_eq] at hs
  omega

namespace Read

variable {α β : Type}

/-- Whatever becomes of the operation, it leaves the reader where it was or further on. -/
def Forward (x : Read α) : Prop := ∀ r : Reader, r.Onward (x.outcome r).2

theorem Forward.of_ok {x : Read α} (h : Forward x) {r s : Reader} {a : α} (hx : x r = .ok a s) :
    r.Onward s := by
  have hr := h r
  unfold outcome at hr
  rwa [hx] at hr

theorem Forward.of_error {x : Read α} (h : Forward x) {r s : Reader} {e : Error}
    (hx : x r = .error e s) : r.Onward s := by
  have hr := h r
  unfold outcome at hr
  rwa [hx] at hr

theorem Forward.bind {x : Read α} {f : α → Read β} (h : Forward x) (k : ∀ a, Forward (f a)) :
    Forward (x >>= f) := by
  intro r
  unfold outcome
  cases hx : x r with
  | ok a s =>
    rw [EStateM.bind_of_ok f hx]
    exact (h.of_ok hx).trans (k a s)
  | error e s =>
    rw [EStateM.bind_of_error f hx]
    exact h.of_error hx

theorem forward_take (n : Nat) : Forward (take n) := by
  intro r
  unfold outcome take
  by_cases hn : n ≤ r.rest.length
  · rw [dif_pos hn]
    exact ⟨Nat.le_add_right _ _,rfl,rfl⟩
  · rw [dif_neg hn]
    exact .refl r

theorem forward_elementary : Elementary Forward where
  pure _ := Reader.Onward.refl
  bind := .bind
  fail _ := Reader.Onward.refl
  take := forward_take

theorem forward_sequential : Sequential Forward where
  toElementary := forward_elementary
  length := forward_elementary.length_of_options Reader.Onward.refl

theorem forward_closed : Closed Forward where
  toSequential := forward_sequential
  payload := forward_sequential.payload_of_remaining Reader.Onward.refl _
  throw _ := Reader.Onward.refl

/-- A length that is read is within the limit. -/
theorem length_le {r s : Reader} {n : Nat} (h : length r = .ok n s) : n ≤ r.options.maxLength := by
  obtain ⟨k,u,hu,h⟩ := EStateM.bind_eq_ok.mp h
  obtain ⟨o,t,ho,h⟩ := EStateM.bind_eq_ok.mp h
  obtain ⟨rfl,rfl⟩ := options_eq_ok.mp ho
  have hoptions : u.options = r.options := (forward_elementary.varint.of_ok hu).options_eq
  by_cases hk : k ≤ u.options.maxLength
  · change (if k ≤ u.options.maxLength then Pure.pure k else Read.fault _ : Read Nat) u = _ at h
    rw [if_pos hk] at h
    obtain ⟨rfl,-⟩ := EStateM.pure_eq_ok.mp h
    rwa [hoptions] at hk
  · change (if k ≤ u.options.maxLength then Pure.pure k else Read.fault _ : Read Nat) u = _ at h
    rw [if_neg hk] at h
    cases h

end Read

/-! ## Collections for which there is room -/

/-- Whether room is given for as many elements as are read before any other room is asked for. -/
def Machine.Memory.Gives (memory : Machine.Memory) (o : Options) (collection : Schema) : Prop :=
  ∀ length, length ≤ o.maxLength →
    memory collection (o.preallocation length) ≤ Machine.mostRoom

namespace Machine.Memory

variable {memory : Memory} {o : Options} {collection : Schema}

/-- Where more elements never ask for less, the longest collection decides. -/
theorem gives_iff (hm : Monotone (memory collection)) :
    memory.Gives o collection ↔
      memory collection (min o.maxLength o.maxPreallocation) ≤ mostRoom := by
  refine ⟨fun h => h o.maxLength (Nat.le_refl _),fun h length hlength => ?_⟩
  have hfewer : o.preallocation length ≤ min o.maxLength o.maxPreallocation := by
    unfold Options.preallocation
    omega
  exact (hm hfewer).trans h

theorem packed_monotone (collection : Schema) : Monotone (packed collection) := by
  intro m n hmn
  unfold packed
  split <;> try split
  all_goals first
    | exact Nat.mul_le_mul_right _ hmn
    | exact Nat.le_refl _

end Machine.Memory

namespace Schema

open Machine (Memory mostRoom)

mutual

/-- Whether room is given for the elements of every collection in a value of the type, which is
known as `as`. An array asks for all its elements, whatever the options are. -/
def HasRoomAs (memory : Memory) (o : Options) : (as : Schema) → Schema → Prop
  | as, sequence t | as, set t => memory.Gives o as ∧ HasRoomAs memory o t t
  | as, map k v => memory.Gives o as ∧ HasRoomAs memory o k k ∧ HasRoomAs memory o v v
  | as, array t n => memory as n ≤ mostRoom ∧ HasRoomAs memory o t t
  | _, option t | _, pointer _ t => HasRoomAs memory o t t
  | _, tuple ts => ComponentsHaveRoom memory o ts
  | _, struct _ _ fields => FieldsHaveRoom memory o fields
  | _, enum _ _ alternatives => AlternativesHaveRoom memory o alternatives
  | as, named _ t => HasRoomAs memory o as t
  | _, unit | _, scalar _ | _, text | _, duration | _, compatible .. | _, reference _ => True
termination_by structural _ t => t

def ComponentsHaveRoom (memory : Memory) (o : Options) : List Schema → Prop
  | [] => True
  | t :: ts => HasRoomAs memory o t t ∧ ComponentsHaveRoom memory o ts
termination_by structural ts => ts

def FieldsHaveRoom (memory : Memory) (o : Options) : List Field → Prop
  | [] => True
  | .mandatory _ t :: fs | .compatible _ _ t :: fs => HasRoomAs memory o t t ∧ FieldsHaveRoom memory o fs
  | .skipped .. :: fs => FieldsHaveRoom memory o fs
termination_by structural fs => fs

def AlternativesHaveRoom (memory : Memory) (o : Options) : List Alternative → Prop
  | [] => True
  | .mk _ _ fields :: as => FieldsHaveRoom memory o fields ∧ AlternativesHaveRoom memory o as
termination_by structural as => as

end

def HasRoom (memory : Memory) (o : Options) (t : Schema) : Prop := HasRoomAs memory o t t

end Schema

namespace Machine

open Read (Forward forward_closed forward_elementary)

variable {α β : Type} {o : Options} {tight : Prop}

/-- A machine stops for want of room, where the reader is or further on. -/
def RunsOut (r : Reader) (found : EStateM.Result Halt Cursor α) : Prop :=
  ∃ s : Reader, r.Onward s ∧ found = .error (.panic .capacity) s.cursor

theorem RunsOut.behind {r s : Reader} {found : EStateM.Result Halt Cursor α} (h : RunsOut s found)
    (hr : r.Onward s) : RunsOut r found := by
  obtain ⟨t,ht,hf⟩ := h
  exact ⟨t,hr.trans ht,hf⟩

/-- From a reader, the machine does what the operation does; if room is tight, it may also run out
of it. -/
def FollowsFrom (r : Reader) (tight : Prop) (m : Run α) (x : Read α) : Prop :=
  m r.cursor = told (x r) ∨ tight ∧ RunsOut r (m r.cursor)

/-- The machine follows every reader that has some options. -/
structure Follows (o : Options) (tight : Prop) (m : Run α) (x : Read α) : Prop where
  forward : Forward x
  run : ∀ r : Reader, r.options = o → FollowsFrom r tight m x

variable {m : Run α} {x : Read α} {f : α → Run β} {g : α → Read β}

theorem Does.follows (h : Does m x) (hx : Forward x) : Follows o tight m x :=
  ⟨hx,fun r _ => .inl (h r)⟩

theorem Follows.of_eq {m' : Run α} (h : Follows o tight m x)
    (hm : ∀ r : Reader, m' r.cursor = m r.cursor) : Follows o tight m' x := by
  refine ⟨h.forward,fun r hr => ?_⟩
  unfold FollowsFrom
  rw [hm r]
  exact h.run r hr

theorem Follows.pure (a : α) : Follows o tight (pure a) (pure a) :=
  (Does.pure a).follows (forward_elementary.pure a)

theorem Follows.throw (e : Error) : Follows o tight (fail e : Run α) (throw e) :=
  (Does.throw e).follows (forward_closed.throw e)

theorem Follows.fault (e : Fault) : Follows o tight (fault e : Run α) (Read.fault e) := .throw _

section
variable {γ : Type} {v : γ → α} {y : Read γ} {k : γ → Read β}

/-- Sequencing, where the machine may hold what is read in its own form. -/
theorem FollowsFrom.bind_map {r : Reader} (h : FollowsFrom r tight m (v <$> y)) (hy : Forward y)
    (hf : ∀ c s, y r = .ok c s → FollowsFrom s tight (f (v c)) (k c)) :
    FollowsFrom r tight (m >>= f) (y >>= k) := by
  obtain hm | ⟨ht,s,hs,hm⟩ := h
  · cases hx : y r with
    | ok c s =>
      have hv : (v <$> y) r = .ok (v c) s := EStateM.bind_of_ok _ hx
      rw [hv] at hm
      unfold FollowsFrom
      rw [EStateM.bind_of_ok f hm, EStateM.bind_of_ok k hx]
      obtain hf | ⟨ht,hf⟩ := hf c s hx
      · exact .inl hf
      · exact .inr ⟨ht,hf.behind (hy.of_ok hx)⟩
    | error e s =>
      have hv : (v <$> y) r = .error e s := EStateM.bind_of_error _ hx
      rw [hv] at hm
      unfold FollowsFrom
      rw [EStateM.bind_of_error f hm, EStateM.bind_of_error k hx]
      exact .inl rfl
  · unfold FollowsFrom
    rw [EStateM.bind_of_error f hm]
    exact .inr ⟨ht,s,hs,rfl⟩

theorem Follows.bind_map (h : Follows o tight m (v <$> y)) (hy : Forward y)
    (hf : ∀ c, Follows o tight (f (v c)) (k c)) : Follows o tight (m >>= f) (y >>= k) where
  forward := hy.bind fun c => (hf c).forward
  run r hr := (h.run r hr).bind_map hy fun c s hs =>
    (hf c).run s ((hy.of_ok hs).options_eq.trans hr)

end

theorem FollowsFrom.bind {r : Reader} (h : FollowsFrom r tight m x) (hx : Forward x)
    (hf : ∀ a s, x r = .ok a s → FollowsFrom s tight (f a) (g a)) :
    FollowsFrom r tight (m >>= f) (x >>= g) := by
  rw [← id_map x] at h
  exact FollowsFrom.bind_map (v := id) h hx hf

theorem Follows.bind (h : Follows o tight m x) (hf : ∀ a, Follows o tight (f a) (g a)) :
    Follows o tight (m >>= f) (x >>= g) where
  forward := h.forward.bind fun a => (hf a).forward
  run r hr := (h.run r hr).bind h.forward fun a s hs =>
    (hf a).run s ((h.forward.of_ok hs).options_eq.trans hr)

theorem Follows.map (v : α → β) (h : Follows o tight m x) : Follows o tight (v <$> m) (v <$> x) :=
  h.bind fun a => .pure (v a)

theorem Follows.ite {c : Prop} [Decidable c] {m' : Run α} {x' : Read α} (h : Follows o tight m x)
    (h' : Follows o tight m' x') : Follows o tight (if c then m else m') (if c then x else x') := by
  by_cases hc : c
  · rwa [if_pos hc, if_pos hc]
  · rwa [if_neg hc, if_neg hc]

theorem Follows.replicate (h : Follows o tight m x) (n : Nat) :
    Follows o tight (replicate m n) (Read.replicate n x) := by
  induction n with
  | zero => exact .pure []
  | succ n ih => exact h.bind fun a => ih.bind fun as => .pure (a :: as)

theorem Follows.distinct {m : Run Value} {x : Read Value} (h : Follows o tight m x)
    (view : Value → Value) (n : Nat) (collected : List Value) :
    Follows o tight (distinct view m n collected) (Read.distinct view x n collected) := by
  induction n generalizing collected with
  | zero => exact .pure collected
  | succ n ih =>
    refine h.bind fun v => ?_
    cases Value.insert? view v collected with
    | some collected => exact ih collected
    | none => exact .fault _

/-! ## Making room -/

section
variable {memory : Memory} {as : Schema} {n : Nat}

/-- Where room is given, the machine goes on as if none had been asked for. -/
theorem Follows.reserve (h : Follows o tight m x) (hn : ¬tight → memory as n ≤ mostRoom) :
    Follows o tight (reserve memory as n >>= fun _ => m) x := by
  refine ⟨h.forward,fun r hr => ?_⟩
  unfold Machine.reserve
  by_cases hm : memory as n ≤ mostRoom
  · rw [if_pos hm]
    exact h.run r hr
  · rw [if_neg hm]
    exact .inr ⟨Classical.not_not.mp fun ht => hm (hn ht),r,.refl r,rfl⟩

/-- A collection makes room between its length and its elements. -/
theorem Follows.counted {m : Nat → Run α} {x : Nat → Read α} (hm : ¬tight → memory.Gives o as)
    (h : ∀ n, Follows o tight (m n) (x n)) :
    Follows o tight
      (length >>= fun n => preallocation n >>= fun k => Machine.reserve memory as k >>= fun _ => m n)
      (Read.length >>= x) := by
  have hlength := forward_closed.length
  refine ⟨hlength.bind fun n => (h n).forward,fun r hr => ?_⟩
  refine FollowsFrom.bind (.inl (does_length r)) hlength fun n s hs => ?_
  have hn : n ≤ o.maxLength := hr ▸ Read.length_le hs
  have ho : s.options = o := (hlength.of_ok hs).options_eq.trans hr
  have hk : preallocation n s.cursor = .ok (o.preallocation n) s.cursor := by
    rw [← ho]
    rfl
  unfold FollowsFrom
  rw [EStateM.bind_of_ok _ hk]
  exact ((h n).reserve fun ht => hm ht n hn).run s ho

end

/-! ## Slots -/

/-- What a payload has taken is the difference of what is left before and behind it, which reading
does not raise. -/
theorem Follows.payload (h : Follows o tight m x) (slot : Nat) :
    Follows o tight (Slots.payload slot m) (RecordCodec.Slots.payload slot x) := by
  have hleft : Forward Read.remaining := Reader.Onward.refl
  refine ⟨forward_closed.payload h.forward,fun r hr => ?_⟩
  refine FollowsFrom.bind (.inl (does_length r)) forward_closed.length fun declared s hs => ?_
  have ho : s.options = o := (forward_closed.length.of_ok hs).options_eq.trans hr
  refine FollowsFrom.bind (.inl (does_remaining s)) hleft fun available t ht => ?_
  obtain ⟨rfl,rfl⟩ := Read.remaining_eq_ok.mp ht
  by_cases hd : s.remaining < declared
  · rw [if_pos hd, if_pos hd]
    exact .inl rfl
  rw [if_neg hd, if_neg hd]
  refine FollowsFrom.bind (h.run s ho) h.forward fun a u hu => ?_
  have hle := (h.forward.of_ok hu).remaining_le
  refine FollowsFrom.bind (.inl (does_remaining u)) hleft fun left w hw => ?_
  obtain ⟨rfl,rfl⟩ := Read.remaining_eq_ok.mp hw
  refine .inl ((EStateM.bind_of_ok _ (subtract_of_le hle u.cursor)).trans ?_)
  exact Does.ite (.pure a) (.fault _) u

theorem Follows.slot (h : Follows o tight m x) (s : RecordCodec.Slots) :
    Follows o tight ((Slots.of s).read m) ((fun p => (p.1,Slots.of p.2)) <$> s.read x) := by
  have hpresent := does_isPresent s.presence s.next
  cases hp : s.presence.isPresent s.next with
  | true =>
    rw [hp] at hpresent
    rw [RecordCodec.Slots.read_of_present hp, map_bind]
    exact ((h.payload s.next).bind fun a => .pure _).of_eq fun r =>
      EStateM.bind_of_ok _ (hpresent r)
  | false =>
    rw [hp] at hpresent
    rw [RecordCodec.Slots.read_of_absent hp]
    exact (Follows.pure _).of_eq fun r => EStateM.bind_of_ok _ (hpresent r)

end Machine
end RecordCodec
