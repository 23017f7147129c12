import RecordCodec.Proofs.Admission
import RecordCodec.Proofs.Limits
import RecordCodec.Proofs.Locality
import RecordCodec.Proofs.Utf8

/-! # Values within a limit

Whatever is read holds no text, sequence, set or map that is longer than the limit of the options,
however deep it stands. So a larger limit changes nothing but which records are refused.
-/
namespace RecordCodec

/-! ## Lengths within a limit -/

namespace Schema

mutual

/-- Whether every text, sequence, set and map in a value has a length within the limit. The length of
an array is that of its type, and a skipped field is not read: it has its default. -/
def bounded (limit : Nat) : Schema → Value → Bool
  | unit, .unit | option _, .absent => true
  | scalar s, v => s.admits v
  | text, .text s => (Text.Utf8.encode s).length ≤ limit
  | duration, v => v.isDuration
  | sequence t, .sequence vs | set t, .sequence vs => vs.length ≤ limit && vs.all (t.bounded limit)
  | map k v, .sequence es =>
    es.length ≤ limit && es.all (Value.isEntry (k.bounded limit) (v.bounded limit))
  | array t n, .sequence vs => vs.length == n && vs.all (t.bounded limit)
  | option t, .present v => t.bounded limit v
  | tuple ts, .record vs => componentsBounded limit ts vs
  | pointer _ t, v | named _ t, v => t.bounded limit v
  | struct _ _ fields, .record vs => fieldsBounded limit fields vs
  | enum _ _ alternatives, .variant index vs => alternativeBounded limit alternatives index vs
  | _, _ => false
termination_by structural t => t

def componentsBounded (limit : Nat) : List Schema → List Value → Bool
  | [], [] => true
  | t :: ts, v :: vs => t.bounded limit v && componentsBounded limit ts vs
  | _, _ => false
termination_by structural ts => ts

def fieldsBounded (limit : Nat) : List Field → List Value → Bool
  | [], [] => true
  | .mandatory _ t :: fs, v :: vs => t.bounded limit v && fieldsBounded limit fs vs
  | .compatible _ _ t :: fs, .present v :: vs => t.bounded limit v && fieldsBounded limit fs vs
  | .compatible .. :: fs, .absent :: vs => fieldsBounded limit fs vs
  | .skipped _ _ default :: fs, v :: vs => decide (v = default) && fieldsBounded limit fs vs
  | _, _ => false
termination_by structural fs => fs

def alternativeBounded (limit : Nat) : List Alternative → (index : Nat) → List Value → Bool
  | .mk _ _ fields :: _, 0, vs => fieldsBounded limit fields vs
  | _ :: as, index + 1, vs => alternativeBounded limit as index vs
  | [], _, _ => false
termination_by structural as => as

end
end Schema

/-! ## What is read under some options -/

theorem Value.perm_of_insert? {view : Value → Value} {v : Value} {l l' : List Value}
    (h : insert? view v l = some l') : l'.Perm (v :: l) := by
  induction l generalizing l' with
  | nil =>
    cases h
    exact .refl _
  | cons x xs ih =>
    unfold insert? at h
    split at h
    · cases h
      exact .refl _
    · cases h
    · obtain ⟨xs',hx,rfl⟩ := Option.map_eq_some_iff.mp h
      exact ((ih hx).cons x).trans (.swap v x xs)

namespace Read

variable {α β : Type} {o : Options} {x y : Read α} {f : α → Read β} {g : α → β} {p : α → Prop}
  {q : β → Prop}

/-- Under the options, which it keeps, the operation returns nothing but what has the property. -/
def ReturnsUnder (o : Options) (x : Read α) (p : α → Prop) : Prop :=
  ∀ r a s, r.options = o → x r = .ok a s → s.options = o ∧ p a

theorem ReturnsUnder.pure {a : α} (h : p a) : ReturnsUnder o (pure a) p := by
  intro r b s hr hs
  obtain ⟨rfl,rfl⟩ := EStateM.pure_eq_ok.mp hs
  exact ⟨hr,h⟩

theorem ReturnsUnder.throw (e : Error) (p : α → Prop) : ReturnsUnder o (throw e) p := by
  intro r a s hr hs
  cases hs

theorem ReturnsUnder.fault (e : Fault) (p : α → Prop) : ReturnsUnder o (fault e) p := .throw _ p

/-- A local operation keeps the options, and what it returns whatever the options are it returns
under these. -/
theorem Returns.under (h : Returns x p) (hl : Local x) (o : Options) : ReturnsUnder o x p := by
  intro r a s hr hs
  obtain ⟨b,hb⟩ := hl.passes hs
  exact ⟨hb.options_eq.trans hr,h r a s hs⟩

theorem ReturnsUnder.bind (h : ReturnsUnder o x p) (k : ∀ a, p a → ReturnsUnder o (f a) q) :
    ReturnsUnder o (x >>= f) q := by
  intro r b s hr hs
  obtain ⟨a,u,hu,hf⟩ := EStateM.bind_eq_ok.mp hs
  obtain ⟨ho,ha⟩ := h r a u hr hu
  exact k a ha u b s ho hf

theorem ReturnsUnder.map (h : ReturnsUnder o x p) (k : ∀ a, p a → q (g a)) :
    ReturnsUnder o (g <$> x) q := h.bind fun a ha => .pure (k a ha)

/-- What comes behind a local operation that nothing is known of. -/
theorem ReturnsUnder.after (hl : Local x) (k : ∀ a, ReturnsUnder o (f a) q) :
    ReturnsUnder o (x >>= f) q := ((Returns.any x).under hl o).bind fun a _ => k a

theorem ReturnsUnder.ite {c : Prop} [Decidable c] (h : ReturnsUnder o x p)
    (k : ReturnsUnder o y p) : ReturnsUnder o (if c then x else y) p := by
  by_cases hc : c
  · rwa [if_pos hc]
  · rwa [if_neg hc]

theorem returnsUnder_remaining (o : Options) : ReturnsUnder o remaining fun _ => True := by
  intro r n s hr hs
  obtain ⟨-,rfl⟩ := remaining_eq_ok.mp hs
  exact ⟨hr,trivial⟩

/-- A length is within the limit. -/
theorem returnsUnder_length (o : Options) : ReturnsUnder o length (· ≤ o.maxLength) := by
  refine ReturnsUnder.after (local_elementary.varint) fun n => ?_
  intro r k s hr hs
  obtain ⟨o',t,ho,hif⟩ := EStateM.bind_eq_ok.mp hs
  obtain ⟨rfl,rfl⟩ := options_eq_ok.mp ho
  subst hr
  by_cases hn : n ≤ r.options.maxLength
  · change (if n ≤ r.options.maxLength then Pure.pure n else Read.fault _ : Read Nat) r = _ at hif
    rw [if_pos hn] at hif
    obtain ⟨rfl,rfl⟩ := EStateM.pure_eq_ok.mp hif
    exact ⟨rfl,hn⟩
  · change (if n ≤ r.options.maxLength then Pure.pure n else Read.fault _ : Read Nat) r = _ at hif
    rw [if_neg hn] at hif
    cases hif

theorem returnsUnder_text (o : Options) :
    ReturnsUnder o text fun s => (Text.Utf8.encode s).length ≤ o.maxLength := by
  have htake (n : Nat) (hn : n ≤ o.maxLength) :
      ReturnsUnder o (take n) fun b => b.length ≤ o.maxLength := by
    have hlength : Returns (take n) fun b => b.length ≤ o.maxLength := by
      intro r b s hs
      obtain ⟨-,rfl⟩ := take_eq_ok.mp hs
      exact hn
    exact hlength.under (local_take n) o
  refine ((returnsUnder_length o).bind htake).bind fun b hb => ?_
  split
  · rename_i s hs
    exact .pure ((Text.Utf8.length_encode_le hs).trans hb)
  · exact .fault _ _

theorem returnsUnder_replicate {item : Read Value} {p : Value → Bool}
    (h : ReturnsUnder o item fun v => p v = true) (n : Nat) :
    ReturnsUnder o (replicate n item) fun vs => vs.length = n ∧ vs.all p = true := by
  induction n with
  | zero => exact .pure ⟨rfl,rfl⟩
  | succ n ih =>
    refine h.bind fun v hv => ih.bind fun vs hvs => .pure ⟨?_,?_⟩
    · rw [List.length_cons, hvs.1]
    · rw [List.all_cons, hv, hvs.2, Bool.and_self]

/-- A collection grows by one entry at a time. -/
theorem returnsUnder_distinct {item : Read Value} {p : Value → Bool} (view : Value → Value)
    (h : ReturnsUnder o item fun v => p v = true) (n : Nat) {collected : List Value}
    (hc : collected.all p = true) :
    ReturnsUnder o (distinct view item n collected) fun vs =>
      vs.length = n + collected.length ∧ vs.all p = true := by
  induction n generalizing collected with
  | zero => exact .pure ⟨(Nat.zero_add _).symm,hc⟩
  | succ n ih =>
    refine h.bind fun v hv => ?_
    split
    · rename_i collected' hi
      have hall : collected'.all p = true := by rw [Value.all_of_insert? hi p, hv, hc, Bool.and_self]
      have hlength : collected'.length = collected.length + 1 := (Value.perm_of_insert? hi).length_eq
      have hrest := ih hall
      rw [hlength, ← Nat.add_assoc, Nat.add_right_comm] at hrest
      exact hrest
    · exact .fault _ _

end Read

namespace Slots

open Read (Returns ReturnsUnder)

variable {o : Options} {item : Read Value} {p : Value → Prop}

theorem returnsUnder_payload (h : ReturnsUnder o item p) (slot : Nat) :
    ReturnsUnder o (payload slot item) p := by
  refine .after Read.local_length fun declared =>
    (Read.returnsUnder_remaining o).bind fun available _ => ?_
  have hitem : ReturnsUnder o (item >>= fun a => Read.remaining >>= fun left =>
      if available - left = declared then pure a
      else Read.fault (.payload slot declared (available - left))) p :=
    h.bind fun a ha => (Read.returnsUnder_remaining o).bind fun left _ =>
      .ite (.pure ha) (.fault _ _)
  have hthrow : ReturnsUnder o (throw (.truncated declared available) : Read PUnit) fun _ => True :=
    .throw _ _
  exact .ite (hthrow.bind fun _ _ => hitem) hitem

theorem returnsUnder_read (h : ReturnsUnder o item p) (s : Slots) :
    ReturnsUnder o (s.read item) fun found => ∀ v ∈ found.1, p v := by
  refine .ite ((returnsUnder_payload h s.next).bind fun a ha => .pure ?_) (.pure ?_)
  · rintro v ⟨⟩
    exact ha
  · rintro v ⟨⟩

end Slots

open Read (Returns ReturnsUnder)

namespace Schema

variable (o : Options)

mutual

/-- Values are read within the limit. -/
theorem returnsUnder_decode : ∀ t : Schema,
    ReturnsUnder o t.decode fun v => t.bounded o.maxLength v = true
  | unit => .pure rfl
  | scalar s => s.returns_read.under (Read.local_closed.scalar s) o
  | text => (Read.returnsUnder_text o).map fun _ h => decide_eq_true h
  | duration => Read.returns_duration.under duration.local_decode o
  | sequence t =>
    (Read.returnsUnder_length o).bind fun n hn =>
      (Read.returnsUnder_replicate (returnsUnder_decode t) n).map fun _ h =>
        Bool.and_eq_true_iff.mpr ⟨decide_eq_true (h.1 ▸ hn),h.2⟩
  | set t =>
    (Read.returnsUnder_length o).bind fun n hn =>
      (Read.returnsUnder_distinct id (returnsUnder_decode t) n rfl).map fun _ h =>
        Bool.and_eq_true_iff.mpr ⟨decide_eq_true (h.1 ▸ hn),h.2⟩
  | map k v =>
    (Read.returnsUnder_length o).bind fun n hn =>
      (Read.returnsUnder_distinct Value.key
        (p := Value.isEntry (k.bounded o.maxLength) (v.bounded o.maxLength))
        ((returnsUnder_decode k).bind fun key hk => (returnsUnder_decode v).bind fun value hv =>
          .pure (a := Value.entry key value) (Bool.and_eq_true_iff.mpr ⟨hk,hv⟩)) n rfl).map
        fun _ h => Bool.and_eq_true_iff.mpr ⟨decide_eq_true (h.1 ▸ hn),h.2⟩
  | array t n =>
    (Read.returnsUnder_replicate (returnsUnder_decode t) n).map fun _ h =>
      Bool.and_eq_true_iff.mpr ⟨beq_iff_eq.mpr h.1,h.2⟩
  | option t =>
    .after Read.local_bool fun _ => .ite ((returnsUnder_decode t).map fun _ h => h) (.pure rfl)
  | tuple ts => (returnsUnder_decodeComponents ts).map fun _ h => h
  | pointer _ t | named _ t => returnsUnder_decode t
  | compatible .. => .fault _ _
  | struct _ _ fields =>
    .after (Slots.local_start true) fun s => (returnsUnder_decodeFields fields s).map fun _ h => h
  | enum _ _ alternatives =>
    .after (Read.local_discriminant _) fun i =>
      (returnsUnder_decodeAlternative alternatives i (.fault _ _)).map fun _ h => h
  | reference _ => .throw _ _

theorem returnsUnder_decodeComponents : ∀ ts : List Schema,
    ReturnsUnder o (decodeComponents ts) fun vs => componentsBounded o.maxLength ts vs = true
  | [] => .pure rfl
  | t :: ts =>
    (returnsUnder_decode t).bind fun _ hv => (returnsUnder_decodeComponents ts).bind fun _ hvs =>
      .pure (Bool.and_eq_true_iff.mpr ⟨hv,hvs⟩)

theorem returnsUnder_decodeFields : ∀ (fs : List Field) (s : Slots),
    ReturnsUnder o (decodeFields fs s) fun vs => fieldsBounded o.maxLength fs vs = true
  | [], s => .after (Read.local_closed.finish s) fun _ => .pure rfl
  | .mandatory _ t :: fs, s =>
    (returnsUnder_decode t).bind fun _ hv => (returnsUnder_decodeFields fs s).bind fun _ hvs =>
      .pure (Bool.and_eq_true_iff.mpr ⟨hv,hvs⟩)
  | .compatible _ _ t :: fs, s =>
    (Slots.returnsUnder_read (returnsUnder_decode t) s).bind fun ⟨found,s⟩ hv =>
      (returnsUnder_decodeFields fs s).bind fun _ hvs =>
        match found, hv with
        | some v, hv => .pure (Bool.and_eq_true_iff.mpr ⟨hv v rfl,hvs⟩)
        | none, _ => .pure hvs
  | .skipped .. :: fs, s =>
    (returnsUnder_decodeFields fs s).bind fun _ h =>
      .pure (Bool.and_eq_true_iff.mpr ⟨decide_eq_true rfl,h⟩)

theorem returnsUnder_decodePayload : ∀ fs : List Field,
    ReturnsUnder o (decodePayload fs) fun vs => fieldsBounded o.maxLength fs vs = true
  | [] => .pure rfl
  | .mandatory _ t :: fs =>
    (returnsUnder_decode t).bind fun _ hv => (returnsUnder_decodePayload fs).bind fun _ hvs =>
      .pure (Bool.and_eq_true_iff.mpr ⟨hv,hvs⟩)
  | .compatible .. :: _ => .fault _ _
  | .skipped .. :: fs =>
    (returnsUnder_decodePayload fs).bind fun _ h =>
      .pure (Bool.and_eq_true_iff.mpr ⟨decide_eq_true rfl,h⟩)

theorem returnsUnder_decodeAlternative : ∀ (as : List Alternative) (i : Nat)
    {missing : Read (List Value)},
    ReturnsUnder o missing (fun vs => alternativeBounded o.maxLength as i vs = true) →
      ReturnsUnder o (decodeAlternative as i missing) fun vs =>
        alternativeBounded o.maxLength as i vs = true
  | [], _, _, h => h
  | .mk _ _ fields :: _, 0, _, _ => returnsUnder_decodePayload fields
  | .mk .. :: as, i + 1, _, h => returnsUnder_decodeAlternative as i h

end

theorem returnsUnder_decodeBody (t : Schema) (s : Slots) :
    ReturnsUnder o (t.decodeBody s) fun v => t.bounded o.maxLength v = true := by
  fun_induction decodeBody t s with
  | case1 name style fields s => exact (returnsUnder_decodeFields o fields s).map fun _ h => h
  | case2 p t s ih => exact ih
  | case3 name t s ih => exact ih
  | case4 t s =>
    refine (returnsUnder_decode o t).bind fun v hv => ?_
    exact .after (Read.local_closed.finish s) fun _ => .pure hv

end Schema

/-! ## Records within a limit -/

namespace Record

variable {o : Options} {t : Schema} {v : Value}

theorem returnsUnder_read (o : Options) (t : Schema) :
    ReturnsUnder o (read t) fun v => t.bounded o.maxLength v = true := by
  have hlayout : Read.Local (layout t) := by
    unfold layout
    split
    · exact .pure _
    · exact .throw _
  refine .after hlayout fun l => ?_
  refine .after (readHeader_of_closed Read.local_closed l) fun s => ?_
  exact t.returnsUnder_decodeBody o s

theorem bounded_of_deserialize {bytes : List UInt8} (h : deserialize o t bytes = .ok v) :
    t.bounded o.maxLength v = true := by
  obtain ⟨u,hu⟩ := run_eq_ok.mp h
  obtain ⟨w,s,hs,hk⟩ := EStateM.bind_eq_ok.mp hu
  obtain ⟨-,s',-,hp⟩ := EStateM.bind_eq_ok.mp hk
  obtain ⟨rfl,-⟩ := EStateM.pure_eq_ok.mp hp
  exact (returnsUnder_read o t _ _ _ rfl hs).2

theorem bounded_of_get {p : PartialRecord} {s : Selector} (h : p.get s t = .ok v) :
    t.bounded p.options.maxLength v = true := by
  obtain ⟨b,-,hb⟩ := Except.bind_eq_ok.mp h
  obtain ⟨u,hu⟩ := run_eq_ok.mp hb
  obtain ⟨w,r,hr,hk⟩ := EStateM.bind_eq_ok.mp hu
  obtain ⟨left,r',-,hp⟩ := EStateM.bind_eq_ok.mp hk
  by_cases hz : left = 0
  · rw [if_pos hz] at hp
    obtain ⟨rfl,-⟩ := EStateM.pure_eq_ok.mp hp
    exact (t.returnsUnder_decode p.options _ _ _ rfl hr).2
  · rw [if_neg hz] at hp
    cases hp

theorem options_of_extract {bytes : List UInt8} {selectors : List Selector} {p : PartialRecord}
    (h : extract o t bytes selectors = .ok p) : p.options = o := by
  obtain ⟨l,-,h⟩ := Except.bind_eq_ok.mp h
  obtain ⟨wanted,-,h⟩ := Except.bind_eq_ok.mp h
  obtain ⟨spans,-,h⟩ := Except.bind_eq_ok.mp h
  obtain rfl := Except.ok.inj h
  rfl

/-- What a limit does to a way of reading: values are within it, a larger limit reads the same ones,
and what only the larger one reads is a fault in data under the smaller. -/
structure Limits (within : Value → Bool) (smaller larger : Except Error Value) : Prop where
  kept : ∀ v, smaller = .ok v → larger = .ok v ∧ within v = true
  refused : ∀ v, larger = .ok v → smaller ≠ .ok v → ∃ f, smaller = .error (.invalidData f)

theorem Relaxes.limits {within : Value → Bool} {x x' : Except Error Value} (h : Relaxes x x')
    (hw : ∀ v, x = .ok v → within v = true) : Limits within x x' where
  kept v hv := by
    rcases h with ⟨f,rfl⟩ | rfl
    · cases hv
    · exact ⟨hv,hw v hv⟩
  refused v hv hn := by
    rcases h with hf | rfl
    · exact hf
    · exact absurd hv hn

/-- The limit on lengths is enforced wherever a record is read, as a whole or field by field, and
nothing else depends on it. -/
theorem limit_enforced {m m' : Nat} (h : m ≤ m') (o : Options) (t : Schema) (bytes : List UInt8) :
    Limits (t.bounded m) (deserialize { o with maxLength := m } t bytes)
      (deserialize { o with maxLength := m' } t bytes) ∧
    ∀ (selectors : List Selector) (s : Selector) (field : Schema),
      Limits (field.bounded m)
        (extract { o with maxLength := m } t bytes selectors >>= fun p => p.get s field)
        (extract { o with maxLength := m' } t bytes selectors >>= fun p => p.get s field) := by
  constructor
  · refine (deserialize_relaxes h o t bytes).limits ?_
    intro v hv
    exact bounded_of_deserialize hv
  · intro selectors s field
    refine (extract_get_relaxes h o t bytes selectors s field).limits ?_
    intro v hv
    obtain ⟨p,hp,hg⟩ := Except.bind_eq_ok.mp hv
    have hbounded := bounded_of_get hg
    rwa [options_of_extract hp] at hbounded

/-- Two lines of text, and stamps of a later release. -/
def postcard : Schema :=
  .struct "Postcard" .named
    [.mandatory "lines" (.array .text 2),
      .compatible "stamps" 1 (.pointer .box (.sequence (.option (.scalar .u8))))]

/-- A record of a postcard whose stamps take six bytes. -/
def postcardBytes : List UInt8 :=
  [91, 81, 75, 214, 1, 1, 2, 116, 111, 3, 121, 111, 117, 6, 4, 1, 7, 0, 0, 0]

/-- A limit of five forbids the payload of the stamps; one of three allows to get the lines. -/
theorem limit_enforced_postcard :
    (∃ f, deserialize { maxLength := 5 } postcard postcardBytes = .error (.invalidData f)) ∧
    ∃ v, (extract { maxLength := 3 } postcard postcardBytes [.name "lines"] >>= fun p =>
        p.get (.name "lines") (.array .text 2)) = .ok v ∧
      (extract { maxLength := 6 } postcard postcardBytes [.name "lines"] >>= fun p =>
        p.get (.name "lines") (.array .text 2)) = .ok v ∧
      (Schema.array .text 2).bounded 3 v = true := by
  obtain ⟨hwhole,-⟩ := limit_enforced (show 5 ≤ 6 by decide) {} postcard postcardBytes
  obtain ⟨-,hsingle⟩ := limit_enforced (show 3 ≤ 6 by decide) {} postcard postcardBytes
  constructor
  · refine hwhole.refused (.record [.sequence [.text "to", .text "you"], .present (.sequence
      [.present (.int 7), .absent, .absent, .absent])]) (by rfl) ?_
    intro hread
    cases hread
  · have hget : (extract { maxLength := 3 } postcard postcardBytes [.name "lines"] >>= fun p =>
        p.get (.name "lines") (.array .text 2)) = .ok (.sequence [.text "to", .text "you"]) := by rfl
    exact ⟨_,hget,(hsingle [.name "lines"] (.name "lines") (.array .text 2)).kept _ hget⟩

/-- Lines behind a greeting that is not read. -/
def letter : Schema :=
  .struct "Letter" .named
    [.skipped "greeting" .text (.text "hello"), .mandatory "lines" (.sequence .text)]

/-- The limit does not reach a skipped field, which has a longer text by default, or keeps one where the
letter is read over another. -/
theorem deserialize_letter :
    let signed := Value.record [.text "hello", .sequence []]
    let bytes := [222, 192, 231, 209, 0]
    deserialize { maxLength := 0 } letter bytes = .ok signed ∧
      deserializeInto { maxLength := 0 } .unique letter bytes signed = (.ok (), signed) ∧
      Schema.text.bounded 0 (.text "hello") = false := by
  refine ⟨?_,?_,?_⟩
  · rfl
  · rfl
  · decide

end Record
end RecordCodec
