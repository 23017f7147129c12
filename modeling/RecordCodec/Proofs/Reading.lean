import RecordCodec.Reader

/-! # What reading operations do with the bytes in front of them

An operation *comes to an outcome on some bytes* when it does so on every reader that has these
bytes in front of it, whatever stands behind them. An operation is *local* when each of its
successes is of this kind. Both are closed under sequencing, so that what a composed operation does
follows from what its parts do.
-/
namespace RecordCodec

namespace Except

variable {ε α β : Type}

theorem bind_eq_ok {x : Except ε α} {f : α → Except ε β} {b : β} :
    x >>= f = .ok b ↔ ∃ a, x = .ok a ∧ f a = .ok b := by
  cases x with
  | ok a =>
    constructor
    · exact fun h => ⟨a,rfl,h⟩
    · rintro ⟨_,⟨⟩,h⟩
      exact h
  | error e =>
    constructor
    · rintro ⟨⟩
    · rintro ⟨_,⟨⟩,_⟩

end Except

namespace EStateM

variable {ε σ α β : Type}

theorem bind_eq_ok {x : EStateM ε σ α} {f : α → EStateM ε σ β} {s t : σ} {b : β} :
    (x >>= f) s = .ok b t ↔ ∃ a u, x s = .ok a u ∧ f a u = .ok b t := by
  change (match x s with | .ok a u => f a u | .error e u => .error e u) = _ ↔ _
  cases x s with
  | ok a u =>
    constructor
    · exact fun h => ⟨a,u,rfl,h⟩
    · rintro ⟨_,_,h,hf⟩
      cases h
      exact hf
  | error e u => simp

theorem bind_of_ok {x : EStateM ε σ α} (f : α → EStateM ε σ β) {s u : σ} {a : α}
    (h : x s = .ok a u) : (x >>= f) s = f a u := by
  change (match x s with | .ok a u => f a u | .error e u => .error e u) = _
  rw [h]

theorem bind_of_error {x : EStateM ε σ α} (f : α → EStateM ε σ β) {s u : σ} {e : ε}
    (h : x s = .error e u) : (x >>= f) s = .error e u := by
  change (match x s with | .ok a u => f a u | .error e u => .error e u) = _
  rw [h]

@[simp] theorem pure_eq_ok {a b : α} {s t : σ} :
    (pure a : EStateM ε σ α) s = .ok b t ↔ a = b ∧ s = t := by
  change EStateM.Result.ok a s = _ ↔ _
  simp

end EStateM

namespace Reader

theorem ext {r s : Reader} (hb : r.bytes = s.bytes) (hp : r.position = s.position)
    (ho : r.options = s.options) : r = s := by
  obtain ⟨bytes,position,rest,options,hle,hrest⟩ := r
  obtain ⟨bytes',position',rest',options',hle',hrest'⟩ := s
  dsimp only at hb hp ho
  subst hb hp ho hrest hrest'
  rfl

/-- `s` is `r` moved behind `bytes`. -/
structure Passes (r : Reader) (bytes : List UInt8) (s : Reader) : Prop where
  rest_eq : r.rest = bytes ++ s.rest
  position_eq : s.position = r.position + bytes.length
  bytes_eq : s.bytes = r.bytes
  options_eq : s.options = r.options

theorem Passes.refl (r : Reader) : r.Passes [] r := ⟨rfl,rfl,rfl,rfl⟩

theorem Passes.trans {r s t : Reader} {b c : List UInt8} (h : r.Passes b s) (k : s.Passes c t) :
    r.Passes (b ++ c) t where
  rest_eq := by rw [h.rest_eq, k.rest_eq, List.append_assoc]
  position_eq := by rw [k.position_eq, h.position_eq, List.length_append, Nat.add_assoc]
  bytes_eq := k.bytes_eq.trans h.bytes_eq
  options_eq := k.options_eq.trans h.options_eq

theorem Passes.unique {r s t : Reader} {b c : List UInt8} (h : r.Passes b s) (k : r.Passes c t)
    (hl : b.length = c.length) : s = t :=
  Reader.ext (h.bytes_eq.trans k.bytes_eq.symm)
    (by rw [h.position_eq, k.position_eq, hl]) (h.options_eq.trans k.options_eq.symm)

theorem Passes.isPrefix {r s : Reader} {b : List UInt8} (h : r.Passes b s) : b <+: r.rest :=
  ⟨s.rest,h.rest_eq.symm⟩

/-- The bytes that are passed are those that are no longer left. -/
theorem Passes.remaining_eq {r s : Reader} {b : List UInt8} (h : r.Passes b s) :
    r.remaining = b.length + s.remaining := by
  unfold remaining
  rw [h.rest_eq, List.length_append]

theorem advance_passes (r : Reader) (n : Nat) (h : n ≤ r.rest.length) :
    r.Passes (r.rest.take n) (r.advance n h) where
  rest_eq := (List.take_append_drop n r.rest).symm
  position_eq := by simp [advance, List.length_take, Nat.min_eq_left h]
  bytes_eq := rfl
  options_eq := rfl

/-- Every reader with some bytes in front of it can be moved behind them. -/
theorem exists_passes {r : Reader} {b : List UInt8} (h : b <+: r.rest) : ∃ s, r.Passes b s := by
  have hle := h.length_le
  refine ⟨r.advance b.length hle,?_⟩
  have hp := r.advance_passes b.length hle
  rwa [← List.prefix_iff_eq_take.mp h] at hp

end Reader

namespace Read

variable {α β γ : Type}

/-- Under the given options the operation comes to the outcome on the bytes: on every reader that
has them in front of it, it passes exactly them and returns the value, or fails with the error. -/
def Gives (o : Options) (operation : Read α) (bytes : List UInt8) (outcome : Except Error α) :
    Prop :=
  ∀ r : Reader, r.options = o → bytes <+: r.rest →
    match outcome with
    | .ok a => ∃ s, operation r = .ok a s ∧ r.Passes bytes s
    | .error e => ∃ s, operation r = .error e s

/-- Each success of the operation is one on the bytes that it passes. -/
def Local (operation : Read α) : Prop :=
  ∀ r a s, operation r = .ok a s →
    ∃ bytes, r.Passes bytes s ∧ Gives r.options operation bytes (.ok a)

section Outcomes
variable {o : Options} {x : Read α} {f : α → Read β} {b c : List UInt8}

theorem Gives.ok {a : α} (h : Gives o x b (.ok a)) {r : Reader} (ho : r.options = o)
    (hb : b <+: r.rest) : ∃ s, x r = .ok a s ∧ r.Passes b s := h r ho hb

/-- On a reader that can be moved behind the bytes, a success moves it there. -/
theorem Gives.of_passes {a : α} (h : Gives o x b (.ok a)) {r s : Reader} (ho : r.options = o)
    (hs : r.Passes b s) : x r = .ok a s := by
  obtain ⟨t,ht,hp⟩ := h.ok ho hs.isPrefix
  rw [ht, hp.unique hs rfl]

/-- Two successes on readings of the same bytes are the same, and pass the same bytes. -/
theorem Gives.unique {a a' : α} (h : Gives o x b (.ok a)) (k : Gives o x c (.ok a'))
    {y z : List UInt8} (he : b ++ y = c ++ z) : a = a' ∧ b = c ∧ y = z := by
  let r := Reader.ofBytes o (b ++ y)
  obtain ⟨s,hs,hp⟩ := h.ok (r := r) rfl ⟨y,rfl⟩
  obtain ⟨t,ht,hq⟩ := k.ok (r := r) rfl ⟨z,he.symm⟩
  obtain ⟨rfl,rfl⟩ : a = a' ∧ s = t := by simpa using hs.symm.trans ht
  have hl : b.length = c.length := by
    have hb := hp.position_eq
    have hc := hq.position_eq
    omega
  exact ⟨rfl,(List.append_inj he hl).1,(List.append_inj he hl).2⟩

theorem Gives.pure (o : Options) (a : α) : Gives o (pure a) [] (.ok a) :=
  fun r _ _ => ⟨r,rfl,Reader.Passes.refl r⟩

theorem Gives.fault (o : Options) (b : List UInt8) (e : Fault) :
    Gives o (fault (α := α) e) b (.error (.invalidData e)) := fun r _ _ => ⟨r,rfl⟩

/-- An operation that fails on some bytes fails on them and more. -/
theorem Gives.error_append {e : Error} (h : Gives o x b (.error e)) (c : List UInt8) :
    Gives o x (b ++ c) (.error e) :=
  fun r ho hb => h r ho ((List.prefix_append b c).trans hb)

/-- A success is followed by what comes behind it. -/
theorem Gives.bind_ok {a : α} {out : Except Error β} (h : Gives o x b (.ok a))
    (k : Gives o (f a) c out) : Gives o (x >>= f) (b ++ c) out := by
  intro r ho hb
  obtain ⟨s,hs,hp⟩ := h.ok ho ((List.prefix_append b c).trans hb)
  have hc : c <+: s.rest := by
    rw [hp.rest_eq] at hb
    exact (List.prefix_append_right_inj b).mp hb
  have hk := k s (hp.options_eq.trans ho) hc
  rw [EStateM.bind_of_ok f hs]
  cases out with
  | ok b' =>
    obtain ⟨t,ht,hq⟩ := hk
    exact ⟨t,ht,hp.trans hq⟩
  | error e => exact hk

theorem Gives.bind_nil {a : α} {out : Except Error β} (h : Gives o x b (.ok a))
    (k : Gives o (f a) [] out) : Gives o (x >>= f) b out := by
  have hk := h.bind_ok k
  rwa [List.append_nil] at hk

theorem Gives.bind_error {e : Error} (h : Gives o x b (.error e)) :
    Gives o (x >>= f) b (.error e) := by
  intro r ho hb
  obtain ⟨s,hs⟩ := h r ho hb
  exact ⟨s,EStateM.bind_of_error f hs⟩

/-- Sequencing: the outcomes are sequenced, the bytes appended. -/
theorem Gives.bind {out : Except Error α} {next : α → Except Error β} (h : Gives o x b out)
    (k : ∀ a, Gives o (f a) c (next a)) : Gives o (x >>= f) (b ++ c) (out >>= next) := by
  cases out with
  | ok a => exact h.bind_ok (k a)
  | error e => exact (h.bind_error (f := f)).error_append c

theorem Gives.map {out : Except Error α} (g : α → β) (h : Gives o x b out) :
    Gives o (g <$> x) b (g <$> out) := by
  have hk : Gives o (x >>= fun a => Pure.pure (g a)) (b ++ []) (out >>= fun a => .ok (g a)) :=
    h.bind fun a => Gives.pure o (g a)
  rw [List.append_nil] at hk
  cases out <;> exact hk

theorem Gives.map_ok {a : α} {a' : β} (g : α → β) (h : Gives o x b (.ok a)) (hg : g a = a') :
    Gives o (g <$> x) b (.ok a') := hg ▸ h.map g

end Outcomes

section Locality
variable {x : Read α} {f : α → Read β} {b : List UInt8}

theorem Local.passes (h : Local x) {r s : Reader} {a : α} (hs : x r = .ok a s) :
    ∃ b, r.Passes b s := by
  obtain ⟨b,hb,-⟩ := h r a s hs
  exact ⟨b,hb⟩

/-- Whatever a success passes, it is a success on these bytes. -/
theorem Local.gives (h : Local x) {r s : Reader} {a : α} (hs : x r = .ok a s) (hb : r.Passes b s) :
    Gives r.options x b (.ok a) := by
  obtain ⟨c,hc,hg⟩ := h r a s hs
  have hl : c.length = b.length := by
    have hn := hc.position_eq
    have hm := hb.position_eq
    omega
  have he : c ++ s.rest = b ++ s.rest := hc.rest_eq.symm.trans hb.rest_eq
  rwa [(List.append_inj he hl).1] at hg

theorem Local.bind (h : Local x) (k : ∀ a, Local (f a)) : Local (x >>= f) := by
  intro r b t ht
  obtain ⟨a,s,hs,hf⟩ := EStateM.bind_eq_ok.mp ht
  obtain ⟨u,hu,hx⟩ := h r a s hs
  obtain ⟨w,hw,hy⟩ := k a s b t hf
  rw [hu.options_eq] at hy
  exact ⟨u ++ w,hu.trans hw,hx.bind_ok hy⟩

theorem Local.pure (a : α) : Local (Pure.pure a) := by
  intro r b s hs
  obtain ⟨rfl,rfl⟩ := EStateM.pure_eq_ok.mp hs
  exact ⟨[],Reader.Passes.refl r,Gives.pure _ a⟩

theorem Local.map (g : α → β) (h : Local x) : Local (g <$> x) := h.bind fun a => .pure (g a)

theorem Local.fault (e : Fault) : Local (fault (α := α) e) := by
  intro r a s hs
  cases hs

theorem Local.throw (e : Error) : Local (throw e : Read α) := by
  intro r a s hs
  cases hs

theorem Local.ite {p : Prop} [Decidable p] {y : Read α} (hx : Local x) (hy : Local y) :
    Local (if p then x else y) := by
  by_cases hp : p
  · rwa [if_pos hp]
  · rwa [if_neg hp]

end Locality

section Correspondence
variable {places : Reader → Reader → Prop} {errors : Error → Error → Prop} {x y : Read α}
  {f g : α → Read β} {r r' : Reader}

/-- Outcomes that correspond: the same value, or errors that do, at places that do. -/
inductive Corresponds (places : Reader → Reader → Prop) (errors : Error → Error → Prop) :
    (p q : EStateM.Result Error Reader α) → Prop
  | ok (a : α) {s s' : Reader} (h : places s s') : Corresponds places errors (.ok a s) (.ok a s')
  | error {e e' : Error} {s s' : Reader} (h : places s s') (he : errors e e') :
    Corresponds places errors (.error e s) (.error e' s')

theorem Corresponds.bind (h : Corresponds places errors (x r) (y r'))
    (k : ∀ a s s', places s s' → Corresponds places errors (f a s) (g a s')) :
    Corresponds places errors ((x >>= f) r) ((y >>= g) r') := by
  generalize hx : x r = p, hy : y r' = q at h
  cases h with
  | ok a hs =>
    rw [EStateM.bind_of_ok f hx, EStateM.bind_of_ok g hy]
    exact k a _ _ hs
  | error hs he =>
    rw [EStateM.bind_of_error f hx, EStateM.bind_of_error g hy]
    exact .error hs he

end Correspondence

/-! ## Primitive operations -/

theorem remaining_eq_ok {r s : Reader} {n : Nat} :
    remaining r = .ok n s ↔ r.remaining = n ∧ r = s := by
  change EStateM.Result.ok r.remaining r = _ ↔ _
  simp

theorem position_eq_ok {r s : Reader} {n : Nat} :
    position r = .ok n s ↔ r.position = n ∧ r = s := by
  change EStateM.Result.ok r.position r = _ ↔ _
  simp

theorem options_eq_ok {r s : Reader} {o : Options} :
    options r = .ok o s ↔ r.options = o ∧ r = s := by
  change EStateM.Result.ok r.options r = _ ↔ _
  simp

theorem take_eq_ok {n : Nat} {r s : Reader} {b : List UInt8} :
    take n r = .ok b s ↔ r.Passes b s ∧ b.length = n := by
  unfold take
  constructor
  · intro h
    split at h
    · rename_i hn
      obtain ⟨rfl,rfl⟩ : r.rest.take n = b ∧ r.advance n hn = s := by simpa using h
      exact ⟨r.advance_passes n hn,by simp [hn]⟩
    · cases h
  · rintro ⟨h,rfl⟩
    have hn : b.length ≤ r.rest.length := h.isPrefix.length_le
    have ha := r.advance_passes b.length hn
    rw [← List.prefix_iff_eq_take.mp h.isPrefix] at ha
    rw [dif_pos hn, ← List.prefix_iff_eq_take.mp h.isPrefix, ha.unique h rfl]

theorem gives_take (o : Options) (b : List UInt8) : Gives o (take b.length) b (.ok b) := by
  intro r _ hb
  obtain ⟨s,hs⟩ := Reader.exists_passes hb
  exact ⟨s,take_eq_ok.mpr ⟨hs,rfl⟩,hs⟩

theorem local_take (n : Nat) : Local (take n) := by
  intro r b s hs
  obtain ⟨hp,rfl⟩ := take_eq_ok.mp hs
  exact ⟨b,hp,gives_take _ b⟩

theorem gives_options (o : Options) : Gives o options [] (.ok o) := by
  intro r ho _
  exact ⟨r,by rw [← ho]; rfl,Reader.Passes.refl r⟩

theorem local_options : Local options := by
  intro r a s hs
  obtain ⟨rfl,rfl⟩ := options_eq_ok.mp hs
  exact ⟨[],Reader.Passes.refl r,gives_options _⟩

end Read
end RecordCodec
