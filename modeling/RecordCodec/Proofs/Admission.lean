import RecordCodec.Proofs.Closure
import RecordCodec.Proofs.Numbers
import RecordCodec.Proofs.Typing

/-! # What is read is of the type

Every value that the decoder of a type returns is one of the type, whatever the bytes: numbers fit
their width, arrays have their length, and all parts are of their types.
-/
namespace RecordCodec

open Bytes (LittleEndian.decode LittleEndian.range LittleEndian.signed)

namespace Bytes

theorem LittleEndian.decode_lt (b : List UInt8) : decode b < range b.length := by
  induction b with
  | nil => exact Nat.one_pos
  | cons x b ih =>
    have hx : x.toNat < 256 := x.toNat_lt
    simp only [decode, List.length_cons, range]
    omega

theorem LittleEndian.signed_bounds {width n : Nat} (h : n < range width) :
    -(range width : Nat) ≤ 2 * signed width n ∧ 2 * signed width n < (range width : Nat) := by
  unfold signed
  split <;> omega

end Bytes

theorem Scalar.fits_of_lt {width n : Nat} (h : n < LittleEndian.range width) :
    admits.fits width (n : Int) = true :=
  decide_eq_true ⟨Int.natCast_nonneg n,Int.ofNat_lt.mpr h⟩

theorem Value.isDuration_of_lt {secs nanos : Nat} (hs : secs < LittleEndian.range 8)
    (hn : nanos < 1000000000) : (record [.int secs, .int nanos]).isDuration = true := by
  have hfit : decide (0 ≤ (nanos : Int) ∧ (nanos : Int) < 1000000000) = true :=
    decide_eq_true (by omega)
  simp only [isDuration, Scalar.fits_of_lt hs, hfit, Bool.and_self]

theorem Value.all_of_insert? {view : Value → Value} {v : Value} {l l' : List Value}
    (h : insert? view v l = some l') (p : Value → Bool) : l'.all p = (p v && l.all p) := by
  induction l generalizing l' with
  | nil =>
    cases h
    rfl
  | cons x xs ih =>
    unfold insert? at h
    split at h
    · cases h
      rfl
    · cases h
    · obtain ⟨xs',hx,rfl⟩ := Option.map_eq_some_iff.mp h
      rw [List.all_cons, List.all_cons, ih hx, Bool.and_left_comm]

namespace Read

variable {α β : Type} {x y : Read α} {f : α → Read β} {g : α → β} {p : α → Prop} {q : β → Prop}

/-- Whatever the operation returns has the property. -/
def Returns (x : Read α) (p : α → Prop) : Prop := ∀ r a s, x r = .ok a s → p a

theorem Returns.pure {a : α} (h : p a) : Returns (pure a) p := by
  intro r b s hs
  obtain ⟨rfl,-⟩ := EStateM.pure_eq_ok.mp hs
  exact h

theorem Returns.fault (e : Fault) (p : α → Prop) : Returns (fault e) p := by
  intro r a s hs
  cases hs

theorem Returns.throw (e : Error) (p : α → Prop) : Returns (throw e) p := by
  intro r a s hs
  cases hs

theorem Returns.any (x : Read α) : Returns x fun _ => True := fun _ _ _ _ => trivial

theorem Returns.bind (h : Returns x p) (k : ∀ a, p a → Returns (f a) q) : Returns (x >>= f) q := by
  intro r b s hs
  obtain ⟨a,u,hu,hf⟩ := EStateM.bind_eq_ok.mp hs
  exact k a (h r a u hu) u b s hf

/-- What an operation returns that asks nothing of its first part. -/
theorem Returns.after (x : Read α) (k : ∀ a, Returns (f a) q) : Returns (x >>= f) q :=
  (Returns.any x).bind fun a _ => k a

theorem Returns.map (h : Returns x p) (k : ∀ a, p a → q (g a)) : Returns (g <$> x) q :=
  h.bind fun a ha => .pure (k a ha)

theorem Returns.ite {c : Prop} [Decidable c] (h : c → Returns x p) (k : ¬c → Returns y p) :
    Returns (if c then x else y) p := by
  by_cases hc : c
  · rw [if_pos hc]
    exact h hc
  · rw [if_neg hc]
    exact k hc

theorem returns_nat (width : Nat) : Returns (nat width) (· < LittleEndian.range width) := by
  intro r n s hs
  obtain ⟨b,t,ht,hp⟩ := EStateM.bind_eq_ok.mp hs
  obtain ⟨rfl,-⟩ := EStateM.pure_eq_ok.mp hp
  obtain ⟨-,rfl⟩ := take_eq_ok.mp ht
  exact Bytes.LittleEndian.decode_lt b

theorem returns_duration : Returns duration fun v => v.isDuration = true :=
  (returns_nat 8).bind fun _ hs => .after (nat 4) fun _ =>
    .ite (fun hn => .pure (Value.isDuration_of_lt hs hn)) fun _ => .fault _ _

theorem returns_replicate {item : Read Value} {p : Value → Bool}
    (h : Returns item fun v => p v = true) (n : Nat) :
    Returns (replicate n item) fun vs => vs.length = n ∧ vs.all p = true := by
  induction n with
  | zero => exact .pure ⟨rfl,rfl⟩
  | succ n ih =>
    refine h.bind fun v hv => ih.bind fun vs hvs => .pure ⟨?_,?_⟩
    · rw [List.length_cons, hvs.1]
    · rw [List.all_cons, hv, hvs.2]
      rfl

theorem returns_distinct {item : Read Value} {p : Value → Bool} (view : Value → Value)
    (h : Returns item fun v => p v = true) (n : Nat) {collected : List Value}
    (hc : collected.all p = true) :
    Returns (distinct view item n collected) fun vs => vs.all p = true := by
  induction n generalizing collected with
  | zero => exact .pure hc
  | succ n ih =>
    refine h.bind fun v hv => ?_
    split
    · rename_i collected' hi
      apply ih
      rw [Value.all_of_insert? hi p, hv, hc]
      rfl
    · exact .fault _ _

end Read

open Read (Returns)

namespace Scalar

theorem returns_unsigned {s : Scalar} {width : Nat}
    (h : ∀ i, s.admits (.int i) = admits.fits width i) :
    Returns (read.unsigned width) fun v => s.admits v = true := by
  refine .bind (p := fun i => admits.fits width i = true) ?_ fun i hi => .pure ((h i).trans hi)
  exact (Read.returns_nat width).bind fun _ hn => .pure (fits_of_lt hn)

theorem returns_signed {s : Scalar} {width : Nat}
    (h : ∀ i, s.admits (.int i) = admits.fitsSigned width i) :
    Returns (read.signed width) fun v => s.admits v = true :=
  (Read.returns_nat width).map fun _ hn =>
    (h _).trans (decide_eq_true (Bytes.LittleEndian.signed_bounds hn))

theorem returns_read (s : Scalar) : Returns s.read fun v => s.admits v = true := by
  cases s with
  | bool => exact (Returns.any _).map fun _ _ => rfl
  | char => exact (Returns.any _).map fun _ _ => rfl
  | f32 | f64 => exact (Read.returns_nat _).map fun _ hn => decide_eq_true hn
  | u8 | u16 | u32 | u64 | u128 => exact returns_unsigned fun _ => rfl
  | i8 | i16 | i32 | i64 | i128 => exact returns_signed fun _ => rfl

end Scalar

theorem Slots.returns_read {s : Slots} {item : Read Value} {p : Value → Prop}
    (h : Returns item p) : Returns (s.read item) fun found => ∀ v ∈ found.1, p v := by
  have hp (slot : Nat) : Returns (payload slot item) p := by
    refine .after _ fun declared => .after _ fun available => ?_
    have hi : Returns (do
        let a ← item
        let consumed := available - (← Read.remaining)
        if consumed = declared then pure a else Read.fault (.payload slot declared consumed)) p :=
      h.bind fun a ha => .after _ fun _ => .ite (fun _ => .pure ha) fun _ => .fault _ _
    by_cases hd : available < declared
    · rw [if_pos hd]
      intro r a t ht
      cases ht
    · rw [if_neg hd]
      exact hi
  refine .ite (fun _ => (hp s.next).bind fun a ha => .pure ?_) fun _ => .pure ?_
  · rintro v ⟨⟩
    exact ha
  · rintro v ⟨⟩

namespace Schema

mutual

theorem returns_decode : ∀ t : Schema, Returns t.decode fun v => t.admits v = true
  | unit => .pure rfl
  | scalar s => s.returns_read
  | text => (Returns.any _).map fun _ _ => rfl
  | duration => Read.returns_duration
  | sequence t =>
    .after _ fun n => (Read.returns_replicate (returns_decode t) n).map fun _ h => h.2
  | set t =>
    .after _ fun n => (Read.returns_distinct id (returns_decode t) n rfl).map fun _ h => h
  | map k v =>
    .after _ fun n =>
      (Read.returns_distinct Value.key
        (p := Value.isEntry k.admits v.admits)
        ((returns_decode k).bind fun key hk => (returns_decode v).bind fun value hv =>
          .pure (a := Value.entry key value) (Bool.and_eq_true_iff.mpr ⟨hk,hv⟩)) n rfl).map
        fun _ h => h
  | array t n =>
    (Read.returns_replicate (returns_decode t) n).map fun _ h =>
      Bool.and_eq_true_iff.mpr ⟨beq_iff_eq.mpr h.1,h.2⟩
  | option t =>
    .after _ fun _ => .ite (fun _ => (returns_decode t).map fun _ h => h) fun _ => .pure rfl
  | tuple ts => (returns_decodeComponents ts).map fun _ h => h
  | pointer _ t | named _ t => returns_decode t
  | compatible .. => .fault _ _
  | struct _ _ fields => .after _ fun s => (returns_decodeFields fields s).map fun _ h => h
  | enum _ _ alternatives =>
    .after _ fun i => (returns_decodeAlternative alternatives i (.fault _ _)).map fun _ h => h
  | reference _ => .throw _ _

theorem returns_decodeComponents : ∀ ts : List Schema,
    Returns (decodeComponents ts) fun vs => componentsAdmit ts vs = true
  | [] => .pure rfl
  | t :: ts =>
    (returns_decode t).bind fun _ hv => (returns_decodeComponents ts).bind fun _ hvs =>
      .pure (Bool.and_eq_true_iff.mpr ⟨hv,hvs⟩)

theorem returns_decodeFields : ∀ (fs : List Field) (s : Slots),
    Returns (decodeFields fs s) fun vs => fieldsAdmit fs vs = true
  | [], _ => .after _ fun _ => .pure rfl
  | .mandatory _ t :: fs, s =>
    (returns_decode t).bind fun _ hv => (returns_decodeFields fs s).bind fun _ hvs =>
      .pure (Bool.and_eq_true_iff.mpr ⟨hv,hvs⟩)
  | .compatible _ _ t :: fs, _ =>
    (Slots.returns_read (returns_decode t)).bind fun ⟨found,s⟩ hv =>
      (returns_decodeFields fs s).bind fun _ hvs =>
        match found, hv with
        | some v, hv => .pure (Bool.and_eq_true_iff.mpr ⟨hv v rfl,hvs⟩)
        | none, _ => .pure hvs
  | .skipped .. :: fs, s => (returns_decodeFields fs s).bind fun _ h => .pure h

theorem returns_decodePayload : ∀ fs : List Field,
    Returns (decodePayload fs) fun vs => fieldsAdmit fs vs = true
  | [] => .pure rfl
  | .mandatory _ t :: fs =>
    (returns_decode t).bind fun _ hv => (returns_decodePayload fs).bind fun _ hvs =>
      .pure (Bool.and_eq_true_iff.mpr ⟨hv,hvs⟩)
  | .compatible .. :: _ => .fault _ _
  | .skipped .. :: fs => (returns_decodePayload fs).bind fun _ h => .pure h

theorem returns_decodeAlternative : ∀ (as : List Alternative) (i : Nat)
    {missing : Read (List Value)},
    Returns missing (fun vs => alternativeAdmits as i vs = true) →
      Returns (decodeAlternative as i missing) fun vs => alternativeAdmits as i vs = true
  | [], _, _, h => h
  | .mk _ _ fields :: _, 0, _, _ => returns_decodePayload fields
  | .mk .. :: as, i + 1, _, h => returns_decodeAlternative as i h

end

/-- The body of a record is a value of its type. -/
theorem returns_decodeBody (t : Schema) (s : Slots) :
    Returns (t.decodeBody s) fun v => t.admits v = true := by
  fun_induction decodeBody t s with
  | case1 name style fields s => exact (returns_decodeFields fields s).map fun _ h => h
  | case2 p t s ih => exact ih
  | case3 name t s ih => exact ih
  | case4 t s => exact (returns_decode t).bind fun _ hv => .after _ fun _ => .pure hv

end Schema
end RecordCodec
