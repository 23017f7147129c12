import RecordCodec.Body.Decode
import RecordCodec.Body.Encode
import RecordCodec.Body.Skip
import RecordCodec.Layout
import RecordCodec.Proofs.Numbers
import RecordCodec.Proofs.Shape

/-! # Discriminants select alternatives

The number of an alternative takes the fewest bytes that hold the numbers of all. What writes it,
what reads it, what steps over it and what plans it count the same alternatives, each in its own
list, and so agree on its width. A number that is read and that no alternative has is refused before
anything behind it is looked at.
-/
namespace RecordCodec

open Bytes (LittleEndian.decode LittleEndian.encode LittleEndian.range)

/-! ## Widths -/

theorem discriminantWidth_cases (n : Nat) :
    n ≤ 256 ∧ discriminantWidth n = 1 ∨
    (256 < n ∧ n ≤ 65536) ∧ discriminantWidth n = 2 ∨
    65536 < n ∧ discriminantWidth n = 4 := by
  unfold discriminantWidth
  by_cases h : n ≤ 256
  · exact .inl ⟨h,if_pos h⟩
  · by_cases h' : n ≤ 65536
    · refine .inr (.inl ⟨⟨Nat.lt_of_not_le h,h'⟩,?_⟩)
      rw [if_neg h, if_pos h']
    · refine .inr (.inr ⟨Nat.lt_of_not_le h',?_⟩)
      rw [if_neg h, if_neg h']

/-- No narrower width holds the last of the numbers. -/
theorem discriminantWidth_le {n width : Nat} (hw : width = 1 ∨ width = 2 ∨ width = 4)
    (h : ∀ i < n, i < 256 ^ width) : discriminantWidth n ≤ width := by
  obtain ⟨-,he⟩ | ⟨⟨hl,-⟩,he⟩ | ⟨hl,he⟩ := discriminantWidth_cases n
  · omega
  · have hlast := h 256 hl
    rcases hw with rfl | rfl | rfl <;> omega
  · have hlast := h 65536 hl
    rcases hw with rfl | rfl | rfl <;> omega

/-! ## Writing -/

namespace Emission

variable {index n : Nat}

theorem discriminant_eq (index : Nat) (hn : n ≤ 0x100000000) :
    discriminant index n = if index < n then .ok (.nat (discriminantWidth n) index)
      else .error (.invalidData (.unwritableDiscriminant index n)) := by
  unfold discriminant
  by_cases h : index < n
  · rw [if_pos h, if_pos ⟨h,Read.lt_discriminant_range h hn⟩]
  · rw [if_neg h, if_neg (fun hc => h hc.1)]

theorem discriminant_eq_ok {e : Emission} (h : discriminant index n = .ok e) :
    index < n ∧ e = .nat (discriminantWidth n) index := by
  unfold discriminant at h
  dsimp only at h
  split at h
  · rename_i hc
    cases h
    exact ⟨hc.1,rfl⟩
  · cases h

theorem length_nat (width n : Nat) : (nat width n).toBytes.length = width :=
  Bytes.LittleEndian.length_encode width n

end Emission

namespace Sink

/-- Puts the number of an alternative into a sink. -/
def emitDiscriminant (index alternatives : Nat) : EStateM Error Sink Unit := do
  let e ← MonadExcept.ofExcept (Emission.discriminant index alternatives)
  emit e

theorem emitDiscriminant_eq {n : Nat} (index : Nat) (hn : n ≤ 0x100000000) (sink : Sink) :
    emitDiscriminant index n sink =
      if index < n then emit (.nat (discriminantWidth n) index) sink
      else .error (.invalidData (.unwritableDiscriminant index n)) sink := by
  unfold emitDiscriminant
  rw [Emission.discriminant_eq index hn]
  by_cases h : index < n
  · rw [if_pos h, if_pos h]
    rfl
  · rw [if_neg h, if_neg h]
    rfl

end Sink

namespace Schema

/-- A value of an enum opens with the number of its alternative. -/
theorem encode_enum_eq_ok {typeName label : String} {alternatives : List Alternative} {index : Nat}
    {vs : List Value} {es : List Emission}
    (h : (enum typeName label alternatives).encode (.variant index vs) = .ok es) :
    index < alternatives.length ∧
      ∃ later, es = .nat (discriminantWidth alternatives.length) index :: later := by
  obtain ⟨e,he,h⟩ := Except.bind_eq_ok.mp h
  obtain ⟨later,-,h⟩ := Except.bind_eq_ok.mp h
  obtain ⟨hlt,rfl⟩ := Emission.discriminant_eq_ok he
  exact ⟨hlt,later,(Except.ok.inj h).symm⟩

end Schema

/-! ## Reading -/

namespace Read

variable {α : Type} {n : Nat} {r s : Reader} {b : List UInt8}

theorem discriminant_of_passes (h : r.Passes b s) (hb : b.length = discriminantWidth n) :
    discriminant n r = .ok (LittleEndian.decode b) s :=
  EStateM.bind_of_ok _ (take_eq_ok.mpr ⟨h,hb⟩)

theorem discriminant_of_short (h : r.remaining < discriminantWidth n) :
    discriminant n r = .error (.truncated (discriminantWidth n) r.remaining) r :=
  EStateM.bind_of_error _ (dif_neg (Nat.not_le.mpr h))

/-- What the operation does with a discriminant among `n` alternatives: bytes that are missing are
told, a number that no alternative has is refused right behind it, and any other leaves the rest to
its alternative. -/
structure Selects (x : Read α) (n : Nat) (owner : String) (alternative : Fin n → Read α) :
    Prop where
  short : ∀ r, r.remaining < discriminantWidth n →
    x r = .error (.truncated (discriminantWidth n) r.remaining) r
  refused : ∀ r s b, r.Passes b s → b.length = discriminantWidth n → n ≤ LittleEndian.decode b →
    x r = .error (.invalidData (.discriminant (LittleEndian.decode b) owner n)) s
  selected : ∀ r s b, r.Passes b s → b.length = discriminantWidth n →
    ∀ h : LittleEndian.decode b < n, x r = alternative ⟨LittleEndian.decode b,h⟩ s

theorem selects_of_bind {owner : String} {alternative : Fin n → Read α} {f : Nat → Read α}
    (hrefused : ∀ i, n ≤ i → f i = fault (.discriminant i owner n))
    (hselected : ∀ i : Fin n, f i = alternative i) :
    Selects (discriminant n >>= f) n owner alternative where
  short := fun r h => EStateM.bind_of_error f (discriminant_of_short h)
  refused := by
    intro r s b hp hb h
    rw [EStateM.bind_of_ok f (discriminant_of_passes hp hb), hrefused _ h]
    rfl
  selected := by
    intro r s b hp hb h
    rw [EStateM.bind_of_ok f (discriminant_of_passes hp hb)]
    exact congrFun (hselected ⟨_,h⟩) s

end Read

open Read (Gives Selects)

namespace Schema

theorem decodeAlternative_of_lt {as : List Alternative} {i : Nat} (h : i < as.length)
    (missing : Read (List Value)) :
    decodeAlternative as i missing = decodePayload as[i].fields := by
  induction as generalizing i with
  | nil => cases h
  | cons a as ih =>
    obtain ⟨name,style,fields⟩ := a
    cases i with
    | zero => rfl
    | succ i => exact ih (Nat.lt_of_succ_lt_succ h)

theorem decodeAlternative_of_le {as : List Alternative} {i : Nat} (h : as.length ≤ i)
    (missing : Read (List Value)) : decodeAlternative as i missing = missing := by
  induction as generalizing i with
  | nil => rfl
  | cons a as ih =>
    obtain ⟨name,style,fields⟩ := a
    cases i with
    | zero => cases h
    | succ i => exact ih (Nat.le_of_succ_le_succ h)

theorem selects_decode (typeName label : String) (alternatives : List Alternative) :
    Selects (enum typeName label alternatives).decode alternatives.length label
      fun i => .variant i <$> decodePayload alternatives[i].fields := by
  refine Read.selects_of_bind ?_ ?_
  · intro i hi
    rw [decodeAlternative_of_le hi]
    rfl
  · intro i
    rw [decodeAlternative_of_lt i.isLt]
    rfl

end Schema

namespace Descriptor

theorem skipAlternative_of_lt {as : List AlternativeDescriptor} {i : Nat} (h : i < as.length)
    (missing : Read Unit) : skipAlternative as i missing = skipPayload as[i].fields := by
  induction as generalizing i with
  | nil => cases h
  | cons a as ih =>
    cases i with
    | zero => rfl
    | succ i => exact ih (Nat.lt_of_succ_lt_succ h)

theorem skipAlternative_of_le {as : List AlternativeDescriptor} {i : Nat} (h : as.length ≤ i)
    (missing : Read Unit) : skipAlternative as i missing = missing := by
  induction as generalizing i with
  | nil => rfl
  | cons a as ih =>
    cases i with
    | zero => cases h
    | succ i => exact ih (Nat.le_of_succ_le_succ h)

theorem selects_skip (typeName : String) (alternatives : List AlternativeDescriptor) :
    Selects (variant typeName alternatives).skip alternatives.length typeName
      fun i => skipPayload alternatives[i].fields := by
  refine Read.selects_of_bind ?_ ?_
  · exact fun i hi => skipAlternative_of_le hi _
  · exact fun i => skipAlternative_of_lt i.isLt _

end Descriptor

namespace Schema

/-- The number of an alternative is written exactly if there is one, in the fewest bytes that hold
those of all, and is read back whatever follows. The decoder of an enum, what steps over its values
and what plans them agree on the width, wherever the enum is described, and refuse exactly the
numbers that no alternative has. -/
theorem discriminants_agree (index : Nat) {n : Nat} (hn : n ≤ 0x100000000)
    (typeName label : String) (alternatives : List Alternative) :
    (∀ sink, Sink.emitDiscriminant index n sink =
      if index < n then Sink.emit (.nat (discriminantWidth n) index) sink
      else .error (.invalidData (.unwritableDiscriminant index n)) sink) ∧
    (Emission.nat (discriminantWidth n) index).toBytes.length = discriminantWidth n ∧
    (index < n → ∀ o, Gives o (Read.discriminant n)
      (Emission.nat (discriminantWidth n) index).toBytes (.ok index)) ∧
    (discriminantWidth n ∈ [1, 2, 4] ∧
      ∀ width ∈ [1, 2, 4], (∀ i < n, i < 256 ^ width) → discriminantWidth n ≤ width) ∧
    (∀ vs es, (enum typeName label alternatives).encode (.variant index vs) = .ok es →
      index < alternatives.length ∧
        ∃ later, es = .nat (discriminantWidth alternatives.length) index :: later) ∧
    Selects (enum typeName label alternatives).decode alternatives.length label
      (fun i => .variant i <$> decodePayload alternatives[i].fields) ∧
    ∀ e e' d, (enum typeName label alternatives).describe e = .ok d e' →
      Encoding.of d = .variant (discriminantWidth alternatives.length) ∧
      ∃ ds, d = .variant typeName ds ∧ ds.length = alternatives.length ∧
        Selects d.skip ds.length typeName fun i => Descriptor.skipPayload ds[i].fields := by
  refine ⟨Sink.emitDiscriminant_eq index hn,Emission.length_nat _ _,
    fun h o => Read.gives_discriminant o h hn,⟨?_,?_⟩,fun vs es => encode_enum_eq_ok,
    selects_decode typeName label alternatives,?_⟩
  · obtain ⟨-,he⟩ | ⟨-,he⟩ | ⟨-,he⟩ := discriminantWidth_cases n <;> simp [he]
  · intro width hw h
    exact discriminantWidth_le (by simpa using hw) h
  · intro e e' d hd
    obtain ⟨rfl,-⟩ := describe_eq_ok _ hd
    have hlength := length_alternativeShapes alternatives
    refine ⟨?_,alternativeShapes alternatives,rfl,hlength,Descriptor.selects_skip _ _⟩
    rw [← hlength]
    rfl

/-- The first number that takes two bytes, and an enum without alternatives. -/
theorem discriminants_agree_never :
    (Sink.emitDiscriminant 256 257 (.buffer []) = .ok () (.buffer [0, 1]) ∧
      Sink.emitDiscriminant 257 257 (.buffer []) =
        .error (.invalidData (.unwritableDiscriminant 257 257)) (.buffer [])) ∧
    ∃ s, (enum "Never" "Never" []).decode (.ofBytes {} [0, 7]) =
      .error (.invalidData (.discriminant 0 "Never" 0)) s ∧ s.rest = [7] := by
  have hn : 257 ≤ 0x100000000 := by decide
  obtain ⟨hwrite,-⟩ := discriminants_agree 256 hn "Never" "Never" []
  obtain ⟨hrefuse,-,-,-,-,hdecode,-⟩ := discriminants_agree 257 hn "Never" "Never" []
  obtain ⟨s,hs⟩ := Reader.exists_passes (r := .ofBytes {} [0, 7]) (b := [0]) ⟨[7],rfl⟩
  refine ⟨⟨hwrite _,hrefuse _⟩,s,hdecode.refused _ s [0] hs rfl (Nat.zero_le _),?_⟩
  have hrest : [0, 7] = [0] ++ s.rest := hs.rest_eq
  exact (List.cons.inj hrest).2.symm

end Schema
end RecordCodec
