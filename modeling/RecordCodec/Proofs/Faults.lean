import RecordCodec.Proofs.Closure
import RecordCodec.Proofs.Reading
import RecordCodec.Proofs.Shape

/-! # What reading a value fails with

The decoder of a well-formed type fails with the data alone: bytes are missing, or some do not stand
for a value. That a field is absent, or that a type is not the one asked for, is none of its errors.
Nor is it one of searching a record for single fields.
-/
namespace RecordCodec

namespace EStateM

variable {ε σ α β : Type}

theorem bind_eq_error {x : EStateM ε σ α} {f : α → EStateM ε σ β} {s t : σ} {e : ε}
    (h : (x >>= f) s = .error e t) :
    x s = .error e t ∨ ∃ a u, x s = .ok a u ∧ f a u = .error e t := by
  change (match x s with | .ok a u => f a u | .error e u => .error e u) = _ at h
  cases hx : x s with
  | ok a u =>
    rw [hx] at h
    exact .inr ⟨a,u,rfl,h⟩
  | error e' u =>
    rw [hx] at h
    cases h
    exact .inl rfl

end EStateM

namespace Read

variable {α β : Type} {x : Read α} {f : α → Read β}

/-- Each failure of the operation lies in the data. -/
def FailsOnData (x : Read α) : Prop := ∀ r e s, x r = .error e s → e.LiesInData

theorem FailsOnData.pure (a : α) : FailsOnData (pure a) := by
  intro r e s hs
  cases hs

theorem FailsOnData.bind (h : FailsOnData x) (k : ∀ a, FailsOnData (f a)) :
    FailsOnData (x >>= f) := by
  intro r e s hs
  rcases EStateM.bind_eq_error hs with hx | ⟨a,u,-,hf⟩
  · exact h r e s hx
  · exact k a u e s hf

theorem failsOnData_elementary : Elementary FailsOnData where
  pure := .pure
  bind := .bind
  fail he _ _ _ := by
    rintro ⟨⟩
    exact he
  take n r e s hs := by
    unfold take at hs
    split at hs
    · cases hs
    · cases hs
      trivial

theorem failsOnData_remaining : FailsOnData remaining := fun _ _ _ h => nomatch h

theorem failsOnData_sequential : Sequential FailsOnData where
  toElementary := failsOnData_elementary
  length := failsOnData_elementary.length_of_options fun _ _ _ h => nomatch h

theorem failsOnData_locating : Locating FailsOnData where
  toSequential := failsOnData_sequential
  position _ _ _ h := nomatch h
  rest _ _ _ h := nomatch h
  seek p r e s hs := by
    unfold seek at hs
    split at hs
    · cases hs
    · cases hs
      trivial

theorem FailsOnData.map (g : α → β) (h : FailsOnData x) : FailsOnData (g <$> x) :=
  failsOnData_elementary.map g h

end Read

open Read (Elementary FailsOnData failsOnData_elementary failsOnData_sequential)

/-- A slot's payload fails with the data if its contents do. -/
theorem Slots.failsOnData_read {α : Type} {item : Read α} (s : Slots) (h : FailsOnData item) :
    FailsOnData (s.read item) :=
  failsOnData_elementary.slot s
    (failsOnData_sequential.payload_of_remaining Read.failsOnData_remaining _ h)

namespace Schema

mutual

/-- Reading a value of a well-formed type fails with the data alone. -/
theorem failsOnData_decode : ∀ t : Schema, t.WellFormed → FailsOnData t.decode
  | unit, _ => .pure _
  | scalar s, _ => failsOnData_elementary.scalar s
  | text, _ => failsOnData_sequential.text.map _
  | duration, _ => failsOnData_elementary.duration
  | sequence t, hw =>
    failsOnData_sequential.length.bind fun n =>
      (failsOnData_elementary.replicate (failsOnData_decode t hw) n).map _
  | set t, hw =>
    failsOnData_sequential.length.bind fun n =>
      (failsOnData_elementary.distinct id (failsOnData_decode t hw) n []).map _
  | map k v, hw =>
    failsOnData_sequential.length.bind fun n =>
      (failsOnData_elementary.distinct Value.key
        ((failsOnData_decode k hw.1).bind fun _ =>
          (failsOnData_decode v hw.2).bind fun _ => .pure _) n []).map _
  | array t n, hw => (failsOnData_elementary.replicate (failsOnData_decode t hw) n).map _
  | option t, hw =>
    failsOnData_elementary.bool.bind fun _ =>
      Elementary.ite ((failsOnData_decode t hw).map _) (.pure _)
  | tuple ts, hw => (failsOnData_decodeComponents ts hw).map _
  | pointer _ t, hw | named _ t, hw => failsOnData_decode t hw
  | compatible .., hw | reference _, hw => hw.elim
  | struct _ _ fields, hw =>
    (failsOnData_elementary.start true).bind fun s => (failsOnData_decodeFields fields s hw.2.2).map _
  | enum _ _ alternatives, hw =>
    (failsOnData_elementary.nat _).bind fun i =>
      (failsOnData_decodeAlternative alternatives i hw.2 (failsOnData_elementary.fault _)).map _

theorem failsOnData_decodeComponents : ∀ ts : List Schema, AllWellFormed ts →
    FailsOnData (decodeComponents ts)
  | [], _ => .pure _
  | t :: ts, hw =>
    (failsOnData_decode t hw.1).bind fun _ =>
      (failsOnData_decodeComponents ts hw.2).bind fun _ => .pure _

theorem failsOnData_decodeFields : ∀ (fs : List Field) (s : Slots), FieldsWellFormed fs →
    FailsOnData (decodeFields fs s)
  | [], s, _ => (failsOnData_sequential.finish s).bind fun _ => .pure _
  | .mandatory _ t :: fs, s, hw =>
    (failsOnData_decode t hw.1).bind fun _ =>
      (failsOnData_decodeFields fs s hw.2).bind fun _ => .pure _
  | .compatible _ _ t :: fs, s, hw =>
    (s.failsOnData_read (failsOnData_decode t hw.1)).bind fun p =>
      (failsOnData_decodeFields fs p.2 hw.2).bind fun _ => .pure _
  | .skipped .. :: fs, s, hw => (failsOnData_decodeFields fs s hw).bind fun _ => .pure _

theorem failsOnData_decodePayload : ∀ fs : List Field, FieldsWellFormed fs →
    FailsOnData (decodePayload fs)
  | [], _ => .pure _
  | .mandatory _ t :: fs, hw =>
    (failsOnData_decode t hw.1).bind fun _ =>
      (failsOnData_decodePayload fs hw.2).bind fun _ => .pure _
  | .compatible .. :: _, _ => failsOnData_elementary.fault _
  | .skipped .. :: fs, hw => (failsOnData_decodePayload fs hw).bind fun _ => .pure _

theorem failsOnData_decodeAlternative : ∀ (as : List Alternative) (i : Nat)
    {missing : Read (List Value)}, AlternativesWellFormed as → FailsOnData missing →
      FailsOnData (decodeAlternative as i missing)
  | [], _, _, _, h => h
  | .mk _ _ fields :: _, 0, _, hw, _ => failsOnData_decodePayload fields hw.2.1
  | .mk .. :: as, i + 1, _, hw, h => failsOnData_decodeAlternative as i hw.2.2 h

end

end Schema
end RecordCodec
