import RecordCodec.Descriptor
import RecordCodec.Presence

/-! # Stepping over values

A reader is moved behind a value of which only the descriptor is known. Values of a fixed width are
passed at once, and so are runs of them; the others are walked through.
-/
namespace RecordCodec.Descriptor

/-- Passes the width of a value at once if it is fixed, and walks through the value otherwise. -/
def passOr (width : Option Nat) (walk : Read Unit) : Read Unit :=
  match width with
  | some w => do let _ ← Read.take w
  | none => walk

def passRun (width : Option Nat) (count : Nat) (element : Read Unit) : Read Unit :=
  match width with
  | some w =>
    match checked (count * w) with
    | some total => do let _ ← Read.take total
    | none => Read.fault (.run count w)
  | none => Read.times count element

mutual

def skip : Descriptor → Read Unit
  | unit => do let _ ← Read.take 0
  | scalar s => do let _ ← Read.take s.width
  | text => do let _ ← Read.take (← Read.length)
  | sequence element | set element => do
    passRun element.fixedWidth (← Read.length) element.skip
  | map key value => do
    Read.times (← Read.length) do
      key.skip
      value.skip
  | array element count =>
    passOr (array element count).fixedWidth (passRun element.fixedWidth count element.skip)
  | optional payload => do
    if ← Read.bool then payload.skip
  | variant typeName alternatives => do
    let index ← Read.discriminant alternatives.length
    skipAlternative alternatives index
      (Read.fault (.discriminant index typeName alternatives.length))
  | aggregate typeName fields extensible =>
    passOr (aggregate typeName fields extensible).fixedWidth do
      let slots ← Slots.start extensible
      skipMandatory fields
      slots.finish
termination_by structural d => d

def skipMandatory : List FieldDescriptor → Read Unit
  | [] => pure ()
  | ⟨_, shape, none⟩ :: fs => do
    shape.skip
    skipMandatory fs
  | ⟨_, _, some _⟩ :: fs => skipMandatory fs
termination_by structural fs => fs

def skipPayload : List FieldDescriptor → Read Unit
  | [] => pure ()
  | ⟨_, shape, _⟩ :: fs => do
    shape.skip
    skipPayload fs
termination_by structural fs => fs

/-- Steps over the fields of the alternative at `index`, or fails as told if there is none. -/
def skipAlternative : List AlternativeDescriptor → (index : Nat) → Read Unit → Read Unit
  | [], _, missing => missing
  | ⟨_, fields⟩ :: _, 0, _ => skipPayload fields
  | _ :: as, index + 1, missing => skipAlternative as index missing
termination_by structural as => as

end
end RecordCodec.Descriptor
