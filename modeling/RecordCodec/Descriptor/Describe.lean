import RecordCodec.Descriptor
import RecordCodec.Error
import RecordCodec.Schema.Family

/-! # Descriptions of schemas

A description walks through a schema and keeps the names of the types that it is inside of: a full
name, with its path and arguments, stands for one type alone. A type met again inside its own
description has no finite shape. Compatible fields are admitted only directly in a struct, behind
its mandatory fields, with versions that do not decrease, and at most as many as a presence bitmap
has slots.
-/
namespace RecordCodec

/-- A description in progress; the state holds the names of the enclosing types, innermost first. -/
abbrev Describe := EStateM Error (List String)

namespace Describe

/-- Describes the parts of a type, which is left again whatever comes of them. -/
def within {α : Type} (typeName : String) (parts : Describe α) : Describe α := fun enclosing =>
  if typeName ∈ enclosing then .error (.cyclicType typeName) enclosing
  else
    match parts (typeName :: enclosing) with
    | .ok a inner => .ok a inner.tail
    | .error e inner => .error e inner.tail

def lift {α : Type} : Except Error α → Describe α
  | .ok a => pure a
  | .error e => throw e

def outcome {α : Type} (x : Describe α) (enclosing : List String) : Except Error α :=
  match x enclosing with
  | .ok a _ => .ok a
  | .error e _ => .error e

end Describe

def maxAlternatives : Nat := 0xFFFFFFFF

namespace Describe

def aggregate (typeName : String) (extensible : Bool) (fields : Describe (List FieldDescriptor)) :
    Describe Descriptor := do
  let fields ← within typeName fields
  pure (.aggregate typeName fields extensible)

def variant (typeName : String) (alternatives : Describe (List AlternativeDescriptor)) :
    Describe Descriptor := do
  let alternatives ← within typeName alternatives
  if maxAlternatives < alternatives.length then throw (.invalidShape typeName .alternatives)
  pure (.variant typeName alternatives)

def refuse (typeName : String) : Describe Descriptor := throw (.cyclicType typeName)

end Describe

structure FieldList where
  owner : String
  admitsCompatible : Bool
  fields : List FieldDescriptor := []

namespace FieldList

def lastVersion (l : FieldList) : Option Nat := (l.fields.filterMap (·.version)).getLast?

def pushMandatory (l : FieldList) (name : String) (shape : Descriptor) : Except Error FieldList :=
  if Descriptor.anyCompatible l.fields then .error (.invalidShape l.owner (.late name))
  else .ok { l with fields := l.fields ++ [⟨name, shape, none⟩] }

/-- Why a compatible field cannot follow, if it cannot. -/
def compatibleFault (l : FieldList) (name : String) (version : Nat) : Option ShapeFault :=
  if !l.admitsCompatible then some (.inAlternative name)
  else
    match l.lastVersion.filter (version < ·) with
    | some preceding => some (.decreasing name version preceding)
    | none =>
      if maxSlots ≤ (Descriptor.compatibleFields l.fields).length then some .crowded else none

def pushCompatible (l : FieldList) (name : String) (version : Nat) (shape : Descriptor) :
    Except Error FieldList :=
  match l.compatibleFault name version with
  | some fault => .error (.invalidShape l.owner fault)
  | none => .ok { l with fields := l.fields ++ [⟨name, shape, some version⟩] }

end FieldList

def durationFields : List FieldDescriptor :=
  [⟨"secs", .scalar .u64, none⟩, ⟨"nanos", .scalar .u32, none⟩]

namespace Schema

open Describe (aggregate variant)

section

variable (resolve : String → Describe Descriptor)

mutual

/-- Describes a schema; what a reference stands for is described by `resolve`. -/
def describeBy : Schema → Describe Descriptor
  | unit => pure .unit
  | scalar s => pure (.scalar s)
  | text => pure .text
  | duration => aggregate duration.name false (pure durationFields)
  | sequence t => do pure (.sequence (← t.describeBy))
  | set t => do pure (.set (← t.describeBy))
  | map k v => do
    let key ← k.describeBy
    let value ← v.describeBy
    pure (.map key value)
  | array t length => do pure (.array (← t.describeBy) length)
  | option t => do pure (.optional (← t.describeBy))
  | tuple ts => aggregate (tuple ts).name false (describeComponentsBy 0 ts)
  | pointer _ t => t.describeBy
  | compatible t version => do
    let _ ← t.describeBy
    throw (.invalidShape (compatible t version).name .misplaced)
  | struct typeName _ fields =>
    aggregate typeName true (describeFieldsBy ⟨typeName, true, []⟩ fields)
  | enum typeName _ alternatives =>
    variant typeName (describeAlternativesBy typeName alternatives)
  | named typeName (compatible t _) => do
    let _ ← t.describeBy
    throw (.invalidShape typeName .misplaced)
  | named _ t => t.describeBy
  | reference typeName => resolve typeName
termination_by structural t => t

def describeComponentsBy (index : Nat) : List Schema → Describe (List FieldDescriptor)
  | [] => pure []
  | t :: ts => do
    let shape ← t.describeBy
    let rest ← describeComponentsBy (index + 1) ts
    pure (⟨toString index, shape, none⟩ :: rest)
termination_by structural ts => ts

/-- The fields of a struct or an alternative behind those that are described. -/
def describeFieldsBy (before : FieldList) : List Field → Describe (List FieldDescriptor)
  | [] => pure before.fields
  | .mandatory name t :: fs => do
    let shape ← t.describeBy
    describeFieldsBy (← Describe.lift (before.pushMandatory name shape)) fs
  | .compatible name version t :: fs => do
    let shape ← t.describeBy
    describeFieldsBy (← Describe.lift (before.pushCompatible name version shape)) fs
  | .skipped .. :: fs => describeFieldsBy before fs
termination_by structural fs => fs

def describeAlternativesBy (typeName : String) :
    List Alternative → Describe (List AlternativeDescriptor)
  | [] => pure []
  | .mk name _ fields :: as => do
    let described ← describeFieldsBy ⟨typeName, false, []⟩ fields
    let rest ← describeAlternativesBy typeName as
    pure (⟨name, described⟩ :: rest)
termination_by structural as => as

end

end

/-- Describes a schema outside any family: a reference in it has no other meaning than a type inside
its own definition. -/
def describe : Schema → Describe Descriptor := describeBy Describe.refuse

def describeComponents : Nat → List Schema → Describe (List FieldDescriptor) :=
  describeComponentsBy Describe.refuse

def describeFields : FieldList → List Field → Describe (List FieldDescriptor) :=
  describeFieldsBy Describe.refuse

def describeAlternatives : String → List Alternative → Describe (List AlternativeDescriptor) :=
  describeAlternativesBy Describe.refuse

def descriptor (t : Schema) : Except Error Descriptor := t.describe.outcome []

end Schema

namespace Family

/-- Describes a schema, and what a reference in it stands for as it is declared, with at most `more`
declarations in each other. The types around tell a declaration that is met inside itself. -/
def describe (family : Family) : (more : Nat) → Schema → Describe Descriptor
  | 0, t => t.describeBy fun _ => pure .unit
  | more + 1, t =>
    t.describeBy fun name =>
      match family.lookup name with
      | some declared => describe family more declared
      | none => Describe.refuse name

/-- The descriptor of a schema outside every other. Each name is declared once, so a declaration is
met inside itself before there are more in each other than the family has. -/
def descriptor (family : Family) (t : Schema) : Except Error Descriptor :=
  (family.describe (family.length + 1) t).outcome []

end Family
end RecordCodec
