import RecordCodec.Schema

/-! # Families of declared types

Declared types refer to each other by name, in circles too. Unfolding replaces each reference by its
declaration until it meets a type inside its own definition: that reference stays. At most as many
declarations as the family has are open at once, so the nesting of unfoldings is bounded by its
size.
-/
namespace RecordCodec

namespace Schema

mutual

def substitute (resolve : String → Schema) : Schema → Schema
  | unit => unit
  | scalar s => scalar s
  | text => text
  | duration => duration
  | sequence t => sequence (t.substitute resolve)
  | set t => set (t.substitute resolve)
  | map k v => map (k.substitute resolve) (v.substitute resolve)
  | array t n => array (t.substitute resolve) n
  | option t => option (t.substitute resolve)
  | tuple ts => tuple (substituteAll resolve ts)
  | pointer p t => pointer p (t.substitute resolve)
  | compatible t version => compatible (t.substitute resolve) version
  | struct name style fields => struct name style (substituteFields resolve fields)
  | enum name label alternatives => enum name label (substituteAlternatives resolve alternatives)
  | named name t => named name (t.substitute resolve)
  | reference name => resolve name
termination_by structural t => t

def substituteAll (resolve : String → Schema) : List Schema → List Schema
  | [] => []
  | t :: ts => t.substitute resolve :: substituteAll resolve ts
termination_by structural ts => ts

def substituteFields (resolve : String → Schema) : List Field → List Field
  | [] => []
  | .mandatory name t :: fs => .mandatory name (t.substitute resolve) :: substituteFields resolve fs
  | .compatible name version t :: fs =>
    .compatible name version (t.substitute resolve) :: substituteFields resolve fs
  | .skipped name t default :: fs =>
    .skipped name (t.substitute resolve) default :: substituteFields resolve fs
termination_by structural fs => fs

def substituteAlternatives (resolve : String → Schema) : List Alternative → List Alternative
  | [] => []
  | .mk name style fields :: as =>
    .mk name style (substituteFields resolve fields) :: substituteAlternatives resolve as
termination_by structural as => as

end
end Schema

abbrev Family := List (String × Schema)

namespace Family

/-- A schema unfolded inside the types `enclosing`, with at most `more` unfoldings in each other. -/
def unfoldWithin (family : Family) : (more : Nat) → (enclosing : List String) → Schema → Schema
  | 0, _, t => t
  | more + 1, enclosing, t =>
    t.substitute fun name =>
      if name ∈ enclosing then .reference name
      else
        match family.lookup name with
        | some declared => unfoldWithin family more (name :: enclosing) declared
        | none => .reference name

/-- A schema with every declared type in the place of its name, those inside their own definition
excepted. -/
def unfold (family : Family) (t : Schema) : Schema :=
  family.unfoldWithin family.length [] t

end Family
end RecordCodec
