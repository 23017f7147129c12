/-! # Compatible fields

What a compatible field holds for the program that owns the struct: a payload, or nothing if no
record has brought one.
-/
namespace RecordCodec

/-- A field that a release may lack, with the version that introduced it. -/
structure Compatible (α : Type) (version : Nat := 0) where
  payload : Option α := none
deriving DecidableEq, Repr

namespace Compatible

variable {α : Type} {version : Nat}

def of (a : α) : Compatible α version := ⟨some a⟩

def absent : Compatible α version := ⟨none⟩

def isPresent (c : Compatible α version) : Bool := c.payload.isSome

def introduced (_ : Compatible α version) : Nat := version

/-- What the field held, and the field that holds `a`. -/
def set (c : Compatible α version) (a : α) : Option α × Compatible α version := (c.payload, of a)

def take (c : Compatible α version) : Option α × Compatible α version := (c.payload, absent)

def modify (c : Compatible α version) (f : α → α) : Compatible α version := ⟨c.payload.map f⟩

/-- An absent field comes before every present one. -/
def compare [Ord α] (c d : Compatible α version) : Ordering :=
  match c.payload, d.payload with
  | none, none => .eq
  | none, some _ => .lt
  | some _, none => .gt
  | some a, some b => Ord.compare a b

end Compatible
end RecordCodec
