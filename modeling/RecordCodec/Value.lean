/-! # Values

The values that records hold, whatever their schema. Sets and maps are kept as sequences without
repetition in ascending order, maps as sequences of entries, so that equal collections are equal
values.
-/
namespace RecordCodec

/-- A value. Numbers of every width are integers; floats are their bits. -/
inductive Value where
  | unit
  | bool (b : Bool)
  | int (i : Int)
  | float (bits : Nat)
  | char (c : Char)
  | text (s : String)
  | absent
  | present (v : Value)
  | sequence (items : List Value)
  | record (fields : List Value)
  | variant (index : Nat) (fields : List Value)
deriving Repr

namespace Value

def rank : Value → Nat
  | unit => 0
  | bool _ => 1
  | int _ => 2
  | float _ => 3
  | char _ => 4
  | text _ => 5
  | absent => 6
  | present _ => 7
  | sequence _ => 8
  | record _ => 9
  | variant .. => 10

mutual

/-- The order of values: numbers and characters by value, text by its characters, an absent value
before every present one, alternatives by index, and all that has parts by its first parts that
differ. -/
def compare : Value → Value → Ordering
  | bool a, bool b => Ord.compare a b
  | int a, int b => Ord.compare a b
  | float a, float b => Ord.compare a b
  | char a, char b => Ord.compare a b
  | text a, text b => Ord.compare a b
  | present a, present b => compare a b
  | sequence as, sequence bs => compareAll as bs
  | record as, record bs => compareAll as bs
  | variant i as, variant j bs => (Ord.compare i j).then (compareAll as bs)
  | a, b => Ord.compare a.rank b.rank
termination_by structural a => a

def compareAll : List Value → List Value → Ordering
  | [], [] => .eq
  | [], _ :: _ => .lt
  | _ :: _, [] => .gt
  | a :: as, b :: bs => (compare a b).then (compareAll as bs)
termination_by structural as => as

end

instance : Ord Value := ⟨compare⟩

def entry (key value : Value) : Value := record [key, value]

def key : Value → Value
  | record (k :: _) => k
  | v => v

/-- Puts a value into a list that ascends by `view`, unless the list has one that is equal by it. -/
def insert? (view : Value → Value) (v : Value) : List Value → Option (List Value)
  | [] => some [v]
  | x :: xs =>
    match compare (view v) (view x) with
    | .lt => some (v :: x :: xs)
    | .eq => none
    | .gt => (x :: ·) <$> insert? view v xs

def upsert (view : Value → Value) (v : Value) : List Value → List Value
  | [] => [v]
  | x :: xs =>
    match compare (view v) (view x) with
    | .lt => v :: x :: xs
    | .eq => v :: xs
    | .gt => x :: upsert view v xs

def setOf (items : List Value) : Value := sequence (items.foldl (fun s v => upsert id v s) [])

/-- The map of some entries; of two with equal keys the later counts. -/
def mapOf (entries : List (Value × Value)) : Value :=
  sequence (entries.foldl (fun m e => upsert key (entry e.1 e.2) m) [])

end Value
end RecordCodec
