import RecordCodec.Machine

/-! # A memory

The bytes that values and collections take in a memory in which the parts of a value stand close
together, and an address has 64 bits.
-/
namespace RecordCodec
namespace Schema

mutual

def footprint : Schema → Nat
  | unit | reference _ => 0
  | scalar s => s.width
  | text | sequence _ | set _ | map .. => 24
  | duration => 16
  | array t n => n * t.footprint
  | option t | compatible t _ | named _ t => t.footprint
  | tuple ts => footprints ts
  | pointer .. => 8
  | struct _ _ fields => fieldFootprints fields
  | enum _ _ alternatives =>
    discriminantWidth alternatives.length + largestFootprint alternatives
termination_by structural t => t

def footprints : List Schema → Nat
  | [] => 0
  | t :: ts => t.footprint + footprints ts
termination_by structural ts => ts

def fieldFootprints : List Field → Nat
  | [] => 0
  | .mandatory _ t :: fs | .compatible _ _ t :: fs | .skipped _ t _ :: fs =>
    t.footprint + fieldFootprints fs
termination_by structural fs => fs

def largestFootprint : List Alternative → Nat
  | [] => 0
  | .mk _ _ fields :: as => max (fieldFootprints fields) (largestFootprint as)
termination_by structural as => as

end
end Schema

namespace Machine.Memory

/-- A hash table keeps a byte beside each element. Trees and linked lists grow with every element
that is put in, and ask for nothing before. -/
def packed : Memory
  | .sequence t, n | .array t n, _ => n * t.footprint
  | .named name (.sequence t), n =>
    if name = (Schema.linkedList t).name then 0 else n * t.footprint
  | .named _ (.set t), n => n * (t.footprint + 1)
  | .named _ (.map k v), n => n * (k.footprint + v.footprint + 1)
  | _, _ => 0

end Machine.Memory
end RecordCodec
