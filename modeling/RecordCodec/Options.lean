/-! # Reading options -/
namespace RecordCodec

inductive Trailing where
  | reject
  | ignore
deriving DecidableEq, Repr

structure Options where
  maxLength : Nat := 4294967295
  /-- The most elements for which room is made before they are read. -/
  maxPreallocation : Nat := 4096
  trailing : Trailing := .reject
deriving DecidableEq, Repr

def Options.preallocation (o : Options) (length : Nat) : Nat := min length o.maxPreallocation

end RecordCodec
