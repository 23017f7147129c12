import RecordCodec.Discriminant
import RecordCodec.Presence

/-! # Emissions

What writing a value comes to: a list of pieces, each of which a sink takes in whole or not at all.
The pieces are the same whether a sink holds the bytes, puts them into a region of limited size, or
only counts them.
-/
namespace RecordCodec

inductive Emission where
  | bytes (bytes : List UInt8)
  | varint (n : Nat)
deriving DecidableEq, Repr

namespace Emission

def toBytes : Emission → List UInt8
  | bytes bs => bs
  | varint n => Bytes.Varint.encode n

def size : Emission → Nat
  | bytes bs => bs.length
  | varint n => Bytes.Varint.size n

def nat (width n : Nat) : Emission := bytes (Bytes.LittleEndian.encode width n)

def byteString (bs : List UInt8) : List Emission := [varint bs.length, bytes bs]

def text (s : String) : List Emission := byteString (Text.Utf8.encode s)

def discriminant (index alternatives : Nat) : Except Error Emission :=
  let width := discriminantWidth alternatives
  if index < alternatives ∧ index < Bytes.LittleEndian.range width then .ok (nat width index)
  else .error (.invalidData (.unwritableDiscriminant index alternatives))

def presence (p : Presence) : List Emission := [varint p.size, bytes p.bitBytes]

def allBytes (es : List Emission) : List UInt8 := es.flatMap toBytes

def totalSize : List Emission → Nat
  | [] => 0
  | e :: es => e.size + totalSize es

/-- Pieces behind the number of their bytes. -/
def framed (es : List Emission) : List Emission := varint (totalSize es) :: es

end Emission

/-- What takes pieces in. -/
inductive Sink where
  | buffer (contents : List UInt8)
  /-- Overwrites a region from its start on; `written` bytes are overwritten. -/
  | region (contents : List UInt8) (written : Nat)
  | counter (size : Nat)
deriving DecidableEq, Repr

namespace Sink

def contents : Sink → List UInt8
  | buffer bs => bs
  | region bs _ => bs
  | counter _ => []

def overwrite (contents : List UInt8) (position : Nat) (bs : List UInt8) : List UInt8 :=
  contents.take position ++ bs ++ contents.drop (position + bs.length)

def emit (e : Emission) : EStateM Error Sink Unit := fun
  | buffer contents => .ok () (buffer (contents ++ e.toBytes))
  | region contents written =>
    let stop := written + e.toBytes.length
    if stop ≤ contents.length then .ok () (region (overwrite contents written e.toBytes) stop)
    else .error (.capacity stop contents.length) (region contents written)
  | counter size => .ok () (counter (size + e.size))

/-- Takes pieces in, up to the first that finds no room. -/
def emitAll (es : List Emission) : EStateM Error Sink Unit := es.forM emit

end Sink
end RecordCodec
