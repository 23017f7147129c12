/-! # Keyed hashing of byte strings

SipHash with one compression round per word and three finalization rounds. The message is cut into
little-endian words of eight bytes; the last word holds the remaining bytes and, in its top byte,
the length of the message.
-/
namespace RecordCodec.Bytes.SipHash

structure Key where
  low : UInt64
  high : UInt64
deriving DecidableEq, Repr

structure State where
  v0 : UInt64
  v1 : UInt64
  v2 : UInt64
  v3 : UInt64
deriving DecidableEq, Repr

/-- The bits of `x` moved left by `n` places, those that fall out entering on the right. -/
def rotateLeft (x n : UInt64) : UInt64 := (x <<< n) ||| (x >>> (64 - n))

def State.ofKey (key : Key) : State where
  v0 := key.low ^^^ 0x736f6d6570736575
  v1 := key.high ^^^ 0x646f72616e646f6d
  v2 := key.low ^^^ 0x6c7967656e657261
  v3 := key.high ^^^ 0x7465646279746573

def State.round (s : State) : State :=
  let v0 := s.v0 + s.v1
  let v2 := s.v2 + s.v3
  let v1 := rotateLeft s.v1 13 ^^^ v0
  let v3 := rotateLeft s.v3 16 ^^^ v2
  let v0 := rotateLeft v0 32
  let v2 := v2 + v1
  let v0 := v0 + v3
  let v1 := rotateLeft v1 17 ^^^ v2
  let v3 := rotateLeft v3 21 ^^^ v0
  ⟨v0, v1, rotateLeft v2 32, v3⟩

def State.absorb (s : State) (word : UInt64) : State :=
  let s := { s with v3 := s.v3 ^^^ word }.round
  { s with v0 := s.v0 ^^^ word }

def State.finish (s : State) : UInt64 :=
  let s := { s with v2 := s.v2 ^^^ 0xff }.round.round.round
  s.v0 ^^^ s.v1 ^^^ s.v2 ^^^ s.v3

def word : List UInt8 → UInt64
  | [] => 0
  | b :: bs => b.toUInt64 ||| (word bs <<< 8)

/-- Takes in the whole words of a message and then its tail, which `lengthByte` closes. -/
def absorbAll (lengthByte : UInt8) : State → List UInt8 → State
  | s, a :: b :: c :: d :: e :: f :: g :: h :: rest =>
    absorbAll lengthByte (s.absorb (word [a, b, c, d, e, f, g, h])) rest
  | s, tail => s.absorb (word tail ||| (lengthByte.toUInt64 <<< 56))

def hash (key : Key) (message : List UInt8) : UInt64 :=
  (absorbAll (UInt8.ofNat message.length) (State.ofKey key) message).finish

end RecordCodec.Bytes.SipHash
