import RecordCodec.Bytes.LittleEndian
import RecordCodec.Bytes.SipHash
import RecordCodec.Text.Hex

/-! # Schema signatures

A signature is 32 bits of a keyed hash of a type literal. Its lowest bit is always clear: in a
record's header that bit announces a presence bitmap.
-/
namespace RecordCodec

open Bytes (SipHash.Key SipHash.hash LittleEndian.encode)

/-- A number of 32 bits whose lowest bit is clear. -/
structure Signature where
  raw : Nat
  raw_lt : raw < 0x100000000
  raw_even : raw % 2 = 0
deriving DecidableEq, Repr

namespace Signature

def algorithmVersion : Nat := 1

def key : SipHash.Key := ⟨0x6b63617065726977, 0x6769736570616873⟩

def ofRaw (raw : Nat) : Signature where
  raw := raw % 0x100000000 / 2 * 2
  raw_lt := by omega
  raw_even := by omega

def ofLiteral (literal : List UInt8) : Signature :=
  ofRaw (SipHash.hash key (LittleEndian.encode 4 algorithmVersion ++ literal)).toNat

def text (s : Signature) : String := Text.Hex.marked 8 s.raw

def label (s : Signature) : String := s!"Signature({s.text})"

end Signature

/-- What opens a record: the signature of the producer's type, and whether a presence bitmap
follows. -/
structure Header where
  signature : Signature
  announcesBitmap : Bool
deriving DecidableEq, Repr

namespace Header

def width : Nat := 4

/-- The header as one number, the announcement in its lowest bit. -/
def raw (h : Header) : Nat := h.signature.raw + h.announcesBitmap.toNat

def ofRaw (raw : Nat) : Header := ⟨Signature.ofRaw raw, raw % 2 == 1⟩

theorem ofRaw_raw (h : Header) : ofRaw h.raw = h := by
  obtain ⟨⟨raw, hlt, heven⟩, announced⟩ := h
  cases announced <;> simp [ofRaw, Header.raw, Signature.ofRaw] <;> omega

end Header
end RecordCodec
