/-! # UTF-8

Characters as one to four bytes, and back. Bytes that are no text are refused at the first sequence
that is none, and the fault tells how many of its bytes could have begun one.
-/
namespace RecordCodec.Text.Utf8

def encodeChar (c : Char) : List UInt8 :=
  let n := c.toNat
  let codes :=
    if n < 0x80 then [n]
    else if n < 0x800 then [0xC0 + n / 64, 0x80 + n % 64]
    else if n < 0x10000 then [0xE0 + n / 4096, 0x80 + n / 64 % 64, 0x80 + n % 64]
    else [0xF0 + n / 262144, 0x80 + n / 4096 % 64, 0x80 + n / 64 % 64, 0x80 + n % 64]
  codes.map UInt8.ofNat

def encode (text : String) : List UInt8 := text.toList.flatMap encodeChar

structure Fault where
  index : Nat
  /-- How many bytes the faulty sequence has; none if the input ends inside it. -/
  length : Option Nat
deriving DecidableEq, Repr

def Fault.message (f : Fault) : String :=
  match f.length with
  | some n => s!"invalid utf-8 sequence of {n} bytes from index {f.index}"
  | none => s!"incomplete utf-8 byte sequence from index {f.index}"

def isContinuation (b : UInt8) : Bool := 0x80 ≤ b && b ≤ 0xBF

/-- Whether `b` may follow the first byte `a` of a sequence: shorter forms, surrogates and numbers
past the last character are left out. -/
def isSecond (a b : UInt8) : Bool :=
  if a == 0xE0 then 0xA0 ≤ b && b ≤ 0xBF
  else if a == 0xED then 0x80 ≤ b && b ≤ 0x9F
  else if a == 0xF0 then 0x90 ≤ b && b ≤ 0xBF
  else if a == 0xF4 then 0x80 ≤ b && b ≤ 0x8F
  else isContinuation b

def sequenceLength (a : UInt8) : Option Nat :=
  if a < 0x80 then some 1
  else if a < 0xC2 then none
  else if a < 0xE0 then some 2
  else if a < 0xF0 then some 3
  else if a < 0xF5 then some 4
  else none

/-- The character whose bits are the low bits of a first byte and six of each byte that follows. -/
def assemble (lead : Nat) (continuation : List UInt8) : Char :=
  Char.ofNat (continuation.foldl (fun n b => n * 64 + b.toNat % 64) lead)

def decodeFrom (index : Nat) : List UInt8 → Except Fault (List Char)
  | [] => .ok []
  | a :: bs =>
    match sequenceLength a with
    | none => .error ⟨index, some 1⟩
    | some 1 => (assemble a.toNat [] :: ·) <$> decodeFrom (index + 1) bs
    | some 2 =>
      match bs with
      | [] => .error ⟨index, none⟩
      | b :: bs =>
        if isSecond a b then (assemble (a.toNat % 32) [b] :: ·) <$> decodeFrom (index + 2) bs
        else .error ⟨index, some 1⟩
    | some 3 =>
      match bs with
      | [] => .error ⟨index, none⟩
      | b :: bs =>
        if isSecond a b then
          match bs with
          | [] => .error ⟨index, none⟩
          | c :: bs =>
            if isContinuation c then
              (assemble (a.toNat % 16) [b, c] :: ·) <$> decodeFrom (index + 3) bs
            else .error ⟨index, some 2⟩
        else .error ⟨index, some 1⟩
    | some _ =>
      match bs with
      | [] => .error ⟨index, none⟩
      | b :: bs =>
        if isSecond a b then
          match bs with
          | [] => .error ⟨index, none⟩
          | c :: bs =>
            if isContinuation c then
              match bs with
              | [] => .error ⟨index, none⟩
              | d :: bs =>
                if isContinuation d then
                  (assemble (a.toNat % 8) [b, c, d] :: ·) <$> decodeFrom (index + 4) bs
                else .error ⟨index, some 3⟩
            else .error ⟨index, some 2⟩
        else .error ⟨index, some 1⟩

def decode (bytes : List UInt8) : Except Fault String := String.ofList <$> decodeFrom 0 bytes

end RecordCodec.Text.Utf8
