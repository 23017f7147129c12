import RecordCodec.Text.Utf8

/-! # The bytes of a text are read as that text

A character of each of the four lengths is read back from its bytes; a text is the sequence of its
characters, and no longer than any bytes that it is read from.
-/
namespace RecordCodec.Text.Utf8

theorem toNat_byte {n : Nat} (h : n < 256) : (UInt8.ofNat n).toNat = n := by
  rw [UInt8.toNat_ofNat']
  omega

theorem isContinuation_low (n : Nat) : isContinuation (UInt8.ofNat (0x80 + n % 64)) = true := by
  have hb := toNat_byte (n := 0x80 + n % 64) (by omega)
  simp only [isContinuation, UInt8.le_iff_toNat_le, UInt8.reduceToNat, hb, Bool.and_eq_true,
    decide_eq_true_eq]
  omega

/-- A second byte in the range that its first byte leaves. -/
theorem isSecond_of {a b : UInt8} (hl : 0x80 ≤ b.toNat) (hu : b.toNat ≤ 0xBF)
    (h0 : a.toNat = 0xE0 → 0xA0 ≤ b.toNat) (hd : a.toNat = 0xED → b.toNat ≤ 0x9F)
    (hf : a.toNat = 0xF0 → 0x90 ≤ b.toNat) (h4 : a.toNat = 0xF4 → b.toNat ≤ 0x8F) :
    isSecond a b = true := by
  simp only [isSecond, isContinuation, beq_iff_eq, ← UInt8.toNat_inj, UInt8.le_iff_toNat_le,
    UInt8.reduceToNat]
  repeat' split
  all_goals simp_all

theorem sequenceLength_one {a : UInt8} (h : a.toNat < 0x80) : sequenceLength a = some 1 := by
  simp [sequenceLength, UInt8.lt_iff_toNat_lt, h]

theorem sequenceLength_two {a : UInt8} (hl : 0xC2 ≤ a.toNat) (hu : a.toNat < 0xE0) :
    sequenceLength a = some 2 := by
  simp only [sequenceLength, UInt8.lt_iff_toNat_lt, UInt8.reduceToNat]
  rw [if_neg (by omega), if_neg (by omega), if_pos hu]

theorem sequenceLength_three {a : UInt8} (hl : 0xE0 ≤ a.toNat) (hu : a.toNat < 0xF0) :
    sequenceLength a = some 3 := by
  simp only [sequenceLength, UInt8.lt_iff_toNat_lt, UInt8.reduceToNat]
  rw [if_neg (by omega), if_neg (by omega), if_neg (by omega), if_pos hu]

theorem sequenceLength_four {a : UInt8} (hl : 0xF0 ≤ a.toNat) (hu : a.toNat < 0xF5) :
    sequenceLength a = some 4 := by
  simp only [sequenceLength, UInt8.lt_iff_toNat_lt, UInt8.reduceToNat]
  rw [if_neg (by omega), if_neg (by omega), if_neg (by omega), if_neg (by omega), if_pos hu]

section Sequences
variable {a b c d : UInt8} (index : Nat) (bs : List UInt8)

theorem decodeFrom_one (h : sequenceLength a = some 1) :
    decodeFrom index (a :: bs) = (assemble a.toNat [] :: ·) <$> decodeFrom (index + 1) bs := by
  rw [decodeFrom.eq_def]
  simp only [h]

theorem decodeFrom_two (h : sequenceLength a = some 2) (hb : isSecond a b = true) :
    decodeFrom index (a :: b :: bs)
      = (assemble (a.toNat % 32) [b] :: ·) <$> decodeFrom (index + 2) bs := by
  rw [decodeFrom.eq_def]
  simp only [h, hb, if_true]

theorem decodeFrom_three (h : sequenceLength a = some 3) (hb : isSecond a b = true)
    (hc : isContinuation c = true) :
    decodeFrom index (a :: b :: c :: bs)
      = (assemble (a.toNat % 16) [b,c] :: ·) <$> decodeFrom (index + 3) bs := by
  rw [decodeFrom.eq_def]
  simp only [h, hb, hc, if_true]

theorem decodeFrom_four (h : sequenceLength a = some 4) (hb : isSecond a b = true)
    (hc : isContinuation c = true) (hd : isContinuation d = true) :
    decodeFrom index (a :: b :: c :: d :: bs)
      = (assemble (a.toNat % 8) [b,c,d] :: ·) <$> decodeFrom (index + 4) bs := by
  rw [decodeFrom.eq_def]
  simp only [h, hb, hc, hd, if_true]

end Sequences

theorem assemble_eq {c : Char} {lead : Nat} {bs : List UInt8}
    (h : bs.foldl (fun n b => n * 64 + b.toNat % 64) lead = c.toNat) : assemble lead bs = c := by
  rw [assemble, h, Char.ofNat_toNat]

/-- A character's bytes are read as that character. -/
theorem decodeFrom_encodeChar (index : Nat) (c : Char) (bs : List UInt8) :
    decodeFrom index (encodeChar c ++ bs)
      = (c :: ·) <$> decodeFrom (index + (encodeChar c).length) bs := by
  have hv : c.toNat < 0xD800 ∨ 0xDFFF < c.toNat ∧ c.toNat < 0x110000 := c.valid
  unfold encodeChar
  dsimp only
  by_cases h1 : c.toNat < 0x80
  · have ha := toNat_byte (n := c.toNat) (by omega)
    rw [if_pos h1]
    refine (decodeFrom_one index bs (sequenceLength_one (by omega))).trans ?_
    rw [assemble_eq (c := c) (by rw [List.foldl, ha])]
    rfl
  rw [if_neg h1]
  by_cases h2 : c.toNat < 0x800
  · have ha := toNat_byte (n := 0xC0 + c.toNat / 64) (by omega)
    have hb := toNat_byte (n := 0x80 + c.toNat % 64) (by omega)
    rw [if_pos h2]
    refine (decodeFrom_two index bs (sequenceLength_two (by omega) (by omega)) ?_).trans ?_
    · exact isSecond_of (by omega) (by omega) (by omega) (by omega) (by omega) (by omega)
    rw [assemble_eq (c := c) (by simp only [List.foldl]; omega)]
    rfl
  rw [if_neg h2]
  have hd := toNat_byte (n := 0x80 + c.toNat % 64) (by omega)
  have hc := toNat_byte (n := 0x80 + c.toNat / 64 % 64) (by omega)
  by_cases h3 : c.toNat < 0x10000
  · have ha := toNat_byte (n := 0xE0 + c.toNat / 4096) (by omega)
    rw [if_pos h3]
    refine (decodeFrom_three index bs (sequenceLength_three (by omega) (by omega)) ?_
      (isContinuation_low _)).trans ?_
    · exact isSecond_of (by omega) (by omega) (by omega) (by omega) (by omega) (by omega)
    rw [assemble_eq (c := c) (by simp only [List.foldl]; omega)]
    rfl
  · have ha := toNat_byte (n := 0xF0 + c.toNat / 262144) (by omega)
    have hb := toNat_byte (n := 0x80 + c.toNat / 4096 % 64) (by omega)
    rw [if_neg h3]
    refine (decodeFrom_four index bs (sequenceLength_four (by omega) (by omega)) ?_
      (isContinuation_low _) (isContinuation_low _)).trans ?_
    · exact isSecond_of (by omega) (by omega) (by omega) (by omega) (by omega) (by omega)
    rw [assemble_eq (c := c) (by simp only [List.foldl]; omega)]
    rfl

theorem decodeFrom_flatMap (index : Nat) (cs : List Char) :
    decodeFrom index (cs.flatMap encodeChar) = .ok cs := by
  induction cs generalizing index with
  | nil => rfl
  | cons c cs ih =>
    rw [List.flatMap_cons, decodeFrom_encodeChar, ih]
    rfl

theorem decode_encode (s : String) : decode (encode s) = .ok s := by
  unfold decode encode
  rw [decodeFrom_flatMap]
  exact congrArg Except.ok String.ofList_toList

/-! ## Text is no longer than the bytes that it is read from -/

theorem toNat_ofNat_le (n : Nat) : (Char.ofNat n).toNat ≤ n := by
  unfold Char.ofNat
  by_cases h : n.isValidChar
  · rw [dif_pos h]
    exact Nat.le_refl n
  · rw [dif_neg h]
    exact Nat.zero_le n

theorem length_encodeChar (c : Char) :
    (encodeChar c).length =
      if c.toNat < 0x80 then 1 else if c.toNat < 0x800 then 2
      else if c.toNat < 0x10000 then 3 else 4 := by
  unfold encodeChar
  dsimp only
  rw [List.length_map]
  split
  · rfl
  · split
    · rfl
    · split <;> rfl

/-- A character takes no more bytes than the number that it is assembled from. -/
theorem length_assemble_le (lead : Nat) (bs : List UInt8) :
    let n := bs.foldl (fun n b => n * 64 + b.toNat % 64) lead
    (n < 0x80 → (encodeChar (assemble lead bs)).length ≤ 1) ∧
    (n < 0x800 → (encodeChar (assemble lead bs)).length ≤ 2) ∧
    (n < 0x10000 → (encodeChar (assemble lead bs)).length ≤ 3) ∧
    (encodeChar (assemble lead bs)).length ≤ 4 := by
  intro n
  have hle : (assemble lead bs).toNat ≤ n := toNat_ofNat_le n
  rw [length_encodeChar]
  refine ⟨?_,?_,?_,?_⟩
  · intro hn
    have h1 : (assemble lead bs).toNat < 0x80 := by omega
    simp [h1]
  · intro hn
    have h2 : (assemble lead bs).toNat < 0x800 := by omega
    repeat' split
    all_goals omega
  · intro hn
    have h3 : (assemble lead bs).toNat < 0x10000 := by omega
    repeat' split
    all_goals omega
  · repeat' split
    all_goals omega

theorem lt_of_sequenceLength_one {a : UInt8} (h : sequenceLength a = some 1) : a.toNat < 0x80 := by
  by_cases ha : a < 0x80
  · exact UInt8.lt_iff_toNat_lt.mp ha
  · unfold sequenceLength at h
    rw [if_neg ha] at h
    repeat' split at h
    all_goals cases h

theorem length_le_of_cons {c : Char} {index width : Nat} {bs : List UInt8} {cs : List Char}
    (hc : (encodeChar c).length ≤ width)
    (ih : ∀ {ds : List Char}, decodeFrom index bs = .ok ds →
      (ds.flatMap encodeChar).length ≤ bs.length)
    (h : (c :: ·) <$> decodeFrom index bs = .ok cs) :
    (cs.flatMap encodeChar).length ≤ width + bs.length := by
  cases hd : decodeFrom index bs with
  | error f =>
    rw [hd] at h
    cases h
  | ok ds =>
    rw [hd] at h
    obtain rfl : c :: ds = cs := Except.ok.inj h
    have hds := ih hd
    rw [List.flatMap_cons, List.length_append]
    omega

theorem length_le_of_decodeFrom {index : Nat} {bs : List UInt8} {cs : List Char}
    (h : decodeFrom index bs = .ok cs) : (cs.flatMap encodeChar).length ≤ bs.length := by
  fun_induction decodeFrom index bs generalizing cs with
  | case1 index =>
    cases h
    exact Nat.le_refl 0
  | case3 index a bs ha ih =>
    have hn := lt_of_sequenceLength_one ha
    have hcons := length_le_of_cons ((length_assemble_le a.toNat []).1 hn) ih h
    rw [List.length_cons]
    omega
  | case5 index a ha b bs hb ih =>
    have hn : [b].foldl (fun n b => n * 64 + b.toNat % 64) (a.toNat % 32) < 0x800 := by
      simp only [List.foldl]
      omega
    have hcons := length_le_of_cons ((length_assemble_le _ [b]).2.1 hn) ih h
    simp only [List.length_cons]
    omega
  | case9 index a ha b hb c bs hc ih =>
    have hn : [b,c].foldl (fun n b => n * 64 + b.toNat % 64) (a.toNat % 16) < 0x10000 := by
      simp only [List.foldl]
      omega
    have hcons := length_le_of_cons ((length_assemble_le _ [b,c]).2.2.1 hn) ih h
    simp only [List.length_cons]
    omega
  | case15 index a n _ _ _ ha b hb c hc d bs hd ih =>
    have hcons := length_le_of_cons (length_assemble_le _ [b,c,d]).2.2.2 ih h
    simp only [List.length_cons]
    omega
  | _ => cases h

/-- Text has no more bytes than those that it is read from. -/
theorem length_encode_le {bs : List UInt8} {s : String} (h : decode bs = .ok s) :
    (encode s).length ≤ bs.length := by
  unfold decode at h
  cases hd : decodeFrom 0 bs with
  | error f =>
    rw [hd] at h
    cases h
  | ok cs =>
    rw [hd] at h
    obtain rfl : String.ofList cs = s := Except.ok.inj h
    unfold encode
    rw [String.toList_ofList]
    exact length_le_of_decodeFrom hd

end RecordCodec.Text.Utf8
