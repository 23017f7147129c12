import RecordCodec.Proofs.Numbers
import RecordCodec.Value

/-! # Pieces that can be written

Pieces behind each other, those of several values, and payloads behind their length: all have as
many bytes as are counted, so that what is counted before a payload is written is its length.
-/
namespace RecordCodec

namespace Emission

@[simp] theorem allBytes_append (es fs : List Emission) : allBytes (es ++ fs) = allBytes es ++ allBytes fs :=
  List.flatMap_append

@[simp] theorem totalSize_append (es fs : List Emission) :
    totalSize (es ++ fs) = totalSize es + totalSize fs := by
  induction es with
  | nil => exact (Nat.zero_add _).symm
  | cons e es ih => rw [List.cons_append, totalSize, totalSize, ih, Nat.add_assoc]

/-- Pieces behind others. -/
def joined (p q : Except Error (List Emission)) : Except Error (List Emission) := do
  pure ((← p) ++ (← q))

@[simp] theorem joined_nil (p : Except Error (List Emission)) : joined (.ok []) p = p := by
  cases p <;> rfl

@[simp] theorem nil_joined (p : Except Error (List Emission)) : joined p (.ok []) = p := by
  cases p with
  | error e => rfl
  | ok es => exact congrArg Except.ok (List.append_nil es)

theorem joined_assoc (p q r : Except Error (List Emission)) :
    joined (joined p q) r = joined p (joined q r) := by
  cases p with
  | error e => rfl
  | ok es =>
    cases q with
    | error e => rfl
    | ok fs =>
      cases r with
      | error e => rfl
      | ok gs => exact congrArg Except.ok (List.append_assoc es fs gs)

/-- The pieces of some values, one behind the other. -/
def eachOf (encode : Value → Except Error (List Emission)) (vs : List Value) :
    Except Error (List Emission) := List.flatten <$> vs.mapM encode

variable {encode : Value → Except Error (List Emission)}

theorem eachOf_cons (v : Value) (vs : List Value) :
    eachOf encode (v :: vs) = joined (encode v) (eachOf encode vs) := by
  unfold eachOf
  rw [List.mapM_cons]
  cases encode v with
  | error e => rfl
  | ok es => cases vs.mapM encode <;> rfl

theorem joined_eachOf (e : Emission) (vs : List Value) :
    (do pure (e :: (← vs.mapM encode).flatten)) = joined (.ok [e]) (eachOf encode vs) := by
  unfold eachOf
  cases vs.mapM encode <;> rfl

theorem size_varint {n : Nat} (h : n < addressSpace) : (varint n).size = (varint n).toBytes.length :=
  (Bytes.Varint.length_encode h).symm

end Emission

open Emission (allBytes totalSize joined eachOf framed)

/-- The pieces can be written, and have as many bytes as are counted. -/
def Writes (pieces : Except Error (List Emission)) : Prop :=
  ∃ es, pieces = .ok es ∧ totalSize es = (allBytes es).length

namespace Writes

variable {p q : Except Error (List Emission)}

theorem of_ok {es : List Emission} (h : totalSize es = (allBytes es).length) :
    Writes (.ok es) := ⟨es,rfl,h⟩

protected theorem bytes (b : List UInt8) : Writes (.ok [.bytes b]) := by
  apply of_ok
  have hb : allBytes [.bytes b] = b := List.append_nil b
  rw [hb]
  exact Nat.add_zero _

protected theorem joined (h : Writes p) (k : Writes q) : Writes (joined p q) := by
  obtain ⟨es,rfl,hs⟩ := h
  obtain ⟨fs,rfl,ht⟩ := k
  refine ⟨es ++ fs,rfl,?_⟩
  simp [hs, ht]

theorem cons {e : Emission} (he : e.size = e.toBytes.length) (h : Writes q) :
    Writes (joined (.ok [e]) q) := by
  obtain ⟨fs,rfl,ht⟩ := h
  refine ⟨e :: fs,rfl,?_⟩
  have hsize : totalSize (e :: fs) = e.size + totalSize fs := rfl
  have hbytes : allBytes (e :: fs) = e.toBytes ++ allBytes fs := rfl
  simp [hsize, hbytes, he, ht]

protected theorem eachOf {encode : Value → Except Error (List Emission)} {vs : List Value}
    (h : ∀ v ∈ vs, Writes (encode v)) : Writes (eachOf encode vs) := by
  induction vs with
  | nil => exact of_ok rfl
  | cons v vs ih =>
    rw [Emission.eachOf_cons]
    exact (h v List.mem_cons_self).joined (ih fun w hw => h w (List.mem_cons_of_mem v hw))

/-- A payload behind its length. -/
protected theorem framed (h : Writes p)
    (hl : ∀ es, p = .ok es → (allBytes es).length < addressSpace) :
    Writes (framed <$> p) := by
  obtain ⟨es,rfl,hs⟩ := h
  have hn : totalSize es < addressSpace := hs ▸ hl es rfl
  exact (of_ok hs).cons (Emission.size_varint hn)

end Writes

end RecordCodec
