import RecordCodec.Proofs.Admission
import RecordCodec.Proofs.References
import RecordCodec.Samples

/-! # The sample values are of the sample types

Each sample type is declared once, so it is found by its name, with the types that it refers to. The
sample values of every size are values of their types: no count, price or time outgrows its field.
-/
namespace RecordCodec

namespace Family

variable {family : Family}

/-- Where every name is declared once, a declaration is found by its name. -/
theorem lookup_of_mem {n : String} {t : Schema} (hd : (family.map (·.1)).Nodup)
    (h : (n,t) ∈ family) : family.lookup n = some t := by
  induction family with
  | nil => cases h
  | cons p family ih =>
    obtain ⟨m,u⟩ := p
    obtain ⟨hm,hd⟩ := List.nodup_cons.mp hd
    rcases List.mem_cons.mp h with he | h
    · cases he
      exact List.lookup_cons_self
    · have hn : n ∈ family.map (·.1) := List.mem_map_of_mem h
      have hne : (n == m) = false := by
        rw [beq_eq_false_iff_ne]
        rintro rfl
        exact hm hn
      rw [List.lookup_cons, hne]
      exact ih hd h

theorem unfold_reference {n : String} {t : Schema} {more : Nat} (hl : family.length = more + 1)
    (h : family.lookup n = some t) :
    family.unfold (.reference n) = family.unfoldWithin more [n] t := by
  rw [unfold, hl, unfoldWithin]
  simp only [Schema.substitute, List.not_mem_nil, if_false, h]

end Family

namespace Schema

theorem fieldsAdmit_cons {name : String} {t : Schema} {fs : List Field} {v : Value}
    {vs : List Value} (h : t.admits v = true) (hs : fieldsAdmit fs vs = true) :
    fieldsAdmit (.mandatory name t :: fs) (v :: vs) = true := Bool.and_eq_true_iff.mpr ⟨h,hs⟩

theorem componentsAdmit_cons {t : Schema} {ts : List Schema} {v : Value} {vs : List Value}
    (h : t.admits v = true) (hs : componentsAdmit ts vs = true) :
    componentsAdmit (t :: ts) (v :: vs) = true := Bool.and_eq_true_iff.mpr ⟨h,hs⟩

theorem admits_u32 {n : Nat} (h : n < 2 ^ 32) : (scalar .u32).admits (.int n) = true := by
  have hr : Bytes.LittleEndian.range 4 = 2 ^ 32 := by decide
  rw [admits, Scalar.admits]
  exact Scalar.fits_of_lt (hr ▸ h)

theorem admits_u64 {n : Nat} (h : n < 2 ^ 64) : (scalar .u64).admits (.int n) = true := by
  have hr : Bytes.LittleEndian.range 8 = 2 ^ 64 := by decide
  rw [admits, Scalar.admits]
  exact Scalar.fits_of_lt (hr ▸ h)

end Schema

namespace Samples

open Schema

variable {qualify : String → String}

theorem map_fst_family (qualify : String → String) :
    (family qualify).map (·.1) = (names qualify).map (·.2) := rfl

theorem nodup_family (hq : qualify.Injective) : ((family qualify).map (·.1)).Nodup := by
  rw [map_fst_family, names, List.map_map]
  exact List.Nodup.map hq (by decide)

/-- A sample type by its name. -/
def sampled (qualify : String → String) (name : String) : Schema :=
  (family qualify).unfold (.reference (qualify name))

theorem sampled_eq (hq : qualify.Injective) {name : String} {t : Schema}
    (h : (qualify name,t) ∈ family qualify) :
    sampled qualify name = (family qualify).unfoldWithin 12 [qualify name] t :=
  Family.unfold_reference rfl (Family.lookup_of_mem (nodup_family hq) h)

theorem wellNamed_family (qualify : String → String) : (family qualify).WellNamed := by
  intro n t h
  have hm := Family.mem_of_lookup h
  simp only [family, profile, envelope, List.mem_cons, Prod.mk.injEq, List.not_mem_nil,
    or_false] at hm
  obtain h | h | h | h | h | h | h | h | h | h | h | h | h := hm <;> (obtain ⟨rfl,rfl⟩ := h; rfl)

/-- A sample type is described through the family as it is unfolded. -/
theorem descriptor_sampled (qualify : String → String) (name : String) :
    (family qualify).descriptor (.reference (qualify name)) = (sampled qualify name).descriptor :=
  Family.descriptor_eq_unfold (wellNamed_family qualify) _

theorem sampled_telemetry (hq : qualify.Injective) :
    sampled qualify "Telemetry" = .struct (qualify "Telemetry") .named telemetryFields :=
  sampled_eq (t := .struct (qualify "Telemetry") .named telemetryFields) hq (by simp [family])

/-- Telemetry reports of all seeds are of their type. -/
theorem admits_telemetry (hq : qualify.Injective) {seed : Nat} (h : seed < 2 ^ 32) :
    (sampled qualify "Telemetry").admits (telemetry seed) = true := by
  rw [sampled_telemetry hq]
  have hsamples : (sequence (.scalar .u32)).admits
      (numbers ((List.range (seed % 17)).map fun i => (i * seed % 0x100000000 : Nat))) = true := by
    refine List.all_eq_true.mpr fun v hv => ?_
    simp only [List.mem_map] at hv
    obtain ⟨n,⟨i,-,rfl⟩,rfl⟩ := hv
    exact admits_u32 (Nat.mod_lt _ (by decide))
  have hwindow : (tuple [.scalar .u64, .scalar .u64]).admits
      (.record [.int seed, .int (seed + 60)]) = true := by
    have hend := admits_u64 (n := seed + 60) (by omega)
    rw [Int.natCast_add] at hend
    exact componentsAdmit_cons (admits_u64 (by omega)) (componentsAdmit_cons hend rfl)
  have hregion : fieldsAdmit [.compatible "region" 3 .text]
      [if seed % 2 = 0 then .present (.text "eu") else .absent] = true := by
    split <;> rfl
  exact fieldsAdmit_cons rfl (fieldsAdmit_cons hsamples (fieldsAdmit_cons hwindow
    (fieldsAdmit_cons rfl hregion)))

/-- The fills of an order. -/
def fill (qualify : String → String) : Schema :=
  .struct (qualify "Fill") .named [number "quantity" .u32, number "price" .f64,
    number "timestamp" .u64]

theorem sampled_order (hq : qualify.Injective) :
    sampled qualify "Order" =
      .struct (qualify "Order") .named
        [number "id" .u64, number "customer" .u32, number "price" .f64, words "symbol",
          .mandatory "fills" (.sequence (fill qualify)), .mandatory "attributes" (.map .text .text),
          .compatible "venue" 1 .text] := by
  have hfill : (family qualify).lookup (qualify "Fill") = some (fill qualify) :=
    Family.lookup_of_mem (nodup_family hq) (by simp [family, fill])
  rw [sampled_eq (t := .struct (qualify "Order") .named (orderFields qualify)) hq
    (by simp [family])]
  simp only [Family.unfoldWithin, substitute, orderFields, number, words, substituteFields,
    List.mem_singleton, hq.eq_iff, hfill]
  rfl

/-- Orders with any number of fills are of their type, as long as the clock does not overflow. -/
theorem admits_order (hq : qualify.Injective) {fills : Nat} (h : fills + 1700000000 ≤ 2 ^ 64) :
    (sampled qualify "Order").admits (order fills) = true := by
  rw [sampled_order hq]
  have hfills : (sequence (fill qualify)).admits
      (.sequence ((List.range fills).map fun i =>
        .record [.int 10, .float (100.0 + Float.ofNat i).toBits.toNat,
          .int (1700000000 + i)])) = true := by
    refine List.all_eq_true.mpr fun v hv => ?_
    simp only [List.mem_map, List.mem_range] at hv
    obtain ⟨i,hi,rfl⟩ := hv
    have hprice : (scalar .f64).admits (.float (100.0 + Float.ofNat i).toBits.toNat) = true := by
      have hr : Bytes.LittleEndian.range 8 = 2 ^ 64 := by decide
      rw [admits, Scalar.admits, hr]
      exact decide_eq_true (UInt64.toNat_lt _)
    have htime := admits_u64 (n := 1700000000 + i) (by omega)
    rw [Int.natCast_add] at htime
    exact fieldsAdmit_cons rfl (fieldsAdmit_cons hprice (fieldsAdmit_cons htime rfl))
  exact fieldsAdmit_cons rfl (fieldsAdmit_cons rfl (fieldsAdmit_cons rfl (fieldsAdmit_cons rfl
    (fieldsAdmit_cons hfills rfl))))

def figure (qualify : String → String) : Schema :=
  .enum (qualify "Figure") "Figure"
    [.mk "Empty" .unit [], .mk "Circle" .named [number "radius" .f64],
      .mk "Rect" .positional [number "0" .f32, number "1" .f32]]

theorem admits_inventory (hq : qualify.Injective) :
    (sampled qualify "Inventory").admits inventory = true := by
  have hfigure : (family qualify).lookup (qualify "Figure") = some (figure qualify) :=
    Family.lookup_of_mem (nodup_family hq) (by simp [family, figure])
  rw [sampled_eq (t := .struct (qualify "Inventory") .named (inventoryFields qualify)) hq
    (by simp [family])]
  simp only [Family.unfoldWithin, substitute, inventoryFields, substituteFields,
    List.mem_singleton, hq.eq_iff, hfigure]
  rfl

end Samples
end RecordCodec
