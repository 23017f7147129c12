import RecordCodec.Proofs.Location
import RecordCodec.Record.Extract

/-! # Where fields lie

The plan of a record's fields tells the offsets of those behind fields of fixed widths alone. Where
an offset is known it is the place that the reader comes to by stepping over the fields before, so
that a reader that has left some of them unpassed gets there by the offset.
-/
namespace RecordCodec

namespace Read

variable {r s : Reader} {op : Read Unit} {b : List UInt8}

theorem seek_position (hb : r.bytes = s.bytes) (ho : r.options = s.options) :
    seek s.position r = .ok () s := by
  have hp : s.position ≤ r.bytes.length := by
    rw [hb]
    exact s.position_le
  unfold seek
  rw [dif_pos hp]
  exact congrArg (EStateM.Result.ok ()) (Reader.ext hb rfl ho)

end Read

namespace Extract

open Read (seek Local)

variable {r s : Reader} {op : Read Unit} {b : List UInt8}

theorem consumed_of_passes (h : op r = .ok () s) (hb : r.Passes b s) :
    consumed op r = .ok b s := by
  have ht : r.rest.take (s.position - r.position) = b := by
    rw [hb.rest_eq, hb.position_eq, Nat.add_sub_cancel_left, List.take_left]
  change (op >>= fun _ => Read.position >>= fun stop =>
    pure (r.rest.take (stop - r.position))) r = _
  rw [EStateM.bind_of_ok _ h, ← ht]
  rfl

theorem consumed_eq_ok (hl : Local op) (h : consumed op r = .ok b s) :
    op r = .ok () s ∧ r.Passes b s := by
  change (op >>= fun _ => Read.position >>= fun stop =>
    pure (r.rest.take (stop - r.position))) r = _ at h
  obtain ⟨_,t,ht,h⟩ := EStateM.bind_eq_ok.mp h
  obtain ⟨p,u,hu,h⟩ := EStateM.bind_eq_ok.mp h
  obtain ⟨hp,rfl⟩ := EStateM.pure_eq_ok.mp h
  obtain ⟨rfl,rfl⟩ := Read.position_eq_ok.mp hu
  obtain ⟨c,hc⟩ := hl.passes ht
  have he : r.rest.take (t.position - r.position) = c := by
    rw [hc.rest_eq, hc.position_eq, Nat.add_sub_cancel_left, List.take_left]
  rw [← hp, he]
  exact ⟨ht,hc⟩

theorem address_eq {start offset : Nat} (h : start + offset < addressSpace) :
    address start offset = start + offset := Nat.mod_eq_of_lt h

theorem position_lt (h : r.bytes.length < addressSpace) : r.position < addressSpace :=
  Nat.lt_of_le_of_lt r.position_le h

/-- Wherever a reader of the same bytes is, a known offset brings it to its place. -/
theorem seek_address {start offset : Nat} (h : start + offset = s.position)
    (hr : s.bytes.length < addressSpace) (hb : r.bytes = s.bytes) (ho : r.options = s.options) :
    seek (address start offset) r = .ok () s := by
  have hlt : start + offset < addressSpace := h ▸ position_lt hr
  rw [address_eq hlt, h]
  exact Read.seek_position hb ho
/-! ## The plan of the fields -/

theorem index_le_of_mem_plan {f : FieldLayout} {fs : List FieldDescriptor} {index slot : Nat}
    {offset : Option Nat} (h : f ∈ FieldLayout.plan index offset slot fs) : index ≤ f.index := by
  induction fs generalizing index offset slot with
  | nil => cases h
  | cons d fs ih =>
    obtain ⟨name,shape,version⟩ := d
    cases version with
    | none =>
      rcases List.mem_cons.mp h with rfl | h
      · exact Nat.le_refl index
      · exact Nat.le_of_succ_le (ih h)
    | some version =>
      rcases List.mem_cons.mp h with rfl | h
      · exact Nat.le_refl index
      · exact Nat.le_of_succ_le (ih h)

@[simp] theorem length_plan (fs : List FieldDescriptor) (index slot : Nat) (offset : Option Nat) :
    (FieldLayout.plan index offset slot fs).length = fs.length := by
  induction fs generalizing index slot offset with
  | nil => rfl
  | cons d fs ih =>
    obtain ⟨name,shape,version⟩ := d
    cases version with
    | none => exact congrArg (· + 1) (ih ..)
    | some version => exact congrArg (· + 1) (ih ..)

/-- The mandatory fields of a plan. -/
def mandatoryPlan (index : Nat) (offset : Option Nat) (slot : Nat) (fs : List FieldDescriptor) :
    List FieldLayout := (FieldLayout.plan index offset slot fs).filter fun f => !f.isCompatible

/-- The compatible fields of a plan. -/
def compatiblePlan (index : Nat) (offset : Option Nat) (slot : Nat) (fs : List FieldDescriptor) :
    List FieldLayout := (FieldLayout.plan index offset slot fs).filter (·.isCompatible)

/-- Where the last of some fields ends, if its offset and width are known. -/
def endOffset (fields : List FieldLayout) : Option Nat := do
  let last ← fields.getLast?
  pure ((← last.offset) + (← last.descriptor.fixedWidth))

theorem endOffset_cons (f : FieldLayout) {fields : List FieldLayout} (h : fields ≠ []) :
    endOffset (f :: fields) = endOffset fields := by
  unfold endOffset
  rw [List.getLast?_cons, List.getLast?_eq_some_getLast h]
  rfl

/-- An offset that is known is the position, counted from where the body begins. -/
def At (start : Nat) (offset : Option Nat) (r : Reader) : Prop :=
  ∀ n, offset = some n → start + n = r.position

/-- The offset behind a mandatory field. -/
def offsetBehind (offset : Option Nat) (shape : Descriptor) : Option Nat := do
  checked ((← offset) + (← shape.fixedWidth))

variable {start : Nat} {offset : Option Nat} {shape : Descriptor}

theorem At.zero (r : Reader) : At r.position (some 0) r := by
  intro n hn
  cases hn
  exact Nat.add_zero _

theorem At.add {n w : Nat} (h : At start offset r) (ho : offset = some n)
    (hw : shape.fixedWidth = some w) (hs : shape.skip r = .ok () s) :
    start + (n + w) = s.position := by
  obtain ⟨b,hb,hl⟩ := shape.takes_skip w hw r s hs
  have hp := h n ho
  have hq := hb.position_eq
  omega

theorem At.behind (h : At start offset r) (hs : shape.skip r = .ok () s) :
    At start (offsetBehind offset shape) s := by
  intro m hm
  obtain ⟨n,hn,hm⟩ := Option.bind_eq_some_iff.mp hm
  obtain ⟨w,hw,hm⟩ := Option.bind_eq_some_iff.mp hm
  obtain ⟨-,rfl⟩ := checked_eq_some.mp hm
  exact h.add hn hw hs

/-- An offset is known behind a field of a fixed width, if it is known there. -/
theorem isSome_offsetBehind {n w : Nat} (h : At start (some n) r) (hw : shape.fixedWidth = some w)
    (hs : shape.skip r = .ok () s) (hr : s.bytes.length < addressSpace) :
    (offsetBehind (some n) shape).isSome = true := by
  have hadd := h.add rfl hw hs
  have hlt := position_lt hr
  have hc : checked (n + w) = some (n + w) := checked_eq_some.mpr ⟨by omega,rfl⟩
  change (shape.fixedWidth.bind fun w => checked (n + w)).isSome = true
  rw [hw, Option.bind_some, hc]
  rfl

/-- A reader that is where another is, or that an offset will bring there. -/
def Near (offset : Option Nat) (r' r : Reader) : Prop :=
  r' = r ∨ offset.isSome = true ∧ r'.bytes = r.bytes ∧ r'.options = r.options

theorem Near.same {r' : Reader} (h : Near offset r' r) :
    r'.bytes = r.bytes ∧ r'.options = r.options := by
  rcases h with rfl | ⟨-,h⟩
  · exact ⟨rfl,rfl⟩
  · exact h

/-! ## The places of the fields -/

theorem pairwise_plan (fs : List FieldDescriptor) (index slot : Nat) (offset : Option Nat) :
    (FieldLayout.plan index offset slot fs).Pairwise fun f g => f.index < g.index := by
  induction fs generalizing index slot offset with
  | nil => exact .nil
  | cons d fs ih =>
    obtain ⟨name,shape,version⟩ := d
    cases version with
    | none => exact .cons (fun g hg => index_le_of_mem_plan hg) (ih ..)
    | some version => exact .cons (fun g hg => index_le_of_mem_plan hg) (ih ..)

theorem mem_plan_of_anyCompatible {fs : List FieldDescriptor}
    (h : Descriptor.anyCompatible fs = true) (index slot : Nat) (offset : Option Nat) :
    ∃ f ∈ FieldLayout.plan index offset slot fs, f.isCompatible = true := by
  induction fs generalizing index slot offset with
  | nil => cases h
  | cons d fs ih =>
    obtain ⟨name,shape,version⟩ := d
    cases version with
    | none =>
      obtain ⟨f,hf,hc⟩ := ih h (index + 1) slot (offsetBehind offset shape)
      exact ⟨f,List.mem_cons_of_mem _ hf,hc⟩
    | some version => exact ⟨_,List.mem_cons_self,rfl⟩

theorem eq_of_no_mandatory {fs : List FieldDescriptor} {index slot : Nat} {offset : Option Nat}
    {bs : List (List UInt8)} (h : Spread fs bs r s) (hn : mandatoryPlan index offset slot fs = []) :
    s = r := by
  induction fs generalizing index offset slot with
  | nil => exact h.2
  | cons d fs ih =>
    obtain ⟨name,shape,version⟩ := d
    cases version with
    | none => cases hn
    | some version => exact ih h hn

/-- The end of the last field, where it is known, is that of the mandatory fields. -/
theorem endOffset_of_spread {fs : List FieldDescriptor} {index slot n : Nat} {offset : Option Nat}
    {bs : List (List UInt8)} {mid : Reader} (h : Spread fs bs r mid) (ha : At start offset r)
    (hn : endOffset (mandatoryPlan index offset slot fs) = some n) : start + n = mid.position := by
  induction fs generalizing index slot offset bs r with
  | nil => cases hn
  | cons d fs ih =>
    obtain ⟨name,shape,version⟩ := d
    cases version with
    | some version => exact ih h ha hn
    | none =>
      obtain ⟨b,bs,t,rfl,hs,hb,h⟩ := h
      let f : FieldLayout := ⟨index,name,shape,.of shape,offset,none⟩
      let fields := mandatoryPlan (index + 1) (offsetBehind offset shape) slot fs
      change endOffset (f :: fields) = some n at hn
      by_cases hf : fields = []
      · rw [hf] at hn
        obtain ⟨m,hm,hn⟩ := Option.bind_eq_some_iff.mp hn
        obtain ⟨w,hw,hn⟩ := Option.bind_eq_some_iff.mp hn
        obtain rfl := Option.some.inj hn
        rw [eq_of_no_mandatory h hf]
        exact ha.add hm hw hs
      · rw [endOffset_cons f hf] at hn
        exact ih h (ha.behind hs) hn

end Extract
end RecordCodec
