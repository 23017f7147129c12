import RecordCodec.Proofs.FastPath

/-! # Where offsets stay within the address space

Behind a header of at most a few bytes each field begins where the fields before it end. As long as
the mandatory fields before a selected one end within the address space, no offset that leads to it
wraps around.
-/
namespace RecordCodec

/-- The most bytes that a header takes with its presence bitmap. -/
def Header.longest : Nat := width + Bytes.Varint.maxBytes + Presence.bytesFor maxSlots

namespace Read

variable {α β : Type} {x : Read α} {f : α → Read β} {n m : Nat}

/-- A success of the operation moves the reader by so many bytes at most. -/
def Within (n : Nat) (x : Read α) : Prop := ∀ r a s, x r = .ok a s → s.position ≤ r.position + n

theorem Within.pure (n : Nat) (a : α) : Within n (pure a) := by
  intro r b s hs
  obtain ⟨-,rfl⟩ := EStateM.pure_eq_ok.mp hs
  exact Nat.le_add_right _ n

theorem Within.throw (n : Nat) (e : Error) : Within n (throw e : Read α) := by
  rintro r a s ⟨⟩

theorem Within.fault (n : Nat) (e : Fault) : Within n (fault e : Read α) := .throw n _

theorem Within.bind {k : Nat} (h : Within n x) (hf : ∀ a, Within m (f a)) (hk : n + m ≤ k) :
    Within k (x >>= f) := by
  intro r b t ht
  obtain ⟨a,s,hs,ht⟩ := EStateM.bind_eq_ok.mp ht
  have hn := h r a s hs
  have hm := hf a s b t ht
  omega

theorem Within.ite {c : Prop} [Decidable c] {y : Read α} (h : Within n x) (k : Within n y) :
    Within n (if c then x else y) := by
  by_cases hc : c
  · rwa [if_pos hc]
  · rwa [if_neg hc]

theorem within_nat (width : Nat) : Within width (nat width) := by
  intro r n s hs
  obtain ⟨b,hb,hl⟩ := nat_passes hs
  rw [hb.position_eq, hl]

theorem within_varintGroups (weight low more : Nat) :
    Within (more + 1) (varintGroups weight low more) := by
  induction more generalizing weight low with
  | zero => exact (within_nat 1).bind (fun b => .ite (.fault 0 _) (.pure 0 _)) (Nat.le_refl 1)
  | succ more ih =>
    exact (within_nat 1).bind (m := more + 1) (fun b => .ite (.pure _ _) (ih _ _)) (by omega)

theorem within_presence :
    Within (Bytes.Varint.maxBytes + Presence.bytesFor maxSlots) Presence.read := by
  refine (within_varintGroups 1 0 _).bind (m := Presence.bytesFor maxSlots) (fun count => ?_)
    (Nat.le_refl _)
  split
  · rename_i hc
    refine (within_nat _).bind (m := 0) (fun bits => .ite (.pure 0 _) (.fault 0 _)) ?_
    unfold Presence.bytesFor
    omega
  · exact .fault _ _

end Read

namespace Record

open Read (Within)

theorem within_readHeader (l : Layout) : Within Header.longest (readHeader l) := by
  let rest : Nat := Bytes.Varint.maxBytes + Presence.bytesFor maxSlots
  have hslots (header : Header) : Within rest (if header.announcesBitmap then
      if l.isAggregate then do pure { presence := ← Presence.read }
      else Read.fault (.announcement l.typeName)
    else pure {} : Read Slots) :=
    .ite (.ite (Read.within_presence.bind (m := 0) (fun p => .pure 0 _) (Nat.le_refl _))
      (.fault _ _)) (.pure _ _)
  refine (Read.within_nat Header.width).bind (m := rest) (fun n => ?_) (by decide)
  exact .ite ((Within.throw 0 _).bind (fun _ => hslots _) (by omega)) (hslots _)

theorem position_le_longest {l : Layout} {o : Options} {bytes : List UInt8} {slots : Slots}
    {r : Reader} (h : readHeader l (.ofBytes o bytes) = .ok slots r) :
    r.position ≤ Header.longest := by
  have hle : r.position ≤ 0 + Header.longest := within_readHeader l _ _ _ h
  rwa [Nat.zero_add] at hle

end Record

/-! ## The fields of a layout -/

namespace Layout

open FieldLayout (widths)

variable {l : Layout} {f g : FieldLayout}

theorem exists_plan (l : Layout) :
    ∃ fs, l.fields = FieldLayout.plan 0 (some 0) 0 fs := by
  unfold fields
  split
  · exact ⟨_,rfl⟩
  · exact ⟨[],rfl⟩

theorem pairwise_fields (l : Layout) : l.fields.Pairwise fun f g => f.index < g.index := by
  obtain ⟨fs,h⟩ := l.exists_plan
  rw [h]
  exact Extract.pairwise_plan fs 0 0 (some 0)

theorem pairwise_mandatoryFields (l : Layout) :
    l.mandatoryFields.Pairwise fun f g => f.index < g.index := l.pairwise_fields.filter _

theorem planned_mandatoryFields (l : Layout) : Extract.Planned (some 0) l.mandatoryFields := by
  obtain ⟨fs,h⟩ := l.exists_plan
  unfold mandatoryFields
  rw [h]
  exact Extract.planned_mandatoryPlan fs 0 0 (some 0)

theorem nodup_index (l : Layout) : (l.fields.map (·.index)).Nodup :=
  List.pairwise_map.mpr (l.pairwise_fields.imp Nat.ne_of_lt)

theorem mem_mandatoryFields : f ∈ l.mandatoryFields ↔ f ∈ l.fields ∧ f.isCompatible = false := by
  unfold mandatoryFields
  simp

theorem mem_compatibleFields : f ∈ l.compatibleFields ↔ f ∈ l.fields ∧ f.isCompatible = true := by
  unfold compatibleFields
  simp

/-- The mandatory fields before a field: all of them, if it is compatible. -/
def preceding (l : Layout) (g : FieldLayout) : List FieldLayout :=
  l.mandatoryFields.filter fun f => g.isCompatible || f.index < g.index

/-- What holds of an item whenever it holds of a later one holds of the first ones. -/
theorem filter_isPrefix {α : Type} {p : α → Bool} {as : List α}
    (h : as.Pairwise fun a b => p b = true → p a = true) : as.filter p <+: as := by
  induction h with
  | nil => exact List.prefix_refl []
  | @cons a as ha _ ih =>
    cases hp : p a with
    | true =>
      rw [List.filter_cons_of_pos hp]
      exact (List.prefix_cons_inj a).mpr ih
    | false =>
      have hnone : (a :: as).filter p = [] := by
        refine List.filter_eq_nil_iff.mpr fun b hb hpb => ?_
        rcases List.mem_cons.mp hb with rfl | hb
        · rw [hp] at hpb
          cases hpb
        · rw [ha b hb hpb] at hp
          cases hp
      rw [hnone]
      exact List.nil_prefix

theorem preceding_isPrefix (l : Layout) (g : FieldLayout) : l.preceding g <+: l.mandatoryFields := by
  refine filter_isPrefix (l.pairwise_mandatoryFields.imp fun {f f'} hf hg => ?_)
  rw [Bool.or_eq_true, decide_eq_true_eq] at hg ⊢
  exact hg.imp id hf.trans

theorem preceding_eq {fs gs : List FieldLayout} (h : l.mandatoryFields = fs ++ f :: gs) :
    l.preceding f = fs := by
  have hf : f ∈ l.mandatoryFields := h ▸ List.mem_append_right fs List.mem_cons_self
  have hc := (mem_mandatoryFields.mp hf).2
  have hsorted := l.pairwise_mandatoryFields
  rw [h, List.pairwise_append, List.pairwise_cons] at hsorted
  obtain ⟨-,⟨hafter,-⟩,hbefore⟩ := hsorted
  have hfs : fs.filter (fun g => f.isCompatible || g.index < f.index) = fs := by
    refine List.filter_eq_self.mpr fun g hg => ?_
    rw [hc, Bool.false_or, decide_eq_true_eq]
    exact hbefore g hg f List.mem_cons_self
  have hgs : (f :: gs).filter (fun g => f.isCompatible || g.index < f.index) = [] := by
    refine List.filter_eq_nil_iff.mpr fun g hg => ?_
    rw [hc, Bool.false_or, decide_eq_true_eq, Nat.not_lt]
    rcases List.mem_cons.mp hg with rfl | hg
    · exact Nat.le_refl _
    · exact Nat.le_of_lt (hafter g hg)
  unfold preceding
  rw [h, List.filter_append, hfs, hgs, List.append_nil]

theorem preceding_append_isPrefix (hf : f ∈ l.mandatoryFields) :
    l.preceding f ++ [f] <+: l.mandatoryFields := by
  obtain ⟨fs,gs,h⟩ := List.append_of_mem hf
  rw [preceding_eq h, h]
  exact ⟨gs,List.append_assoc ..⟩

/-- In a body that begins at `start` the mandatory fields before each wanted field end within the
address space. -/
def Addressable (l : Layout) (start : Nat) (wanted : List Nat) : Prop :=
  ∀ g ∈ l.fields, wanted.contains g.index = true →
    start + widths (l.preceding g) < addressSpace

end Layout

end RecordCodec
