import RecordCodec.Proofs.Offsets

/-! # Mandatory fields are located where they are read

Wherever the mandatory fields are spread, every wanted one is found with its contents, though the
reader may have left fields of fixed widths unpassed; it then moves on by an offset. If every field
is wanted, none is left, and a success tells where all are.
-/
namespace RecordCodec
namespace Extract

open Read (seek)

variable {r s : Reader} {start : Nat}

/-- The wanted ones of some fields are located, and nothing else is, with their contents. -/
structure Finds (wanted : List Nat) (cs : List (Option (List UInt8))) (fields : List FieldLayout)
    (spans : List Span) : Prop where
  sound : ∀ sp ∈ spans, cs[sp.index]? = some sp.bytes
  complete : ∀ f ∈ fields, wanted.contains f.index = true → ∃ sp ∈ spans, sp.index = f.index

section Finding
variable {wanted : List Nat} {cs : List (Option (List UInt8))} {fields : List FieldLayout}
  {spans : List Span} {f : FieldLayout}

theorem Finds.cons_wanted {c : Option (List UInt8)} (h : Finds wanted cs fields spans)
    (hc : cs[f.index]? = some c) : Finds wanted cs (f :: fields) (⟨f.index,c⟩ :: spans) where
  sound := by
    intro sp hsp
    rcases List.mem_cons.mp hsp with rfl | hsp
    · exact hc
    · exact h.sound sp hsp
  complete := by
    intro g hg hw
    rcases List.mem_cons.mp hg with rfl | hg
    · exact ⟨_,List.mem_cons_self,rfl⟩
    · obtain ⟨sp,hsp,hi⟩ := h.complete g hg hw
      exact ⟨sp,List.mem_cons_of_mem _ hsp,hi⟩

theorem Finds.cons_unwanted (h : Finds wanted cs fields spans)
    (hf : wanted.contains f.index = false) : Finds wanted cs (f :: fields) spans where
  sound := h.sound
  complete := by
    intro g hg hw
    rcases List.mem_cons.mp hg with rfl | hg
    · rw [hf] at hw
      cases hw
    · exact h.complete g hg hw

def passing (wanted : List Nat) (f : FieldLayout) (later : Read (List Span)) : Read (List Span) := do
  let bytes ← consumed f.descriptor.skip
  let spans ← later
  pure (if wanted.contains f.index then ⟨f.index, some bytes⟩ :: spans else spans)

theorem passing_finds {later : Read (List Span)} {t : Reader} (hs : f.descriptor.skip r = .ok () t)
    (hb : r.Passes b t) (hl : later t = .ok spans s) (hc : cs[f.index]? = some (some b))
    (h : Finds wanted cs fields spans) :
    ∃ spans', passing wanted f later r = .ok spans' s ∧ Finds wanted cs (f :: fields) spans' := by
  have hp : passing wanted f later r =
      .ok (if wanted.contains f.index then ⟨f.index,some b⟩ :: spans else spans) s :=
    (EStateM.bind_of_ok _ (consumed_of_passes hs hb)).trans (EStateM.bind_of_ok _ hl)
  refine ⟨_,hp,?_⟩
  by_cases hw : wanted.contains f.index = true
  · rw [if_pos hw]
    exact h.cons_wanted hc
  · rw [if_neg hw]
    exact h.cons_unwanted (Bool.eq_false_iff.mpr hw)

end Finding

theorem mandatory_cons (wanted : List Nat) (start : Nat) (last : Option Nat) (passAll : Bool)
    (f : FieldLayout) (fields : List FieldLayout) :
    mandatory wanted start last passAll (f :: fields) =
      if (!passAll && last.all (· < f.index)) = true then pure []
      else
        match f.offset with
        | some offset =>
          if (!wanted.contains f.index && f.descriptor.fixedWidth.isSome) = true then
            mandatory wanted start last passAll fields
          else
            seek (address start offset) >>= fun _ =>
              passing wanted f (mandatory wanted start last passAll fields)
        | none => passing wanted f (mandatory wanted start last passAll fields) := rfl

theorem drop_eq_cons {α : Type} {l m : List α} {n : Nat} {a : α} (h : l.drop n = a :: m) :
    l[n]? = some a ∧ l.drop (n + 1) = m := by
  constructor
  · rw [← List.head?_drop, h]
    rfl
  · rw [← List.tail_drop, h]
    rfl

/-- Where the reader is behind some mandatory fields: where they end, or where the offset and the
width of the last one tell the end. -/
def Behind (fields : List FieldLayout) (r' s' r mid : Reader) : Prop :=
  s' = mid ∨ (s'.bytes = r.bytes ∧ s'.options = r.options) ∧
    ((endOffset fields).isSome = true ∨ fields = [] ∧ s' = r')

theorem Behind.cons {f : FieldLayout} {fields : List FieldLayout} {q r' s' t mid : Reader}
    (h : Behind fields r' s' t mid) (hb : t.bytes = r.bytes) (ho : t.options = r.options)
    (hl : fields = [] → s' = r' → s' = mid ∨ (endOffset [f]).isSome = true) :
    Behind (f :: fields) q s' r mid := by
  rcases h with rfl | ⟨⟨hy,hz⟩,he | ⟨rfl,hs⟩⟩
  · exact .inl rfl
  · have hn : fields ≠ [] := by
      rintro rfl
      cases he
    rw [← endOffset_cons f hn] at he
    exact .inr ⟨⟨hy.trans hb,hz.trans ho⟩,.inl he⟩
  · rcases hl rfl hs with hm | he
    · exact .inl hm
    · exact .inr ⟨⟨hy.trans hb,hz.trans ho⟩,.inl he⟩

def Reaches (wanted : List Nat) (last : Option Nat) (fields : List FieldLayout) : Prop :=
  ∀ f ∈ fields, wanted.contains f.index = true → ∃ n, last = some n ∧ f.index ≤ n

theorem Reaches.tail {wanted : List Nat} {last : Option Nat} {f : FieldLayout}
    {fields : List FieldLayout} (h : Reaches wanted last (f :: fields)) :
    Reaches wanted last fields := fun g hg => h g (List.mem_cons_of_mem f hg)

theorem Reaches.finds_nil {wanted : List Nat} {cs : List (Option (List UInt8))}
    {last : Option Nat} {fields : List FieldLayout} (h : Reaches wanted last fields)
    (hlast : ∀ f ∈ fields, last.all (· < f.index) = true) : Finds wanted cs fields [] where
  sound := by
    intro sp hsp
    cases hsp
  complete := by
    intro f hf hw
    obtain ⟨n,rfl,hle⟩ := h f hf hw
    have hlt : n < f.index := of_decide_eq_true (hlast f hf)
    omega

/-- From `r'` an operation locates the wanted ones of some mandatory fields that are spread from
`r` to `mid`. -/
def Locates (op : Read (List Span)) (wanted : List Nat) (cs : List (Option (List UInt8)))
    (passAll : Bool) (fields : List FieldLayout) (r' r mid : Reader) : Prop :=
  ∃ spans s', op r' = .ok spans s' ∧ Finds wanted cs fields spans ∧
    (passAll = true → Behind fields r' s' r mid)

section Locating

variable {op op' : Read (List Span)} {wanted : List Nat} {cs : List (Option (List UInt8))}
  {passAll : Bool} {f : FieldLayout} {fields : List FieldLayout} {b : List UInt8}
  {r' t mid : Reader}

theorem Locates.passing (h : Locates op wanted cs passAll fields t t mid)
    (hop : op' r' = Extract.passing wanted f op r) (hs : f.descriptor.skip r = .ok () t)
    (hb : r.Passes b t) (hc : cs[f.index]? = some (some b)) (hnil : fields = [] → mid = t) :
    Locates op' wanted cs passAll (f :: fields) r' r mid := by
  obtain ⟨spans,s',hm,hf,he⟩ := h
  obtain ⟨spans',hp,hf'⟩ := passing_finds hs hb hm hc hf
  refine ⟨spans',s',hop.trans hp,hf',fun hpa => (he hpa).cons hb.bytes_eq hb.options_eq ?_⟩
  rintro hn rfl
  exact .inl (hnil hn).symm

theorem Locates.leaving (h : Locates op wanted cs passAll fields r' t mid) (hb : r.Passes b t)
    (hw : wanted.contains f.index = false) (he : (endOffset [f]).isSome = true) :
    Locates op wanted cs passAll (f :: fields) r' r mid := by
  obtain ⟨spans,s',hm,hf,hend⟩ := h
  refine ⟨spans,s',hm,hf.cons_unwanted hw,fun hpa => ?_⟩
  exact (hend hpa).cons hb.bytes_eq hb.options_eq fun _ _ => .inr he

end Locating

/-- Where the mandatory fields are spread, the wanted ones are located. -/
theorem mandatory_of_spread (wanted : List Nat) (last : Option Nat) (passAll : Bool)
    (cs : List (Option (List UInt8))) (fs : List FieldDescriptor) {index slot : Nat}
    {offset : Option Nat} {bs : List (List UInt8)} {ps : List (Option (List UInt8))}
    {r r' mid : Reader} (h : Spread fs bs r mid) (ha : At start offset r) (hn : Near offset r' r)
    (hr : r.bytes.length < addressSpace) (hc : cs.drop index = contents fs bs ps)
    (hl : passAll = false → Reaches wanted last (mandatoryPlan index offset slot fs)) :
    Locates (mandatory wanted start last passAll (mandatoryPlan index offset slot fs)) wanted cs
      passAll (mandatoryPlan index offset slot fs) r' r mid := by
  -- the invariant is `Near`: the reader is at the field or has a known offset to it
  induction fs generalizing index slot offset bs ps r r' with
  | nil =>
    have hfind : Finds wanted cs [] [] := ⟨by rintro sp ⟨⟩,by rintro f ⟨⟩⟩
    exact ⟨[],r',rfl,hfind,fun _ => .inr ⟨hn.same,.inr ⟨rfl,rfl⟩⟩⟩
  | cons d fs ih =>
    obtain ⟨name,shape,version⟩ := d
    cases version with
    | some version => exact ih h ha hn hr (drop_eq_cons hc).2 hl
    | none =>
      obtain ⟨b,bs,t,rfl,hs,hb,h⟩ := h
      obtain ⟨hi,hd⟩ := drop_eq_cons hc
      let f : FieldLayout := ⟨index,name,shape,.of shape,offset,none⟩
      let fields := mandatoryPlan (index + 1) (offsetBehind offset shape) slot fs
      have hp : mandatoryPlan index offset slot (⟨name,shape,none⟩ :: fs) = f :: fields := rfl
      rw [hp] at hl ⊢
      rw [mandatory_cons]
      have hrt : t.bytes.length < addressSpace := hb.bytes_eq ▸ hr
      have ht : At start (offsetBehind offset shape) t := ha.behind hs
      have hlater (hpa : passAll = false) : Reaches wanted last fields := (hl hpa).tail
      by_cases hstop : (!passAll && last.all (· < f.index)) = true
      · -- nothing behind the last wanted field is wanted
        rw [if_pos hstop]
        rw [Bool.and_eq_true, Bool.not_eq_true'] at hstop
        have hlast (g : FieldLayout) (hg : g ∈ f :: fields) : last.all (· < g.index) = true := by
          have hle : index ≤ g.index := by
            rcases List.mem_cons.mp hg with rfl | hg
            · exact Nat.le_refl index
            · exact Nat.le_of_succ_le (index_le_of_mem_plan (List.mem_filter.mp hg).1)
          refine Option.all_eq_true _ _ |>.mpr fun n hn => ?_
          have hlt := (Option.all_eq_true _ _).mp hstop.2 n hn
          exact decide_eq_true (Nat.lt_of_lt_of_le (of_decide_eq_true hlt) hle)
        refine ⟨[],r',rfl,(hl hstop.1).finds_nil hlast,fun hpa => ?_⟩
        rw [hstop.1] at hpa
        cases hpa
      · rw [if_neg hstop]
        have hnil (hf : fields = []) : mid = t := eq_of_no_mandatory h hf
        have hthere := ih h ht (.inl rfl) hrt hd hlater
        cases offset with
        | none =>
          obtain rfl : r' = r := hn.resolve_right (by rintro ⟨⟨⟩,-⟩)
          exact hthere.passing rfl hs hb hi hnil
        | some n =>
          change Locates (if (!wanted.contains index && shape.fixedWidth.isSome) = true then
              mandatory wanted start last passAll fields
            else seek (address start n) >>= fun _ =>
              passing wanted f (mandatory wanted start last passAll fields)) wanted cs passAll
            (f :: fields) r' r mid
          by_cases hlazy : (!wanted.contains index && shape.fixedWidth.isSome) = true
          · -- the reader stays, and the field behind has an offset
            rw [if_pos hlazy]
            rw [Bool.and_eq_true, Bool.not_eq_true'] at hlazy
            obtain ⟨w,hw⟩ := Option.isSome_iff_exists.mp hlazy.2
            have hnear : Near (offsetBehind (some n) shape) r' t :=
              .inr ⟨isSome_offsetBehind ha hw hs hrt,hn.same.1.trans hb.bytes_eq.symm,
                hn.same.2.trans hb.options_eq.symm⟩
            have hend : (endOffset [f]).isSome = true := by
              change (shape.fixedWidth.bind fun w => some (n + w)).isSome = true
              rw [hw]
              rfl
            exact (ih h ht hnear hrt hd hlater).leaving hb hlazy.1 hend
          · rw [if_neg hlazy]
            have hseek := seek_address (ha n rfl) hr hn.same.1 hn.same.2
            exact hthere.passing (EStateM.bind_of_ok _ hseek) hs hb hi hnil

theorem spread_of_mandatory {wanted : List Nat} {last : Option Nat} {passAll : Bool}
    (fs : List FieldDescriptor) {index slot : Nat} {offset : Option Nat} {spans : List Span}
    (ha : At start offset r) (hr : r.bytes.length < addressSpace)
    (hw : ∀ f ∈ mandatoryPlan index offset slot fs, wanted.contains f.index = true)
    (hl : Reaches wanted last (mandatoryPlan index offset slot fs))
    (h : mandatory wanted start last passAll (mandatoryPlan index offset slot fs) r = .ok spans s) :
    ∃ bs, Spread fs bs r s := by
  induction fs generalizing index slot offset spans r with
  | nil =>
    obtain ⟨-,rfl⟩ := EStateM.pure_eq_ok.mp h
    exact ⟨[],rfl,rfl⟩
  | cons d fs ih =>
    obtain ⟨name,shape,version⟩ := d
    cases version with
    | some version => exact ih ha hr hw hl h
    | none =>
      let f : FieldLayout := ⟨index,name,shape,.of shape,offset,none⟩
      let fields := mandatoryPlan (index + 1) (offsetBehind offset shape) slot fs
      change ∀ g ∈ f :: fields, wanted.contains g.index = true at hw
      change Reaches wanted last (f :: fields) at hl
      change mandatory wanted start last passAll (f :: fields) r = .ok spans s at h
      have hf : wanted.contains f.index = true := hw f List.mem_cons_self
      obtain ⟨n,rfl,hle⟩ := hl f List.mem_cons_self hf
      have hgo : ¬(!passAll && Option.all (· < f.index) (some n)) = true := by
        rw [Bool.and_eq_true]
        rintro ⟨-,hlt⟩
        exact absurd (of_decide_eq_true hlt) (Nat.not_lt.mpr hle)
      have hpass :
          passing wanted f (mandatory wanted start (some n) passAll fields) r = .ok spans s := by
        rw [mandatory_cons, if_neg hgo] at h
        cases offset with
        | none => exact h
        | some o =>
          change (if (!wanted.contains f.index && shape.fixedWidth.isSome) = true then
              mandatory wanted start (some n) passAll fields
            else seek (address start o) >>= fun _ =>
              passing wanted f (mandatory wanted start (some n) passAll fields)) r = _ at h
          rw [hf] at h
          have hseek : seek (address start o) r = .ok () r := seek_address (ha o rfl) hr rfl rfl
          exact (EStateM.bind_of_ok _ hseek).symm.trans h
      obtain ⟨b,t,ht,hpass⟩ := EStateM.bind_eq_ok.mp hpass
      obtain ⟨rest,u,hu,hpass⟩ := EStateM.bind_eq_ok.mp hpass
      obtain ⟨-,rfl⟩ := EStateM.pure_eq_ok.mp hpass
      obtain ⟨hs,hb⟩ := consumed_eq_ok shape.local_skip ht
      obtain ⟨bs,hm⟩ := ih (ha.behind hs) (hb.bytes_eq ▸ hr)
        (fun g hg => hw g (List.mem_cons_of_mem f hg)) hl.tail hu
      exact ⟨b :: bs,b,bs,t,rfl,hs,hb,hm⟩

end Extract
end RecordCodec
