import RecordCodec.Proofs.Evolution

/-! # Sets and maps out of counted entries

A set or a map is read entry by entry into a collection that refuses an entry if it has one alike.
What comes of it does not depend on the kind of collection. It is read exactly if no two entries are
alike, it holds these entries and no others, and their order in the bytes leaves no trace; a
collection that keeps its entries in order is written again in that order. This is shown for trees
under any lawful order, for hash tables under any lawful equality and hash, and for the sorted
sequences that stand for sets and maps of values.
-/
namespace RecordCodec

open Read (Gives)

/-- A kind of collection: which entries it takes for alike, when two collections are the same, what
every collection satisfies, and how an entry is put in. -/
structure Container (α C : Type) where
  alike : α → α → Prop
  same : C → C → Prop
  valid : C → Prop
  entries : C → List α
  empty : C
  insert? : α → C → Option C

namespace Container

variable {α C : Type}

/-- Reads `n` entries into a collection; one like an entry that is there already is a fault. -/
def gather (K : Container α C) (item : Read α) : (n : Nat) → (c : C) → Read C
  | 0, c => pure c
  | n + 1, c => do
    let a ← item
    match K.insert? a c with
    | some c => K.gather item n c
    | none => Read.fault .duplicate

def decode (K : Container α C) (item : Read α) : Read C := do
  let n ← Read.length
  K.gather item n K.empty

def encode (K : Container α C) (write : α → Except Error (List Emission)) (c : C) :
    Except Error (List Emission) := do
  pure (.varint (K.entries c).length :: (← (K.entries c).mapM write).flatten)

/-- No two entries are alike. -/
def Distinct (K : Container α C) (as : List α) : Prop := as.Pairwise fun a b => ¬K.alike a b

/-- What makes a kind of collection one that neither loses nor invents entries. -/
structure Lawful (K : Container α C) : Prop where
  symm {a b : α} : K.alike a b → K.alike b a
  valid_empty : K.valid K.empty
  entries_empty : K.entries K.empty = []
  refused_iff {a : α} {c : C} : K.valid c → (K.insert? a c = none ↔ ∃ b ∈ K.entries c, K.alike a b)
  kept {a : α} {c d : C} : K.valid c → K.insert? a c = some d →
    K.valid d ∧ (K.entries d).Perm (a :: K.entries c)
  same_of_perm {c d : C} : K.valid c → K.valid d → (K.entries c).Perm (K.entries d) → K.same c d

/-- A kind of collection that keeps its entries in order. -/
structure Ordered (K : Container α C) (lt : α → α → Prop) : Prop extends K.Lawful where
  ascending {c : C} : K.valid c → (K.entries c).Pairwise lt
  entries_of_same {c d : C} : K.same c d → K.entries c = K.entries d

/-! ## Reading the entries -/

/-- Each of the byte strings reads as the entry at its place. -/
def Each (o : Options) (item : Read α) (bs : List (List UInt8)) (as : List α) : Prop :=
  List.Forall₂ (fun b a => Gives o item b (.ok a)) bs as

def counted (bs : List (List UInt8)) : List UInt8 := Bytes.Varint.encode bs.length ++ bs.flatten

section Run
variable {K : Container α C} {o : Options} {item : Read α} {bs bs' : List (List UInt8)}
  {as as' : List α} {c : C}

theorem Lawful.distinct_perm (hK : K.Lawful) (hp : as.Perm as') : K.Distinct as ↔ K.Distinct as' := by
  apply List.Perm.pairwise_iff _ hp
  intro a b hab hba
  exact hab (hK.symm hba)

/-- What becomes of a collection that is given the entries: the union if no two of all are alike,
and a fault otherwise. -/
theorem gives_gather (hK : K.Lawful) (h : Each o item bs as) (hv : K.valid c)
    (hd : K.Distinct (K.entries c)) :
    (K.Distinct (as ++ K.entries c) → ∃ d, Gives o (K.gather item as.length c) bs.flatten (.ok d) ∧
      K.valid d ∧ (K.entries d).Perm (as ++ K.entries c)) ∧
    (¬K.Distinct (as ++ K.entries c) →
      Gives o (K.gather item as.length c) bs.flatten (.error (.invalidData .duplicate))) := by
  induction h generalizing c with
  | nil => exact ⟨fun _ => ⟨c,Gives.pure o c,hv,.refl _⟩,fun hn => absurd hd hn⟩
  | @cons b a bs as hb h ih =>
    cases hi : K.insert? a c with
    | none =>
      obtain ⟨b',hb',halike⟩ := (hK.refused_iff hv).mp hi
      have hnot : ¬K.Distinct (a :: as ++ K.entries c) := by
        intro hp
        exact (List.pairwise_cons.mp hp).1 b' (List.mem_append_right as hb') halike
      refine ⟨fun hp => absurd hp hnot,fun _ => hb.bind_ok ?_⟩
      simp only [hi]
      exact Gives.fault o _ _
    | some d =>
      obtain ⟨hvd,hperm⟩ := hK.kept hv hi
      have hfresh : ∀ b' ∈ K.entries c, ¬K.alike a b' := by
        intro b' hb' halike
        have hnone := (hK.refused_iff hv).mpr ⟨b',hb',halike⟩
        rw [hi] at hnone
        cases hnone
      have hdd : K.Distinct (K.entries d) :=
        (hK.distinct_perm hperm).mpr (List.pairwise_cons.mpr ⟨hfresh,hd⟩)
      have hunion : (as ++ K.entries d).Perm (a :: as ++ K.entries c) :=
        (hperm.append_left as).trans List.perm_middle
      obtain ⟨hok,herror⟩ := ih hvd hdd
      constructor
      · intro hp
        obtain ⟨u,hu,hvu,hpu⟩ := hok ((hK.distinct_perm hunion).mpr hp)
        refine ⟨u,hb.bind_ok ?_,hvu,hpu.trans hunion⟩
        simpa only [hi] using hu
      · intro hn
        refine hb.bind_ok ?_
        simpa only [hi] using herror fun hp => hn ((hK.distinct_perm hunion).mp hp)

theorem gives_counted {β : Type} {next : Nat → Read β} {out : Except Error β}
    (ho : o.maxLength < addressSpace) (h : Each o item bs as) (hl : as.length ≤ o.maxLength)
    (hg : Gives o (next as.length) bs.flatten out) :
    Gives o (Read.length >>= next) (counted bs) out := by
  have hlength := Read.gives_length (Nat.lt_of_le_of_lt hl ho) hl
  unfold counted
  rw [h.length_eq]
  exact hlength.bind_ok hg

theorem gives_decode_of_distinct (hK : K.Lawful) (ho : o.maxLength < addressSpace)
    (h : Each o item bs as) (hl : as.length ≤ o.maxLength) (hd : K.Distinct as) :
    ∃ c, Gives o (K.decode item) (counted bs) (.ok c) ∧ K.valid c ∧ (K.entries c).Perm as := by
  have hrun := gives_gather (c := K.empty) hK h hK.valid_empty
  rw [hK.entries_empty, List.append_nil] at hrun
  obtain ⟨c,hc,hv,hp⟩ := (hrun List.Pairwise.nil).1 hd
  exact ⟨c,gives_counted ho h hl hc,hv,hp⟩

theorem gives_decode_of_repetition (hK : K.Lawful) (ho : o.maxLength < addressSpace)
    (h : Each o item bs as) (hl : as.length ≤ o.maxLength) (hr : ¬K.Distinct as) :
    Gives o (K.decode item) (counted bs) (.error (.invalidData .duplicate)) := by
  have hrun := gives_gather (c := K.empty) hK h hK.valid_empty
  rw [hK.entries_empty, List.append_nil] at hrun
  exact gives_counted ho h hl ((hrun List.Pairwise.nil).2 hr)

theorem not_gives_error {β : Type} {x : Read β} {b : List UInt8} {a : β} {e : Error}
    (h : Gives o x b (.ok a)) (k : Gives o x b (.error e)) : False := by
  obtain ⟨s,hs,-⟩ := h.ok (r := .ofBytes o b) rfl (List.prefix_refl b)
  obtain ⟨t,ht⟩ := k (.ofBytes o b) rfl (List.prefix_refl b)
  rw [hs] at ht
  cases ht

theorem entries_of_gives (hK : K.Lawful) (ho : o.maxLength < addressSpace) (h : Each o item bs as)
    (hl : as.length ≤ o.maxLength) (hc : Gives o (K.decode item) (counted bs) (.ok c)) :
    K.Distinct as ∧ K.valid c ∧ (K.entries c).Perm as := by
  by_cases hd : K.Distinct as
  · obtain ⟨d,hg,hv,hp⟩ := gives_decode_of_distinct hK ho h hl hd
    obtain ⟨rfl,-⟩ := hc.unique hg (y := []) (z := []) rfl
    exact ⟨hd,hv,hp⟩
  · exact (not_gives_error hc (gives_decode_of_repetition hK ho h hl hd)).elim

end Run

/-! ## What a decoder makes of entries in any order -/

/-- A decoder that reads a count and entries, for all entries that the options allow: it succeeds
exactly if no two of them are alike, with the entries as they are, whatever their order; a repetition
is a fault. -/
structure Collects (K : Container α C) (o : Options) (item : Read α) (decode : Read C) : Prop where
  succeeds_iff {bs : List (List UInt8)} {as : List α} (h : Each o item bs as)
    (hl : as.length ≤ o.maxLength) :
    (∃ c, Gives o decode (counted bs) (.ok c)) ↔ as.Pairwise fun a b => ¬K.alike a b
  entries {bs : List (List UInt8)} {as : List α} {c : C} (h : Each o item bs as)
    (hl : as.length ≤ o.maxLength) (hc : Gives o decode (counted bs) (.ok c)) :
    (K.entries c).length = as.length ∧ (K.entries c).Perm as
  repetition {bs : List (List UInt8)} {as : List α} (h : Each o item bs as)
    (hl : as.length ≤ o.maxLength) (hr : ¬as.Pairwise fun a b => ¬K.alike a b) :
    Gives o decode (counted bs) (.error (.invalidData .duplicate))
  permuted {bs bs' : List (List UInt8)} {as as' : List α} {c : C} (h : Each o item bs as)
    (h' : Each o item bs' as') (hp : as'.Perm as) (hl : as.length ≤ o.maxLength)
    (hc : Gives o decode (counted bs) (.ok c)) :
    ∃ d, Gives o decode (counted bs') (.ok d) ∧ K.same c d

theorem Lawful.collects {K : Container α C} (hK : K.Lawful) {o : Options}
    (ho : o.maxLength < addressSpace) (item : Read α) : K.Collects o item (K.decode item) where
  succeeds_iff h hl := by
    constructor
    · rintro ⟨c,hc⟩
      exact (entries_of_gives hK ho h hl hc).1
    · intro hd
      obtain ⟨c,hc,-⟩ := gives_decode_of_distinct hK ho h hl hd
      exact ⟨c,hc⟩
  entries h hl hc := by
    have hp := (entries_of_gives hK ho h hl hc).2.2
    exact ⟨hp.length_eq,hp⟩
  repetition h hl hr := gives_decode_of_repetition hK ho h hl hr
  permuted h h' hp hl hc := by
    obtain ⟨hd,hv,hpc⟩ := entries_of_gives hK ho h hl hc
    have hl' := hp.length_eq ▸ hl
    obtain ⟨d,hg,hvd,hpd⟩ := gives_decode_of_distinct hK ho h' hl' ((hK.distinct_perm hp).mpr hd)
    exact ⟨d,hg,hK.same_of_perm hv hvd (hpc.trans (hpd.trans hp).symm)⟩

/-- What is read is written again in ascending order, so that entries in any order come to the same
pieces. -/
structure Rewrites (K : Container α C) (lt : α → α → Prop) (o : Options) (item : Read α)
    (decode : Read C) (write : α → Except Error (List Emission))
    (encode : C → Except Error (List Emission)) : Prop where
  ascending {bs : List (List UInt8)} {as : List α} {c : C} (h : Each o item bs as)
    (hl : as.length ≤ o.maxLength) (hc : Gives o decode (counted bs) (.ok c)) :
    ∃ sorted : List α, sorted.Perm as ∧ sorted.Pairwise lt ∧
      encode c = do pure (.varint sorted.length :: (← sorted.mapM write).flatten)
  identical {bs bs' : List (List UInt8)} {as as' : List α} {c d : C} (h : Each o item bs as)
    (h' : Each o item bs' as') (hp : as'.Perm as) (hl : as.length ≤ o.maxLength)
    (hc : Gives o decode (counted bs) (.ok c)) (hd : Gives o decode (counted bs') (.ok d)) :
    encode c = encode d

theorem Ordered.rewrites {K : Container α C} {lt : α → α → Prop} (hK : K.Ordered lt) {o : Options}
    (ho : o.maxLength < addressSpace) (item : Read α) {write : α → Except Error (List Emission)}
    {encode : C → Except Error (List Emission)}
    (he : ∀ c, K.valid c → encode c = K.encode write c) :
    K.Rewrites lt o item (K.decode item) write encode where
  ascending {bs as c} h hl hc := by
    obtain ⟨-,hv,hp⟩ := entries_of_gives hK.toLawful ho h hl hc
    exact ⟨K.entries c,hp,hK.ascending hv,he c hv⟩
  identical {bs bs' as as' c d} h h' hp hl hc hd := by
    obtain ⟨-,hvc,hpc⟩ := entries_of_gives hK.toLawful ho h hl hc
    obtain ⟨-,hvd,hpd⟩ := entries_of_gives hK.toLawful ho h' (hp.length_eq ▸ hl) hd
    have hsame := hK.same_of_perm hvc hvd (hpc.trans (hpd.trans hp).symm)
    rw [he c hvc, he d hvd]
    unfold Container.encode
    rw [hK.entries_of_same hsame]

/-! ## Collections of any type -/

section Tables
variable {β : Type}

def treeSet (cmp : α → α → Ordering) : Container α (Std.TreeSet α cmp) where
  alike a b := cmp a b = .eq
  same c d := c.Equiv d
  valid _ := True
  entries c := c.toList
  empty := ∅
  insert? a c := if c.contains a then none else some (c.insert a)

def treeMap (cmp : α → α → Ordering) : Container (α × β) (Std.TreeMap α β cmp) where
  alike a b := cmp a.1 b.1 = .eq
  same c d := c.Equiv d
  valid _ := True
  entries c := c.toList
  empty := ∅
  insert? a c := if c.contains a.1 then none else some (c.insert a.1 a.2)

def hashSet [BEq α] [Hashable α] : Container α (Std.HashSet α) where
  alike a b := (a == b) = true
  same c d := c.Equiv d
  valid _ := True
  entries c := c.toList
  empty := ∅
  insert? a c := if c.contains a then none else some (c.insert a)

def hashMap [BEq α] [Hashable α] : Container (α × β) (Std.HashMap α β) where
  alike a b := (a.1 == b.1) = true
  same c d := c.Equiv d
  valid _ := True
  entries c := c.toList
  empty := ∅
  insert? a c := if c.contains a.1 then none else some (c.insert a.1 a.2)

theorem guarded_eq_none {p : Prop} [Decidable p] {c : C} :
    (if p then none else some c) = none ↔ p := by
  by_cases hp : p <;> simp [hp]

theorem guarded_eq_some {p : Prop} [Decidable p] {c d : C}
    (h : (if p then none else some c) = some d) : ¬p ∧ c = d := by
  by_cases hp : p
  · simp [hp] at h
  · exact ⟨hp,by simpa [hp] using h⟩

/-- A new key is alike to none of a map, so that no entry makes way for its own. -/
theorem perm_of_fresh [BEq α] {l m : List (α × β)} {k : α} {v : β}
    (hm : m.Perm ((k,v) :: l.filter fun e => decide (¬(k == e.1) = true)))
    (hk : ∀ e ∈ l, ¬(k == e.1) = true) : m.Perm ((k,v) :: l) := by
  have hall : l.filter (fun e => decide (¬(k == e.1) = true)) = l := by
    apply List.filter_eq_self.mpr
    intro e he
    exact decide_eq_true (hk e he)
  rwa [hall] at hm

section Trees
variable (cmp : α → α → Ordering)

abbrev byOrder : BEq α := ⟨fun a b => cmp a b == .eq⟩

theorem lawful_byOrder : @Std.LawfulBEqCmp α (byOrder cmp) cmp :=
  letI := byOrder cmp
  { compare_eq_iff_beq := beq_iff_eq.symm }

variable [Std.TransCmp cmp]

theorem treeSet_contains_iff (c : Std.TreeSet α cmp) (a : α) :
    c.contains a = true ↔ ∃ b ∈ c.toList, cmp a b = .eq := by
  let _ := byOrder cmp
  have _ := lawful_byOrder cmp
  rw [← Std.TreeSet.contains_toList, List.contains_iff_exists_mem_beq]
  exact exists_congr fun b => and_congr_right fun _ => Std.LawfulBEqCmp.compare_eq_iff_beq.symm

theorem treeMap_contains_iff (c : Std.TreeMap α β cmp) (a : α) :
    c.contains a = true ↔ ∃ e ∈ c.toList, cmp a e.1 = .eq := by
  let _ := byOrder cmp
  have _ := lawful_byOrder cmp
  rw [← Std.TreeMap.contains_keys, ← Std.TreeMap.map_fst_toList_eq_keys, List.contains_map,
    List.any_eq_true]
  exact exists_congr fun e => and_congr_right fun _ => Std.LawfulBEqCmp.compare_eq_iff_beq.symm

theorem treeSet_ordered : (treeSet cmp).Ordered fun a b => cmp a b = .lt where
  symm h := Std.OrientedCmp.eq_symm h
  valid_empty := trivial
  entries_empty := rfl
  refused_iff _ := guarded_eq_none.trans (treeSet_contains_iff cmp _ _)
  kept {a c d} _ h := by
    obtain ⟨hfresh,rfl⟩ := guarded_eq_some h
    let _ := byOrder cmp
    have _ := lawful_byOrder cmp
    have hp := Std.TreeSet.toList_insert_perm (t := c) (k := a)
    rw [if_neg (mt Std.TreeSet.contains_iff_mem.mpr hfresh)] at hp
    exact ⟨trivial,hp⟩
  same_of_perm _ _ h := Std.TreeSet.Equiv.of_toList_perm h
  ascending _ := Std.TreeSet.ordered_toList
  entries_of_same h := Std.TreeSet.Equiv.toList_eq h

theorem treeMap_ordered : (treeMap (β := β) cmp).Ordered fun a b => cmp a.1 b.1 = .lt where
  symm h := Std.OrientedCmp.eq_symm h
  valid_empty := trivial
  entries_empty := rfl
  refused_iff _ := guarded_eq_none.trans (treeMap_contains_iff cmp _ _)
  kept {a c d} _ h := by
    obtain ⟨hfresh,rfl⟩ := guarded_eq_some h
    let _ := byOrder cmp
    have _ := lawful_byOrder cmp
    have hp := Std.TreeMap.toList_insert_perm (t := c) (k := a.1) (v := a.2)
    refine ⟨trivial,perm_of_fresh hp ?_⟩
    intro e he hae
    exact hfresh ((treeMap_contains_iff cmp c a.1).mpr ⟨e,he,beq_iff_eq.mp hae⟩)
  same_of_perm _ _ h := Std.TreeMap.Equiv.of_toList_perm h
  ascending {c} _ := Std.TreeMap.ordered_keys_toList (t := c)
  entries_of_same h := Std.TreeMap.Equiv.toList_eq h

end Trees

section Hashes
variable [BEq α] [Hashable α] [EquivBEq α] [LawfulHashable α]

theorem hashSet_lawful : (hashSet (α := α)).Lawful where
  symm h := BEq.symm h
  valid_empty := trivial
  entries_empty := Std.HashSet.toList_empty
  refused_iff {a c} _ := by
    refine guarded_eq_none.trans ?_
    rw [← Std.HashSet.contains_toList, List.contains_iff_exists_mem_beq]
    rfl
  kept {a c d} _ h := by
    obtain ⟨hfresh,rfl⟩ := guarded_eq_some h
    have hp := Std.HashSet.toList_insert_perm (m := c) (k := a)
    rw [if_neg (mt Std.HashSet.contains_iff_mem.mpr hfresh)] at hp
    exact ⟨trivial,hp⟩
  same_of_perm _ _ h := Std.HashSet.Equiv.of_toList_perm h

theorem hashMap_contains_iff (c : Std.HashMap α β) (a : α) :
    c.contains a = true ↔ ∃ e ∈ c.toList, (a == e.1) = true := by
  rw [← Std.HashMap.contains_keys, ← Std.HashMap.map_fst_toList_eq_keys, List.contains_map,
    List.any_eq_true]

theorem hashMap_lawful : (hashMap (α := α) (β := β)).Lawful where
  symm h := BEq.symm h
  valid_empty := trivial
  entries_empty := Std.HashMap.toList_empty
  refused_iff _ := guarded_eq_none.trans (hashMap_contains_iff _ _)
  kept {a c d} _ h := by
    obtain ⟨hfresh,rfl⟩ := guarded_eq_some h
    have hp := Std.HashMap.toList_insert_perm (m := c) (k := a.1) (v := a.2)
    refine ⟨trivial,perm_of_fresh hp ?_⟩
    intro e he hae
    exact hfresh ((hashMap_contains_iff c a.1).mpr ⟨e,he,hae⟩)
  same_of_perm _ _ h := Std.HashMap.Equiv.of_toList_perm h

end Hashes
end Tables

/-! ## Collections of values -/

def items : Value → List Value
  | .sequence vs => vs
  | _ => []

def ascending (view : Value → Value) : Container Value Value where
  alike a b := view a = view b
  same := Eq
  valid c := ∃ vs, c = .sequence vs ∧ Value.Ascends view vs
  entries := items
  empty := .sequence []
  insert? v c := Value.sequence <$> Value.insert? view v (items c)

theorem ascending_ordered (view : Value → Value) :
    (ascending view).Ordered fun a b => Value.compare (view a) (view b) = .lt where
  symm h := h.symm
  valid_empty := ⟨[],rfl,List.Pairwise.nil⟩
  entries_empty := rfl
  refused_iff {v c} hv := by
    obtain ⟨vs,rfl,ha⟩ := hv
    change Value.sequence <$> Value.insert? view v vs = none ↔ ∃ w ∈ vs, view v = view w
    by_cases hm : view v ∈ vs.map view
    · obtain ⟨w,hw,hwv⟩ := List.mem_map.mp hm
      rw [Value.insert?_of_mem ha hm]
      exact ⟨fun _ => ⟨w,hw,hwv.symm⟩,fun _ => rfl⟩
    · obtain ⟨t,ht,-⟩ := Value.insert?_of_not_mem ha hm
      rw [ht]
      constructor
      · rintro ⟨⟩
      · rintro ⟨w,hw,hvw⟩
        exact absurd (hvw ▸ List.mem_map_of_mem hw) hm
  kept {v c d} hv h := by
    obtain ⟨vs,rfl,ha⟩ := hv
    change Value.sequence <$> Value.insert? view v vs = some d at h
    by_cases hm : view v ∈ vs.map view
    · rw [Value.insert?_of_mem ha hm] at h
      cases h
    · obtain ⟨t,ht,hta,htp⟩ := Value.insert?_of_not_mem ha hm
      rw [ht] at h
      obtain rfl := Option.some.inj h
      exact ⟨⟨t,rfl,hta⟩,htp⟩
  same_of_perm {c d} hc hd hp := by
    obtain ⟨vs,rfl,ha⟩ := hc
    obtain ⟨ws,rfl,hb⟩ := hd
    exact congrArg Value.sequence (ha.eq_of_perm hb hp)
  ascending {c} hc := by
    obtain ⟨vs,rfl,ha⟩ := hc
    exact ha
  entries_of_same h := congrArg items h

theorem gather_ascending (view : Value → Value) (item : Read Value) (n : Nat) (vs : List Value) :
    (ascending view).gather item n (.sequence vs) =
      Value.sequence <$> Read.distinct view item n vs := by
  induction n generalizing vs with
  | zero => rfl
  | succ n ih =>
    unfold gather Read.distinct
    rw [map_bind]
    refine congrArg (item >>= ·) (funext fun v => ?_)
    have hi : (ascending view).insert? v (.sequence vs) =
      Value.sequence <$> Value.insert? view v vs := rfl
    rw [hi]
    cases Value.insert? view v vs with
    | none => rfl
    | some ws => exact ih ws

theorem decode_set (t : Schema) : (Schema.set t).decode = (ascending id).decode t.decode := by
  unfold decode
  exact congrArg _ (funext fun n => (gather_ascending id t.decode n []).symm)

def entry (key value : Read Value) : Read Value := do
  let k ← key
  let v ← value
  pure (Value.entry k v)

theorem decode_map (k v : Schema) :
    (Schema.map k v).decode = (ascending Value.key).decode (entry k.decode v.decode) := by
  unfold decode
  exact congrArg _ (funext fun n => (gather_ascending Value.key _ n []).symm)

theorem encode_set_of_valid (t : Schema) (c : Value) (hc : (ascending id).valid c) :
    (Schema.set t).encode c = (ascending id).encode t.encode c := by
  obtain ⟨vs,rfl,-⟩ := hc
  rfl

theorem encode_map_of_valid (k v : Schema) (c : Value) (hc : (ascending Value.key).valid c) :
    (Schema.map k v).encode c =
      (ascending Value.key).encode (Schema.encodeEntry k.encode v.encode) c := by
  obtain ⟨vs,rfl,-⟩ := hc
  rfl

/-! ## Encodings of entries -/

section Encodings
variable {o : Options} {item : Read Value} {write : Value → Except Error (List Emission)}
  {f : Value → Value}

theorem each_of_mapM {vs : List Value}
    (h : ∀ v ∈ vs, ∃ es, write v = .ok es ∧ Gives o item (Emission.allBytes es) (.ok (f v))) :
    ∃ ess, vs.mapM write = .ok ess ∧ Each o item (ess.map Emission.allBytes) (vs.map f) := by
  induction vs with
  | nil => exact ⟨[],rfl,.nil⟩
  | cons v vs ih =>
    obtain ⟨es,he,hg⟩ := h v List.mem_cons_self
    obtain ⟨ess,hes,heach⟩ := ih fun w hw => h w (List.mem_cons_of_mem v hw)
    refine ⟨es :: ess,?_,.cons hg heach⟩
    rw [List.mapM_cons, he, hes]
    rfl

theorem gives_encode (ho : o.maxLength < addressSpace) {t : Schema} {v : Value}
    (hf : Fits o (t,v)) (hd : t.distinct (t.reset v) = true) :
    ∃ es, t.encode v = .ok es ∧ Gives o t.decode (Emission.allBytes es) (.ok (t.reset v)) := by
  have hself := Schema.delivers ho t t v (Schema.related_self hf.wellFormed) hf.wellFormed hf
  rw [Schema.project_self hf.admits, hd] at hself
  exact hself

theorem gives_encodeEntry (ho : o.maxLength < addressSpace) {k t : Schema} {key v : Value}
    (hk : Fits o (k,key)) (hkd : k.distinct (k.reset key) = true) (hv : Fits o (t,v))
    (hvd : t.distinct (t.reset v) = true) :
    ∃ es, Schema.encodeEntry k.encode t.encode (Value.entry key v) = .ok es ∧
      Gives o (entry k.decode t.decode) (Emission.allBytes es)
        (.ok (Value.mapEntry k.reset t.reset (Value.entry key v))) := by
  obtain ⟨es,he,hg⟩ := gives_encode ho hk hkd
  obtain ⟨fs,hf,hh⟩ := gives_encode ho hv hvd
  refine ⟨es ++ fs,?_,?_⟩
  · change (do pure ((← k.encode key) ++ (← t.encode v))) = _
    rw [he, hf]
    rfl
  · rw [Emission.allBytes_append]
    exact hg.bind_ok (hh.bind_nil (Gives.pure o _))

end Encodings

/-! ## All sets and maps -/

section Values
variable {o : Options} (ho : o.maxLength < addressSpace)
include ho

theorem collects_set (t : Schema) :
    (ascending id).Collects o t.decode (Schema.set t).decode ∧
    (ascending id).Collects o t.decode (Schema.hashSet t).decode ∧
    (ascending id).Rewrites (fun v w => Value.compare v w = .lt) o t.decode (Schema.set t).decode
      t.encode (Schema.set t).encode := by
  have hordered := ascending_ordered id
  have hcollects := hordered.collects ho t.decode
  have hrewrites := hordered.rewrites ho t.decode (encode_set_of_valid t)
  rw [← decode_set] at hcollects hrewrites
  exact ⟨hcollects,hcollects,hrewrites⟩

theorem collects_map (k t : Schema) :
    (ascending Value.key).Collects o (entry k.decode t.decode) (Schema.map k t).decode ∧
    (ascending Value.key).Collects o (entry k.decode t.decode) (Schema.hashMap k t).decode ∧
    (ascending Value.key).Rewrites (fun v w => Value.compare v.key w.key = .lt) o
      (entry k.decode t.decode) (Schema.map k t).decode (Schema.encodeEntry k.encode t.encode)
      (Schema.map k t).encode := by
  have hordered := ascending_ordered Value.key
  have hcollects := hordered.collects ho (entry k.decode t.decode)
  have hrewrites := hordered.rewrites ho (entry k.decode t.decode) (encode_map_of_valid k t)
  rw [← decode_map] at hcollects hrewrites
  exact ⟨hcollects,hcollects,hrewrites⟩

end Values

end Container
end RecordCodec
