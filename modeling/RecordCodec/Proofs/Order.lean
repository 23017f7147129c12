import Mathlib.Data.List.Sort
import RecordCodec.Value

/-! # The order of values

The order is linear and tells values apart. So a list that ascends has no two elements alike, values
can be put into it as long as they differ, and what results depends on the values alone.
-/
namespace RecordCodec.Value

theorem compare_of_rank_ne {a b : Value} (h : a.rank ≠ b.rank) :
    compare a b = Ord.compare a.rank b.rank := by
  unfold compare
  split
  case h_10 => rfl
  all_goals exact absurd rfl h

mutual

theorem compare_eq_swap : ∀ a b : Value, compare a b = (compare b a).swap
  | .unit, b => by cases b <;> rfl
  | .absent, b => by cases b <;> rfl
  | .bool a, b => by
    cases b with
    | bool b => exact Std.OrientedOrd.eq_swap
    | _ => rfl
  | .int a, b => by
    cases b with
    | int b => exact Std.OrientedOrd.eq_swap
    | _ => rfl
  | .float a, b => by
    cases b with
    | float b => exact Std.OrientedOrd.eq_swap
    | _ => rfl
  | .char a, b => by
    cases b with
    | char b => exact Std.OrientedOrd.eq_swap
    | _ => rfl
  | .text a, b => by
    cases b with
    | text b => exact Std.OrientedOrd.eq_swap
    | _ => rfl
  | .present a, b => by
    cases b with
    | present b => exact compare_eq_swap a b
    | _ => rfl
  | .sequence as, b => by
    cases b with
    | sequence bs => exact compareAll_eq_swap as bs
    | _ => rfl
  | .record as, b => by
    cases b with
    | record bs => exact compareAll_eq_swap as bs
    | _ => rfl
  | .variant i as, b => by
    cases b with
    | variant j bs =>
      have hi : Ord.compare i j = (Ord.compare j i).swap := Std.OrientedOrd.eq_swap
      simp only [compare, hi, compareAll_eq_swap as bs, Ordering.swap_then]
    | _ => rfl

theorem compareAll_eq_swap : ∀ as bs : List Value, compareAll as bs = (compareAll bs as).swap
  | [], [] => rfl
  | [], _ :: _ => rfl
  | _ :: _, [] => rfl
  | a :: as, b :: bs => by
    simp only [compareAll, compare_eq_swap a b, compareAll_eq_swap as bs, Ordering.swap_then]

end

mutual

/-- The order tells values apart. -/
theorem eq_of_compare : ∀ a b : Value, compare a b = .eq → a = b
  | .unit, b, h => by cases b <;> first | rfl | cases h
  | .absent, b, h => by cases b <;> first | rfl | cases h
  | .bool a, b, h => by
    cases b with
    | bool b => exact congrArg bool (Std.LawfulEqOrd.eq_of_compare h)
    | _ => cases h
  | .int a, b, h => by
    cases b with
    | int b => exact congrArg int (Std.LawfulEqOrd.eq_of_compare h)
    | _ => cases h
  | .float a, b, h => by
    cases b with
    | float b => exact congrArg float (Std.LawfulEqOrd.eq_of_compare h)
    | _ => cases h
  | .char a, b, h => by
    cases b with
    | char b => exact congrArg char (Std.LawfulEqOrd.eq_of_compare h)
    | _ => cases h
  | .text a, b, h => by
    cases b with
    | text b => exact congrArg text (Std.LawfulEqOrd.eq_of_compare h)
    | _ => cases h
  | .present a, b, h => by
    cases b with
    | present b => exact congrArg present (eq_of_compare a b h)
    | _ => cases h
  | .sequence as, b, h => by
    cases b with
    | sequence bs => exact congrArg sequence (eq_of_compareAll as bs h)
    | _ => cases h
  | .record as, b, h => by
    cases b with
    | record bs => exact congrArg record (eq_of_compareAll as bs h)
    | _ => cases h
  | .variant i as, b, h => by
    cases b with
    | variant j bs =>
      obtain ⟨hi,hs⟩ := Ordering.then_eq_eq.mp h
      rw [Std.LawfulEqOrd.eq_of_compare hi, eq_of_compareAll as bs hs]
    | _ => cases h

theorem eq_of_compareAll : ∀ as bs : List Value, compareAll as bs = .eq → as = bs
  | [], [], _ => rfl
  | [], _ :: _, h => by cases h
  | _ :: _, [], h => by cases h
  | a :: as, b :: bs, h => by
    obtain ⟨ha,hs⟩ := Ordering.then_eq_eq.mp h
    rw [eq_of_compare a b ha, eq_of_compareAll as bs hs]

end

theorem compare_self (a : Value) : compare a a = .eq := by
  have h := compare_eq_swap a a
  cases hc : compare a a with
  | eq => rfl
  | lt => rw [hc] at h; cases h
  | gt => rw [hc] at h; cases h

theorem compare_eq_iff {a b : Value} : compare a b = .eq ↔ a = b :=
  ⟨eq_of_compare a b,fun h => h ▸ compare_self a⟩

instance : DecidableEq Value := fun _ _ => decidable_of_iff _ compare_eq_iff

theorem rank_le_of_lt {a b : Value} (h : compare a b = .lt) : a.rank ≤ b.rank := by
  by_cases hr : a.rank = b.rank
  · exact Nat.le_of_eq hr
  · rw [compare_of_rank_ne hr] at h
    exact Nat.le_of_lt (Nat.compare_eq_lt.mp h)

/-- Among values of different kinds the order is that of their kinds. -/
theorem lt_trans_of_rank_ne {a b c : Value} (h : compare a b = .lt) (k : compare b c = .lt)
    (hr : a.rank ≠ b.rank ∨ b.rank ≠ c.rank) : compare a c = .lt := by
  have hab := rank_le_of_lt h
  have hbc := rank_le_of_lt k
  have hac : a.rank < c.rank := by omega
  rw [compare_of_rank_ne (Nat.ne_of_lt hac)]
  exact Nat.compare_eq_lt.mpr hac

mutual

theorem compare_lt_trans : ∀ a b c : Value, compare a b = .lt → compare b c = .lt →
    compare a c = .lt
  | .unit, b, c, h, k => by
    cases b with
    | unit => exact k
    | _ => exact lt_trans_of_rank_ne h k (by simp [rank])
  | .absent, b, c, h, k => by
    cases b with
    | absent => exact k
    | _ => exact lt_trans_of_rank_ne h k (by simp [rank])
  | .bool x, b, c, h, k => by
    cases b with
    | bool y =>
      cases c with
      | bool z =>
        change Ord.compare x z = .lt
        exact Std.TransCmp.lt_trans h k
      | _ => exact k
    | _ => exact lt_trans_of_rank_ne h k (by simp [rank])
  | .int x, b, c, h, k => by
    cases b with
    | int y =>
      cases c with
      | int z =>
        change Ord.compare x z = .lt
        exact Std.TransCmp.lt_trans h k
      | _ => exact k
    | _ => exact lt_trans_of_rank_ne h k (by simp [rank])
  | .float x, b, c, h, k => by
    cases b with
    | float y =>
      cases c with
      | float z =>
        change Ord.compare x z = .lt
        exact Std.TransCmp.lt_trans h k
      | _ => exact k
    | _ => exact lt_trans_of_rank_ne h k (by simp [rank])
  | .char x, b, c, h, k => by
    cases b with
    | char y =>
      cases c with
      | char z =>
        change Ord.compare x z = .lt
        exact Std.TransCmp.lt_trans h k
      | _ => exact k
    | _ => exact lt_trans_of_rank_ne h k (by simp [rank])
  | .text x, b, c, h, k => by
    cases b with
    | text y =>
      cases c with
      | text z =>
        change Ord.compare x z = .lt
        exact Std.TransCmp.lt_trans h k
      | _ => exact k
    | _ => exact lt_trans_of_rank_ne h k (by simp [rank])
  | .present x, b, c, h, k => by
    cases b with
    | present y =>
      cases c with
      | present z => exact compare_lt_trans x y z h k
      | _ => exact k
    | _ => exact lt_trans_of_rank_ne h k (by simp [rank])
  | .sequence xs, b, c, h, k => by
    cases b with
    | sequence ys =>
      cases c with
      | sequence zs => exact compareAll_lt_trans xs ys zs h k
      | _ => exact k
    | _ => exact lt_trans_of_rank_ne h k (by simp [rank])
  | .record xs, b, c, h, k => by
    cases b with
    | record ys =>
      cases c with
      | record zs => exact compareAll_lt_trans xs ys zs h k
      | _ => exact k
    | _ => exact lt_trans_of_rank_ne h k (by simp [rank])
  | .variant i xs, b, c, h, k => by
    cases b with
    | variant j ys =>
      cases c with
      | variant l zs =>
        refine Ordering.then_eq_lt.mpr ?_
        rcases Ordering.then_eq_lt.mp h with hi | ⟨hi,hs⟩
        · rcases Ordering.then_eq_lt.mp k with hj | ⟨hj,-⟩
          · exact .inl (Std.TransCmp.lt_trans hi hj)
          · exact .inl (Std.LawfulEqOrd.eq_of_compare hj ▸ hi)
        · rcases Ordering.then_eq_lt.mp k with hj | ⟨hj,ht⟩
          · exact .inl (Std.LawfulEqOrd.eq_of_compare hi ▸ hj)
          · exact .inr ⟨Std.LawfulEqOrd.eq_of_compare hi ▸ hj,compareAll_lt_trans xs ys zs hs ht⟩
      | _ => exact k
    | _ => exact lt_trans_of_rank_ne h k (by simp [rank])

theorem compareAll_lt_trans : ∀ as bs cs : List Value, compareAll as bs = .lt →
    compareAll bs cs = .lt → compareAll as cs = .lt
  | [], _ :: _, [], _, k => by cases k
  | [], _ :: _, _ :: _, _, _ => rfl
  | [], [], _, _, k => k
  | _ :: _, [], _, h, _ => by cases h
  | _ :: _, _ :: _, [], _, k => by cases k
  | a :: as, b :: bs, c :: cs, h, k => by
    refine Ordering.then_eq_lt.mpr ?_
    rcases Ordering.then_eq_lt.mp h with ha | ⟨ha,hs⟩
    · rcases Ordering.then_eq_lt.mp k with hb | ⟨hb,-⟩
      · exact .inl (compare_lt_trans a b c ha hb)
      · exact .inl (eq_of_compare b c hb ▸ ha)
    · rcases Ordering.then_eq_lt.mp k with hb | ⟨hb,ht⟩
      · exact .inl (eq_of_compare a b ha ▸ hb)
      · exact .inr ⟨eq_of_compare a b ha ▸ hb,compareAll_lt_trans as bs cs hs ht⟩

end

/-! ## Ascending lists -/

section Ascending
variable (view : Value → Value)

/-- Whether a value is not behind another by `view`. -/
def LeBy (a b : Value) : Prop := compare (view a) (view b) ≠ .gt

instance : DecidableRel (LeBy view) := fun a b =>
  inferInstanceAs (Decidable (compare (view a) (view b) ≠ .gt))

/-- A list that ascends by `view`, without repetition. -/
def Ascends (l : List Value) : Prop := l.Pairwise fun a b => compare (view a) (view b) = .lt

/-- Some values in their order by `view`, all of them kept. -/
def arranged (l : List Value) : List Value := l.insertionSort (LeBy view)

variable {view} {a b v : Value} {l l' : List Value}

theorem lt_or_eq_of_leBy (h : LeBy view a b) :
    compare (view a) (view b) = .lt ∨ view a = view b := by
  unfold LeBy at h
  cases hc : compare (view a) (view b) with
  | lt => exact .inl rfl
  | eq => exact .inr (compare_eq_iff.mp hc)
  | gt => exact absurd hc h

theorem lt_of_gt (h : compare a b = .gt) : compare b a = .lt := by
  rw [compare_eq_swap, h]
  rfl

theorem gt_of_lt (h : compare a b = .lt) : compare b a = .gt := by
  rw [compare_eq_swap, h]
  rfl

instance : Std.Total (LeBy view) where
  total a b := by
    unfold LeBy
    cases hc : compare (view a) (view b) with
    | gt => exact .inr (by rw [lt_of_gt hc]; nofun)
    | _ => exact .inl nofun

instance : IsTrans Value (LeBy view) where
  trans a b c h k := by
    have hne (x y : Value) (hxy : compare x y = .lt) : compare x y ≠ .gt := by rw [hxy]; nofun
    rcases lt_or_eq_of_leBy h with hab | hab
    · rcases lt_or_eq_of_leBy k with hbc | hbc
      · exact hne _ _ (compare_lt_trans _ _ _ hab hbc)
      · exact hne _ _ (hbc ▸ hab)
    · unfold LeBy at k ⊢
      rwa [hab]

theorem arranged_perm (l : List Value) : (arranged view l).Perm l := List.perm_insertionSort _ l

theorem all_arranged (p : Value → Bool) (l : List Value) : (arranged view l).all p = l.all p :=
  (arranged_perm l).all_eq

theorem nodup_map_arranged (f : Value → Value) (l : List Value) :
    ((arranged view l).map f).Nodup ↔ (l.map f).Nodup := ((arranged_perm l).map f).nodup_iff

/-- In order, values that differ by `view` ascend. -/
theorem ascends_arranged (h : (l.map view).Nodup) : Ascends view (arranged view l) := by
  have hs : (arranged view l).Pairwise (LeBy view) := List.pairwise_insertionSort _ l
  have hn : ((arranged view l).map view).Nodup := (nodup_map_arranged view l).mpr h
  have hd : (arranged view l).Pairwise fun a b => view a ≠ view b := List.pairwise_map.mp hn
  refine (hs.and hd).imp ?_
  rintro a b ⟨hle,hne⟩
  rcases lt_or_eq_of_leBy hle with hlt | he
  · exact hlt
  · exact absurd he hne

/-- Ascending lists of the same values are the same. -/
theorem Ascends.eq_of_perm (h : Ascends view l) (k : Ascends view l') (hp : l.Perm l') :
    l = l' := by
  refine hp.eq_of_pairwise ?_ h k
  intro a b _ _ hab hba
  rw [gt_of_lt hab] at hba
  cases hba

theorem insert?_of_mem (h : Ascends view l) (hv : view v ∈ l.map view) :
    insert? view v l = none := by
  induction l with
  | nil => cases hv
  | cons x xs ih =>
    unfold insert?
    obtain ⟨hx,hxs⟩ := List.pairwise_cons.mp h
    rcases List.mem_cons.mp hv with he | hm
    · rw [he, compare_self]
    · obtain ⟨y,hy,hyv⟩ := List.mem_map.mp hm
      have hc : compare (view v) (view x) = .gt := gt_of_lt (hyv ▸ hx y hy)
      rw [hc, ih hxs hm]
      rfl

/-- A value that differs from those in an ascending list is put among them. -/
theorem insert?_of_not_mem (h : Ascends view l) (hv : view v ∉ l.map view) :
    ∃ l', insert? view v l = some l' ∧ Ascends view l' ∧ l'.Perm (v :: l) := by
  induction l with
  | nil => exact ⟨[v],rfl,List.pairwise_singleton _ v,.refl _⟩
  | cons x xs ih =>
    obtain ⟨hx,hxs⟩ := List.pairwise_cons.mp h
    rw [List.map_cons, List.mem_cons, not_or] at hv
    unfold insert?
    cases hc : compare (view v) (view x) with
    | eq => exact absurd (compare_eq_iff.mp hc) hv.1
    | lt =>
      refine ⟨v :: x :: xs,rfl,List.pairwise_cons.mpr ⟨?_,h⟩,.refl _⟩
      intro y hy
      rcases List.mem_cons.mp hy with rfl | hm
      · exact hc
      · exact compare_lt_trans _ _ _ hc (hx y hm)
    | gt =>
      obtain ⟨t,ht,hta,htp⟩ := ih hxs hv.2
      refine ⟨x :: t,by rw [ht]; rfl,List.pairwise_cons.mpr ⟨?_,hta⟩,?_⟩
      · intro y hy
        rcases List.mem_cons.mp (htp.mem_iff.mp hy) with rfl | hm
        · exact lt_of_gt hc
        · exact hx y hm
      · exact (htp.cons x).trans (List.Perm.swap v x xs)

end Ascending
end RecordCodec.Value
