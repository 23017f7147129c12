import RecordCodec.Body.Decode
import RecordCodec.Proofs.Order
import RecordCodec.Proofs.Pieces

/-! # Pieces delivered to a reader

Pieces are *delivered* to an operation when they can be written and bring it to an outcome. Delivery
is closed under what writers and readers are made of: pieces behind each other, and collections of
elements. The one failure that a collection brings in is that of an element which is there already.
-/
namespace RecordCodec

open Emission (allBytes joined eachOf eachOf_cons)

/-- The outcome of reading a value whose collections may come to hold something twice. -/
def settled {α : Type} (distinct : Bool) (a : α) : Except Error α :=
  if distinct then .ok a else .error (.invalidData .duplicate)

section Settled
variable {α β : Type} {o : Options} {x : Read α} {f : α → Read β} {b c : List UInt8}

theorem settled_map (g : α → β) (d : Bool) (a : α) : g <$> settled d a = settled d (g a) := by
  cases d <;> rfl

theorem settled_congr {d d' : Bool} {a a' : α} (hd : d = d') (ha : d' = true → a = a') :
    settled d a = settled d' a' := by
  subst hd
  cases d with
  | false => rfl
  | true => rw [ha rfl]

theorem Read.Gives.settled_bind {d d' : Bool} {a : α} {a' : β} (h : Gives o x b (settled d a))
    (k : Gives o (f a) c (settled d' a')) : Gives o (x >>= f) (b ++ c) (settled (d && d') a') := by
  cases d with
  | true => exact h.bind_ok k
  | false => exact (h.bind_error (f := f)).error_append c

end Settled

/-- The pieces can be written, and the operation comes to the outcome on their bytes. -/
def Delivers {α : Type} (o : Options) (pieces : Except Error (List Emission)) (item : Read α)
    (outcome : Except Error α) : Prop :=
  ∃ es, pieces = .ok es ∧ Read.Gives o item (allBytes es) outcome

namespace Delivers

variable {α β : Type} {o : Options} {x : Read α} {f : α → Read β}
variable {p q : Except Error (List Emission)}

theorem of_ok {es : List Emission} {out : Except Error α} (h : Read.Gives o x (allBytes es) out) :
    Delivers o (.ok es) x out := ⟨es,rfl,h⟩

theorem bytes {b : List UInt8} {out : Except Error α} (h : Read.Gives o x b out) :
    Delivers o (.ok [.bytes b]) x out := by
  have hb : allBytes [.bytes b] = b := List.append_nil b
  exact of_ok (hb.symm ▸ h)

theorem pure (o : Options) (a : α) : Delivers o (.ok []) (pure a) (.ok a) :=
  of_ok (Read.Gives.pure o a)

theorem map {d : Bool} {a : α} (g : α → β) (h : Delivers o p x (settled d a)) :
    Delivers o p (g <$> x) (settled d (g a)) := by
  obtain ⟨es,he,hg⟩ := h
  exact ⟨es,he,settled_map g d a ▸ hg.map g⟩

theorem append {d d' : Bool} {a : α} {a' : β} (h : Delivers o p x (settled d a))
    (k : Delivers o q (f a) (settled d' a')) :
    Delivers o (joined p q) (x >>= f) (settled (d && d') a') := by
  obtain ⟨es,rfl,hg⟩ := h
  obtain ⟨fs,rfl,hk⟩ := k
  refine ⟨es ++ fs,rfl,?_⟩
  rw [Emission.allBytes_append]
  exact hg.settled_bind hk

theorem cons {e : Emission} {a : α} {out : Except Error β}
    (h : Read.Gives o x e.toBytes (.ok a)) (k : Delivers o q (f a) out) :
    Delivers o (joined (.ok [e]) q) (x >>= f) out := by
  obtain ⟨fs,rfl,hk⟩ := k
  exact ⟨e :: fs,rfl,h.bind_ok hk⟩

theorem bind_pure {d : Bool} {a : α} {a' : β} (h : Delivers o p x (settled d a))
    (hf : f a = Pure.pure a') : Delivers o p (x >>= f) (settled d a') := by
  obtain ⟨es,rfl,hg⟩ := h
  have hn : Read.Gives o (f a) [] (settled true a') := hf ▸ Read.Gives.pure o a'
  have hk := hg.settled_bind hn
  rw [List.append_nil, Bool.and_true] at hk
  exact of_ok hk

/-- What can be written can also come before a second occurrence. -/
theorem duplicate {out : Except Error α} (h : Delivers o p x out) (a : β) :
    Delivers o p (Read.fault .duplicate) (settled false a) := by
  obtain ⟨es,rfl,-⟩ := h
  exact of_ok (Read.Gives.fault o _ _)

end Delivers

/-! ## Collections -/

section Collections

open Read

variable {o : Options} {encode : Value → Except Error (List Emission)} {item : Read Value}
variable {p : Value → Bool} {f : Value → Value} {vs : List Value}

theorem delivers_replicate
    (h : ∀ v ∈ vs, Delivers o (encode v) item (settled (p (f v)) (f v))) :
    Delivers o (eachOf encode vs) (replicate vs.length item)
      (settled ((vs.map f).all p) (vs.map f)) := by
  induction vs with
  | nil => exact Delivers.pure o []
  | cons v vs ih =>
    rw [eachOf_cons]
    have hv := h v List.mem_cons_self
    have hvs := ih fun w hw => h w (List.mem_cons_of_mem v hw)
    exact hv.append (f := fun a => replicate vs.length item >>= fun as => pure (a :: as))
      (hvs.bind_pure rfl)

/-- The way on behind an item, into a collection that has some already. -/
def distinctBehind (view : Value → Value) (item : Read Value) (n : Nat) (c : List Value)
    (v : Value) : Read (List Value) :=
  match Value.insert? view v c with
  | some c => distinct view item n c
  | none => fault .duplicate

theorem delivers_distinct_into (view : Value → Value) {c : List Value}
    (hc : Value.Ascends view c)
    (h : ∀ v ∈ vs, Delivers o (encode v) item (settled (p (f v)) (f v))) :
    Delivers o (eachOf encode vs) (distinct view item vs.length c)
      (settled ((vs.map f).all p && decide ((vs.map f ++ c).map view).Nodup)
        (Value.arranged view (vs.map f ++ c))) := by
  induction vs generalizing c with
  | nil =>
    have hn : (c.map view).Nodup := by
      refine List.pairwise_map.mpr (hc.imp ?_)
      intro a b hab he
      rw [he, Value.compare_self] at hab
      cases hab
    have ha : Value.arranged view c = c :=
      (Value.ascends_arranged hn).eq_of_perm hc (Value.arranged_perm c)
    simp only [List.map_nil, List.all_nil, List.nil_append, Bool.true_and, ha,
      decide_eq_true hn]
    exact Delivers.pure o c
  | cons v vs ih =>
    rw [eachOf_cons]
    have hv := h v List.mem_cons_self
    have hvs : ∀ w ∈ vs, Delivers o (encode w) item (settled (p (f w)) (f w)) :=
      fun w hw => h w (List.mem_cons_of_mem v hw)
    have hassoc (d : Bool) :
        (((v :: vs).map f).all p && d) = (p (f v) && ((vs.map f).all p && d)) := Bool.and_assoc ..
    rw [hassoc]
    by_cases hm : view (f v) ∈ c.map view
    · have hnot : ¬ ((((v :: vs).map f) ++ c).map view).Nodup := by
        intro hn
        rw [List.map_cons, List.cons_append, List.map_cons, List.nodup_cons, List.map_append] at hn
        exact hn.1 (List.mem_append_right _ hm)
      have hk := (ih hc hvs).duplicate (Value.arranged view ((v :: vs).map f ++ c))
      rw [decide_eq_false hnot, Bool.and_false]
      refine hv.append (f := distinctBehind view item vs.length c) ?_
      unfold distinctBehind
      rwa [Value.insert?_of_mem hc hm]
    · obtain ⟨t,ht,hta,htp⟩ := Value.insert?_of_not_mem hc hm
      have hp : (vs.map f ++ t).Perm ((v :: vs).map f ++ c) :=
        (htp.append_left _).trans List.perm_middle
      have hn : distinctBehind view item vs.length c (f v) = distinct view item vs.length t := by
        unfold distinctBehind
        rw [ht]
      have he := hv.append (f := distinctBehind view item vs.length c) (hn ▸ ih hta hvs)
      refine settled_congr ?_ ?_ ▸ he
      · rw [decide_eq_decide.mpr (hp.map view).nodup_iff]
      · intro hd
        have hn := of_decide_eq_true (Bool.and_eq_true_iff.mp (Bool.and_eq_true_iff.mp hd).2).2
        exact (Value.ascends_arranged ((hp.map view).nodup_iff.mpr hn)).eq_of_perm
          (Value.ascends_arranged hn)
          ((Value.arranged_perm _).trans (hp.trans (Value.arranged_perm _).symm))

theorem delivers_distinct (view : Value → Value)
    (h : ∀ v ∈ vs, Delivers o (encode v) item (settled (p (f v)) (f v))) :
    Delivers o (eachOf encode vs) (distinct view item vs.length [])
      (settled ((vs.map f).all p && decide ((vs.map f).map view).Nodup)
        (Value.arranged view (vs.map f))) := by
  have hd := delivers_distinct_into view (c := []) List.Pairwise.nil h
  rwa [List.append_nil] at hd

end Collections
end RecordCodec
