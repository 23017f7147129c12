import RecordCodec.Proofs.Violations
import Mathlib.Data.List.Perm.Subperm

/-! # Unfolded names

A reference that is replaced by its declaration keeps its name, and so do all types around it. The
declarations that are open at one place have different names, so there are never more of them than
the family has declarations.
-/
namespace RecordCodec

namespace Schema

variable {r : String → Schema}

mutual

theorem name_substitute (hr : ∀ n, (r n).name = n) : ∀ t : Schema, (t.substitute r).name = t.name
  | unit | scalar _ | text | duration | struct .. | enum .. | named .. => rfl
  | sequence t | set t | array t _ | option t | pointer _ t | compatible t 0
  | compatible t (_ + 1) => by simp only [substitute, name, name_substitute hr t]
  | map k v => by simp only [substitute, name, name_substitute hr k, name_substitute hr v]
  | tuple [] => rfl
  | tuple [t] => by simp only [substitute, substituteAll, name, name_substitute hr t]
  | tuple (t :: u :: ts) => by
    have h := names_substitute hr (t :: u :: ts)
    simp only [substituteAll] at h
    simp only [substitute, substituteAll, name, h]
  | reference n => hr n

theorem names_substitute (hr : ∀ n, (r n).name = n) :
    ∀ ts : List Schema, names (substituteAll r ts) = names ts
  | [] => rfl
  | t :: ts => by
    simp only [substituteAll, names, name_substitute hr t, names_substitute hr ts]

end

theorem opened?_substitute (hr : ∀ n, (r n).name = n) {t : Schema} {n : String}
    (h : t.opened? = some n) : (t.substitute r).opened? = some n := by
  cases t with
  | tuple ts => exact (congrArg some (name_substitute hr (tuple ts))).trans h
  | duration | struct | enum => exact h
  | _ => cases h

theorem name_of_opened? {t : Schema} {n : String} (h : t.opened? = some n) : t.name = n := by
  cases t with
  | tuple | duration | struct | enum => exact Option.some.inj h
  | _ => cases h

end Schema

namespace Family

open Schema

variable {family : Family} {enclosing : List String} {t : Schema}

/-- Whether every declaration encloses its parts under the name that it is declared by. -/
def WellNamed (family : Family) : Prop :=
  ∀ n t, family.lookup n = some t → t.opened? = some n

theorem opened?_unfoldWithin (hf : family.WellNamed) (more : Nat) {enclosing : List String}
    {n : String} (ho : t.opened? = some n) :
    (family.unfoldWithin more enclosing t).opened? = some n := by
  induction more generalizing enclosing t n with
  | zero => exact ho
  | succ more ih =>
    refine opened?_substitute (fun m => ?_) ho
    split
    · rfl
    · cases hl : family.lookup m with
      | some u => exact name_of_opened? (ih (hf m u hl))
      | none => rfl

theorem mem_of_lookup {n : String} {u : Schema} (h : family.lookup n = some u) :
    (n,u) ∈ family := by
  obtain ⟨front,back,rfl,-⟩ := List.lookup_eq_some_iff.mp h
  simp

theorem mem_names {n : String} {u : Schema} (h : family.lookup n = some u) :
    n ∈ family.map (·.1) := List.mem_map_of_mem (mem_of_lookup h)

/-- Different declared names that are as many as the declarations are all of them. -/
theorem mem_of_full {n : String} {u : Schema} (hd : enclosing.Nodup)
    (hs : enclosing ⊆ family.map (·.1)) (hl : family.length ≤ enclosing.length)
    (hn : family.lookup n = some u) : n ∈ enclosing := by
  have hp := (List.subperm_of_subset hd hs).perm_of_length_le (by rwa [List.length_map])
  exact hp.mem_iff.mpr (mem_names hn)

end Family
end RecordCodec
