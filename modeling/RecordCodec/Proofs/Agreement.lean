import RecordCodec.Proofs.Offsets

/-! # Operations that agree

Two reading operations agree at a reader if they come to the same value at the same place, or fail
with errors of the same kind. A reader may be moved over bytes of a fixed width by taking them or by a
later seek: both agree, since a seek past the end is a lack of bytes too.
-/
namespace RecordCodec

/-- Errors of the same kind: the same one, or a lack of bytes each. -/
def Error.Alike (e e' : Error) : Prop := e = e' ∨ e.isTruncated = true ∧ e'.isTruncated = true

namespace Error

variable {e e' e'' : Error}

theorem Alike.refl (e : Error) : e.Alike e := .inl rfl

theorem Alike.trans (h : e.Alike e') (k : e'.Alike e'') : e.Alike e'' := by
  rcases h with rfl | ⟨h,h'⟩
  · exact k
  · rcases k with rfl | ⟨-,k⟩
    · exact .inr ⟨h,h'⟩
    · exact .inr ⟨h,k⟩

end Error

namespace Read

variable {α β : Type} {x y z : Read α} {f g : α → Read β} {r : Reader} {a : α}

/-- Outcomes that agree. -/
inductive EndAlike : (p q : EStateM.Result Error Reader α) → Prop
  | ok (a : α) (s : Reader) : EndAlike (.ok a s) (.ok a s)
  | error {e e' : Error} (s s' : Reader) (h : e.Alike e') : EndAlike (.error e s) (.error e' s')

/-- At the reader both operations come to outcomes that agree. -/
def Agree (r : Reader) (x y : Read α) : Prop := EndAlike (x r) (y r)

theorem Agree.of_eq (h : x r = y r) : Agree r x y := by
  unfold Agree
  rw [h]
  cases y r with
  | ok a s => exact .ok a s
  | error e s => exact .error s s (.refl e)

theorem Agree.refl (r : Reader) (x : Read α) : Agree r x x := .of_eq rfl

theorem Agree.trans (h : Agree r x y) (k : Agree r y z) : Agree r x z := by
  unfold Agree at h k ⊢
  generalize x r = p, y r = q, z r = o at h k
  cases h with
  | ok a s => exact k
  | error s s' h =>
    cases k with
    | error t t' k => exact .error s t' (h.trans k)

theorem Agree.bind (h : Agree r x y) (k : ∀ a s, x r = .ok a s → Agree s (f a) (g a)) :
    Agree r (x >>= f) (y >>= g) := by
  unfold Agree at h
  generalize hx : x r = p, hy : y r = q at h
  unfold Agree
  cases h with
  | ok a s =>
    rw [EStateM.bind_of_ok f hx, EStateM.bind_of_ok g hy]
    exact k a s hx
  | error s s' h =>
    rw [EStateM.bind_of_error f hx, EStateM.bind_of_error g hy]
    exact .error s s' h

theorem Agree.bind_left (h : Agree r x y) (f : α → Read β) : Agree r (x >>= f) (y >>= f) :=
  h.bind fun a s _ => .refl s (f a)

theorem Agree.bind_right (x : Read α) (k : ∀ a s, x r = .ok a s → Agree s (f a) (g a)) :
    Agree r (x >>= f) (x >>= g) := (Agree.refl r x).bind k

/-- A first part that only finds the reader where it is. -/
theorem Agree.of_stays (h : x r = .ok a r) (f : α → Read β) : Agree r (x >>= f) (f a) :=
  .of_eq (EStateM.bind_of_ok f h)

/-! ## Seeking -/

theorem seek_eq_ok {p : Nat} {s : Reader} (h : seek p r = .ok () s) :
    s.position = p ∧ s.bytes = r.bytes ∧ s.options = r.options := by
  unfold seek at h
  split at h
  · cases h
    exact ⟨rfl,rfl,rfl⟩
  · cases h

theorem seek_of_le {p : Nat} (h : p ≤ r.bytes.length) : seek p r = .ok () (r.moveTo p h) := dif_pos h

theorem seek_of_lt {p : Nat} (h : r.bytes.length < p) :
    ∃ needed available, seek p r = .error (.truncated needed available) r :=
  ⟨_,_,dif_neg (Nat.not_le.mpr h)⟩

/-- A seek leads where a shorter one leads and the bytes behind it. -/
theorem agree_seek_take (r : Reader) (p w : Nat) (k : Read α) :
    Agree r (seek (p + w) >>= fun _ => k) (seek p >>= fun _ => take w >>= fun _ => k) := by
  by_cases h : p + w ≤ r.bytes.length
  · have hp : p ≤ r.bytes.length := Nat.le_of_add_right_le h
    have hw : w ≤ (r.moveTo p hp).rest.length := by
      change w ≤ (r.bytes.drop p).length
      rw [List.length_drop]
      omega
    have htake : take w (r.moveTo p hp) = .ok _ ((r.moveTo p hp).advance w hw) := dif_pos hw
    have hsame : (r.moveTo p hp).advance w hw = r.moveTo (p + w) h := Reader.ext rfl rfl rfl
    rw [hsame] at htake
    apply Agree.of_eq
    rw [EStateM.bind_of_ok _ (seek_of_le h), EStateM.bind_of_ok _ (seek_of_le hp),
      EStateM.bind_of_ok _ htake]
  · obtain ⟨n,m,hseek⟩ := seek_of_lt (Nat.lt_of_not_le h)
    unfold Agree
    rw [EStateM.bind_of_error _ hseek]
    by_cases hp : p ≤ r.bytes.length
    · have hw : ¬w ≤ (r.moveTo p hp).rest.length := by
        change ¬w ≤ (r.bytes.drop p).length
        rw [List.length_drop]
        omega
      have htake : take w (r.moveTo p hp) = .error (.truncated w _) _ := dif_neg hw
      rw [EStateM.bind_of_ok _ (seek_of_le hp), EStateM.bind_of_error _ htake]
      exact .error _ _ (.inr ⟨rfl,rfl⟩)
    · obtain ⟨n',m',hseek'⟩ := seek_of_lt (Nat.lt_of_not_le hp)
      rw [EStateM.bind_of_error _ hseek']
      exact .error _ _ (.inr ⟨rfl,rfl⟩)

end Read

/-- A value of a fixed width is passed by taking so many bytes. -/
theorem Descriptor.skip_of_fixedWidth {d : Descriptor} {w : Nat} (h : d.fixedWidth = some w) :
    d.skip = Read.take w >>= fun _ => pure () := by
  cases d with
  | unit =>
    cases h
    rfl
  | scalar s =>
    cases h
    rfl
  | array element n =>
    change passOr (array element n).fixedWidth _ = _
    rw [h]
    rfl
  | aggregate typeName fields extensible =>
    change passOr (aggregate typeName fields extensible).fixedWidth _ = _
    rw [h]
    rfl
  | _ => cases h

end RecordCodec
