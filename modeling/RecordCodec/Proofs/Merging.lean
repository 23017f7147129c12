import RecordCodec.Proofs.Admission
import RecordCodec.Proofs.Faults
import RecordCodec.Record

/-! # Reading over a value merges the new one into it

A record that is read over an old value is read as it is read alone: with the same outcome, and up to
the same place. The old value becomes the merge of both. In a struct, and behind the pointers to it,
the mandatory fields are merged, a compatible field is kept if the new value has none, and a skipped
one is kept always; anything else is new. So a record that is read once more changes nothing.
-/
namespace RecordCodec

/-- The value unless it is absent, and then the other one. -/
def Value.orElse (v other : Value) : Value :=
  match v with
  | absent => other
  | v => v

theorem Value.orElse_orElse (v other : Value) : v.orElse (v.orElse other) = v.orElse other := by
  cases v <;> rfl

theorem Value.orElse_self (v : Value) : v.orElse v = v := by
  cases v <;> rfl

theorem Value.ofOption_orElse (found : Option Value) (other : Value) :
    (ofOption found).orElse other = (found.map present).getD other := by
  cases found <;> rfl

namespace Schema

mutual

/-- What becomes of an old value over which a new one is read. -/
def merge (ownership : Ownership) : Schema → (old new : Value) → Value
  | struct _ _ fields, .record olds, .record news => .record (mergeFields ownership fields olds news)
  | pointer p t, old, new => if p.isInPlace ownership then t.merge ownership old new else new
  | named _ t, old, new => t.merge ownership old new
  | _, _, new => new
termination_by structural t => t

def mergeFields (ownership : Ownership) : List Field → (olds news : List Value) → List Value
  | .mandatory _ t :: fs, old :: olds, new :: news =>
    t.merge ownership old new :: mergeFields ownership fs olds news
  | .compatible .. :: fs, old :: olds, new :: news =>
    new.orElse old :: mergeFields ownership fs olds news
  | .skipped .. :: fs, old :: olds, _ :: news => old :: mergeFields ownership fs olds news
  | _, _, news => news
termination_by structural fs => fs

end

variable {ownership : Ownership}

/-! ## Merging once more -/

theorem record_of_admits {name : String} {style : Style} {fields : List Field} {v : Value}
    (h : (struct name style fields).admits v = true) :
    ∃ vs, v = .record vs ∧ fieldsAdmit fields vs = true := by
  cases v with
  | record vs => exact ⟨vs,rfl,h⟩
  | _ => cases h

mutual

theorem merge_self (t : Schema) (v : Value) : t.merge ownership v v = v := by
  cases t with
  | struct name style fields =>
    cases v with
    | record vs => exact congrArg Value.record (mergeFields_self fields vs)
    | _ => rfl
  | pointer p t =>
    change (if p.isInPlace ownership then t.merge ownership v v else v) = v
    rw [merge_self t v, ite_self]
  | named name t => exact merge_self t v
  | _ => rfl

theorem mergeFields_self : ∀ (fs : List Field) (vs : List Value),
    mergeFields ownership fs vs vs = vs
  | .mandatory _ t :: fs, v :: vs => congrArg₂ List.cons (merge_self t v) (mergeFields_self fs vs)
  | .compatible .. :: fs, v :: vs => congrArg₂ List.cons v.orElse_self (mergeFields_self fs vs)
  | .skipped .. :: fs, v :: vs => congrArg (v :: ·) (mergeFields_self fs vs)
  | [], _ | .mandatory .. :: _, [] | .compatible .. :: _, [] | .skipped .. :: _, [] => rfl

end

mutual

/-- A value that has been merged is merged already. -/
theorem merge_merge (t : Schema) (old new : Value) :
    t.merge ownership (t.merge ownership old new) new = t.merge ownership old new := by
  cases t with
  | struct name style fields =>
    cases new with
    | record news =>
      cases old with
      | record olds => exact congrArg Value.record (mergeFields_mergeFields fields olds news)
      | _ => exact congrArg Value.record (mergeFields_self fields news)
    | _ => cases old <;> rfl
  | pointer p t =>
    change (if p.isInPlace ownership then
        t.merge ownership (if p.isInPlace ownership then t.merge ownership old new else new) new
      else new) = if p.isInPlace ownership then t.merge ownership old new else new
    by_cases hp : p.isInPlace ownership = true
    · simp only [if_pos hp, merge_merge t old new]
    · simp only [if_neg hp]
  | named name t => exact merge_merge t old new
  | _ => rfl

theorem mergeFields_mergeFields : ∀ (fs : List Field) (olds news : List Value),
    mergeFields ownership fs (mergeFields ownership fs olds news) news =
      mergeFields ownership fs olds news
  | .mandatory _ t :: fs, old :: olds, new :: news =>
    congrArg₂ List.cons (merge_merge t old new) (mergeFields_mergeFields fs olds news)
  | .compatible .. :: fs, old :: olds, new :: news =>
    congrArg₂ List.cons (new.orElse_orElse old) (mergeFields_mergeFields fs olds news)
  | .skipped .. :: fs, old :: olds, _ :: news =>
    congrArg (old :: ·) (mergeFields_mergeFields fs olds news)
  | fs, [], news => by
    have hm : mergeFields ownership fs [] news = news := by
      cases fs with
      | nil => rfl
      | cons f fs => cases f <;> rfl
    rw [hm, mergeFields_self]
  | [], _ :: _, _ | .mandatory .. :: _, _ :: _, [] | .compatible .. :: _, _ :: _, []
  | .skipped .. :: _, _ :: _, [] => rfl

end

mutual

theorem admits_merge (t : Schema) {old new : Value} (ho : t.admits old = true)
    (hn : t.admits new = true) : t.admits (t.merge ownership old new) = true := by
  cases t with
  | struct name style fields =>
    obtain ⟨olds,rfl,ho⟩ := record_of_admits ho
    obtain ⟨news,rfl,hn⟩ := record_of_admits hn
    exact fieldsAdmit_mergeFields fields olds news ho hn
  | pointer p t =>
    change t.admits (if p.isInPlace ownership then t.merge ownership old new else new) = true
    by_cases hp : p.isInPlace ownership = true
    · rw [if_pos hp]
      exact admits_merge t ho hn
    · rw [if_neg hp]
      exact hn
  | named name t => exact admits_merge t ho hn
  | _ => exact hn

theorem fieldsAdmit_mergeFields : ∀ (fs : List Field) (olds news : List Value),
    fieldsAdmit fs olds = true → fieldsAdmit fs news = true →
      fieldsAdmit fs (mergeFields ownership fs olds news) = true
  | .mandatory _ t :: fs, old :: olds, new :: news, ho, hn => by
    obtain ⟨ho,hos⟩ := Bool.and_eq_true_iff.mp ho
    obtain ⟨hn,hns⟩ := Bool.and_eq_true_iff.mp hn
    exact Bool.and_eq_true_iff.mpr ⟨admits_merge t ho hn,fieldsAdmit_mergeFields fs olds news hos hns⟩
  | .compatible name version t :: fs, old :: olds, new :: news, ho, hn => by
    rw [fieldsAdmit_compatible, Bool.and_eq_true_iff] at ho hn
    change fieldsAdmit (_ :: fs) (new.orElse old :: mergeFields ownership fs olds news) = true
    rw [fieldsAdmit_compatible, Bool.and_eq_true_iff]
    refine ⟨?_,fieldsAdmit_mergeFields fs olds news ho.2 hn.2⟩
    cases new with
    | absent => exact ho.1
    | _ => exact hn.1
  | .skipped _ _ _ :: fs, old :: olds, _ :: news, ho, hn => fieldsAdmit_mergeFields fs olds news ho hn
  | [], _, _, _, hn => by exact hn
  | .mandatory .. :: _, [], _, ho, _ | .compatible .. :: _, [], _, ho, _
  | .skipped .. :: _, [], _, ho, _ => by cases ho
  | .mandatory .. :: _, _ :: _, [], _, hn | .compatible .. :: _, _ :: _, [], _, hn
  | .skipped .. :: _, _ :: _, [], _, hn => by cases hn

end

end Schema

/-! ## Reading over a value -/

namespace Overwritten

variable {α β γ δ : Type} {o : Overwritten β} {x : Read α} {f : α → Read γ} {r s : Reader}
  {m : α → β} {m' : γ → δ}

/-- The outcome is that of an operation, and after a success the place holds what is made of its
value. -/
def Merges (o : Overwritten β) (result : EStateM.Result Error Reader α) (m : α → β) : Prop :=
  match result with
  | .ok a s => o = ⟨m a, .ok () s⟩
  | .error e s => o.outcome = .error e s

/-- What is told of an operation over a place: its outcome, and what the place holds. -/
def told (o : Overwritten β) : Except Error Unit × β :=
  match o.outcome with
  | .ok () _ => (.ok (), o.place)
  | .error e _ => (.error e, o.place)

/-- Operating on a place as an operation that returns what the place holds. -/
def result (o : Overwritten β) : EStateM.Result Error Reader β :=
  match o.outcome with
  | .ok () r => .ok o.place r
  | .error e r => .error e r

theorem Merges.result_eq (h : o.Merges (x r) m) : o.result = (m <$> x) r := by
  unfold result
  change _ = (x >>= fun a => pure (m a)) r
  cases hx : x r with
  | ok a s =>
    rw [hx] at h
    obtain rfl : o = ⟨m a,.ok () s⟩ := h
    rw [EStateM.bind_of_ok _ hx]
    rfl
  | error e s =>
    rw [hx] at h
    have he : o.outcome = .error e s := h
    rw [he, EStateM.bind_of_error _ hx]

theorem Merges.replace (x : Read Value) (old : Value) (r : Reader) :
    (Overwritten.replace x old r).Merges (x r) id := by
  unfold Overwritten.replace
  cases x r <;> rfl

/-- A further operation in the same or a larger place, if the first one succeeds. -/
theorem Merges.bind {whole : Overwritten δ} (h : o.Merges (x r) m)
    (hok : ∀ a s, o = ⟨m a,.ok () s⟩ → whole.Merges (f a s) m')
    (herror : ∀ e s, o.outcome = .error e s → whole.outcome = .error e s) :
    whole.Merges ((x >>= f) r) m' := by
  cases hx : x r with
  | ok a s =>
    rw [hx] at h
    rw [EStateM.bind_of_ok f hx]
    exact hok a s h
  | error e s =>
    rw [hx] at h
    rw [EStateM.bind_of_error f hx]
    exact herror e s h

theorem Merges.map {g : α → γ} {k : β → δ} (h : o.Merges (x r) m) (hm : ∀ a, k (m a) = m' (g a)) :
    (o.map k).Merges ((x >>= fun a => pure (g a)) r) m' := by
  refine h.bind ?_ ?_
  · rintro a s rfl
    exact congrArg (Overwritten.mk · _) (hm a)
  · exact fun e s he => he

theorem Merges.andThen (h : o.Merges (x r) m) (next : Read Unit) :
    (o.andThen next).Merges ((x >>= fun a => next >>= fun _ => pure a) r) m := by
  refine h.bind ?_ ?_
  · rintro a s rfl
    change Merges ⟨m a,next s⟩ _ m
    cases hn : next s with
    | ok _ t =>
      rw [EStateM.bind_of_ok _ hn]
      rfl
    | error e t =>
      rw [EStateM.bind_of_error _ hn]
      rfl
  · intro e s he
    unfold Overwritten.andThen
    rw [he]
    exact he

end Overwritten

namespace Schema

open Overwritten (Merges)

variable {ownership : Ownership} {r s : Reader} {e : Error}

section Parts
variable {name : String} {version : Nat} {t : Schema} {fs : List Field} {v w : Value}
  {vs : List Value} {slots slots' : Slots}

theorem overwrite_struct {style : Style} (h : Slots.start true r = .ok slots s) :
    (struct name style fs).overwrite ownership (.record vs) r =
      (overwriteFields ownership fs vs slots s).map .record := by
  simp only [overwrite, h]

theorem overwrite_struct_error {style : Style} (h : Slots.start true r = .error e s) :
    ((struct name style fs).overwrite ownership (.record vs) r).outcome = .error e s := by
  simp only [overwrite, h]

theorem overwriteFields_mandatory (h : t.overwrite ownership v r = ⟨w,.ok () s⟩) :
    overwriteFields ownership (.mandatory name t :: fs) (v :: vs) slots r =
      (overwriteFields ownership fs vs slots s).map (w :: ·) := by
  simp only [overwriteFields, h]

theorem overwriteFields_mandatory_error (h : (t.overwrite ownership v r).outcome = .error e s) :
    (overwriteFields ownership (.mandatory name t :: fs) (v :: vs) slots r).outcome = .error e s := by
  simp only [overwriteFields, h]

theorem overwriteFields_compatible {found : Option Value}
    (h : slots.read t.decode r = .ok (found,slots') s) :
    overwriteFields ownership (.compatible name version t :: fs) (v :: vs) slots r =
      (overwriteFields ownership fs vs slots' s).map ((Value.ofOption found).orElse v :: ·) := by
  simp only [overwriteFields, h, Value.ofOption_orElse]

theorem overwriteFields_compatible_error (h : slots.read t.decode r = .error e s) :
    (overwriteFields ownership (.compatible name version t :: fs) (v :: vs) slots r).outcome =
      .error e s := by
  simp only [overwriteFields, h]

end Parts

section Pointers
variable {p : Pointer} {t : Schema} {old : Value}

theorem merge_pointer (hp : p.isInPlace ownership = true) :
    (pointer p t).merge ownership old = t.merge ownership old := funext fun _ => if_pos hp

theorem merge_pointer_shared (hp : ¬p.isInPlace ownership = true) :
    (pointer p t).merge ownership old = id := funext fun _ => if_neg hp

end Pointers

mutual

theorem overwrite_merges (t : Schema) {old : Value} (h : t.admits old = true) (r : Reader) :
    (t.overwrite ownership old r).Merges (t.decode r) (t.merge ownership old) := by
  cases t with
  | struct name style fields =>
    obtain ⟨olds,rfl,h⟩ := record_of_admits h
    change Merges _ ((Slots.start true >>= fun slots => Value.record <$> decodeFields fields slots) r) _
    cases hs : Slots.start true r with
    | ok slots s =>
      rw [EStateM.bind_of_ok _ hs, overwrite_struct hs]
      exact (overwriteFields_merges fields olds h slots s).map fun _ => rfl
    | error e s =>
      rw [EStateM.bind_of_error _ hs]
      exact overwrite_struct_error hs
  | pointer p t =>
    by_cases hp : p.isInPlace ownership = true
    · rw [merge_pointer hp]
      change Merges (if p.isInPlace ownership then t.overwrite ownership old r
        else .replace t.decode old r) _ _
      rw [if_pos hp]
      exact overwrite_merges t h r
    · rw [merge_pointer_shared hp]
      change Merges (if p.isInPlace ownership then t.overwrite ownership old r
        else .replace t.decode old r) _ _
      rw [if_neg hp]
      exact .replace t.decode old r
  | named name t => exact overwrite_merges t h r
  | _ => exact .replace _ old r

theorem overwriteFields_merges : ∀ (fs : List Field) (vs : List Value),
    fieldsAdmit fs vs = true → ∀ (slots : Slots) (r : Reader),
      (overwriteFields ownership fs vs slots r).Merges (decodeFields fs slots r)
        (mergeFields ownership fs vs)
  | [], [], _, slots, r => by
    change Merges ⟨[],slots.finish r⟩ ((slots.finish >>= fun _ => pure []) r) _
    cases hs : slots.finish r with
    | ok _ s =>
      rw [EStateM.bind_of_ok _ hs]
      rfl
    | error e s =>
      rw [EStateM.bind_of_error _ hs]
      rfl
  | .mandatory name t :: fs, v :: vs, h, slots, r => by
    obtain ⟨hv,hvs⟩ := Bool.and_eq_true_iff.mp h
    refine (overwrite_merges t hv r).bind ?_ fun e s he => overwriteFields_mandatory_error he
    intro a s ha
    rw [overwriteFields_mandatory ha]
    exact (overwriteFields_merges fs vs hvs slots s).map fun _ => rfl
  | .compatible name version t :: fs, v :: vs, h, slots, r => by
    rw [fieldsAdmit_compatible, Bool.and_eq_true_iff] at h
    change Merges _ ((slots.read t.decode >>= fun p => decodeFields fs p.2 >>= fun ws =>
      pure (Value.ofOption p.1 :: ws)) r) _
    cases hs : slots.read t.decode r with
    | ok p s =>
      rw [EStateM.bind_of_ok _ hs, overwriteFields_compatible hs]
      exact (overwriteFields_merges fs vs h.2 p.2 s).map fun _ => rfl
    | error e s =>
      rw [EStateM.bind_of_error _ hs]
      exact overwriteFields_compatible_error hs
  | .skipped _ _ _ :: fs, v :: vs, h, slots, r =>
    (overwriteFields_merges fs vs h slots r).map fun _ => rfl
  | [], _ :: _, h, _, _ | .mandatory .. :: _, [], h, _, _ | .compatible .. :: _, [], h, _, _
  | .skipped .. :: _, [], h, _, _ => by cases h

end

/-- Reading over a value by the body of a record merges what is read into it. -/
theorem overwriteBody_merges (t : Schema) {old : Value} (h : t.admits old = true) (slots : Slots)
    (r : Reader) : (t.overwriteBody ownership old slots r).Merges (t.decodeBody slots r)
      (t.merge ownership old) := by
  fun_induction decodeBody t slots with
  | case1 name style fields slots =>
    obtain ⟨olds,rfl,h⟩ := record_of_admits h
    exact (overwriteFields_merges fields olds h slots r).map fun _ => rfl
  | case2 p t slots ih =>
    by_cases hp : p.isInPlace ownership = true
    · rw [merge_pointer hp]
      change Merges (if p.isInPlace ownership then t.overwriteBody ownership old slots r
        else .replace (t.decodeBody slots) old r) _ _
      rw [if_pos hp]
      exact ih h
    · rw [merge_pointer_shared hp]
      change Merges (if p.isInPlace ownership then t.overwriteBody ownership old slots r
        else .replace (t.decodeBody slots) old r) _ _
      rw [if_neg hp]
      exact .replace (t.decodeBody slots) old r
  | case3 name t slots ih => exact ih h
  | case4 t slots hs hp hn =>
    have ho : t.overwriteBody ownership old slots r =
        (t.overwrite ownership old r).andThen slots.finish := by
      cases t with
      | struct name style fields => exact (hs name style fields rfl).elim
      | pointer p t => exact (hp p t rfl).elim
      | named name t => exact (hn name t rfl).elim
      | _ => rfl
    rw [ho]
    exact (overwrite_merges t h r).andThen slots.finish

end Schema

namespace Record

open Overwritten (Merges)

variable {ownership : Ownership} {t : Schema} {old : Value} {o : Options} {bytes : List UInt8}

/-- Reads the header of a record. -/
def readOpening (t : Schema) : Read Slots := do readHeader (← layout t)

/-- Reads a record over a value. -/
def readOver (ownership : Ownership) (t : Schema) (old : Value) (r : Reader) : Overwritten Value :=
  match readOpening t r with
  | .ok slots s => t.overwriteBody ownership old slots s
  | .error e s => ⟨old, .error e s⟩

theorem read_eq_bind (t : Schema) : read t = readOpening t >>= t.decodeBody := by
  unfold read readOpening
  rw [bind_assoc]

theorem readOver_merges (h : t.admits old = true) (r : Reader) :
    (readOver ownership t old r).Merges (read t r) (t.merge ownership old) := by
  rw [read_eq_bind]
  unfold readOver
  cases hs : readOpening t r with
  | ok slots s =>
    rw [EStateM.bind_of_ok _ hs]
    exact Schema.overwriteBody_merges t h slots s
  | error e s =>
    rw [EStateM.bind_of_error _ hs]
    rfl

/-- An operation over a value is the operation alone, in its outcome, and a merge, if it succeeds. -/
theorem told_of_merges {op : Read Value} {after : Overwritten Value} {m : Value → Value}
    (h : after.Merges (op (.ofBytes o bytes)) m) :
    (∀ e, after.told.1 = .error e ↔ run o bytes op = .error e) ∧
      ∀ v, run o bytes op = .ok v → after.told = (.ok (), m v) := by
  unfold run Overwritten.told
  cases hx : op (.ofBytes o bytes) with
  | ok v s =>
    rw [hx] at h
    obtain rfl : after = ⟨m v,.ok () s⟩ := h
    refine ⟨?_,?_⟩
    · intro e
      constructor <;> rintro ⟨⟩
    · rintro _ ⟨⟩
      rfl
  | error e s =>
    rw [hx] at h
    have he : after.outcome = .error e s := h
    rw [he]
    refine ⟨fun e' => Iff.rfl.trans ?_,?_⟩
    · simp
    · rintro v ⟨⟩

theorem deserializeInto_eq (o : Options) (ownership : Ownership) (t : Schema) (bytes : List UInt8)
    (old : Value) :
    deserializeInto o ownership t bytes old =
      ((readOver ownership t old (.ofBytes o bytes)).andThen checkTrailing).told := by
  have hopening : (do readHeader (← layout t) : Read Slots) = readOpening t := rfl
  unfold deserializeInto readOver
  rw [hopening]
  cases readOpening t (.ofBytes o bytes) <;> rfl

theorem deserializeInto_of_admits (o : Options) (ownership : Ownership) (bytes : List UInt8)
    (h : t.admits old = true) :
    (∀ e, (deserializeInto o ownership t bytes old).1 = .error e ↔
        deserialize o t bytes = .error e) ∧
      ∀ new, deserialize o t bytes = .ok new →
        deserializeInto o ownership t bytes old = (.ok (),t.merge ownership old new) := by
  rw [deserializeInto_eq]
  exact told_of_merges ((readOver_merges h (.ofBytes o bytes)).andThen checkTrailing)

theorem admits_of_deserialize {v : Value} (h : deserialize o t bytes = .ok v) :
    t.admits v = true := by
  have hr : Read.Returns (read t >>= fun v => checkTrailing >>= fun _ => pure v)
      fun v => t.admits v = true := by
    rw [read_eq_bind]
    refine .bind (p := fun v => t.admits v = true) ?_ fun v hv => .after _ fun _ => .pure hv
    exact .after _ fun slots => t.returns_decodeBody slots
  unfold deserialize run at h
  split at h
  · rename_i v' s hs
    cases h
    exact hr _ _ _ hs
  · cases h

/-- A record is read over a value exactly if it is read alone, and fails with the same error; a
failure in the header leaves the value alone. A success merges what is read into the value, and
reading the record once more changes nothing. -/
theorem deserializeInto_merge (o : Options) (ownership : Ownership) (t : Schema)
    (bytes : List UInt8) (old : Value) (h : t.admits old = true) :
    (∀ e, (deserializeInto o ownership t bytes old).1 = .error e ↔
        deserialize o t bytes = .error e) ∧
      (∀ e s, readOpening t (.ofBytes o bytes) = .error e s →
        deserializeInto o ownership t bytes old = (.error e,old)) ∧
      ∀ new, deserialize o t bytes = .ok new →
        deserializeInto o ownership t bytes old = (.ok (),t.merge ownership old new) ∧
          deserializeInto o ownership t bytes (t.merge ownership old new) =
            (.ok (),t.merge ownership old new) := by
  obtain ⟨herror,hok⟩ := deserializeInto_of_admits o ownership bytes h
  refine ⟨herror,?_,?_⟩
  · intro e s hs
    have hr : readOver ownership t old (.ofBytes o bytes) = ⟨old,.error e s⟩ := by
      unfold readOver
      rw [hs]
    rw [deserializeInto_eq, hr]
    rfl
  · intro new hn
    have hm : t.admits (t.merge ownership old new) = true :=
      t.admits_merge h (admits_of_deserialize hn)
    have htwice := (deserializeInto_of_admits o ownership bytes hm).2 new hn
    rw [t.merge_merge] at htwice
    exact ⟨hok new hn,htwice⟩

/-- A meter: a note, and a shared dial with a cache that records do not hold and a unit. -/
def meter : Schema :=
  .struct "Meter" .named
    [.mandatory "dial" (.pointer .rc (.struct "Dial" .named
      [.mandatory "level" (.scalar .u16), .skipped "cache" (.scalar .u8) (.int 0),
        .compatible "unit" 1 .text])),
      .compatible "note" 2 .text]

/-- The record of a meter at level 9 with a note, and without a unit. -/
def meterBytes : List UInt8 := [31, 242, 206, 229, 1, 1, 1, 0, 9, 0, 3, 2, 111, 107]

/-- A meter at level 4 in millimetres, and what becomes of it. -/
def meterBefore : Value := .record [.record [.int 4, .int 3, .present (.text "mm")], .absent]

def meterAfter : Value :=
  .record [.record [.int 9, .int 3, .present (.text "mm")], .present (.text "ok")]

theorem deserializeInto_merge_meter :
    meter.admits meterBefore = true ∧
      deserializeInto {} .unique meter meterBytes meterBefore = (.ok (),meterAfter) ∧
      deserializeInto {} .unique meter meterBytes meterAfter = (.ok (),meterAfter) := by
  have ha : meter.admits meterBefore = true := by decide
  have hread : deserialize {} meter meterBytes =
      .ok (.record [.record [.int 9, .int 0, .absent], .present (.text "ok")]) := by rfl
  exact ⟨ha,(deserializeInto_merge {} .unique meter meterBytes meterBefore ha).2.2 _ hread⟩

end Record
end RecordCodec
