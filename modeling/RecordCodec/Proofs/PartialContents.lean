import RecordCodec.Proofs.Faults
import RecordCodec.Proofs.RecordFields

/-! # What partly read records tell

The value of a located field is read from its bytes alone, and all of them have to be read. No way of
reading them ends in an absent field, so that a field told to be absent is one without bytes.
-/
namespace RecordCodec

namespace PartialRecord

/-- The value of a compatible field, out of what is read of its payload. -/
def orAbsent : Except Error Value → Except Error Value
  | .ok v => .ok (.present v)
  | .error (.fieldAbsent _) => .ok .absent
  | .error e => .error e

/-- What a partly read record tells of a field: what is read of its bytes, or that the payload is
absent. -/
def content (p : PartialRecord) (s : Selector) : Field → Except Error Value
  | .mandatory _ t => p.get s t
  | .compatible _ _ t => orAbsent (p.get s t)
  | .skipped _ _ default => .ok default

/-- What a partly read record tells of all fields, where those that records hold are numbered from
`index` on. -/
def contents (p : PartialRecord) (index : Nat) : List Field → Except Error (List Value)
  | [] => .ok []
  | .skipped _ _ default :: fs => do
    let vs ← p.contents index fs
    pure (default :: vs)
  | f :: fs => do
    let v ← p.content (.index index) f
    let vs ← p.contents (index + 1) fs
    pure (v :: vs)

end PartialRecord

namespace Record

variable {α : Type} {o : Options} {bytes : List UInt8} {x : Read α}

theorem run_eq_ok {a : α} : run o bytes x = .ok a ↔ ∃ u, x (.ofBytes o bytes) = .ok a u := by
  unfold run
  cases x (.ofBytes o bytes) with
  | ok b u =>
    constructor
    · rintro ⟨⟩
      exact ⟨u,rfl⟩
    · rintro ⟨_,⟨⟩⟩
      rfl
  | error e u =>
    constructor
    · rintro ⟨⟩
    · rintro ⟨_,⟨⟩⟩

theorem run_eq_error {e : Error} :
    run o bytes x = .error e ↔ ∃ u, x (.ofBytes o bytes) = .error e u := by
  unfold run
  cases x (.ofBytes o bytes) with
  | ok b u =>
    constructor
    · rintro ⟨⟩
    · rintro ⟨_,⟨⟩⟩
  | error e u =>
    constructor
    · rintro ⟨⟩
      exact ⟨u,rfl⟩
    · rintro ⟨_,⟨⟩⟩
      rfl

end Record

namespace PartialRecord

open Read (Gives Local FailsOnData)

variable {p : PartialRecord} {s : Selector} {f : FieldLayout} {c : Option (List UInt8)}
  {b : List UInt8} {item : Read Value}

theorem span_eq_ok (hf : p.layout.field? s = some f)
    (hs : p.spans.find? (·.index == f.index) = some ⟨f.index,c⟩) : p.span s = .ok (f,c) := by
  unfold span
  rw [hf]
  dsimp only
  rw [hs]

theorem isPresent_eq_ok (h : p.span s = .ok (f,c)) : p.isPresent s = .ok c.isSome := by
  unfold isPresent
  rw [h]
  rfl

theorem bytesIf_eq (h : p.span s = .ok (f,c)) {asked : FieldLayout → Except Error Bool}
    (ha : asked f = .ok true) :
    p.bytesIf s asked = c.elim (.error (.fieldAbsent s.text)) .ok := by
  unfold bytesIf
  rw [h]
  cases c with
  | none =>
    change (asked f >>= fun answer => _) = _
    rw [ha]
    rfl
  | some b =>
    change (asked f >>= fun answer => _) = _
    rw [ha]
    rfl

theorem get_eq (h : p.span s = .ok (f,c)) {t : Schema} (ht : t.descriptor = .ok t.shape)
    (hf : f.descriptor = t.shape) :
    p.get s t = c.elim (.error (.fieldAbsent s.text)) fun b => p.readAll s b t.decode := by
  have ha : (do pure ((← t.descriptor).literal == f.literal) : Except Error Bool) = .ok true := by
    unfold FieldLayout.literal
    rw [ht, hf]
    exact congrArg Except.ok (beq_self_eq_true t.shape.literal)
  unfold get
  rw [bytesIf_eq h ha]
  cases c <;> rfl

/-- Bytes are all read exactly if the value is read from these bytes alone. -/
theorem readAll_eq_ok (hl : Local item) {v : Value} :
    p.readAll s b item = .ok v ↔ Gives p.options item b (.ok v) := by
  let r := Reader.ofBytes p.options b
  unfold readAll
  rw [Record.run_eq_ok]
  constructor
  · rintro ⟨u,h⟩
    obtain ⟨a,t,ht,hk⟩ := EStateM.bind_eq_ok.mp h
    obtain ⟨left,t',hr,hi⟩ := EStateM.bind_eq_ok.mp hk
    obtain ⟨rfl,rfl⟩ := Read.remaining_eq_ok.mp hr
    by_cases hz : t.remaining = 0
    · rw [if_pos hz] at hi
      obtain ⟨rfl,-⟩ := EStateM.pure_eq_ok.mp hi
      obtain ⟨d,hd⟩ := hl.passes ht
      have hb : b = d ++ t.rest := hd.rest_eq
      rw [List.length_eq_zero_iff.mp hz, List.append_nil] at hb
      subst hb
      exact hl.gives ht hd
    · rw [if_neg hz] at hi
      cases hi
  · intro h
    obtain ⟨u,hu,hp⟩ := h.ok (r := r) rfl (List.prefix_refl b)
    have hz : u.remaining = 0 := by
      have hl : b.length = b.length + u.remaining := hp.remaining_eq
      omega
    have hr : Read.remaining u = .ok u.remaining u := rfl
    refine ⟨u,(EStateM.bind_of_ok _ hu).trans ((EStateM.bind_of_ok _ hr).trans ?_)⟩
    rw [if_pos hz]
    rfl

/-- Reading all of some bytes does not come to an absent field. -/
theorem readAll_ne_fieldAbsent (h : FailsOnData item) (name : String) :
    p.readAll s b item ≠ .error (.fieldAbsent name) := by
  have hf : FailsOnData (item >>= fun a => Read.remaining >>= fun left =>
      if left = 0 then pure a else Read.fault (.undecoded s.text left)) :=
    h.bind fun a => Read.failsOnData_remaining.bind fun _ =>
      Read.Elementary.ite (.pure a) (Read.failsOnData_elementary.fault _)
  intro hr
  obtain ⟨u,hu⟩ := Record.run_eq_error.mp hr
  exact hf _ _ u hu

theorem orAbsent_eq_ok {x : Except Error Value} {v : Value} :
    orAbsent x = .ok v ↔
      (∃ w, x = .ok w ∧ v = .present w) ∨ (∃ name, x = .error (.fieldAbsent name)) ∧ v = .absent := by
  constructor
  · intro h
    unfold orAbsent at h
    split at h
    · rename_i w
      exact .inl ⟨w,rfl,(Except.ok.inj h).symm⟩
    · rename_i name
      exact .inr ⟨⟨name,rfl⟩,(Except.ok.inj h).symm⟩
    · cases h
  · rintro (⟨w,rfl,rfl⟩ | ⟨⟨name,rfl⟩,rfl⟩) <;> rfl

/-- What is told of a field is what the field holds. -/
theorem content_eq_ok (h : p.span s = .ok (f,c)) {field : Field} (hs : field.isSkipped = false)
    (hd : field.schema.descriptor = .ok field.schema.shape)
    (hf : f.descriptor = field.schema.shape) {v : Value} :
    p.content s field = .ok v ↔ field.Holds p.options v c := by
  have hget := get_eq h hd hf
  cases field with
  | skipped name t default => cases hs
  | mandatory name t =>
    change p.get s t = _ at hget
    change p.get s t = .ok v ↔ ∃ b, c = some b ∧ Gives p.options t.decode b (.ok v)
    rw [hget]
    cases c with
    | none =>
      constructor
      · rintro ⟨⟩
      · rintro ⟨b,⟨⟩,-⟩
    | some b =>
      refine (readAll_eq_ok t.local_decode).trans ⟨fun hg => ⟨b,rfl,hg⟩,?_⟩
      rintro ⟨b',hb,hg⟩
      cases hb
      exact hg
  | compatible name version t =>
    change p.get s t = _ at hget
    change orAbsent (p.get s t) = .ok v ↔ _
    rw [hget, orAbsent_eq_ok]
    cases c with
    | none =>
      constructor
      · rintro (⟨w,⟨⟩,-⟩ | ⟨-,hv⟩)
        exact hv
      · intro hv
        exact .inr ⟨⟨s.text,rfl⟩,hv⟩
    | some b =>
      have hw := (Schema.descriptor_eq_ok hd).2
      constructor
      · rintro (⟨w,hr,hv⟩ | ⟨⟨name,hr⟩,-⟩)
        · exact ⟨w,hv,(readAll_eq_ok t.local_decode).mp hr⟩
        · exact absurd hr (readAll_ne_fieldAbsent (t.failsOnData_decode hw) name)
      · rintro ⟨w,hv,hg⟩
        exact .inl ⟨w,(readAll_eq_ok t.local_decode).mpr hg,hv⟩

end PartialRecord

namespace PartialRecord

open RecordCodec.Field (kept AllHold)

variable {p : PartialRecord}

theorem contents_cons {f : Field} (hs : f.isSkipped = false) (fs : List Field) (index : Nat) :
    p.contents index (f :: fs) =
      p.content (.index index) f >>= fun v =>
        p.contents (index + 1) fs >>= fun vs => pure (v :: vs) := by
  cases f with
  | skipped name t default => cases hs
  | _ => rfl

theorem allHold_cons {o : Options} {f : Field} (hs : f.isSkipped = false) {fs : List Field}
    {vs : List Value} {cs : List (Option (List UInt8))} :
    AllHold o (f :: fs) vs cs ↔
      ∃ v ws c ds, vs = v :: ws ∧ cs = c :: ds ∧ f.Holds o v c ∧ AllHold o fs ws ds := by
  cases f with
  | skipped name t default => cases hs
  | _ => exact Iff.rfl

theorem kept_cons {f : Field} (hs : f.isSkipped = false) (fs : List Field) :
    kept (f :: fs) = f :: kept fs := by
  unfold kept
  rw [List.filter_cons, hs]
  rfl

/-- What is told of all fields is what they hold, if that is so of each kept one. -/
theorem contents_eq_ok (fs : List Field) {index : Nat} {cs : List (Option (List UInt8))}
    {vs : List Value} (hl : cs.length = (kept fs).length)
    (h : ∀ (j : Nat) (field : Field), (kept fs)[j]? = some field → ∃ c, cs[j]? = some c ∧
      ∀ v, p.content (.index (index + j)) field = .ok v ↔ field.Holds p.options v c) :
    p.contents index fs = .ok vs ↔ AllHold p.options fs vs cs := by
  induction fs generalizing index cs vs with
  | nil =>
    obtain rfl := List.length_eq_zero_iff.mp hl
    constructor
    · rintro ⟨⟩
      exact ⟨rfl,rfl⟩
    · rintro ⟨rfl,-⟩
      rfl
  | cons f fs ih =>
    cases hs : f.isSkipped with
    | true =>
      cases f with
      | skipped name t default =>
        change (p.contents index fs >>= fun ws => pure (default :: ws)) = .ok vs ↔
          ∃ v ws, vs = v :: ws ∧ v = default ∧ AllHold p.options fs ws cs
        rw [Except.bind_eq_ok]
        constructor
        · rintro ⟨ws,hw,hk⟩
          obtain rfl := Except.ok.inj hk
          exact ⟨default,ws,rfl,rfl,(ih hl h).mp hw⟩
        · rintro ⟨v,ws,rfl,rfl,ha⟩
          exact ⟨ws,(ih hl h).mpr ha,rfl⟩
      | _ => cases hs
    | false =>
      rw [kept_cons hs] at hl h
      obtain ⟨c,hc,hv⟩ := h 0 f rfl
      cases cs with
      | nil => cases hc
      | cons c' ds =>
        obtain rfl : c' = c := Option.some.inj hc
        have hi (ws : List Value) :
            p.contents (index + 1) fs = .ok ws ↔ AllHold p.options fs ws ds := by
          refine ih (Nat.succ.inj hl) fun j field hj => ?_
          have hk := h (j + 1) field hj
          rwa [← Nat.add_assoc, Nat.add_right_comm] at hk
        rw [contents_cons hs, allHold_cons hs, Except.bind_eq_ok]
        constructor
        · rintro ⟨v,hp,hk⟩
          obtain ⟨ws,hw,hk⟩ := Except.bind_eq_ok.mp hk
          obtain rfl := Except.ok.inj hk
          exact ⟨v,ws,c',ds,rfl,rfl,(hv v).mp hp,(hi ws).mp hw⟩
        · rintro ⟨v,ws,c'',ds',rfl,he,hh,ha⟩
          obtain ⟨rfl,rfl⟩ := List.cons.inj he
          exact ⟨v,(hv v).mpr hh,Except.bind_eq_ok.mpr ⟨ws,(hi ws).mpr ha,rfl⟩⟩

end PartialRecord

end RecordCodec
