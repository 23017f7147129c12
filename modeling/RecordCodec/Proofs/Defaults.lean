import RecordCodec.Proofs.RoundTrip
import RecordCodec.Schema.Default

/-! # Default values are records too

The default of a type is one of its values, unless the type has none: an enum without alternatives
stands where the default puts something. No text and no collection of it holds anything, so a
default is read back from its record under every limit.
-/
namespace RecordCodec

theorem Scalar.admits_default (s : Scalar) : s.admits s.default = true := by
  cases s <;> decide

namespace Schema

mutual

/-- Whether a type has a default value, with something in every place of it. -/
def HasDefault : Schema → Prop
  | unit | scalar _ | text | duration | sequence _ | set _ | map .. | option _ => True
  | array t n => n = 0 ∨ t.HasDefault
  | tuple ts => AllHaveDefaults ts
  | pointer _ t | named _ t => t.HasDefault
  | struct _ _ fields => FieldsHaveDefaults fields
  | enum _ _ (.mk _ _ fields :: _) => FieldsHaveDefaults fields
  | enum _ _ [] | compatible .. | reference _ => False
termination_by structural t => t

def AllHaveDefaults : List Schema → Prop
  | [] => True
  | t :: ts => t.HasDefault ∧ AllHaveDefaults ts
termination_by structural ts => ts

def FieldsHaveDefaults : List Field → Prop
  | [] => True
  | .mandatory _ t :: fs => t.HasDefault ∧ FieldsHaveDefaults fs
  | .compatible .. :: fs | .skipped .. :: fs => FieldsHaveDefaults fs
termination_by structural fs => fs

end

mutual

theorem admits_default_iff : ∀ t : Schema, t.admits t.default = true ↔ t.HasDefault
  | unit | text | option _ | sequence _ | set _ | map .. => iff_of_true rfl trivial
  | scalar s => iff_of_true s.admits_default trivial
  | duration => iff_of_true (by decide) trivial
  | array t n => by
    have h := admits_default_iff t
    simp only [default, admits, HasDefault, List.length_replicate, beq_self_eq_true, Bool.true_and,
      List.all_replicate, ← h]
    cases n <;> simp
  | tuple ts => componentsAdmit_defaults_iff ts
  | pointer _ t | named _ t => admits_default_iff t
  | struct _ _ fields => fieldsAdmit_defaults_iff fields
  | enum _ _ (.mk _ _ fields :: _) => fieldsAdmit_defaults_iff fields
  | enum _ _ [] | compatible .. | reference _ => iff_of_false Bool.false_ne_true id

theorem componentsAdmit_defaults_iff : ∀ ts : List Schema,
    componentsAdmit ts (defaults ts) = true ↔ AllHaveDefaults ts
  | [] => iff_of_true rfl trivial
  | t :: ts =>
    Bool.and_eq_true_iff.trans
      (and_congr (admits_default_iff t) (componentsAdmit_defaults_iff ts))

theorem fieldsAdmit_defaults_iff : ∀ fs : List Field,
    fieldsAdmit fs (fieldDefaults fs) = true ↔ FieldsHaveDefaults fs
  | [] => iff_of_true rfl trivial
  | .mandatory _ t :: fs =>
    Bool.and_eq_true_iff.trans (and_congr (admits_default_iff t) (fieldsAdmit_defaults_iff fs))
  | .compatible .. :: fs | .skipped .. :: fs => fieldsAdmit_defaults_iff fs

end

mutual

theorem reset_default : ∀ t : Schema, t.reset t.default = t.default
  | unit | text | option _ | sequence _ | set _ | map .. | duration | compatible .. | reference _ =>
    rfl
  | scalar s => by cases s <;> rfl
  | array t n => by
    have h := reset_default t
    simp only [default, reset, List.map_replicate, h]
  | tuple ts => congrArg Value.record (resetComponents_defaults ts)
  | pointer _ t | named _ t => reset_default t
  | struct _ _ fields => congrArg Value.record (resetFields_defaults fields)
  | enum _ _ (.mk _ _ fields :: _) => congrArg (Value.variant 0) (resetFields_defaults fields)
  | enum _ _ [] => rfl

theorem resetComponents_defaults : ∀ ts : List Schema, resetComponents ts (defaults ts) = defaults ts
  | [] => rfl
  | t :: ts => congrArg₂ List.cons (reset_default t) (resetComponents_defaults ts)

theorem resetFields_defaults : ∀ fs : List Field, resetFields fs (fieldDefaults fs) = fieldDefaults fs
  | [] => rfl
  | .mandatory _ t :: fs => congrArg₂ List.cons (reset_default t) (resetFields_defaults fs)
  | .compatible .. :: fs => congrArg (Value.absent :: ·) (resetFields_defaults fs)
  | .skipped _ _ v :: fs => congrArg (v :: ·) (resetFields_defaults fs)

end

mutual

theorem distinct_default : ∀ t : Schema, t.distinct t.default = true
  | unit | text | option _ | sequence _ | set _ | map .. | duration | compatible .. | reference _
  | scalar _ => rfl
  | array t n => by
    have h := distinct_default t
    simp only [default, distinct, List.all_replicate, h, ite_self]
  | tuple ts => componentsDistinct_defaults ts
  | pointer _ t | named _ t => distinct_default t
  | struct _ _ fields => fieldsDistinct_defaults fields
  | enum _ _ (.mk _ _ fields :: _) => fieldsDistinct_defaults fields
  | enum _ _ [] => rfl

theorem componentsDistinct_defaults : ∀ ts : List Schema, componentsDistinct ts (defaults ts) = true
  | [] => rfl
  | t :: ts => Bool.and_eq_true_iff.mpr ⟨distinct_default t,componentsDistinct_defaults ts⟩

theorem fieldsDistinct_defaults : ∀ fs : List Field, fieldsDistinct fs (fieldDefaults fs) = true
  | [] => rfl
  | .mandatory _ t :: fs =>
    Bool.and_eq_true_iff.mpr ⟨distinct_default t,fieldsDistinct_defaults fs⟩
  | .compatible .. :: fs | .skipped .. :: fs => fieldsDistinct_defaults fs

end

mutual

/-- No length that a default's record is prefixed with is more than zero. -/
theorem lengths_default : ∀ t : Schema, ∀ n ∈ t.lengths t.default, n = 0
  | unit, _, h | option _, _, h | duration, _, h | compatible .., _, h | reference _, _, h
  | enum _ _ [], _, h => nomatch h
  | scalar s, _, h => by cases s <;> cases h
  | text, _, h | sequence _, _, h | set _, _, h | map .., _, h => List.mem_singleton.mp h
  | array t n, l, h => by
    obtain ⟨v,hv,hl⟩ := List.mem_flatMap.mp h
    obtain rfl := List.eq_of_mem_replicate hv
    exact lengths_default t l hl
  | tuple ts, l, h => componentLengths_defaults ts l h
  | pointer _ t, l, h | named _ t, l, h => lengths_default t l h
  | struct _ _ fields, l, h | enum _ _ (.mk _ _ fields :: _), l, h =>
    fieldLengths_defaults fields l h

theorem componentLengths_defaults : ∀ ts : List Schema,
    ∀ n ∈ componentLengths ts (defaults ts), n = 0
  | [], _, h => nomatch h
  | t :: ts, l, h =>
    (List.mem_append.mp h).elim (lengths_default t l) (componentLengths_defaults ts l)

theorem fieldLengths_defaults : ∀ fs : List Field, ∀ n ∈ fieldLengths fs (fieldDefaults fs), n = 0
  | [], _, h => nomatch h
  | .mandatory _ t :: fs, l, h =>
    (List.mem_append.mp h).elim (lengths_default t l) (fieldLengths_defaults fs l)
  | .compatible .. :: fs, l, h | .skipped .. :: fs, l, h => fieldLengths_defaults fs l h

end

end Schema

namespace Record

open Emission (allBytes)

variable {o : Options} {t : Schema} {d : Descriptor}

/-- The default of a type has a record, from which it is read back, whatever the limit. -/
theorem deserialize_default (ho : o.maxLength < addressSpace) (ht : t.descriptor = .ok d)
    (h : t.HasDefault) :
    ∃ bytes, serialize t t.default = .ok bytes ∧ deserialize o t bytes = .ok t.default := by
  have hw := (Schema.descriptor_eq_ok ht).2
  have hv := t.admits_default_iff.mpr h
  have hf : Fits o (t,t.default) :=
    ⟨hw,hv,fun n hn => t.lengths_default n hn ▸ Nat.zero_le _⟩
  have hr := delivers_read ho ht ht (Schema.related_self hw) hf
  rw [Schema.project_self hv, t.reset_default, t.distinct_default] at hr
  obtain ⟨es,he,hes⟩ := hr
  exact ⟨allBytes es,serialize_eq he,deserialize_of_ok hes⟩

/-- A setting whose first alternative holds a pair of keys. -/
def setting : Schema :=
  .enum "Setting" "Setting"
    [.mk "Keys" .positional [.mandatory "0" (.array .text 2)], .mk "Off" .unit []]

example : serialize setting setting.default = .ok [0x6e, 0x6c, 0x50, 0x5f, 0x00, 0x00, 0x00] := by
  decide

end Record
end RecordCodec
