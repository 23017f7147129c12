import RecordCodec.Proofs.Locality
import RecordCodec.Proofs.Shape

/-! # Values are stepped over as they are read

Whatever a type's decoder reads is stepped over by its descriptor, to the same place. Where a width
is fixed, a value takes exactly so many bytes, however it is passed. A string that has more bytes
than can be addressed is none that a reader stands in.
-/
namespace RecordCodec

namespace Read

variable {α β γ : Type} {x : Read α} {y z : Read Unit} {f : α → Read β}

/-- Each success of the one operation is a success of the other, which moves the reader to the same
place. -/
def Steps (x : Read α) (y : Read Unit) : Prop :=
  ∀ r a s, r.bytes.length < addressSpace → x r = .ok a s → y r = .ok () s

/-- The operation passes so many bytes, if it is known how many. -/
def Takes (y : Read Unit) (width : Option Nat) : Prop :=
  ∀ w, width = some w → ∀ r s, y r = .ok () s → ∃ b, r.Passes b s ∧ b.length = w

/-- A success of the operation leaves the reader where it is. -/
def Stays (x : Read α) : Prop := ∀ r a s, x r = .ok a s → s = r

theorem Stays.pure (a : α) : Stays (pure a) := by
  intro r b s hs
  obtain ⟨-,rfl⟩ := EStateM.pure_eq_ok.mp hs
  rfl

theorem Stays.fault (e : Fault) : Stays (fault (α := α) e) := by
  intro r a s hs
  cases hs

theorem Steps.trans (h : Steps x y) (k : Steps y z) : Steps x z := by
  intro r a s hr ha
  exact k r () s hr (h r a s hr ha)

theorem Steps.pure (a : α) : Steps (pure a) (pure ()) := by
  intro r b s _ hs
  obtain ⟨-,rfl⟩ := EStateM.pure_eq_ok.mp hs
  rfl

theorem Steps.fault (e : Fault) (y : Read Unit) : Steps (fault (α := α) e) y := by
  intro r a s _ hs
  cases hs

theorem Steps.bind (hx : Local x) (h : Steps x y) (k : ∀ a, Steps (f a) z) :
    Steps (x >>= f) (y >>= fun _ => z) := by
  intro r b t hr ht
  obtain ⟨a,s,hs,hf⟩ := EStateM.bind_eq_ok.mp ht
  obtain ⟨u,hu⟩ := hx.passes hs
  have hb : s.bytes.length < addressSpace := hu.bytes_eq ▸ hr
  rw [EStateM.bind_of_ok _ (h r a s hr hs)]
  exact k a s b t hb hf

/-- Whatever is read may be rejected or turned into something else in place. -/
theorem Steps.check (h : Steps x y) (k : ∀ a, Stays (f a)) : Steps (x >>= f) y := by
  intro r b s hr hs
  obtain ⟨a,u,hu,hf⟩ := EStateM.bind_eq_ok.mp hs
  obtain rfl := k a u b s hf
  exact h r a s hr hu

theorem Steps.bind_pure {g : α → β} (h : Steps x y) : Steps (x >>= fun a => Pure.pure (g a)) y :=
  h.check fun a => .pure (g a)

theorem Steps.map (g : α → β) (h : Steps x y) : Steps (g <$> x) y := h.bind_pure

/-- What both operations begin with is the same. -/
theorem Steps.after (hx : Local x) {g : α → Read Unit} (k : ∀ a, Steps (f a) (g a)) :
    Steps (x >>= f) (x >>= g) := by
  intro r b t hr ht
  obtain ⟨a,s,hs,hf⟩ := EStateM.bind_eq_ok.mp ht
  obtain ⟨u,hu⟩ := hx.passes hs
  have hb : s.bytes.length < addressSpace := hu.bytes_eq ▸ hr
  rw [EStateM.bind_of_ok _ hs]
  exact k a s b t hb hf

theorem Steps.ite {p : Prop} [Decidable p] {x' : Read α} (h : Steps x y) (k : Steps x' z) :
    Steps (if p then x else x') (if p then y else z) := by
  by_cases hp : p
  · rw [if_pos hp, if_pos hp]
    exact h
  · rw [if_neg hp, if_neg hp]
    exact k

theorem take_unit {n : Nat} {r s : Reader} :
    (take n >>= fun _ => Pure.pure ()) r = .ok () s ↔ ∃ b, r.Passes b s ∧ b.length = n := by
  constructor
  · intro h
    obtain ⟨b,t,ht,hp⟩ := EStateM.bind_eq_ok.mp h
    obtain ⟨-,rfl⟩ := EStateM.pure_eq_ok.mp hp
    exact ⟨b,take_eq_ok.mp ht⟩
  · rintro ⟨b,hb⟩
    exact EStateM.bind_of_ok _ (take_eq_ok.mpr hb)

theorem takes_take (n : Nat) : Takes (take n >>= fun _ => Pure.pure ()) (some n) := by
  rintro w hw r s hs
  cases hw
  exact take_unit.mp hs

theorem steps_take (n : Nat) : Steps (take n) (take n >>= fun _ => Pure.pure ()) := by
  intro r b s _ hs
  exact take_unit.mpr ⟨b,take_eq_ok.mp hs⟩

theorem steps_nat (width : Nat) : Steps (nat width) (take width >>= fun _ => Pure.pure ()) :=
  (steps_take width).map _

/-! ## Repetition -/

theorem steps_replicate (hx : Local x) (h : Steps x y) (n : Nat) :
    Steps (replicate n x) (times n y) := by
  induction n with
  | zero => exact .pure []
  | succ n ih => exact .bind hx h fun a => ih.bind_pure

theorem steps_distinct {item : Read Value} (view : Value → Value) (hx : Local item)
    (h : Steps item y) (n : Nat) (collected : List Value) :
    Steps (distinct view item n collected) (times n y) := by
  induction n generalizing collected with
  | zero => exact .pure collected
  | succ n ih =>
    refine .bind hx h fun v => ?_
    split
    · exact ih _
    · exact .fault _ _

theorem takes_times {w : Nat} (h : Takes y (some w)) (n : Nat) :
    Takes (times n y) (some (n * w)) := by
  induction n with
  | zero =>
    rintro _ hw r s hs
    cases hw
    obtain ⟨-,rfl⟩ := EStateM.pure_eq_ok.mp hs
    exact ⟨[],Reader.Passes.refl r,(Nat.zero_mul w).symm⟩
  | succ n ih =>
    rintro _ hw r s hs
    cases hw
    obtain ⟨_,t,ht,hs⟩ := EStateM.bind_eq_ok.mp hs
    obtain ⟨b,hb,hbw⟩ := h w rfl r t ht
    obtain ⟨c,hc,hcw⟩ := ih _ rfl t s hs
    refine ⟨b ++ c,hb.trans hc,?_⟩
    rw [List.length_append, hbw, hcw, Nat.succ_mul, Nat.add_comm]

end Read

namespace Reader

theorem Passes.length_le {r s : Reader} {b : List UInt8} (h : r.Passes b s) :
    b.length ≤ r.bytes.length := by
  have hp := h.position_eq
  have hs := s.position_le
  rw [h.bytes_eq] at hs
  omega

end Reader

theorem checked_eq_some {n m : Nat} : checked n = some m ↔ n < addressSpace ∧ n = m := by
  unfold checked
  by_cases h : n < addressSpace
  · rw [if_pos h]
    constructor
    · rintro ⟨⟩
      exact ⟨h,rfl⟩
    · rintro ⟨-,rfl⟩
      rfl
  · rw [if_neg h]
    constructor
    · rintro ⟨⟩
    · rintro ⟨hn,-⟩
      exact absurd hn h

namespace Descriptor

open Read (Steps Takes Local times)

variable {y : Read Unit}

theorem steps_passOr {width : Option Nat} (h : Takes y width) : Steps y (passOr width y) := by
  cases width with
  | none =>
    intro r a s _ hs
    exact hs
  | some w =>
    intro r a s _ hs
    exact Read.take_unit.mpr (h w rfl r s hs)

theorem steps_passRun {width : Option Nat} (h : Takes y width) (n : Nat) :
    Steps (times n y) (passRun width n y) := by
  cases width with
  | none =>
    intro r a s _ hs
    exact hs
  | some w =>
    intro r a s hr hs
    obtain ⟨b,hb,hw⟩ := Read.takes_times h n _ rfl r s hs
    -- the bytes are there, so that their number is one that a width can be
    have hlt : n * w < addressSpace := by
      rw [← hw]
      exact Nat.lt_of_le_of_lt hb.length_le hr
    have hc : checked (n * w) = some (n * w) := checked_eq_some.mpr ⟨hlt,rfl⟩
    unfold passRun
    dsimp only
    rw [hc]
    exact Read.take_unit.mpr ⟨b,hb,hw⟩

theorem takes_passRun {width : Option Nat} (n : Nat) :
    Takes (passRun width n y) (do checked ((← width) * n)) := by
  cases width with
  | none =>
    rintro _ ⟨⟩
  | some w =>
    intro v hv
    obtain ⟨hlt,rfl⟩ := checked_eq_some.mp hv
    have hc : checked (n * w) = some (w * n) :=
      checked_eq_some.mpr ⟨Nat.mul_comm n w ▸ hlt,Nat.mul_comm n w⟩
    unfold passRun
    dsimp only
    rw [hc]
    exact Read.takes_take _ _ rfl

/-- A descriptor of a fixed width steps over so many bytes. -/
theorem takes_skip (d : Descriptor) : Takes d.skip d.fixedWidth := by
  intro w hw
  cases d with
  | unit => exact Read.takes_take 0 w hw
  | scalar s => exact Read.takes_take s.width w hw
  | array element n =>
    change ∀ r s, passOr (array element n).fixedWidth _ r = _ → _
    rw [hw]
    exact Read.takes_take w w rfl
  | aggregate typeName fields extensible =>
    change ∀ r s, passOr (aggregate typeName fields extensible).fixedWidth _ r = _ → _
    rw [hw]
    exact Read.takes_take w w rfl
  | _ => cases hw

theorem fieldsWidth_cons_eq_some {name : String} {shape : Descriptor} {version : Option Nat}
    {fs : List FieldDescriptor} {start w : Nat} :
    fieldsWidth start (⟨name,shape,version⟩ :: fs) = some w ↔
      ∃ n, shape.fixedWidth = some n ∧ start + n < addressSpace ∧
        fieldsWidth (start + n) fs = some w := by
  change (do
    let width ← shape.fixedWidth
    fieldsWidth (← checked (start + width)) fs) = some w ↔ _
  simp only [Option.bind_eq_bind, Option.bind_eq_some_iff, checked_eq_some]
  constructor
  · rintro ⟨n,hn,_,⟨hlt,rfl⟩,hw⟩
    exact ⟨n,hn,hlt,hw⟩
  · rintro ⟨n,hn,hlt,hw⟩
    exact ⟨n,hn,_,⟨hlt,rfl⟩,hw⟩

/-- A sealed aggregate without compatible fields has the width of its fields, and no other has
one. -/
theorem fixedWidth_aggregate_eq_some {typeName : String} {fields : List FieldDescriptor}
    {extensible : Bool} {w : Nat} :
    (aggregate typeName fields extensible).fixedWidth = some w ↔
      extensible = false ∧ anyCompatible fields = false ∧ fieldsWidth 0 fields = some w := by
  change (if extensible || anyCompatible fields then none else fieldsWidth 0 fields) = some w ↔ _
  cases extensible <;> cases anyCompatible fields <;> simp

/-- The widths of the mandatory fields add up to what they take, beyond what they start with. -/
theorem takes_skipMandatory (fs : List FieldDescriptor) (ha : anyCompatible fs = false)
    {start w : Nat} (hw : fieldsWidth start fs = some w) :
    start ≤ w ∧ Takes (skipMandatory fs) (some (w - start)) := by
  induction fs generalizing start with
  | nil =>
    cases hw
    refine ⟨Nat.le_refl w,?_⟩
    rintro _ hn r s hs
    cases hn
    obtain ⟨-,rfl⟩ := EStateM.pure_eq_ok.mp hs
    exact ⟨[],Reader.Passes.refl r,(Nat.sub_self w).symm⟩
  | cons f fs ih =>
    obtain ⟨name,shape,version⟩ := f
    cases version with
    | some version => cases ha
    | none =>
      obtain ⟨width,hf,-,hw⟩ := fieldsWidth_cons_eq_some.mp hw
      obtain ⟨hle,ht⟩ := ih ha hw
      refine ⟨by omega,?_⟩
      rintro _ hn r s hs
      cases hn
      obtain ⟨_,u,hu,hs⟩ := EStateM.bind_eq_ok.mp hs
      obtain ⟨b,hb,hbw⟩ := shape.takes_skip width hf r u hu
      obtain ⟨c,hc,hcw⟩ := ht _ rfl u s hs
      refine ⟨b ++ c,hb.trans hc,?_⟩
      rw [List.length_append, hbw, hcw]
      omega

/-- The fields of an aggregate are stepped over like the aggregate. -/
theorem steps_aggregate (typeName : String) (fields : List FieldDescriptor) (extensible : Bool) :
    Steps (do
      let slots ← Slots.start extensible
      skipMandatory fields
      slots.finish) (aggregate typeName fields extensible).skip := by
  refine steps_passOr ?_
  intro w hw
  obtain ⟨rfl,ha,hw⟩ := fixedWidth_aggregate_eq_some.mp hw
  obtain ⟨-,ht⟩ := takes_skipMandatory fields ha hw
  intro r s hs
  obtain ⟨_,u,hu,hs⟩ := EStateM.bind_eq_ok.mp hs
  obtain ⟨rfl,rfl⟩ := EStateM.pure_eq_ok.mp hu
  obtain ⟨_,t,ht',hs⟩ := EStateM.bind_eq_ok.mp hs
  obtain ⟨-,rfl⟩ := EStateM.pure_eq_ok.mp hs
  exact ht w rfl r t ht'

end Descriptor

namespace Scalar

open Read (Steps)

theorem steps_read (s : Scalar) : Steps s.read (Descriptor.scalar s).skip := by
  have hn (width : Nat) (f : Nat → Value) :
      Steps (f <$> Read.nat width) (Read.take width >>= fun _ => pure ()) :=
    (Read.steps_nat width).map f
  have hu (width : Nat) : Steps (read.unsigned width) (Read.take width >>= fun _ => pure ()) :=
    ((Read.steps_nat width).map _).map _
  cases s with
  | bool =>
    refine Read.Steps.map _ ((Read.steps_nat 1).check fun b => ?_)
    split
    · exact .pure _
    · exact .pure _
    · exact .fault _
  | char =>
    refine Read.Steps.map _ ((Read.steps_nat 4).check fun code => ?_)
    by_cases hv : code.isValidChar
    · rw [dif_pos hv]
      exact .pure _
    · rw [dif_neg hv]
      exact .fault _
  | f32 | f64 => exact hn _ _
  | u8 | u16 | u32 | u64 | u128 => exact hu _
  | i8 | i16 | i32 | i64 | i128 => exact hn _ _

end Scalar

namespace Schema

open Descriptor (skipMandatory skipPayload skipAlternative)
open Read (Steps)

theorem steps_text : Steps Read.text Descriptor.text.skip := by
  have hb : Steps Read.byteString Descriptor.text.skip :=
    .after Read.local_length fun n => Read.steps_take n
  refine hb.check fun b => ?_
  split
  · exact .pure _
  · exact .fault _

theorem steps_durationFields : Steps Read.duration (skipMandatory durationFields) := by
  refine .bind (Read.local_nat 8) (Read.steps_nat 8) fun secs => ?_
  refine .bind (Read.local_nat 4) (Read.steps_nat 4) fun nanos => ?_
  split
  · exact .pure _
  · exact .fault _ _

theorem steps_duration : Steps Read.duration duration.shape.skip := by
  refine .trans ?_ (Descriptor.steps_aggregate _ durationFields false)
  intro r a s hr hs
  exact EStateM.bind_of_ok _ (steps_durationFields r a s hr hs)

/-- Without mandatory fields nothing is passed before the slots. -/
theorem skipMandatory_of_none {fs : List Field} (h : Field.mandatorySchemas fs = []) :
    skipMandatory (fieldShapes fs) = pure () := by
  induction fs with
  | nil => rfl
  | cons f fs ih =>
    cases f with
    | mandatory name t => cases h
    | compatible name version t => exact ih h
    | skipped name t default => exact ih h

mutual

/-- What a type's decoder reads is stepped over by its descriptor. -/
theorem steps_decode : ∀ t : Schema, t.WellFormed → Steps t.decode t.shape.skip
  | unit, _ => by
    intro r a s _ hs
    obtain ⟨-,rfl⟩ := EStateM.pure_eq_ok.mp hs
    exact Read.take_unit.mpr ⟨[],Reader.Passes.refl r,rfl⟩
  | scalar s, _ => s.steps_read
  | text, _ => steps_text.map _
  | duration, _ => steps_duration
  | sequence t, hw => by
    refine .after Read.local_length fun n => .map _ ?_
    have h := Read.steps_replicate t.local_decode (steps_decode t hw) n
    exact h.trans (Descriptor.steps_passRun t.shape.takes_skip n)
  | set t, hw => by
    refine .after Read.local_length fun n => .map _ ?_
    have h := Read.steps_distinct id t.local_decode (steps_decode t hw) n []
    exact h.trans (Descriptor.steps_passRun t.shape.takes_skip n)
  | map k v, hw => by
    have hk := steps_decode k hw.1
    have hv := steps_decode v hw.2
    refine .after Read.local_length fun n => .map _ ?_
    refine Read.steps_distinct Value.key ?_ ?_ n []
    · exact k.local_decode.bind fun _ => v.local_decode.bind fun _ => .pure _
    · exact .bind k.local_decode hk fun key => hv.bind_pure
  | array t n, hw => by
    have h := Read.steps_replicate t.local_decode (steps_decode t hw) n
    have hr := h.trans (Descriptor.steps_passRun t.shape.takes_skip n)
    exact (hr.trans (Descriptor.steps_passOr (Descriptor.takes_passRun n))).map _
  | option t, hw => .after Read.local_bool fun _ => .ite ((steps_decode t hw).map _) (.pure _)
  | tuple ts, hw => by
    refine .map _ (.trans ?_ (Descriptor.steps_aggregate _ _ false))
    have h := steps_decodeComponents 0 ts hw
    intro r a s hr hs
    exact EStateM.bind_of_ok _ (h r a s hr hs)
  | pointer _ t, hw | named _ t, hw => steps_decode t hw
  | compatible .., hw | reference _, hw => hw.elim
  | struct _ _ fields, hw => by
    refine .trans ?_ (Descriptor.steps_aggregate _ _ true)
    exact .after (Slots.local_start true) fun s =>
      .map _ (steps_decodeFields fields s hw.1 hw.2.2)
  | enum typeName _ alternatives, hw => by
    change Steps _ (Read.discriminant (alternativeShapes alternatives).length >>= _)
    rw [length_alternativeShapes]
    exact .after (Read.local_discriminant _) fun i =>
      .map _ (steps_decodeAlternative alternatives i hw.2)

theorem steps_decodeComponents : ∀ (index : Nat) (ts : List Schema), AllWellFormed ts →
    Steps (decodeComponents ts) (skipMandatory (componentShapes index ts))
  | _, [], _ => .pure _
  | index, t :: ts, hw =>
    .bind t.local_decode (steps_decode t hw.1) fun _ =>
      (steps_decodeComponents (index + 1) ts hw.2).bind_pure

/-- The mandatory fields are in front of the slots, of which some are read and some stepped over. -/
theorem steps_decodeFields : ∀ (fs : List Field) (slots : Slots), Field.InOrder fs →
    FieldsWellFormed fs →
      Steps (decodeFields fs slots) (do
        skipMandatory (fieldShapes fs)
        slots.finish)
  | [], slots, _, _ => by
    intro r a s _ hs
    obtain ⟨_,u,hu,hp⟩ := EStateM.bind_eq_ok.mp hs
    obtain ⟨-,rfl⟩ := EStateM.pure_eq_ok.mp hp
    exact hu
  | .mandatory _ t :: fs, slots, ho, hw => by
    intro r a s hr hs
    have h := Steps.bind t.local_decode (steps_decode t hw.1)
      (fun v => (steps_decodeFields fs slots ho hw.2).bind_pure (g := fun vs => v :: vs))
    change ((t.shape.skip >>= fun _ => skipMandatory (fieldShapes fs)) >>= fun _ => slots.finish) r = _
    rw [bind_assoc]
    exact h r a s hr hs
  | .compatible _ _ t :: fs, slots, ho, hw => by
    intro r a s hr hs
    obtain ⟨⟨v,slots'⟩,u,hu,hs⟩ := EStateM.bind_eq_ok.mp hs
    obtain ⟨b,hb⟩ := (slots.local_slot t.local_decode).passes hu
    have hf := (steps_decodeFields fs slots' ho.2 hw.2).bind_pure (g := fun vs => .ofOption v :: vs) u a s
      (hb.bytes_eq ▸ hr) hs
    change (skipMandatory (fieldShapes fs) >>= fun _ => slots.finish) r = _
    rw [skipMandatory_of_none ho.1] at hf ⊢
    exact Slots.finish_of_read t.local_decode hu hf
  | .skipped .. :: fs, slots, ho, hw => (steps_decodeFields fs slots ho hw).bind_pure

theorem steps_decodePayload : ∀ fs : List Field, FieldsWellFormed fs →
    Steps (decodePayload fs) (skipPayload (fieldShapes fs))
  | [], _ => .pure _
  | .mandatory _ t :: fs, hw =>
    .bind t.local_decode (steps_decode t hw.1) fun _ => (steps_decodePayload fs hw.2).bind_pure
  | .compatible .. :: _, _ => .fault _ _
  | .skipped .. :: fs, hw => (steps_decodePayload fs hw).bind_pure

theorem steps_decodeAlternative : ∀ (as : List Alternative) (i : Nat) {f f' : Fault},
    AlternativesWellFormed as →
      Steps (decodeAlternative as i (Read.fault f))
        (skipAlternative (alternativeShapes as) i (Read.fault f'))
  | [], _, _, _, _ => .fault _ _
  | .mk _ _ fields :: _, 0, _, _, hw => steps_decodePayload fields hw.2.1
  | .mk .. :: as, i + 1, _, _, hw => steps_decodeAlternative as i hw.2.2

end

end Schema

namespace Descriptor

/-- Wherever a reader stands, what a type's decoder reads is stepped over by the descriptor to the
same place. So nothing is read where it cannot be stepped over. -/
theorem skip_of_decode {t : Schema} {d : Descriptor} (ht : t.descriptor = .ok d) {r : Reader}
    (hr : r.bytes.length < addressSpace) :
    (∀ v s, t.decode r = .ok v s → ∃ b, r.Passes b s ∧ d.skip r = .ok () s) ∧
      ∀ e s, d.skip r = .error e s → ∃ e' s', t.decode r = .error e' s' := by
  obtain ⟨rfl,hw⟩ := Schema.descriptor_eq_ok ht
  have hsteps := t.steps_decode hw
  constructor
  · intro v s hs
    obtain ⟨b,hb⟩ := t.local_decode.passes hs
    exact ⟨b,hb,hsteps r v s hr hs⟩
  · intro e s he
    cases hd : t.decode r with
    | ok v q =>
      have hskip := hsteps r v q hr hd
      rw [he] at hskip
      cases hskip
    | error e' s' => exact ⟨e',s',rfl⟩

/-- Routes by number, each a run of points, behind a crate of which one slot is known. -/
def voyage : Schema :=
  .tuple [.struct "Crate" .named [.mandatory "depth" (.scalar .u16), .compatible "seal" 1 .text],
    .map (.scalar .u8) (.array (.scalar .u16) 2), .option (.set .text)]

/-- A voyage behind two bytes that are no part of it and before one: the crate fills its second slot
alone, which the reader does not know. -/
def voyageBytes : List UInt8 :=
  [9, 9, 2, 2, 5, 0, 3, 7, 7, 7, 1, 4, 1, 0, 2, 0, 1, 1, 1, 97, 9]

/-- A reader at the start of the voyage. -/
def atVoyage : Reader := (Reader.ofBytes {} voyageBytes).advance 2 (by decide)

theorem skip_of_decode_voyage : ∃ s,
    voyage.decode atVoyage = .ok (.record [.record [.int 5, .absent],
      .sequence [.record [.int 4, .sequence [.int 1, .int 2]]],
      .present (.sequence [.text "a"])]) s ∧
    voyage.shape.skip atVoyage = .ok () s ∧ s.position = 20 := by
  have hr : atVoyage.bytes.length < addressSpace := by decide
  obtain ⟨s,hs,hp⟩ : ∃ s, voyage.decode atVoyage = .ok (.record [.record [.int 5, .absent],
      .sequence [.record [.int 4, .sequence [.int 1, .int 2]]],
      .present (.sequence [.text "a"])]) s ∧ s.position = 20 := ⟨_,rfl,rfl⟩
  obtain ⟨-,-,hskip⟩ := (skip_of_decode (d := voyage.shape) rfl hr).1 _ s hs
  exact ⟨s,hs,hskip,hp⟩

end Descriptor
end RecordCodec
