import RecordCodec.Body.Skip
import RecordCodec.Record.Extract

/-! # What holds of every decoder

Decoders are built from a few operations by sequencing. A property that holds of these operations and
that sequencing keeps holds of every decoder: of those of values, of the ones that step over values,
of the decoder of a record, and of the search for single fields in it.
-/
namespace RecordCodec

/-- Whether an error lies in the bytes that were read. -/
def Error.LiesInData : Error → Prop
  | truncated .. | invalidData _ => True
  | _ => False

/-- The property holds of what takes bytes, fails on them or returns, and sequencing keeps it. -/
structure Read.Elementary (P : ∀ {α : Type}, Read α → Prop) : Prop where
  pure {α : Type} (a : α) : P (pure a)
  bind {α β : Type} {x : Read α} {f : α → Read β} : P x → (∀ a, P (f a)) → P (x >>= f)
  fail {α : Type} {e : Error} : e.LiesInData → P (throw e : Read α)
  take (n : Nat) : P (take n)

/-- Lengths have the property too, for which the options are asked. -/
structure Read.Sequential (P : ∀ {α : Type}, Read α → Prop) : Prop extends Read.Elementary P where
  length : P length

/-- The payload of a slot has the property too, if its contents have it, and so has every failure. -/
structure Read.Closed (P : ∀ {α : Type}, Read α → Prop) : Prop extends Read.Sequential P where
  payload {α : Type} {slot : Nat} {item : Read α} : P item → P (Slots.payload slot item)
  throw {α : Type} (e : Error) : P (throw e : Read α)

/-- What a reader tells of its place has the property too, and going to another place. -/
structure Read.Locating (P : ∀ {α : Type}, Read α → Prop) : Prop extends Read.Sequential P where
  position : P position
  rest : P (Reader.rest <$> get : Read (List UInt8))
  seek (position : Nat) : P (seek position)

namespace Read.Elementary

variable {P : ∀ {α : Type}, Read α → Prop} {α β : Type} {x y : Read α}

theorem fault (h : Elementary P) (f : Fault) : P (Read.fault f : Read α) := h.fail trivial

theorem map (h : Elementary P) (g : α → β) (hx : P x) : P (g <$> x) := h.bind hx fun a => h.pure (g a)

theorem ite {c : Prop} [Decidable c] (hx : P x) (hy : P y) : P (if c then x else y) := by
  by_cases hc : c
  · rwa [if_pos hc]
  · rwa [if_neg hc]

/-! ## Primitive operations -/

theorem nat (h : Elementary P) (width : Nat) : P (Read.nat width) := h.map _ (h.take width)

theorem varintGroups (h : Elementary P) (weight low more : Nat) :
    P (Read.varintGroups weight low more) := by
  induction more generalizing weight low with
  | zero => exact h.bind (h.nat 1) fun b => ite (h.fault _) (h.pure _)
  | succ more ih => exact h.bind (h.nat 1) fun b => ite (h.pure _) (ih _ _)

theorem varint (h : Elementary P) : P Read.varint := h.varintGroups 1 0 _

theorem length_of_options (h : Elementary P) (ho : P Read.options) : P Read.length :=
  h.bind h.varint fun n => h.bind ho fun _ => ite (h.pure n) (h.fault _)

theorem bool (h : Elementary P) : P Read.bool := by
  refine h.bind (h.nat 1) fun b => ?_
  split
  · exact h.pure _
  · exact h.pure _
  · exact h.fault _

theorem char (h : Elementary P) : P Read.char := by
  refine h.bind (h.nat 4) fun code => ?_
  by_cases hv : code.isValidChar
  · rw [dif_pos hv]
    exact h.pure _
  · rw [dif_neg hv]
    exact h.fault _

theorem duration (h : Elementary P) : P Read.duration :=
  h.bind (h.nat 8) fun _ => h.bind (h.nat 4) fun _ => ite (h.pure _) (h.fault _)

theorem replicate (h : Elementary P) (hx : P x) (n : Nat) : P (Read.replicate n x) := by
  induction n with
  | zero => exact h.pure []
  | succ n ih => exact h.bind hx fun a => h.bind ih fun as => h.pure (a :: as)

theorem distinct (h : Elementary P) (view : Value → Value) {item : Read Value} (hi : P item) (n : Nat)
    (collected : List Value) : P (Read.distinct view item n collected) := by
  induction n generalizing collected with
  | zero => exact h.pure collected
  | succ n ih =>
    refine h.bind hi fun v => ?_
    split
    · exact ih _
    · exact h.fault _

theorem times (h : Elementary P) {item : Read Unit} (hi : P item) (n : Nat) : P (Read.times n item) := by
  induction n with
  | zero => exact h.pure ()
  | succ n ih => exact h.bind hi fun _ => ih

theorem scalar (h : Elementary P) (s : Scalar) : P s.read := by
  have hu (width : Nat) : P (Scalar.read.unsigned width) :=
    h.map _ (h.bind (h.nat width) fun n => h.pure _)
  cases s with
  | bool => exact h.map _ h.bool
  | char => exact h.map _ h.char
  | u8 | u16 | u32 | u64 | u128 => exact hu _
  | i8 | i16 | i32 | i64 | i128 | f32 | f64 => exact h.map _ (h.nat _)

/-! ## Slots -/

theorem presence (h : Elementary P) : P Presence.read := by
  refine h.bind h.varint fun count => ?_
  split
  · exact h.bind (h.nat _) fun bits => ite (h.pure _) (h.fault _)
  · exact h.fault _

theorem start (h : Elementary P) (hasBitmap : Bool) : P (Slots.start hasBitmap) := by
  cases hasBitmap with
  | false => exact h.pure _
  | true => exact h.bind h.presence fun p => h.pure _

end Read.Elementary

namespace Read.Sequential

variable {P : ∀ {α : Type}, Read α → Prop}

theorem text (h : Sequential P) : P Read.text := by
  refine h.bind (h.bind h.length fun n => h.take n) fun b => ?_
  split
  · exact h.pure _
  · exact h.fault _

theorem finish (h : Sequential P) (s : Slots) : P s.finish := by
  unfold Slots.finish
  induction s.left with
  | nil => exact h.pure ()
  | cons present bs ih =>
    refine h.bind ?_ fun _ => ih
    cases present with
    | false => exact h.pure ()
    | true => exact h.bind h.length fun n => h.bind (h.take n) fun _ => h.pure ()

/-- The payload of a slot measures what is left before and behind its contents. -/
theorem payload_of_remaining {α : Type} {item : Read α} (h : Sequential P) (hr : P Read.remaining)
    (slot : Nat) (hi : P item) : P (Slots.payload slot item) := by
  refine h.bind h.length fun declared => h.bind hr fun available => ?_
  have hitem : P (item >>= fun a => Read.remaining >>= fun left =>
      if available - left = declared then Pure.pure a
      else Read.fault (.payload slot declared (available - left))) :=
    h.bind hi fun a => h.bind hr fun left => Elementary.ite (h.pure a) (h.fault _)
  exact Elementary.ite (h.bind (h.fail trivial) fun _ => hitem) hitem

end Read.Sequential

open Read (Closed Elementary Locating Sequential)

variable {P : ∀ {α : Type}, Read α → Prop}

theorem Read.Elementary.slot (h : Elementary P) {α : Type} {item : Read α} (s : Slots)
    (hp : P (Slots.payload s.next item)) : P (s.read item) :=
  Elementary.ite (h.bind hp fun _ => h.pure _) (h.pure _)

theorem Read.Closed.slot (h : Closed P) {α : Type} {item : Read α} (s : Slots) (hi : P item) :
    P (s.read item) := h.toElementary.slot s (h.payload hi)

namespace Schema

mutual

theorem decode_of_closed (h : Closed P) : ∀ t : Schema, P t.decode
  | unit => h.pure _
  | scalar s => h.scalar s
  | text => h.map _ h.text
  | duration => h.duration
  | sequence t => h.bind h.length fun n => h.map _ (h.replicate (decode_of_closed h t) n)
  | set t => h.bind h.length fun n => h.map _ (h.distinct id (decode_of_closed h t) n [])
  | map k v =>
    h.bind h.length fun n =>
      h.map _ (h.distinct Value.key
        (h.bind (decode_of_closed h k) fun _ => h.bind (decode_of_closed h v) fun _ => h.pure _)
        n [])
  | array t n => h.map _ (h.replicate (decode_of_closed h t) n)
  | option t => h.bind h.bool fun _ => Elementary.ite (h.map _ (decode_of_closed h t)) (h.pure _)
  | tuple ts => h.map _ (decodeComponents_of_closed h ts)
  | pointer _ t | named _ t => decode_of_closed h t
  | compatible .. => h.fault _
  | struct _ _ fields =>
    h.bind (h.start true) fun s => h.map _ (decodeFields_of_closed h fields s)
  | enum _ _ alternatives =>
    h.bind (h.nat _) fun i => h.map _ (decodeAlternative_of_closed h alternatives i (h.fault _))
  | reference _ => h.throw _

theorem decodeComponents_of_closed (h : Closed P) : ∀ ts : List Schema, P (decodeComponents ts)
  | [] => h.pure _
  | t :: ts =>
    h.bind (decode_of_closed h t) fun _ => h.bind (decodeComponents_of_closed h ts) fun _ => h.pure _

theorem decodeFields_of_closed (h : Closed P) : ∀ (fs : List Field) (s : Slots),
    P (decodeFields fs s)
  | [], s => h.bind (h.finish s) fun _ => h.pure _
  | .mandatory _ t :: fs, s =>
    h.bind (decode_of_closed h t) fun _ => h.bind (decodeFields_of_closed h fs s) fun _ => h.pure _
  | .compatible _ _ t :: fs, s =>
    h.bind (h.slot s (decode_of_closed h t)) fun p =>
      h.bind (decodeFields_of_closed h fs p.2) fun _ => h.pure _
  | .skipped .. :: fs, s => h.bind (decodeFields_of_closed h fs s) fun _ => h.pure _

theorem decodePayload_of_closed (h : Closed P) : ∀ fs : List Field, P (decodePayload fs)
  | [] => h.pure _
  | .mandatory _ t :: fs =>
    h.bind (decode_of_closed h t) fun _ => h.bind (decodePayload_of_closed h fs) fun _ => h.pure _
  | .compatible .. :: _ => h.fault _
  | .skipped .. :: fs => h.bind (decodePayload_of_closed h fs) fun _ => h.pure _

theorem decodeAlternative_of_closed (h : Closed P) : ∀ (as : List Alternative) (i : Nat)
    {missing : Read (List Value)}, P missing → P (decodeAlternative as i missing)
  | [], _, _, hm => hm
  | .mk _ _ fields :: _, 0, _, _ => decodePayload_of_closed h fields
  | .mk .. :: as, i + 1, _, hm => decodeAlternative_of_closed h as i hm

end

theorem decodeBody_of_closed (h : Closed P) (t : Schema) (s : Slots) : P (t.decodeBody s) := by
  fun_induction decodeBody t s with
  | case1 name style fields s => exact h.map _ (decodeFields_of_closed h fields s)
  | case2 p t s ih => exact ih
  | case3 name t s ih => exact ih
  | case4 t s => exact h.bind (decode_of_closed h t) fun _ => h.bind (h.finish s) fun _ => h.pure _

end Schema

namespace Descriptor

theorem passOr_of_sequential (h : Sequential P) (width : Option Nat) {walk : Read Unit} (hw : P walk) :
    P (passOr width walk) := by
  cases width with
  | some w => exact h.bind (h.take w) fun _ => h.pure ()
  | none => exact hw

theorem passRun_of_sequential (h : Sequential P) (width : Option Nat) (count : Nat) {element : Read Unit}
    (he : P element) : P (passRun width count element) := by
  cases width with
  | some w =>
    unfold passRun
    dsimp only
    split
    · exact h.bind (h.take _) fun _ => h.pure ()
    · exact h.fault _
  | none => exact h.times he count

mutual

theorem skip_of_sequential (h : Sequential P) : ∀ d : Descriptor, P d.skip
  | unit => h.bind (h.take 0) fun _ => h.pure ()
  | scalar s => h.bind (h.take s.width) fun _ => h.pure ()
  | text => h.bind h.length fun n => h.bind (h.take n) fun _ => h.pure ()
  | sequence element | set element =>
    h.bind h.length fun n => passRun_of_sequential h _ n (skip_of_sequential h element)
  | map key value =>
    h.bind h.length fun n =>
      h.times (h.bind (skip_of_sequential h key) fun _ => skip_of_sequential h value) n
  | array element count =>
    passOr_of_sequential h _ (passRun_of_sequential h _ count (skip_of_sequential h element))
  | optional payload => h.bind h.bool fun _ => Elementary.ite (skip_of_sequential h payload) (h.pure _)
  | variant _ alternatives =>
    h.bind (h.nat _) fun i => skipAlternative_of_sequential h alternatives i (h.fault _)
  | aggregate _ fields extensible =>
    passOr_of_sequential h _ (h.bind (h.start extensible) fun s =>
      h.bind (skipMandatory_of_sequential h fields) fun _ => h.finish s)

theorem skipMandatory_of_sequential (h : Sequential P) : ∀ fs : List FieldDescriptor, P (skipMandatory fs)
  | [] => h.pure ()
  | ⟨_, shape, none⟩ :: fs =>
    h.bind (skip_of_sequential h shape) fun _ => skipMandatory_of_sequential h fs
  | ⟨_, _, some _⟩ :: fs => skipMandatory_of_sequential h fs

theorem skipPayload_of_sequential (h : Sequential P) : ∀ fs : List FieldDescriptor, P (skipPayload fs)
  | [] => h.pure ()
  | ⟨_, shape, _⟩ :: fs => h.bind (skip_of_sequential h shape) fun _ => skipPayload_of_sequential h fs

theorem skipAlternative_of_sequential (h : Sequential P) : ∀ (as : List AlternativeDescriptor) (i : Nat)
    {missing : Read Unit}, P missing → P (skipAlternative as i missing)
  | [], _, _, hm => hm
  | ⟨_, fields⟩ :: _, 0, _, _ => skipPayload_of_sequential h fields
  | ⟨_, _⟩ :: as, i + 1, _, hm => skipAlternative_of_sequential h as i hm

end

end Descriptor

namespace Record

theorem readHeader_of_closed (h : Closed P) (l : Layout) : P (readHeader l) := by
  have hslots (header : Header) : P (if header.announcesBitmap then
      if l.isAggregate then do pure { presence := ← Presence.read }
      else Read.fault (.announcement l.typeName)
    else pure {} : Read Slots) :=
    Elementary.ite (Elementary.ite (h.bind h.presence fun p => h.pure _) (h.fault _)) (h.pure _)
  refine h.bind (h.nat Header.width) fun n => ?_
  exact Elementary.ite (h.bind (h.throw _) fun _ => hslots _) (hslots _)

theorem read_of_closed (h : Closed P) (t : Schema) : P (read t) := by
  refine h.bind ?_ fun l => h.bind (readHeader_of_closed h l) fun s => t.decodeBody_of_closed h s
  unfold layout
  split
  · exact h.pure _
  · exact h.throw _

end Record

namespace Extract

variable {layout : Layout} {wanted : List Nat}

theorem consumed_of_locating (h : Locating P) {operation : Read Unit} (ho : P operation) :
    P (consumed operation) := by
  change P ((Reader.rest <$> get : Read (List UInt8)) >>= fun rest =>
    Read.position >>= fun start => operation >>= fun _ =>
      Read.position >>= fun stop => pure (rest.take (stop - start)))
  exact h.bind h.rest fun rest => h.bind h.position fun start => h.bind ho fun _ =>
    h.bind h.position fun stop => h.pure _

theorem mandatory_of_locating (h : Locating P) (start : Nat) (last : Option Nat) (passAll : Bool)
    (fs : List FieldLayout) : P (mandatory wanted start last passAll fs) := by
  induction fs with
  | nil => exact h.pure []
  | cons f fs ih =>
    have hskip := f.descriptor.skip_of_sequential h.toSequential
    have hpass : P (consumed f.descriptor.skip >>= fun bytes =>
        mandatory wanted start last passAll fs >>= fun spans =>
          pure (if wanted.contains f.index then ⟨f.index,some bytes⟩ :: spans else spans)) :=
      h.bind (consumed_of_locating h hskip) fun bytes => h.bind ih fun spans => h.pure _
    unfold mandatory
    dsimp only
    split
    · exact h.pure []
    · split
      · exact Elementary.ite ih (h.bind (h.seek _) fun _ => hpass)
      · exact hpass

theorem filled_of_sequential (h : Sequential P) (wanted : List Nat) (slots : List Bool)
    (fs : List FieldLayout) : P (filled wanted slots fs) := by
  induction slots generalizing fs with
  | nil => exact h.pure []
  | cons present slots ih =>
    cases present with
    | false => exact ih fs.tail
    | true =>
      refine h.bind h.length fun n => h.bind (h.take n) fun bytes =>
        h.bind (ih fs.tail) fun spans => ?_
      split
      · exact h.pure _
      · exact h.pure _

theorem compatible_of_locating (h : Locating P) (start : Nat) (slots : List Bool) :
    P (compatible layout wanted start slots) := by
  have hfilled := filled_of_sequential h.toSequential wanted slots
  unfold compatible
  dsimp only
  split
  · exact h.bind (h.seek _) fun _ => h.bind (hfilled _) fun _ => h.pure _
  · exact h.bind (hfilled _) fun _ => h.pure _

/-- The search behind a record's header. -/
def search (layout : Layout) (wanted : List Nat) (slots : Slots) : Read (List Span) := do
  let start ← Read.position
  let last :=
    ((layout.mandatoryFields.filter fun f => wanted.contains f.index).map (·.index)).getLast?
  let wantsCompatible := layout.compatibleFields.any fun f => wanted.contains f.index
  let located ← mandatory wanted start last wantsCompatible layout.mandatoryFields
  if wantsCompatible then
    pure (located ++ (← compatible layout wanted start slots.presence.slots))
  else pure located

theorem spans_eq_search (layout : Layout) (wanted : List Nat) :
    spans layout wanted = Record.readHeader layout >>= search layout wanted := rfl

theorem search_of_locating (h : Locating P) (slots : Slots) : P (search layout wanted slots) :=
  h.bind h.position fun start =>
    h.bind (mandatory_of_locating h start _ _ _) fun _ =>
      Elementary.ite (h.bind (compatible_of_locating h start _) fun _ => h.pure _) (h.pure _)

end Extract
end RecordCodec
