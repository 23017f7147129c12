import RecordCodec.Proofs.Closure
import RecordCodec.Proofs.Numbers
import RecordCodec.Proofs.PartialContents

/-! # Limits

Two runs of an operation on the same bytes, the second under a larger limit on lengths: they come to
the same outcome at the same place, unless the first one meets a length that its limit forbids and
fails for that. So it is with all that reads: values, what steps over them, headers, and the search
for single fields.
-/
namespace RecordCodec

/-- The second reader stands where the first one does, under a limit at least as large. -/
structure Reader.Widens (r r' : Reader) : Prop where
  bytes_eq : r'.bytes = r.bytes
  position_eq : r'.position = r.position
  trailing_eq : r'.options.trailing = r.options.trailing
  limit_le : r.options.maxLength ≤ r'.options.maxLength

namespace Reader.Widens

variable {r r' : Reader}

theorem rest_eq (h : r.Widens r') : r'.rest = r.rest := by
  rw [r.rest_eq, r'.rest_eq, h.bytes_eq, h.position_eq]

theorem remaining_eq (h : r.Widens r') : r'.remaining = r.remaining :=
  congrArg List.length h.rest_eq

end Reader.Widens

namespace Read

variable {α β : Type} {x : Read α} {f : α → Read β}

/-- Under a larger limit the operation does the same, unless it fails on data under the smaller. -/
def LimitMonotone (x : Read α) : Prop :=
  ∀ r r', Reader.Widens r r' →
    (∃ f s, x r = .error (.invalidData f) s) ∨ Corresponds Reader.Widens Eq (x r) (x r')

theorem LimitMonotone.pure (a : α) : LimitMonotone (pure a : Read α) := fun _ _ h => .inr (.ok a h)

theorem LimitMonotone.throw (e : Error) : LimitMonotone (throw e : Read α) :=
  fun _ _ h => .inr (.error h rfl)

theorem LimitMonotone.bind (h : LimitMonotone x) (k : ∀ a, LimitMonotone (f a)) :
    LimitMonotone (x >>= f) := by
  intro r r' hr
  rcases h r r' hr with ⟨e,s,hs⟩ | hx
  · exact .inl ⟨e,s,EStateM.bind_of_error f hs⟩
  · generalize hp : x r = p, hq : x r' = q at hx
    cases hx with
    | ok a hs =>
      rw [EStateM.bind_of_ok f hp, EStateM.bind_of_ok f hq]
      exact k a _ _ hs
    | error hs he =>
      rw [EStateM.bind_of_error f hp, EStateM.bind_of_error f hq]
      exact .inr (.error hs he)

/-- What a reader tells of itself that its limit has no part in. -/
theorem LimitMonotone.told {tell : Reader → α} (h : ∀ r r', Reader.Widens r r' → tell r' = tell r) :
    LimitMonotone (tell <$> get : Read α) := by
  intro r r' hr
  right
  change Corresponds Reader.Widens Eq (.ok (tell r) r) (.ok (tell r') r')
  rw [h r r' hr]
  exact .ok _ hr

theorem limitMonotone_take (n : Nat) : LimitMonotone (take n) := by
  intro r r' h
  right
  have hrest := h.rest_eq
  unfold take
  by_cases hn : n ≤ r.rest.length
  · have hn' : n ≤ r'.rest.length := hrest ▸ hn
    rw [dif_pos hn, dif_pos hn', hrest]
    exact .ok _ ⟨h.bytes_eq,congrArg (· + n) h.position_eq,h.trailing_eq,h.limit_le⟩
  · have hn' : ¬n ≤ r'.rest.length := hrest ▸ hn
    rw [dif_neg hn, dif_neg hn', h.remaining_eq]
    exact .error h rfl

theorem limitMonotone_seek (p : Nat) : LimitMonotone (seek p) := by
  intro r r' h
  right
  unfold seek
  by_cases hp : p ≤ r.bytes.length
  · have hp' : p ≤ r'.bytes.length := h.bytes_eq ▸ hp
    rw [dif_pos hp, dif_pos hp']
    exact .ok _ ⟨h.bytes_eq,rfl,h.trailing_eq,h.limit_le⟩
  · have hp' : ¬p ≤ r'.bytes.length := h.bytes_eq ▸ hp
    rw [dif_neg hp, dif_neg hp', h.remaining_eq, h.position_eq]
    exact .error h rfl

theorem limitMonotone_elementary : Elementary LimitMonotone where
  pure := .pure
  bind := .bind
  fail _ := .throw _
  take := limitMonotone_take

/-- A length that the smaller limit allows is one that the larger allows; any other is a fault. -/
theorem limitMonotone_length : LimitMonotone length := by
  refine limitMonotone_elementary.varint.bind fun n => ?_
  intro r r' h
  change (∃ f s, (if n ≤ r.options.maxLength then pure n else fault _ : Read Nat) r =
      .error (.invalidData f) s) ∨
    Corresponds Reader.Widens Eq ((if n ≤ r.options.maxLength then pure n else fault _ : Read Nat) r)
      ((if n ≤ r'.options.maxLength then pure n else fault _ : Read Nat) r')
  by_cases hn : n ≤ r.options.maxLength
  · rw [if_pos hn, if_pos (hn.trans h.limit_le)]
    exact .inr (.ok n h)
  · rw [if_neg hn]
    exact .inl ⟨_,r,rfl⟩

theorem limitMonotone_remaining : LimitMonotone remaining := .told fun _ _ h => h.remaining_eq

theorem limitMonotone_sequential : Sequential LimitMonotone where
  toElementary := limitMonotone_elementary
  length := limitMonotone_length

theorem limitMonotone_closed : Closed LimitMonotone where
  toSequential := limitMonotone_sequential
  payload := limitMonotone_sequential.payload_of_remaining limitMonotone_remaining _
  throw := .throw

theorem limitMonotone_locating : Locating LimitMonotone where
  toSequential := limitMonotone_sequential
  position := .told fun _ _ h => h.position_eq
  rest := .told fun _ _ h => h.rest_eq
  seek := limitMonotone_seek

end Read

open Read (LimitMonotone limitMonotone_closed limitMonotone_locating limitMonotone_remaining)

theorem Extract.limitMonotone_spans (layout : Layout) (wanted : List Nat) :
    LimitMonotone (spans layout wanted) :=
  (Record.readHeader_of_closed limitMonotone_closed layout).bind fun slots =>
    search_of_locating limitMonotone_locating slots

/-! ## Records and fields -/

namespace Record

theorem limitMonotone_checkTrailing : LimitMonotone checkTrailing := by
  have htrailing : LimitMonotone ((fun r : Reader => r.options.trailing) <$> get : Read Trailing) :=
    .told fun _ _ h => h.trailing_eq
  refine limitMonotone_remaining.bind fun count => ?_
  change LimitMonotone (((fun r : Reader => r.options.trailing) <$> get : Read Trailing) >>=
    fun trailing => if trailing == .reject && count > 0 then throw (.trailingBytes count) else pure ())
  exact htrailing.bind fun trailing => Read.Elementary.ite (.throw _) (.pure ())

/-- The first outcome is a fault in data or the same as the second. -/
def Relaxes {α : Type} (x x' : Except Error α) : Prop := (∃ f, x = .error (.invalidData f)) ∨ x = x'

section Outcomes
variable {α β : Type}

theorem Relaxes.refl (x : Except Error α) : Relaxes x x := .inr rfl

theorem Relaxes.bind {x x' : Except Error α} {g g' : α → Except Error β} (h : Relaxes x x')
    (k : ∀ a, Relaxes (g a) (g' a)) : Relaxes (x >>= g) (x' >>= g') := by
  rcases h with ⟨f,rfl⟩ | rfl
  · exact .inl ⟨f,rfl⟩
  · cases x with
    | ok a => exact k a
    | error e => exact .inr rfl

variable {m m' : Nat} (h : m ≤ m') (o : Options)
include h

theorem run_relaxes (bytes : List UInt8) {x : Read α} (hx : LimitMonotone x) :
    Relaxes (run { o with maxLength := m } bytes x) (run { o with maxLength := m' } bytes x) := by
  have hreader : (Reader.ofBytes { o with maxLength := m } bytes).Widens
      (Reader.ofBytes { o with maxLength := m' } bytes) := ⟨rfl,rfl,rfl,h⟩
  unfold run
  rcases hx _ _ hreader with ⟨f,s,hs⟩ | hsame
  · rw [hs]
    exact .inl ⟨f,rfl⟩
  · generalize hp : x (.ofBytes { o with maxLength := m } bytes) = p,
      hq : x (.ofBytes { o with maxLength := m' } bytes) = q at hsame
    cases hsame with
    | ok a hs => exact .refl _
    | error hs he =>
      subst he
      exact .refl _

theorem deserialize_relaxes (t : Schema) (bytes : List UInt8) :
    Relaxes (deserialize { o with maxLength := m } t bytes)
      (deserialize { o with maxLength := m' } t bytes) :=
  run_relaxes h o bytes ((read_of_closed limitMonotone_closed t).bind fun v =>
    limitMonotone_checkTrailing.bind fun _ => .pure v)

theorem get_relaxes (layout : Layout) (spans : List Span) (s : Selector) (t : Schema) :
    Relaxes (PartialRecord.get ⟨layout,spans,{ o with maxLength := m }⟩ s t)
      (PartialRecord.get ⟨layout,spans,{ o with maxLength := m' }⟩ s t) := by
  -- which bytes are read is told before the options are asked
  refine (Relaxes.refl _).bind fun b => run_relaxes h o b ?_
  exact (t.decode_of_closed limitMonotone_closed).bind fun v => limitMonotone_remaining.bind fun left =>
    Read.Elementary.ite (.pure v) (.throw _)

theorem extract_get_relaxes (t : Schema) (bytes : List UInt8) (selectors : List Selector)
    (s : Selector) (field : Schema) :
    Relaxes (extract { o with maxLength := m } t bytes selectors >>= fun p => p.get s field)
      (extract { o with maxLength := m' } t bytes selectors >>= fun p => p.get s field) := by
  unfold extract
  simp only [bind_assoc, pure_bind]
  refine (Relaxes.refl _).bind fun layout => (Relaxes.refl _).bind fun wanted => ?_
  refine (run_relaxes h o bytes (Extract.limitMonotone_spans layout wanted)).bind fun spans => ?_
  exact get_relaxes h o layout spans s field

end Outcomes
end Record
end RecordCodec
