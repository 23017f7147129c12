import RecordCodec.Proofs.Faults
import RecordCodec.Proofs.Search
import RecordCodec.Proofs.Sinks
import RecordCodec.Record.Log

/-! # What reaches the log

Reading reports one thing alone, that a record begins with another signature than its reader's, and
tells both signatures. Every way to read reports the same of the same record; of records in a row
the one is reported where the reading stops. A search for single fields reports how many it has
located, if the record lets it. Writing reports a region alone that has too little room.
-/
namespace RecordCodec

def Header.ofBytes? (bytes : List UInt8) : Option Header :=
  if width ≤ bytes.length then some (ofRaw (Bytes.LittleEndian.decode (bytes.take width))) else none

namespace Read

variable {α β : Type} {x : Read α} {f : α → Read β}

/-- Each failure of the operation has another reason than a signature. -/
def Silent (x : Read α) : Prop := ∀ r e s, x r = .error e s → e.isSchemaMismatch = false

theorem FailsOnData.silent (h : FailsOnData x) : Silent x := by
  intro r e s hs
  have he := h r e s hs
  cases e <;> first | rfl | cases he

theorem Silent.bind (h : Silent x) (k : ∀ a, Silent (f a)) : Silent (x >>= f) := by
  intro r e s hs
  rcases EStateM.bind_eq_error hs with hx | ⟨a,u,-,hf⟩
  · exact h r e s hx
  · exact k a u e s hf

theorem silent_pure (a : α) : Silent (pure a) := (FailsOnData.pure a).silent

theorem silent_checkTrailing : Silent Record.checkTrailing := by
  intro r e s hs
  rw [Record.checkTrailing_eq] at hs
  split at hs
  · cases hs
    rfl
  · cases hs

end Read

theorem Schema.failsOnData_decodeBody (t : Schema) (s : Slots) (hw : t.WellFormed) :
    Read.FailsOnData (t.decodeBody s) := by
  fun_induction decodeBody t s with
  | case1 _ _ fields s => exact (failsOnData_decodeFields fields s hw.2.2).map _
  | case2 _ t s ih => exact ih hw
  | case3 _ t s ih => exact ih hw
  | case4 t s =>
    exact (failsOnData_decode t hw).bind fun _ => (Read.failsOnData_sequential.finish s).bind fun _ => .pure _

def Batch.Reads : Batch → Schema → Prop
  | .each ts, t => t ∈ ts
  | .all u, t => t = u

theorem Layout.wanted_eq_error {l : Layout} {selectors : List Selector}
    (h : ¬l.Selects selectors) :
    ∃ s : Selector, Extract.wanted l selectors = .error (.unknownField s.text) := by
  induction selectors with
  | nil => exact absurd (fun _ hs => nomatch hs) h
  | cons s selectors ih =>
    unfold Extract.wanted at ih ⊢
    cases hf : l.field? s with
    | none =>
      refine ⟨s,?_⟩
      rw [List.mapM_cons, hf]
      rfl
    | some f =>
      obtain ⟨s',hs'⟩ := ih fun hall => h (List.forall_mem_cons.mpr ⟨by rw [hf]; rfl,hall⟩)
      refine ⟨s',?_⟩
      rw [List.mapM_cons, hf, hs']
      rfl

namespace Log

open Read (Silent)

variable {α : Type} {x : Read α} {t : Schema} {d : Descriptor} {l : Layout} {o : Options}
  {bytes : List UInt8} {r : Reader}

/-- What a reader under a layout reports of a record's bytes. -/
def ofHeader (l : Layout) (bytes : List UInt8) : List LogEntry :=
  match Header.ofBytes? bytes with
  | some h =>
    if h.signature = l.signature then [] else [signatureMismatch l.typeName l.signature h.signature]
  | none => []

def answer : EStateM.Result Error Reader α → Except Error α
  | .ok a _ => .ok a
  | .error e _ => .error e

theorem ofRead_of_silent {e : Error} (h : e.isSchemaMismatch = false) :
    ofRead t (.error e : Except Error α) = [] := by
  cases e <;> first | rfl | cases h

/-- What would have been read has no part in what is reported. -/
theorem ofRead_error {β : Type} {e : Error} :
    ofRead t (.error e : Except Error α) = ofRead t (.error e : Except Error β) := by
  cases e <;> rfl

theorem Silent.ofRead_answer (h : Silent x) (r : Reader) : ofRead t (answer (x r)) = [] := by
  cases hx : x r with
  | ok a s => rfl
  | error e s => exact ofRead_of_silent (h r e s hx)

/-- Behind the header nothing is reported any more. -/
theorem ofRead_readHeader {f : Slots → Read α} (hl : l.typeName = t.name)
    (hf : ∀ slots, Silent (f slots)) :
    ofRead t (answer ((Record.readHeader l >>= f) r)) = ofHeader l r.rest := by
  unfold ofHeader Header.ofBytes?
  by_cases hn : Header.width ≤ r.rest.length
  · have hr : Read.nat Header.width r =
        .ok (Bytes.LittleEndian.decode (r.rest.take Header.width)) (r.advance _ hn) := by
      have ht : Read.take Header.width r = .ok (r.rest.take Header.width) (r.advance _ hn) :=
        dif_pos hn
      exact EStateM.bind_of_ok _ ht
    rw [if_pos hn]
    unfold Record.readHeader
    rw [bind_assoc, EStateM.bind_of_ok _ hr]
    dsimp only
    generalize Header.ofRaw _ = h
    by_cases hs : h.signature = l.signature
    · rw [if_pos hs, if_neg (not_not_intro hs)]
      cases hb : h.announcesBitmap with
      | false => exact Silent.ofRead_answer (hf _) _
      | true =>
        cases ha : l.isAggregate with
        | false => exact Silent.ofRead_answer (Read.failsOnData_elementary.fault _).silent _
        | true =>
          have hp := (Read.failsOnData_elementary.presence.bind fun p =>
            Read.FailsOnData.pure ({ presence := p } : Slots)).silent.bind hf
          exact Silent.ofRead_answer hp _
    · rw [if_neg hs, if_pos hs, hl]
      rfl
  · have hr : Read.nat Header.width r = .error (.truncated Header.width r.remaining) r := by
      have ht : Read.take Header.width r = .error (.truncated Header.width r.remaining) r :=
        dif_neg hn
      exact EStateM.bind_of_error _ ht
    rw [if_neg hn]
    unfold Record.readHeader
    rw [bind_assoc, EStateM.bind_of_error _ hr]
    rfl

theorem ofRead_read {f : Value → Read α} (ht : t.descriptor = .ok d) (hf : ∀ v, Silent (f v)) :
    ofRead t (answer ((Record.read t >>= f) r)) = ofHeader ⟨t.name,t.shape⟩ r.rest := by
  rw [Record.read_eq ht, bind_assoc]
  have hw := (Schema.descriptor_eq_ok ht).2
  exact ofRead_readHeader rfl fun s => (t.failsOnData_decodeBody s hw).silent.bind hf

theorem run_eq (x : Read α) : Record.run o bytes x = answer (x (.ofBytes o bytes)) := by
  unfold Record.run answer
  cases x (.ofBytes o bytes) <;> rfl

/-- Reading a record reports that it begins with another signature, and nothing else. -/
theorem ofRead_deserialize (ht : t.descriptor = .ok d) :
    ofRead t (Record.deserialize o t bytes) = ofHeader ⟨t.name,t.shape⟩ bytes := by
  rw [Record.deserialize, run_eq]
  exact ofRead_read ht fun _ => Read.silent_checkTrailing.bind fun _ => Read.silent_pure _

theorem ofRead_next (ht : t.descriptor = .ok d) (offset : Nat) :
    ofRead t (Record.next o t bytes offset).1 =
      if bytes.length < offset then [] else ofHeader ⟨t.name,t.shape⟩ (bytes.drop offset) := by
  have hr := ofRead_read (f := pure) (r := .ofBytes o (bytes.drop offset)) ht Read.silent_pure
  rw [bind_pure] at hr
  unfold Record.next Record.deserializeAt
  by_cases hb : bytes.length < offset
  · rw [if_pos hb, if_pos hb]
    rfl
  · rw [if_neg hb, if_neg hb, ← show _ = ofHeader _ (bytes.drop offset) from hr]
    cases Record.read t (.ofBytes o (bytes.drop offset)) <;> rfl

/-- Of records in a row one is reported where the reading stops, if it stops at a signature. -/
theorem ofReadEach_eq (ts : List Schema) (r : Reader) :
    (∀ e s, Batch.readEach ts r = .error e s → e.isSchemaMismatch = true →
      ∃ t ∈ ts, ofReadEach ts r = ofRead t (.error e : Except Error Unit)) ∧
      ((∀ e s, Batch.readEach ts r = .error e s → e.isSchemaMismatch = false) →
        ofReadEach ts r = []) := by
  induction ts generalizing r with
  | nil => exact ⟨fun _ _ h => (nomatch h),fun _ => rfl⟩
  | cons t ts ih =>
    unfold ofReadEach
    cases hx : Record.read t r with
    | error e s =>
      have hr : Batch.readEach (t :: ts) r = .error e s := EStateM.bind_of_error _ hx
      refine ⟨fun e' s' he' _ => ?_,fun h => ofRead_of_silent (h e s hr)⟩
      cases hr.symm.trans he'
      exact ⟨t,List.mem_cons_self ..,rfl⟩
    | ok v s =>
      obtain ⟨hm,hn⟩ := ih s
      have hr : Batch.readEach (t :: ts) r =
          (Batch.readEach ts >>= fun vs => pure (v :: vs)) s := EStateM.bind_of_ok _ hx
      constructor
      · intro e u he hs
        rw [hr] at he
        rcases EStateM.bind_eq_error he with he | ⟨vs,w,-,he⟩
        · obtain ⟨t',ht',hl⟩ := hm e u he hs
          exact ⟨t',List.mem_cons_of_mem _ ht',hl⟩
        · cases he
      · intro h
        refine hn fun e u he => h e u ?_
        rw [hr]
        exact EStateM.bind_of_error _ he

/-- A batch reports under one of its schemas, and only what makes the reading of it fail. -/
theorem ofReadBatch_eq (o : Options) (b : Batch) (bytes : List UInt8) :
    (∀ e, b.deserialize o bytes = .error e → e.isSchemaMismatch = true →
      ∃ t, b.Reads t ∧ ofReadBatch o b bytes = ofRead t (.error e : Except Error Unit)) ∧
      ((∀ e, b.deserialize o bytes = .error e → e.isSchemaMismatch = false) →
        ofReadBatch o b bytes = []) := by
  cases b with
  | each ts =>
    obtain ⟨hm,hn⟩ := ofReadEach_eq ts (.ofBytes o bytes)
    constructor
    · intro e he hs
      obtain ⟨u,hu⟩ := Record.run_eq_error.mp he
      rcases EStateM.bind_eq_error hu with hr | ⟨vs,s,-,hr⟩
      · exact hm e u hr hs
      · have hsilent := Read.silent_checkTrailing.bind fun _ => Read.silent_pure vs
        exact absurd hs (Bool.eq_false_iff.mp (hsilent s e u hr))
    · exact fun h => hn fun e u hr => h e (Record.run_eq_error.mpr ⟨u,EStateM.bind_of_error _ hr⟩)
  | all t =>
    unfold ofReadBatch
    dsimp only
    constructor
    · intro e he _
      refine ⟨t,rfl,?_⟩
      rw [he]
      exact ofRead_error
    · intro h
      cases hd : Batch.deserialize o (.all t) bytes with
      | ok vs => rfl
      | error e => exact ofRead_of_silent (h e hd)

/-- A search for fields that a record has reports how many were located, or what the header tells. -/
theorem ofExtract_eq {selectors : List Selector} (ht : t.descriptor = .ok d)
    (hs : Layout.Selects ⟨t.name,t.shape⟩ selectors) :
    ofExtract t selectors (Record.extract o t bytes selectors) =
      extraction t.name selectors.length ::
        match Record.extract o t bytes selectors with
        | .ok p => [located p.spans.length]
        | .error _ => ofHeader ⟨t.name,t.shape⟩ bytes := by
  let l : Layout := ⟨t.name,t.shape⟩
  have hsilent (slots : Slots) : Silent (Extract.search l (l.places selectors) slots) :=
    (Extract.search_of_locating Read.failsOnData_locating slots).silent
  have hr := ofRead_readHeader (t := t) (l := l) (r := .ofBytes o bytes) rfl hsilent
  rw [← run_eq, ← Extract.spans_eq_search] at hr
  rw [Record.extract_eq (Record.layout_of ht) hs]
  unfold ofExtract
  cases hx : Record.run o bytes (Extract.spans l (l.places selectors)) with
  | ok spans => rfl
  | error e =>
    rw [hx, ofRead_error] at hr
    exact congrArg _ hr

/-- A search for a field that no record has reports nothing but that it was begun. -/
theorem ofExtract_unknown {selectors : List Selector} (ht : t.descriptor = .ok d)
    (hs : ¬Layout.Selects ⟨t.name,t.shape⟩ selectors) :
    ofExtract t selectors (Record.extract o t bytes selectors) =
      [extraction t.name selectors.length] := by
  obtain ⟨s,hw⟩ := Layout.wanted_eq_error hs
  have he : Record.extract o t bytes selectors = .error (.unknownField s.text) := by
    unfold Record.extract
    rw [Record.layout_of ht]
    change (Extract.wanted ⟨t.name,t.shape⟩ selectors >>= _) = _
    rw [hw]
    rfl
  rw [he]
  rfl

theorem ofWriteTo_eq {v : Value} {w : List UInt8} (h : Record.IsWritten t v w)
    (region : List UInt8) :
    ofWriteTo t (Record.writeTo t v region).1 =
      if region.length < w.length then [regionTooSmall t.name w.length region.length] else [] := by
  by_cases hr : region.length < w.length
  · rw [if_pos hr, h.writeTo_small region hr]
    rfl
  · rw [if_neg hr, h.writeTo_eq region (Nat.le_of_not_lt hr)]
    rfl

end Log
end RecordCodec
