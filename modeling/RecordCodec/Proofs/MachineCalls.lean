import Mathlib.Data.List.Chain
import RecordCodec.Proofs.MachineRecords

/-! # Calls on bytes that may be anything

Values and records are read, read over, read at an offset, unpacked in a row and stepped over, one
call behind the other on the same reader, whatever became of the calls before. The position only
ever rises, up to the end of the bytes. A machine answers all calls as the library does, or runs out
of room for the elements of a collection; where the room for every collection is given it never
stops.
-/
namespace RecordCodec

inductive Call where
  | value (t : Schema)
  /-- Reads over a value of a type as it stands inside another. -/
  | valueInto (ownership : Ownership) (t : Schema) (old : Value) (typed : t.admits old = true)
  | record (t : Schema)
  | recordInto (ownership : Ownership) (t : Schema) (old : Value) (typed : t.admits old = true)
  /-- Reads the record at an offset, for which the bytes are looked at from there. -/
  | recordAt (t : Schema) (offset : Nat)
  | unpack (b : Batch)
  | skip (d : Descriptor)
  | checkTrailing

inductive Answer where
  | done
  | value (v : Value)
  | values (vs : List Value)
  | valueAt (v : Value) (behind : Nat)
  | place (failure : Option Error) (v : Value)
  | failed (e : Error)

namespace Call

def attempt (x : Read Answer) : Read Answer := fun r =>
  match x r with
  | .ok a r => .ok a r
  | .error e r => .ok (.failed e) r

def answerPlace (o : Overwritten Value) : EStateM.Result Error Reader Answer :=
  match o.outcome with
  | .ok () r => .ok (.place none o.place) r
  | .error e r => .ok (.place (some e) o.place) r

def recordAtOffset (t : Schema) (offset : Nat) : Read (Value × Nat) := fun r =>
  match Record.deserializeAt r.options t r.bytes offset with
  | .ok p => .ok p r
  | .error e => .error e r

def perform : Call → Read Answer
  | value t => attempt (.value <$> t.decode)
  | valueInto ownership t old _ => fun r => answerPlace (t.overwrite ownership old r)
  | record t => attempt (.value <$> Record.read t)
  | recordInto ownership t old _ => fun r => answerPlace (Record.readOver ownership t old r)
  | recordAt t offset => attempt ((fun p => .valueAt p.1 p.2) <$> recordAtOffset t offset)
  | unpack b => attempt (.values <$> b.read)
  | skip d => attempt ((fun _ => .done) <$> d.skip)
  | checkTrailing => attempt ((fun _ => .done) <$> Record.checkTrailing)

/-- Performs calls one behind the other, and tells their answers and where each leaves the
reader. -/
def performAll : List Call → Read (List (Answer × Nat))
  | [] => pure []
  | c :: cs => do
    let answer ← c.perform
    let position ← Read.position
    let later ← performAll cs
    pure ((answer, position) :: later)

end Call

namespace Machine

/-! ## Calls on a machine -/

def attempt (m : Run Answer) : Run Answer := fun c =>
  match m c with
  | .ok a c => .ok a c
  | .error (.error e) c => .ok (.failed e) c
  | .error (.panic p) c => .error (.panic p) c

def answerPlace (o : Placed Value) : EStateM.Result Halt Cursor Answer :=
  match o.outcome with
  | .ok () c => .ok (.place none o.place) c
  | .error (.error e) c => .ok (.place (some e) o.place) c
  | .error (.panic p) c => .error (.panic p) c

def perform (memory : Memory) : Call → Run Answer
  | .value t => attempt (.value <$> decode memory t)
  | .valueInto ownership t old _ => fun c => answerPlace (overwriteAs memory ownership t t old c)
  | .record t => attempt (.value <$> record memory t)
  | .recordInto ownership t old _ => fun c => answerPlace (readOver memory ownership t old c)
  | .recordAt t offset => attempt ((fun p => .valueAt p.1 p.2) <$> recordAt memory t offset)
  | .unpack b => attempt (.values <$> unpack memory b)
  | .skip d => attempt ((fun _ => .done) <$> skip d)
  | .checkTrailing => attempt ((fun _ => .done) <$> checkTrailing)

def performAll (memory : Memory) : List Call → Run (List (Answer × Nat))
  | [] => pure []
  | c :: cs => do
    let answer ← perform memory c
    let cursor ← get
    let later ← performAll memory cs
    pure ((answer, cursor.position) :: later)

end Machine

/-! ## Room for the collections of a call -/

/-- Whether room is given for the elements of every collection that a call reads. -/
def Call.HasRoom (memory : Machine.Memory) (o : Options) : Call → Prop
  | .value t | .valueInto _ t .. | .record t | .recordInto _ t .. | .recordAt t _ => t.HasRoom memory o
  | .unpack b => b.HasRoom memory o
  | .skip _ | .checkTrailing => True

/-! ## Readers through calls -/

namespace Call

open Read (Forward forward_closed forward_elementary)

theorem attempt_eq_ok {x : Read Answer} (h : Forward x) (r : Reader) :
    ∃ a s, attempt x r = .ok a s ∧ r.Onward s := by
  unfold attempt
  cases hx : x r with
  | ok a s => exact ⟨a,s,rfl,h.of_ok hx⟩
  | error e s => exact ⟨.failed e,s,rfl,h.of_error hx⟩

theorem answerPlace_eq_ok {x : Read Value} (h : Forward x) {r : Reader} {o : Overwritten Value}
    {m : Value → Value} (ho : o.Merges (x r) m) :
    ∃ a s, answerPlace o = .ok a s ∧ r.Onward s := by
  unfold answerPlace
  cases hx : x r with
  | ok v s =>
    rw [hx] at ho
    rw [show o = ⟨m v,.ok () s⟩ from ho]
    exact ⟨_,s,rfl,h.of_ok hx⟩
  | error e s =>
    rw [hx] at ho
    rw [show o.outcome = .error e s from ho]
    exact ⟨_,s,rfl,h.of_error hx⟩

theorem perform_eq_ok (c : Call) (r : Reader) : ∃ a s, c.perform r = .ok a s ∧ r.Onward s := by
  cases c with
  | value t => exact attempt_eq_ok (forward_elementary.map _ (Schema.forward_decode t)) r
  | valueInto ownership t old typed =>
    exact answerPlace_eq_ok (Schema.forward_decode t) (Schema.overwrite_merges t typed r)
  | record t => exact attempt_eq_ok (forward_elementary.map _ (Record.forward_read t)) r
  | recordInto ownership t old typed =>
    exact answerPlace_eq_ok (Record.forward_read t) (Record.readOver_merges typed r)
  | recordAt t offset =>
    refine attempt_eq_ok (forward_elementary.map _ fun r => ?_) r
    unfold Read.outcome recordAtOffset
    cases Record.deserializeAt r.options t r.bytes offset <;> exact .refl r
  | unpack b => exact attempt_eq_ok (forward_elementary.map _ (Batch.forward_read b)) r
  | skip d =>
    have hskip := d.skip_of_sequential forward_closed.toSequential
    exact attempt_eq_ok (forward_elementary.map _ hskip) r
  | checkTrailing => exact attempt_eq_ok (forward_elementary.map _ Record.forward_checkTrailing) r

theorem forward_perform (c : Call) : Forward c.perform := by
  intro r
  obtain ⟨a,s,hs,hr⟩ := perform_eq_ok c r
  unfold Read.outcome
  rw [hs]
  exact hr

theorem performAll_eq_ok (cs : List Call) (r : Reader) :
    ∃ trace s, performAll cs r = .ok trace s ∧ trace.length = cs.length ∧
      List.IsChain (· ≤ ·) (r.position :: trace.map Prod.snd) ∧
      ∀ k ∈ trace.map Prod.snd, k ≤ r.bytes.length := by
  induction cs generalizing r with
  | nil => exact ⟨[],r,rfl,rfl,List.isChain_singleton _,fun k hk => by cases hk⟩
  | cons c cs ih =>
    obtain ⟨a,s,hs,hrs⟩ := perform_eq_ok c r
    obtain ⟨trace,t,ht,hlength,hchain,hle⟩ := ih s
    refine ⟨(a,s.position) :: trace,t,?_,congrArg (· + 1) hlength,?_,?_⟩
    · refine (EStateM.bind_of_ok _ hs).trans ?_
      exact EStateM.bind_of_ok (fun later => pure ((a,s.position) :: later)) ht
    · exact List.isChain_cons_cons.mpr ⟨hrs.position_le,hchain⟩
    · rw [hrs.bytes_eq] at hle
      intro k hk
      rcases List.mem_cons.mp hk with rfl | hk
      · exact hrs.bytes_eq ▸ s.position_le
      · exact hle k hk

end Call

namespace Machine

open Read (Forward forward_closed forward_elementary)

/-! ## Records and calls on a machine -/

section
variable {memory : Memory} {o : Options} {tight : Prop} {t : Schema}

/-- On other bytes a machine follows another reader, and leaves the first one where it is. -/
theorem FollowsFrom.onBytes {α : Type} {m : Run α} {x : Read α} {bytes : List UInt8} {r : Reader}
    (h : FollowsFrom (.ofBytes r.options bytes) tight m x) :
    (onBytes bytes m r.cursor = match x (.ofBytes r.options bytes) with
      | .ok a s => .ok (a,s.position) r.cursor
      | .error e _ => .error (.error e) r.cursor) ∨
    tight ∧ onBytes bytes m r.cursor = .error (.panic .capacity) r.cursor := by
  unfold Machine.onBytes
  obtain hm | ⟨ht,s,-,hm⟩ := h
  · rw [show m ⟨bytes,0,r.cursor.options⟩ = told (x (.ofBytes r.options bytes)) from hm]
    left
    cases x (.ofBytes r.options bytes) <;> rfl
  · rw [show m ⟨bytes,0,r.cursor.options⟩ = .error (.panic .capacity) s.cursor from hm]
    exact .inr ⟨ht,rfl⟩

theorem follows_recordAt (offset : Nat) (h : ¬tight → t.HasRoom memory o) :
    Follows o tight (recordAt memory t offset) (Call.recordAtOffset t offset) := by
  constructor
  · intro r
    unfold Read.outcome Call.recordAtOffset
    cases Record.deserializeAt r.options t r.bytes offset <;> exact .refl r
  intro r hr
  unfold FollowsFrom recordAt Call.recordAtOffset Record.deserializeAt
  rw [get_bind]
  by_cases ho : r.bytes.length < offset
  · rw [if_pos ho, if_pos (show r.cursor.bytes.length < offset from ho)]
    exact .inl rfl
  have hrest := part_of_le r.bytes (Nat.le_of_not_lt ho) (Nat.le_refl _) r.cursor
  rw [List.take_of_length_le (Nat.le_of_eq List.length_drop)] at hrest
  rw [if_neg ho, if_neg (show ¬ r.cursor.bytes.length < offset from ho)]
  rw [show r.cursor.bytes = r.bytes from rfl, EStateM.bind_of_ok _ hrest]
  have hrecord := (follows_record h).run (.ofBytes r.options (r.bytes.drop offset)) hr
  obtain hm | ⟨ht,hm⟩ := hrecord.onBytes
  · left
    cases hx : Record.read t (.ofBytes r.options (r.bytes.drop offset)) with
    | ok v s =>
      rw [hx] at hm
      exact EStateM.bind_of_ok _ hm
    | error e s =>
      rw [hx] at hm
      exact EStateM.bind_of_error _ hm
  · rw [EStateM.bind_of_error _ hm]
    exact .inr ⟨ht,r,.refl r,rfl⟩

theorem next_eq (offset : Nat) (h : ¬tight → t.HasRoom memory o) (bytes : List UInt8) :
    next memory o t bytes offset =
        (Record.next o t bytes offset).map (Except.mapError .error) id ∨
      tight ∧ next memory o t bytes offset = (.error (.panic .capacity),offset) := by
  have hat : Record.run o bytes (Call.recordAtOffset t offset) =
      Record.deserializeAt o t bytes offset := by
    unfold Record.run Call.recordAtOffset
    dsimp only [Reader.ofBytes]
    cases Record.deserializeAt o t bytes offset <;> rfl
  unfold next Record.next
  obtain hm | ⟨ht,hm⟩ := run_of_follows (follows_recordAt offset h) bytes
  · rw [hm, hat]
    left
    cases Record.deserializeAt o t bytes offset <;> rfl
  · rw [hm]
    exact .inr ⟨ht,rfl⟩

theorem Follows.attempt {m : Run Answer} {x : Read Answer} (h : Follows o tight m x) :
    Follows o tight (attempt m) (Call.attempt x) := by
  constructor
  · intro r
    have hr := h.forward r
    unfold Read.outcome at hr
    unfold Read.outcome Call.attempt
    cases hx : x r with
    | ok a s =>
      rw [hx] at hr
      exact hr
    | error e s =>
      rw [hx] at hr
      exact hr
  intro r hr
  unfold FollowsFrom Machine.attempt Call.attempt
  obtain hm | ⟨ht,s,hs,hm⟩ := h.run r hr
  · rw [hm]
    left
    cases x r <;> rfl
  · rw [hm]
    exact .inr ⟨ht,s,hs,rfl⟩

theorem follows_answerPlace {found : Placed Value} {placed : Overwritten Value} {r : Reader}
    (h : FollowsOver r tight found placed) :
    answerPlace found = told (Call.answerPlace placed) ∨ tight ∧ RunsOut r (answerPlace found) := by
  obtain ⟨rfl,-⟩ | ⟨ht,s,hs,hf⟩ := h
  · left
    obtain ⟨place,outcome⟩ := placed
    cases outcome <;> rfl
  · right
    unfold answerPlace
    rw [hf]
    exact ⟨ht,s,hs,rfl⟩

theorem follows_perform (c : Call) (h : ¬tight → c.HasRoom memory o) :
    Follows o tight (perform memory c) c.perform := by
  cases c with
  | value t => exact ((follows_decodeAs t t h).map _).attempt
  | valueInto ownership t old typed =>
    exact ⟨Call.forward_perform _,fun r hr =>
      follows_answerPlace (follows_overwriteAs ownership t t old r hr h)⟩
  | record t => exact ((follows_record h).map _).attempt
  | recordInto ownership t old typed =>
    exact ⟨Call.forward_perform _,fun r hr =>
      follows_answerPlace (follows_readOver ownership old r hr h)⟩
  | recordAt t offset => exact ((follows_recordAt offset h).map _).attempt
  | unpack b => exact ((follows_unpack b h).map _).attempt
  | skip d =>
    have hskip := d.skip_of_sequential forward_closed.toSequential
    exact (((does_skip d).follows hskip).map _).attempt
  | checkTrailing => exact ((does_checkTrailing.follows Record.forward_checkTrailing).map _).attempt

theorem follows_performAll (cs : List Call) (h : ¬tight → ∀ c ∈ cs, c.HasRoom memory o) :
    Follows o tight (performAll memory cs) (Call.performAll cs) := by
  induction cs with
  | nil => exact .pure []
  | cons c cs ih =>
    have hcall := follows_perform c fun ht => h ht c (List.mem_cons_self ..)
    have hmore := ih fun ht d hd => h ht d (List.mem_cons_of_mem _ hd)
    refine hcall.bind fun answer => ⟨?_,fun r hr => ?_⟩
    · have hposition : Forward Read.position := Reader.Onward.refl
      exact hposition.bind fun position => (hmore.map fun later => (answer,position) :: later).forward
    · exact (hmore.map fun later => (answer,r.position) :: later).run r hr

end

end Machine

namespace Machine

def numbers : Schema := .sequence (.scalar .u64)

def forgedNumbers (announced : Nat) : List UInt8 :=
  [100, 27, 217, 145] ++ Bytes.Varint.encode announced

theorem hasRoom_numbers : numbers.HasRoom Memory.packed {} := by
  have hgives : Memory.packed.Gives {} numbers :=
    (Memory.gives_iff (Memory.packed_monotone numbers)).mpr (by decide)
  exact ⟨hgives,trivial⟩

end Machine
end RecordCodec
