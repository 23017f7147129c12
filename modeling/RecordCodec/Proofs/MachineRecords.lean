import RecordCodec.Machine.Memory
import RecordCodec.Machine.Record
import RecordCodec.Proofs.MachineDecoding
import RecordCodec.Proofs.Merging

/-! # Records on a machine

On the same bytes a machine reads, reads over and unpacks what the library does, with the same
errors, or runs out of room for the elements of a collection.
-/
namespace RecordCodec

open Read (Forward forward_closed forward_elementary)

theorem Schema.forward_decode (t : Schema) : Forward t.decode := t.decode_of_closed forward_closed

theorem Record.forward_read (t : Schema) : Forward (Record.read t) :=
  Record.read_of_closed forward_closed t

theorem Batch.forward_read (b : Batch) : Forward b.read := by
  cases b with
  | each ts =>
    change Forward (Batch.readEach ts)
    induction ts with
    | nil => exact Reader.Onward.refl
    | cons t ts ih => exact (Record.forward_read t).bind fun _ => ih.bind fun _ => Reader.Onward.refl
  | all t =>
    have hall (most : Nat) : Forward (Batch.readAll t most) := by
      induction most with
      | zero => exact Reader.Onward.refl
      | succ most ih =>
        exact Forward.bind Reader.Onward.refl fun left =>
          Read.Elementary.ite Reader.Onward.refl
            ((Record.forward_read t).bind fun _ => ih.bind fun _ => Reader.Onward.refl)
    exact Forward.bind Reader.Onward.refl hall

theorem Record.forward_checkTrailing : Forward Record.checkTrailing :=
  Forward.bind Reader.Onward.refl fun _ => Forward.bind Reader.Onward.refl fun _ =>
    Read.Elementary.ite Reader.Onward.refl Reader.Onward.refl

theorem Record.forward_readOpening (t : Schema) : Forward (Record.readOpening t) := by
  have hlayout : Forward (Record.layout t) := by
    unfold Record.layout
    cases Layout.of t with
    | ok l => exact forward_elementary.pure l
    | error e => exact forward_closed.throw e
  exact hlayout.bind (Record.readHeader_of_closed forward_closed)

def Batch.HasRoom (memory : Machine.Memory) (o : Options) : Batch → Prop
  | .each ts => ∀ t ∈ ts, t.HasRoom memory o
  | .all t => t.HasRoom memory o

namespace Machine

theorem does_readHeader (l : Layout) :
    Does (readHeader l) (Slots.of <$> Record.readHeader l) := by
  unfold Record.readHeader
  rw [map_bind]
  refine (does_nat Header.width).bind fun raw => ?_
  dsimp only
  by_cases hs : (Header.ofRaw raw).signature ≠ l.signature
  · rw [if_pos hs, if_pos hs]
    exact .throw _
  rw [if_neg hs, if_neg hs]
  by_cases hb : (Header.ofRaw raw).announcesBitmap = true
  · rw [if_pos hb, if_pos hb]
    by_cases ha : l.isAggregate = true
    · rw [if_pos ha, if_pos ha, map_bind]
      exact does_readWord.bind_map fun p => .pure _
    · rw [if_neg ha, if_neg ha]
      exact .fault _
  · rw [if_neg hb, if_neg hb]
    exact .pure _

theorem does_layout (t : Schema) : Does (layout t) (Record.layout t) := by
  unfold layout Record.layout
  cases Layout.of t with
  | ok l => exact .pure l
  | error e => exact .throw e

theorem does_readOpening (t : Schema) :
    Does (readOpening t) (Slots.of <$> Record.readOpening t) := by
  unfold Record.readOpening
  rw [map_bind]
  exact (does_layout t).bind does_readHeader

theorem does_checkTrailing : Does checkTrailing Record.checkTrailing :=
  does_remaining.bind fun _ r => Does.ite (.throw _) (.pure ()) r

section
variable {memory : Memory} {o : Options} {tight : Prop} {t : Schema}

theorem follows_record (h : ¬tight → t.HasRoom memory o) :
    Follows o tight (record memory t) (Record.read t) := by
  have hopening := Record.forward_readOpening t
  rw [Record.read_eq_bind]
  exact ((does_readOpening t).follows (forward_elementary.map _ hopening)).bind_map hopening
    fun s => follows_decodeBodyAs t t s h

theorem follows_readOver (ownership : Ownership) (old : Value) (r : Reader) (hr : r.options = o)
    (h : ¬tight → t.HasRoom memory o) :
    FollowsOver r tight (readOver memory ownership t old r.cursor)
      (Record.readOver ownership t old r) := by
  have hopening := Record.forward_readOpening t
  unfold readOver Record.readOver
  cases hs : Record.readOpening t r with
  | ok slots s =>
    have hrs := hopening.of_ok hs
    rw [(does_readOpening t).of_ok hs]
    exact (follows_overwriteBodyAs ownership t t old slots s (hrs.options_eq.trans hr) h).behind hrs
  | error e s =>
    rw [(does_readOpening t).of_error hs]
    exact .inl ⟨rfl,hopening.of_error hs⟩

theorem follows_remaining : Follows o tight remaining Read.remaining :=
  does_remaining.follows Reader.Onward.refl

theorem follows_readEach (ts : List Schema) (h : ¬tight → ∀ t ∈ ts, t.HasRoom memory o) :
    Follows o tight (readEach memory ts) (Batch.readEach ts) := by
  induction ts with
  | nil => exact .pure []
  | cons t ts ih =>
    have hrecord := follows_record fun ht => h ht t (List.mem_cons_self ..)
    have hmore := ih fun ht u hu => h ht u (List.mem_cons_of_mem _ hu)
    exact hrecord.bind fun v => hmore.bind fun vs => .pure (v :: vs)

theorem follows_readAll (most : Nat) (h : ¬tight → t.HasRoom memory o) :
    Follows o tight (readAll memory t most) (Batch.readAll t most) := by
  induction most with
  | zero => exact .pure []
  | succ most ih =>
    exact follows_remaining.bind fun left =>
      .ite (.pure []) ((follows_record h).bind fun v => ih.bind fun vs => .pure (v :: vs))

theorem follows_unpack (b : Batch) (h : ¬tight → b.HasRoom memory o) :
    Follows o tight (unpack memory b) b.read := by
  cases b with
  | each ts => exact follows_readEach ts h
  | all t => exact follows_remaining.bind fun most => follows_readAll most h

/-! ## Records of bytes -/

theorem run_of_follows {α : Type} {m : Run α} {x : Read α} (h : Follows o tight m x)
    (bytes : List UInt8) :
    run o bytes m = (Record.run o bytes x).mapError .error ∨
      tight ∧ run o bytes m = .error (.panic .capacity) := by
  unfold Machine.run Record.run
  obtain hm | ⟨ht,s,-,hm⟩ := h.run (.ofBytes o bytes) rfl
  · rw [show m ⟨bytes,0,o⟩ = told (x (.ofBytes o bytes)) from hm]
    left
    cases x (.ofBytes o bytes) <;> rfl
  · rw [show m ⟨bytes,0,o⟩ = .error (.panic .capacity) s.cursor from hm]
    exact .inr ⟨ht,rfl⟩

theorem follows_checkTrailing : Follows o tight checkTrailing Record.checkTrailing :=
  does_checkTrailing.follows Record.forward_checkTrailing

/-- Bytes are read on a machine as they are by the library, or there is no room for the elements of
a collection, which is only so where not all room is given. -/
theorem deserialize_eq (h : ¬tight → t.HasRoom memory o) (bytes : List UInt8) :
    deserialize memory o t bytes = (Record.deserialize o t bytes).mapError .error ∨
      tight ∧ deserialize memory o t bytes = .error (.panic .capacity) :=
  run_of_follows ((follows_record h).bind fun v => follows_checkTrailing.bind fun _ => .pure v) bytes

theorem deserializeInto_eq (ownership : Ownership) (old : Value) (h : ¬tight → t.HasRoom memory o)
    (bytes : List UInt8) :
    deserializeInto memory o ownership t bytes old =
        (Record.deserializeInto o ownership t bytes old).map (Except.mapError .error) id ∨
      tight ∧ (deserializeInto memory o ownership t bytes old).1 = .error (.panic .capacity) := by
  rw [Record.deserializeInto_eq]
  have hover := (follows_readOver ownership old (.ofBytes o bytes) rfl h).andThen does_checkTrailing
    Record.forward_checkTrailing
  unfold deserializeInto
  change FollowsOver _ _ ((readOver memory ownership t old ⟨bytes,0,o⟩).andThen checkTrailing) _
    at hover
  obtain ⟨hafter,-⟩ | ⟨ht,s,-,hs⟩ := hover
  · left
    rw [hafter]
    unfold Overwritten.told Placed.of
    cases ((Record.readOver ownership t old (.ofBytes o bytes)).andThen
      Record.checkTrailing).outcome <;> rfl
  · right
    dsimp only
    rw [hs]
    exact ⟨ht,rfl⟩

theorem deserializeAll_eq (b : Batch) (h : ¬tight → b.HasRoom memory o) (bytes : List UInt8) :
    deserializeAll memory o b bytes = (b.deserialize o bytes).mapError .error ∨
      tight ∧ deserializeAll memory o b bytes = .error (.panic .capacity) :=
  run_of_follows ((follows_unpack b h).bind fun vs => follows_checkTrailing.bind fun _ => .pure vs)
    bytes

end

end Machine
end RecordCodec
