import RecordCodec.Proofs.RecordFields
import RecordCodec.Proofs.SkeletonSkip

/-! # Where a record ends

Whatever type reads a record, it reads over the same bytes as a walk that knows only what the literal
of the type tells: over the header and the bitmap that it announces, over the mandatory fields, and
over the payloads of all filled slots. So types with the same literal see the same end of a record,
whatever they make of its bytes.
-/
namespace RecordCodec

open Read (Akin Local Steps)

def Skeleton.skipBody : Skeleton → Slots → Read Unit
  | aggregate fs _, slots => do
    skipAll fs
    slots.finish
  | t, slots => do
    t.skip
    slots.finish

namespace Schema

open Descriptor (skipMandatory)

variable {t : Schema} {fs : List Field}

theorem steps_fields (hi : Field.InOrder fs) (hw : FieldsWellFormed fs) (slots : Slots) :
    Steps (decodeFields fs slots)
      (Skeleton.skipAll (Descriptor.fieldSkeletons (fieldShapes fs)) >>= fun _ => slots.finish) :=
  (steps_decodeFields fs slots hi hw).akin
    ((akin_skipFields fs hw).bind fun _ => .refl slots.finish)

theorem steps_finish {x : Read Value} {y : Read Unit} (hx : Local x) (h : Steps x y)
    (slots : Slots) :
    Steps (x >>= fun v => slots.finish >>= fun _ => pure v) (y >>= fun _ => slots.finish) := by
  refine .bind hx h fun v => ?_
  intro r a s _ hs
  obtain ⟨⟨⟩,u,hu,hp⟩ := EStateM.bind_eq_ok.mp hs
  obtain ⟨-,rfl⟩ := EStateM.pure_eq_ok.mp hp
  exact hu

theorem steps_plain (hw : t.WellFormed) (slots : Slots) :
    Steps (t.decode >>= fun v => slots.finish >>= fun _ => pure v)
      (t.shape.skeleton.skip >>= fun _ => slots.finish) :=
  steps_finish t.local_decode ((steps_decode t hw).akin (akin_skip t hw)) slots

theorem steps_decodeBody : ∀ (t : Schema) (slots : Slots), t.WellFormed →
    Steps (t.decodeBody slots) (t.shape.skeleton.outermost.skipBody slots)
  | struct _ _ fields, slots, hw => .map _ (steps_fields hw.1 hw.2.2 slots)
  | tuple ts, slots, hw => by
    have hf : (tuple ts).recordFields? = some (Field.ofComponents 0 ts) := rfl
    obtain ⟨hi,hfw⟩ := wellFormed_of_record hf hw
    rw [decodeBody_of_record hf]
    have h := (steps_fields hi hfw slots).map Value.record
    rwa [fieldShapes_ofComponents] at h
  | pointer _ t, slots, hw | named _ t, slots, hw => steps_decodeBody t slots hw
  | compatible .., _, hw | reference _, _, hw => hw.elim
  | unit, slots, hw | scalar _, slots, hw | text, slots, hw | sequence _, slots, hw
  | set _, slots, hw | map .., slots, hw | array .., slots, hw | option _, slots, hw
  | enum .., slots, hw => steps_plain hw slots
  | duration, slots, _ => steps_finish duration.local_decode steps_durationFields slots

end Schema

namespace Record

def readAnnounced : Read Slots := do
  let header := Header.ofRaw (← Read.nat Header.width)
  Slots.start header.announcesBitmap

/-- Walks over a record of which only the skeleton of the type is known. -/
def skipRecord (skeleton : Skeleton) : Read Unit := do
  let slots ← readAnnounced
  skeleton.skipBody slots

variable {t u : Schema} {c d : Descriptor} {o : Options} {bytes : List UInt8}

theorem readAnnounced_of_readHeader {l : Layout} {r s : Reader} {slots : Slots}
    (h : readHeader l r = .ok slots s) : readAnnounced r = .ok slots s := by
  obtain ⟨n,q,hn,h⟩ := EStateM.bind_eq_ok.mp h
  refine (EStateM.bind_of_ok _ hn).trans ?_
  dsimp only at h
  split at h
  · obtain ⟨_,_,h,-⟩ := EStateM.bind_eq_ok.mp h
    cases h
  · cases hb : (Header.ofRaw n).announcesBitmap with
    | false =>
      rw [hb] at h
      exact h
    | true =>
      rw [hb, if_pos rfl] at h
      split at h
      · exact h
      · cases h

theorem steps_read (ht : t.descriptor = .ok c) :
    Steps (read t) (skipRecord t.shape.skeleton.outermost) := by
  intro r v s hb h
  rw [read_eq ht] at h
  obtain ⟨slots,q,hq,hs⟩ := EStateM.bind_eq_ok.mp h
  obtain ⟨bs,hp⟩ :=
    (readHeader_of_closed Read.local_closed ⟨t.name,t.shape⟩).passes hq
  refine (EStateM.bind_of_ok _ (readAnnounced_of_readHeader hq)).trans ?_
  exact t.steps_decodeBody slots (Schema.descriptor_eq_ok ht).2 q v s (hp.bytes_eq ▸ hb) hs

theorem read_position_eq (ht : t.descriptor = .ok c) (hu : u.descriptor = .ok d)
    (hta : t.Addressable) (hua : u.Addressable) (hl : c.topLevelLiteral = d.topLevelLiteral)
    {r p q : Reader} {v w : Value} (hb : r.bytes.length < addressSpace)
    (hp : read t r = .ok v p) (hq : read u r = .ok w q) : p = q := by
  obtain ⟨rfl,hw⟩ := Schema.descriptor_eq_ok ht
  obtain ⟨rfl,hx⟩ := Schema.descriptor_eq_ok hu
  rw [Descriptor.topLevelLiteral_eq_skeleton, Descriptor.topLevelLiteral_eq_skeleton,
    Skeleton.literal_inj (Skeleton.addressable_outermost (t.addressable_skeleton hw hta))
      (Skeleton.addressable_outermost (u.addressable_skeleton hx hua))] at hl
  -- the same walk over the same bytes has stepped over what either has read
  have hsp := steps_read ht r v p hb hp
  have hsq := steps_read hu r w q hb hq
  rw [hl, hsq] at hsp
  injection hsp with _ h
  exact h.symm

/-- Where the literals of two types agree, what either reads from the same bytes ends at the same
place, also when it reads from an offset. -/
theorem position_eq_of_literal_eq (ht : t.descriptor = .ok c) (hu : u.descriptor = .ok d)
    (hta : t.Addressable) (hua : u.Addressable) (hl : c.topLevelLiteral = d.topLevelLiteral)
    (hb : bytes.length < addressSpace) :
    (∀ v w r s, read t (.ofBytes o bytes) = .ok v r → read u (.ofBytes o bytes) = .ok w s →
        r.position = s.position) ∧
      ∀ offset v w i j, deserializeAt o t bytes offset = .ok (v,i) →
        deserializeAt o u bytes offset = .ok (w,j) → i = j := by
  refine ⟨fun v w r s hr hs => ?_,fun offset v w i j hi hj => ?_⟩
  · rw [read_position_eq ht hu hta hua hl hb hr hs]
  · have hd : (Reader.ofBytes o (bytes.drop offset)).bytes.length < addressSpace :=
      Nat.lt_of_le_of_lt (List.drop_sublist ..).length_le hb
    unfold deserializeAt at hi hj
    split at hi
    · cases hi
    · rename_i hlt
      rw [if_neg hlt] at hj
      split at hi
      case h_2 => cases hi
      case h_1 v' r hr =>
        split at hj
        case h_2 => cases hj
        case h_1 w' s hs =>
          cases hi
          cases hj
          rw [read_position_eq ht hu hta hua hl hd hr hs]

def crate (later : List Field) : Schema :=
  .struct "Crate" .named (.mandatory "depth" (.scalar .u16) :: later)

def shelf : Schema :=
  .struct "Shelf" .named
    [.mandatory "crates" (.sequence (crate [.compatible "number" 1 (.scalar .u16)])),
      .compatible "room" 2 (.scalar .u8)]

def bareShelf : Schema :=
  .tuple [.sequence (crate [.compatible "marks" 1 (.array (.scalar .u8) 2)])]

/-- The record of a shelf with two crates, only the first numbered, and one byte more. -/
def shelfBytes : List UInt8 :=
  [123, 216, 215, 73, 1, 1, 2, 1, 1, 5, 0, 2, 7, 1, 0, 6, 0, 1, 3, 9]

theorem position_eq_shelf :
    ∃ v w i, deserializeAt {} shelf shelfBytes 0 = .ok (v,i) ∧
      deserializeAt {} bareShelf shelfBytes 0 = .ok (w,i) := by
  have hl : shelf.shape.topLevelLiteral = bareShelf.shape.topLevelLiteral := rfl
  have hs : shelf.Addressable := ⟨⟨trivial,trivial,trivial⟩,trivial,trivial⟩
  have hb : bareShelf.Addressable := ⟨⟨trivial,⟨trivial,by decide⟩,trivial⟩,trivial⟩
  have hi : deserializeAt {} shelf shelfBytes 0 = .ok (.record [.sequence
      [.record [.int 5, .present (.int 263)], .record [.int 6, .absent]],
        .present (.int 3)],19) := by rfl
  have hj : deserializeAt {} bareShelf shelfBytes 0 = .ok (.record [.sequence
      [.record [.int 5, .present (.sequence [.int 7, .int 1])], .record [.int 6, .absent]]],19) := by
    rfl
  have hn : shelfBytes.length < addressSpace := by decide
  have hij := (position_eq_of_literal_eq rfl rfl hs hb hl hn).2 0 _ _ _ _ hi hj
  exact ⟨_,_,_,hi,hij ▸ hj⟩

end Record
end RecordCodec
