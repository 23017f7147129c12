import RecordCodec.Proofs.Skipping

/-! # Where the fields of a record are

The bytes of a record's fields are found one behind the other: the mandatory ones in their order,
then the payloads of the filled slots. A list of contents has, for every described field, its bytes
or nothing if its slot is empty. The fields of a struct are read exactly when each of them is read
from its contents alone.
-/
namespace RecordCodec

namespace Slots

open Read (Local)

variable {r s : Reader}

/-- A way over slots: an empty one takes nothing, a filled one a length and so many bytes. -/
def Crosses : List (Option (List UInt8)) → Reader → Reader → Prop
  | [], r, s => s = r
  | none :: ps, r, s => Crosses ps r s
  | some b :: ps, r, s => ∃ u t, Read.length r = .ok b.length u ∧ u.Passes b t ∧ Crosses ps t s

theorem stepOver_eq_ok :
    stepOver true r = .ok () s ↔ ∃ b u, Read.length r = .ok b.length u ∧ u.Passes b s := by
  constructor
  · intro h
    obtain ⟨n,u,hu,h⟩ := EStateM.bind_eq_ok.mp h
    obtain ⟨b,hb,rfl⟩ := Read.take_unit.mp h
    exact ⟨b,u,hu,hb⟩
  · rintro ⟨b,u,hu,hb⟩
    exact (EStateM.bind_of_ok _ hu).trans (Read.take_unit.mpr ⟨b,hb,rfl⟩)

theorem forM_stepOver_eq_ok {bits : List Bool} :
    bits.forM stepOver r = .ok () s ↔ ∃ ps, ps.map Option.isSome = bits ∧ Crosses ps r s := by
  induction bits generalizing r with
  | nil =>
    constructor
    · intro h
      obtain ⟨-,rfl⟩ := EStateM.pure_eq_ok.mp h
      exact ⟨[],rfl,rfl⟩
    · rintro ⟨ps,hp,h⟩
      obtain rfl := List.map_eq_nil_iff.mp hp
      obtain rfl : s = r := h
      rfl
  | cons present bits ih =>
    rw [forM_stepOver_cons, EStateM.bind_eq_ok]
    constructor
    · rintro ⟨_,t,ht,h⟩
      obtain ⟨ps,rfl,hp⟩ := ih.mp h
      cases present with
      | false =>
        obtain ⟨-,rfl⟩ := EStateM.pure_eq_ok.mp ht
        exact ⟨none :: ps,rfl,hp⟩
      | true =>
        obtain ⟨b,u,hu,hb⟩ := stepOver_eq_ok.mp ht
        exact ⟨some b :: ps,rfl,u,t,hu,hb,hp⟩
    · rintro ⟨ps,hp,h⟩
      obtain ⟨p,ps,rfl,rfl,rfl⟩ := List.map_eq_cons_iff.mp hp
      cases p with
      | none => exact ⟨(),r,rfl,ih.mpr ⟨ps,rfl,h⟩⟩
      | some b =>
        obtain ⟨u,t,hu,hb,h⟩ := h
        exact ⟨(),t,stepOver_eq_ok.mpr ⟨b,u,hu,hb⟩,ih.mpr ⟨ps,rfl,h⟩⟩

theorem payload_of_passes {α : Type} {item : Read α} {slot : Nat} {a : α} {b : List UInt8}
    {u : Reader} (hl : Read.length r = .ok b.length u) (hb : u.Passes b s)
    (h : Read.Gives r.options item b (.ok a)) : payload slot item r = .ok a s := by
  obtain ⟨c,hc,hg⟩ := Read.local_length r _ u hl
  exact (gives_payload hg h).of_passes rfl (hc.trans hb)

theorem read_eq_ok {α : Type} {item : Read α} (h : Local item) {slots slots' : Slots} {x : Option α}
    (hr : slots.read item r = .ok (x,slots') s) :
    slots' = slots.advance 1 ∧
      ((slots.left = [] ∨ ∃ bits, slots.left = false :: bits) ∧ x = none ∧ s = r ∨
        ∃ b u a, (∃ bits, slots.left = true :: bits) ∧ x = some a ∧
          Read.length r = .ok b.length u ∧ u.Passes b s ∧ Read.Gives r.options item b (.ok a)) := by
  have ha (hp : slots.presence.isPresent slots.next = false) :
      slots' = slots.advance 1 ∧ x = none ∧ s = r := by
    rw [read_of_absent hp] at hr
    obtain ⟨he,rfl⟩ := EStateM.pure_eq_ok.mp hr
    exact ⟨(congrArg Prod.snd he).symm,(congrArg Prod.fst he).symm,rfl⟩
  cases hl : slots.left with
  | nil =>
    obtain ⟨hs,hx⟩ := ha (left_nil hl).1
    exact ⟨hs,.inl ⟨.inl rfl,hx⟩⟩
  | cons present bits =>
    cases present with
    | false =>
      obtain ⟨hs,hx⟩ := ha (left_cons hl).1
      exact ⟨hs,.inl ⟨.inr ⟨bits,rfl⟩,hx⟩⟩
    | true =>
      rw [read_of_present (left_cons hl).1] at hr
      obtain ⟨a,t,ht,hr⟩ := EStateM.bind_eq_ok.mp hr
      obtain ⟨he,rfl⟩ := EStateM.pure_eq_ok.mp hr
      obtain ⟨c,b,u,hc,hu,hb,hi⟩ := payload_eq_ok h ht
      have hg := h.gives hi hb
      rw [hc.options_eq] at hg
      exact ⟨(congrArg Prod.snd he).symm,.inr ⟨b,u,a,⟨bits,rfl⟩,(congrArg Prod.fst he).symm,hu,hb,hg⟩⟩

end Slots

open Read (Gives)

/-- What the described fields hold, of which the mandatory ones hold `bs`, and the slots `ps`. -/
def contents : List FieldDescriptor → List (List UInt8) → List (Option (List UInt8)) →
    List (Option (List UInt8))
  | [], _, _ => []
  | ⟨_, _, none⟩ :: fs, bs, ps => bs.head? :: contents fs bs.tail ps
  | ⟨_, _, some _⟩ :: fs, bs, ps => ps.head?.join :: contents fs bs ps.tail

/-- Between the readers the mandatory fields are stepped over, each passing its bytes. -/
def Spread : List FieldDescriptor → List (List UInt8) → Reader → Reader → Prop
  | [], bs, r, s => bs = [] ∧ s = r
  | ⟨_, shape, none⟩ :: fs, bs, r, s =>
    ∃ b cs t, bs = b :: cs ∧ shape.skip r = .ok () t ∧ r.Passes b t ∧ Spread fs cs t s
  | ⟨_, _, some _⟩ :: fs, bs, r, s => Spread fs bs r s

theorem Spread.same {fs : List FieldDescriptor} {bs : List (List UInt8)} {r s : Reader}
    (h : Spread fs bs r s) : s.bytes = r.bytes ∧ s.options = r.options := by
  induction fs generalizing bs r with
  | nil =>
    obtain ⟨-,rfl⟩ := h
    exact ⟨rfl,rfl⟩
  | cons f fs ih =>
    obtain ⟨name,shape,version⟩ := f
    cases version with
    | some version => exact ih h
    | none =>
      obtain ⟨b,cs,t,-,-,hb,h⟩ := h
      obtain ⟨hy,ho⟩ := ih h
      exact ⟨hy.trans hb.bytes_eq,ho.trans hb.options_eq⟩

theorem Spread.skipMandatory {fs : List FieldDescriptor} {bs : List (List UInt8)} {r s : Reader}
    (h : Spread fs bs r s) : Descriptor.skipMandatory fs r = .ok () s := by
  induction fs generalizing bs r with
  | nil =>
    obtain ⟨-,rfl⟩ := h
    rfl
  | cons f fs ih =>
    obtain ⟨name,shape,version⟩ := f
    cases version with
    | some version => exact ih h
    | none =>
      obtain ⟨b,cs,t,-,ht,-,h⟩ := h
      exact (EStateM.bind_of_ok _ ht).trans (ih h)

theorem spread_of_none {fs : List Field} (h : Field.mandatorySchemas fs = [])
    {bs : List (List UInt8)} {r s : Reader} :
    Spread (Schema.fieldShapes fs) bs r s ↔ bs = [] ∧ s = r := by
  induction fs with
  | nil => exact Iff.rfl
  | cons f fs ih =>
    cases f with
    | mandatory name t => cases h
    | compatible name version t => exact ih h
    | skipped name t default => exact ih h

namespace Field

/-- What a field holds is read from its contents; an empty slot is an absent payload, and a skipped
field has its default. -/
def Holds (o : Options) : Field → Value → Option (List UInt8) → Prop
  | mandatory _ t, v, c => ∃ b, c = some b ∧ Gives o t.decode b (.ok v)
  | compatible _ _ t, v, some b => ∃ w, v = .present w ∧ Gives o t.decode b (.ok w)
  | compatible .., v, none => v = .absent
  | skipped _ _ default, v, _ => v = default

def AllHold (o : Options) : List Field → List Value → List (Option (List UInt8)) → Prop
  | [], vs, cs => vs = [] ∧ cs = []
  | skipped name t default :: fs, vs, cs =>
    ∃ v ws, vs = v :: ws ∧ (skipped name t default).Holds o v none ∧ AllHold o fs ws cs
  | f :: fs, vs, cs =>
    ∃ v ws c ds, vs = v :: ws ∧ cs = c :: ds ∧ f.Holds o v c ∧ AllHold o fs ws ds

/-- Between the readers the fields of a struct lie with what they hold: first the mandatory ones,
then the payloads of the slots. -/
def Lie (fs : List Field) (slots : Slots) (vs : List Value) (r s : Reader) : Prop :=
  ∃ bs ps mid, Spread (Schema.fieldShapes fs) bs r mid ∧ ps.map Option.isSome = slots.left ∧
    Slots.Crosses ps mid s ∧ AllHold r.options fs vs (contents (Schema.fieldShapes fs) bs ps)

variable {name : String} {version : Nat} {t : Schema} {default : Value} {fs : List Field}
  {slots : Slots} {vs : List Value} {r s : Reader}

theorem lie_nil : Lie [] slots vs r s ↔ slots.finish r = .ok () s ∧ vs = [] := by
  constructor
  · rintro ⟨bs,ps,mid,⟨rfl,rfl⟩,hp,hc,rfl,-⟩
    exact ⟨Slots.forM_stepOver_eq_ok.mpr ⟨ps,hp,hc⟩,rfl⟩
  · rintro ⟨h,rfl⟩
    obtain ⟨ps,hp,hc⟩ := Slots.forM_stepOver_eq_ok.mp h
    exact ⟨[],ps,r,⟨rfl,rfl⟩,hp,hc,rfl,rfl⟩

theorem lie_mandatory (hw : t.WellFormed) (hr : r.bytes.length < addressSpace) :
    Lie (mandatory name t :: fs) slots vs r s ↔
      ∃ v u ws, t.decode r = .ok v u ∧ Lie fs slots ws u s ∧ vs = v :: ws := by
  constructor
  · rintro ⟨_,ps,mid,⟨b,bs,u,rfl,-,hb,hm⟩,hp,hc,v,ws,c,cs,rfl,he,⟨b',rfl,hg⟩,ha⟩
    obtain ⟨hbb,rfl⟩ := List.cons.inj he
    obtain rfl := Option.some.inj hbb
    rw [← hb.options_eq] at ha
    exact ⟨v,u,ws,hg.of_passes rfl hb,⟨bs,ps,mid,hm,hp,hc,ha⟩,rfl⟩
  · rintro ⟨v,u,ws,hu,⟨bs,ps,mid,hm,hp,hc,ha⟩,rfl⟩
    obtain ⟨b,hb⟩ := t.local_decode.passes hu
    have hskip := t.steps_decode hw r v u hr hu
    have hg := t.local_decode.gives hu hb
    rw [hb.options_eq] at ha
    exact ⟨b :: bs,ps,mid,⟨b,bs,u,rfl,hskip,hb,hm⟩,hp,hc,v,ws,some b,_,rfl,rfl,⟨b,rfl,hg⟩,ha⟩

theorem lie_of_read (hn : mandatorySchemas fs = []) {x : Option Value} {slots' : Slots}
    {u : Reader} {ws : List Value} (hu : slots.read t.decode r = .ok (x,slots') u)
    (h : Lie fs slots' ws u s) :
    Lie (compatible name version t :: fs) slots (Value.ofOption x :: ws) r s := by
  obtain ⟨bs,ps,mid,hm,hp,hc,ha⟩ := h
  obtain ⟨rfl,rfl⟩ := (spread_of_none hn).mp hm
  obtain ⟨q,hq⟩ := (slots.local_slot t.local_decode).passes hu
  rw [hq.options_eq] at ha
  have hr : Spread (Schema.fieldShapes fs) [] r r := (spread_of_none hn).mpr ⟨rfl,rfl⟩
  obtain ⟨rfl,⟨hl,rfl,rfl⟩ | ⟨b,w,a,⟨bits,hl⟩,rfl,hw,hb,hg⟩⟩ := Slots.read_eq_ok t.local_decode hu
  · rcases hl with hl | ⟨bits,hl⟩
    · rw [(Slots.left_nil hl).2] at hp
      obtain rfl := List.map_eq_nil_iff.mp hp
      exact ⟨[],[],_,hr,hl.symm,hc,_,ws,none,_,rfl,rfl,rfl,ha⟩
    · rw [(Slots.left_cons hl).2] at hp
      have hps : (none :: ps).map Option.isSome = slots.left := hl.symm ▸ congrArg (false :: ·) hp
      exact ⟨[],none :: ps,_,hr,hps,hc,_,ws,none,_,rfl,rfl,rfl,ha⟩
  · rw [(Slots.left_cons hl).2] at hp
    have hps : (some b :: ps).map Option.isSome = slots.left := hl.symm ▸ congrArg (true :: ·) hp
    exact ⟨[],some b :: ps,r,hr,hps,⟨w,mid,hw,hb,hc⟩,_,ws,some b,_,rfl,rfl,⟨a,rfl,hg⟩,ha⟩

theorem read_of_lie (hn : mandatorySchemas fs = [])
    (h : Lie (compatible name version t :: fs) slots vs r s) :
    ∃ x u ws, slots.read t.decode r = .ok (x,slots.advance 1) u ∧
      Lie fs (slots.advance 1) ws u s ∧ vs = Value.ofOption x :: ws := by
  obtain ⟨bs,ps,mid,hm,hp,hc,v,ws,c,cs,rfl,he,hv,ha⟩ := h
  obtain ⟨rfl,rfl⟩ := (spread_of_none hn).mp hm
  obtain ⟨rfl,rfl⟩ := List.cons.inj he
  have hu (u : Reader) : Spread (Schema.fieldShapes fs) [] u u :=
    (spread_of_none hn).mpr ⟨rfl,rfl⟩
  have hempty (hl : slots.presence.isPresent slots.next = false) :
      slots.read t.decode mid = .ok (none,slots.advance 1) mid :=
    congrFun (Slots.read_of_absent hl) mid
  cases ps with
  | nil =>
    obtain ⟨hl,hk⟩ := Slots.left_nil hp.symm
    obtain rfl : v = .absent := hv
    exact ⟨none,mid,ws,hempty hl,⟨[],[],mid,hu mid,hk.symm,hc,ha⟩,rfl⟩
  | cons p ps =>
    obtain ⟨hl,hk⟩ := Slots.left_cons hp.symm
    cases p with
    | none =>
      obtain rfl : v = .absent := hv
      exact ⟨none,mid,ws,hempty hl,⟨[],ps,mid,hu mid,hk.symm,hc,ha⟩,rfl⟩
    | some b =>
      obtain ⟨w,rfl,hg⟩ := hv
      obtain ⟨q,u,hq,hb,hc⟩ := hc
      obtain ⟨x,hx⟩ := Read.local_length.passes hq
      have hfilled : slots.read t.decode mid = .ok (some w,slots.advance 1) u := by
        rw [Slots.read_of_present hl]
        exact EStateM.bind_of_ok _ (Slots.payload_of_passes hq hb hg)
      rw [← (hx.trans hb).options_eq] at ha
      exact ⟨some w,u,ws,hfilled,⟨[],ps,u,hu u,hk.symm,hc,ha⟩,rfl⟩

theorem lie_skipped : Lie (skipped name t default :: fs) slots vs r s ↔
    ∃ ws, Lie fs slots ws r s ∧ vs = default :: ws := by
  constructor
  · rintro ⟨bs,ps,mid,hm,hp,hc,v,ws,rfl,rfl,ha⟩
    exact ⟨ws,⟨bs,ps,mid,hm,hp,hc,ha⟩,rfl⟩
  · rintro ⟨ws,⟨bs,ps,mid,hm,hp,hc,ha⟩,rfl⟩
    exact ⟨bs,ps,mid,hm,hp,hc,default,ws,rfl,rfl,ha⟩

end Field

namespace Schema

open RecordCodec.Field (Lie)

/-- The fields of a struct are read from what they hold, one behind the other. -/
theorem decodeFields_eq_ok (fs : List Field) {slots : Slots} {r s : Reader} {vs : List Value}
    (ho : Field.InOrder fs) (hw : FieldsWellFormed fs) (hr : r.bytes.length < addressSpace) :
    decodeFields fs slots r = .ok vs s ↔ Lie fs slots vs r s := by
  induction fs generalizing slots r vs with
  | nil =>
    rw [Field.lie_nil]
    constructor
    · intro h
      obtain ⟨_,u,hu,h⟩ := EStateM.bind_eq_ok.mp h
      obtain ⟨rfl,rfl⟩ := EStateM.pure_eq_ok.mp h
      exact ⟨hu,rfl⟩
    · rintro ⟨h,rfl⟩
      exact EStateM.bind_of_ok _ h
  | cons f fs ih =>
    cases f with
    | mandatory name t =>
      rw [Field.lie_mandatory hw.1 hr]
      constructor
      · intro h
        obtain ⟨v,u,hu,h⟩ := EStateM.bind_eq_ok.mp h
        obtain ⟨ws,u',hs,h⟩ := EStateM.bind_eq_ok.mp h
        obtain ⟨rfl,rfl⟩ := EStateM.pure_eq_ok.mp h
        obtain ⟨b,hb⟩ := t.local_decode.passes hu
        exact ⟨v,u,ws,hu,(ih ho hw.2 (hb.bytes_eq ▸ hr)).mp hs,rfl⟩
      · rintro ⟨v,u,ws,hu,h,rfl⟩
        obtain ⟨b,hb⟩ := t.local_decode.passes hu
        have hs := (ih ho hw.2 (hb.bytes_eq ▸ hr)).mpr h
        exact (EStateM.bind_of_ok _ hu).trans (EStateM.bind_of_ok _ hs)
    | compatible name version t =>
      constructor
      · intro h
        obtain ⟨⟨x,slots'⟩,u,hu,h⟩ := EStateM.bind_eq_ok.mp h
        obtain ⟨ws,u',hs,h⟩ := EStateM.bind_eq_ok.mp h
        obtain ⟨rfl,rfl⟩ := EStateM.pure_eq_ok.mp h
        obtain ⟨q,hq⟩ := (slots.local_slot t.local_decode).passes hu
        exact Field.lie_of_read ho.1 hu ((ih ho.2 hw.2 (hq.bytes_eq ▸ hr)).mp hs)
      · intro h
        obtain ⟨x,u,ws,hu,hl,rfl⟩ := Field.read_of_lie ho.1 h
        obtain ⟨q,hq⟩ := (slots.local_slot t.local_decode).passes hu
        have hs := (ih ho.2 hw.2 (hq.bytes_eq ▸ hr)).mpr hl
        exact (EStateM.bind_of_ok _ hu).trans (EStateM.bind_of_ok _ hs)
    | skipped name t default =>
      rw [Field.lie_skipped]
      constructor
      · intro h
        obtain ⟨ws,u,hs,h⟩ := EStateM.bind_eq_ok.mp h
        obtain ⟨rfl,rfl⟩ := EStateM.pure_eq_ok.mp h
        exact ⟨ws,(ih ho hw hr).mp hs,rfl⟩
      · rintro ⟨ws,h,rfl⟩
        exact EStateM.bind_of_ok _ ((ih ho hw hr).mpr h)

end Schema
end RecordCodec
