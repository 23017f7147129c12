import Mathlib.Data.List.Forall2
import RecordCodec.Proofs.Sinks
import RecordCodec.Proofs.Streams

/-! # Batches are read back

A batch is written as the records of its values, one behind the other. Every record tells where it
ends, so that the values are read back in their order, however many there are, and the first of them
whatever stands behind those.
-/
namespace RecordCodec

open Emission (allBytes)
open Read (Gives)

namespace Record

variable {o : Options} {part : Schema × Value} {parts : List (Schema × Value)} {w : List UInt8}
  {ws : List (List UInt8)}

/-- The type is accepted, and the value is one of it whose lengths are numbers of 64 bits. -/
structure Writable (part : Schema × Value) : Prop where
  accepted : ∃ d, part.1.descriptor = .ok d
  admits : part.1.admits part.2 = true
  addressable : ∀ n ∈ part.1.lengths part.2, n < addressSpace

/-- The value's lengths are within the limit, and without what skipped fields hold no set has an
element twice and no map a key. -/
structure Restorable (o : Options) (part : Schema × Value) : Prop where
  within : ∀ n ∈ part.1.lengths part.2, n ≤ o.maxLength
  distinct : part.1.distinct (part.1.reset part.2) = true

/-- What a value is read back as. -/
def restored (part : Schema × Value) : Value := part.1.reset part.2

def IsRecord (part : Schema × Value) (w : List UInt8) : Prop :=
  serialize part.1 part.2 = .ok w

theorem serialize_eq_ok {t : Schema} {v : Value} :
    serialize t v = .ok w ↔ ∃ es, emissions t v = .ok es ∧ w = allBytes es := by
  unfold serialize
  cases emissions t v with
  | error e => simp
  | ok es => simp [eq_comm]

theorem exists_record (h : Writable part) : ∃ w, IsRecord part w := by
  obtain ⟨d,hd⟩ := h.accepted
  have hw := (Schema.descriptor_eq_ok hd).2
  have hf := Fits.widest hw h.admits h.addressable
  obtain ⟨es,he,-⟩ := delivers_read Options.widest_lt hd hd (Schema.related_self hw) hf
  exact ⟨allBytes es,serialize_eq he⟩

theorem exists_records (h : ∀ part ∈ parts, Writable part) :
    ∃ ws, List.Forall₂ IsRecord parts ws := by
  induction parts with
  | nil => exact ⟨[],.nil⟩
  | cons part parts ih =>
    obtain ⟨w,hw⟩ := exists_record (h part List.mem_cons_self)
    obtain ⟨ws,hws⟩ := ih fun p hp => h p (List.mem_cons_of_mem part hp)
    exact ⟨w :: ws,.cons hw hws⟩

theorem gives_of_isRecord (ho : o.maxLength < addressSpace) (hp : Writable part)
    (hr : Restorable o part) (h : IsRecord part w) :
    Gives o (read part.1) w (.ok (restored part)) := by
  obtain ⟨d,hd⟩ := hp.accepted
  have hw := (Schema.descriptor_eq_ok hd).2
  have hf : Fits o part := ⟨hw,hp.admits,hr.within⟩
  obtain ⟨es,he,hg⟩ := delivers_read ho hd hd (Schema.related_self hw) hf
  obtain ⟨es',he',rfl⟩ := serialize_eq_ok.mp h
  rw [he] at he'
  cases he'
  rwa [Schema.project_self hp.admits, hr.distinct] at hg

theorem gives_of_records (ho : o.maxLength < addressSpace) (h : List.Forall₂ IsRecord parts ws)
    (hp : ∀ part ∈ parts, Writable part) (hr : ∀ part ∈ parts, Restorable o part) :
    List.Forall₂ (fun part w => Gives o (read part.1) w (.ok (restored part))) parts ws := by
  induction h with
  | nil => exact .nil
  | cons hw _ ih =>
    have hps := fun p m => hp p (List.mem_cons_of_mem _ m)
    have hrs := fun p m => hr p (List.mem_cons_of_mem _ m)
    refine .cons ?_ (ih hps hrs)
    exact gives_of_isRecord ho (hp _ List.mem_cons_self) (hr _ List.mem_cons_self) hw

/-- Bytes that are read as a record have at least a header. -/
theorem width_le_of_gives {t : Schema} {v : Value} (h : Gives o (read t) w (.ok v)) :
    Header.width ≤ w.length := by
  obtain ⟨s,hs,hp⟩ := h.ok (r := .ofBytes o w) rfl (List.prefix_refl w)
  obtain ⟨b,hb,hl⟩ := read_passes hs
  have hw := hp.position_eq
  have hb := hb.position_eq
  omega

end Record

namespace Batch

open Record

variable {o : Options} {t : Schema} {vs : List Value} {parts : List (Schema × Value)}
  {ws : List (List UInt8)}

/-- Whether there is a schema for each value and for nothing else. -/
def Matches : Batch → List Value → Prop
  | each ts, vs => ts.length = vs.length
  | all _, _ => True

theorem appendAll_of_records (h : List.Forall₂ IsRecord parts ws) (buffer : List UInt8) :
    appendAll parts buffer = (.ok (),buffer ++ ws.flatten) := by
  induction h generalizing buffer with
  | nil => simp [appendAll]
  | @cons part w parts ws hw _ ih =>
    obtain ⟨t,v⟩ := part
    obtain ⟨es,he,rfl⟩ := serialize_eq_ok.mp hw
    have ha := append_of_ok he buffer
    simp [appendAll, ha, ih]

theorem gives_readEach
    (h : List.Forall₂ (fun part w => Gives o (Record.read part.1) w (.ok (restored part))) parts ws) :
    Gives o (readEach (parts.map Prod.fst)) ws.flatten (.ok (parts.map restored)) := by
  induction h with
  | nil => exact .pure o []
  | cons hw _ ih => exact hw.bind_ok (ih.bind_nil (.pure o _))

/-- Records are found one behind the other, also if anything stands behind the last. -/
theorem nextEach_of_records
    (h : List.Forall₂ (fun part w => Gives o (Record.read part.1) w (.ok (restored part))) parts ws)
    (rest : List UInt8) :
    nextEach o (ws.flatten ++ rest) (parts.map Prod.fst) 0 =
      (.ok (parts.map restored),ws.flatten.length) := by
  let r := Reader.ofBytes o (ws.flatten ++ rest)
  obtain ⟨s,hs,hp⟩ := (gives_readEach h).ok (r := r) rfl (List.prefix_append _ rest)
  have hn := readEach_eq (r := r) (parts.map Prod.fst) rfl
  rw [hs] at hn
  have hpos : s.position = ws.flatten.length := hp.position_eq.trans (Nat.zero_add _)
  rw [← hpos]
  exact hn.1

/-- With room for all records that there can be, records are read up to the end. -/
theorem readAll_of_records
    (h : List.Forall₂ (fun v w => Gives o (Record.read t) w (.ok v)) vs ws) {r : Reader} {most : Nat}
    (ho : r.options = o) (hr : r.rest = ws.flatten) (hm : r.remaining ≤ most) :
    ∃ s, readAll t most r = .ok vs s ∧ s.remaining = 0 := by
  induction h generalizing r most with
  | nil =>
    have hz : r.remaining = 0 := congrArg List.length hr
    refine ⟨r,?_,hz⟩
    cases most with
    | zero => rfl
    | succ most =>
      unfold readAll
      have hleft : Read.remaining r = .ok r.remaining r := rfl
      rw [EStateM.bind_of_ok _ hleft, if_pos hz]
      rfl
  | @cons v w vs ws hw _ ih =>
    obtain ⟨s,hs,hp⟩ := hw.ok ho ⟨ws.flatten,hr.symm⟩
    -- no record is empty, so that the bound goes down with the bytes that are left
    have hwidth : 4 ≤ w.length := width_le_of_gives hw
    have hrem := hp.remaining_eq
    have hrest : s.rest = ws.flatten := by
      have hsplit := hp.rest_eq
      rw [hr, List.flatten_cons] at hsplit
      exact (List.append_cancel_left hsplit).symm
    cases most with
    | zero => omega
    | succ most =>
      have hroom : s.remaining ≤ most := by omega
      obtain ⟨q,hq,hz⟩ := ih (hp.options_eq.trans ho) hrest hroom
      have hleft : Read.remaining r = .ok r.remaining r := rfl
      refine ⟨q,?_,hz⟩
      unfold readAll
      rw [EStateM.bind_of_ok _ hleft, if_neg (by omega), EStateM.bind_of_ok _ hs,
        EStateM.bind_of_ok _ hq]
      rfl

theorem deserialize_of_remaining {b : Batch} {bytes : List UInt8} {r : Reader}
    (h : b.read (.ofBytes o bytes) = .ok vs r) (hz : r.remaining = 0) :
    deserialize o b bytes = .ok vs := by
  rw [deserialize_of_ok h, if_neg]
  intro hc
  omega

theorem serialize_of_records {b : Batch} (h : List.Forall₂ IsRecord (b.assign vs) ws) :
    b.serialize vs = .ok ws.flatten := by
  unfold serialize append
  rw [appendAll_of_records h []]
  rfl

theorem deserialize_of_records {b : Batch} (hb : b.Matches vs)
    (h : List.Forall₂ (fun part w => Gives o (Record.read part.1) w (.ok (restored part)))
      (b.assign vs) ws) :
    b.deserialize o ws.flatten = .ok ((b.assign vs).map restored) := by
  let r := Reader.ofBytes o ws.flatten
  cases b with
  | each ts =>
    have hfst : ((each ts).assign vs).map Prod.fst = ts := List.map_fst_zip (Nat.le_of_eq hb)
    have hg := gives_readEach h
    rw [hfst] at hg
    obtain ⟨s,hs,hp⟩ := hg.ok (r := r) rfl (List.prefix_refl _)
    have hrem : ws.flatten.length = ws.flatten.length + s.remaining := hp.remaining_eq
    exact deserialize_of_remaining (b := each ts) hs (by omega)
  | all t =>
    have hv : ((all t).assign vs).map restored = vs.map t.reset := List.map_map
    have hg : List.Forall₂ (fun v w => Gives o (Record.read t) w (.ok v)) (vs.map t.reset) ws := by
      rw [List.forall₂_map_left_iff]
      exact List.forall₂_map_left_iff.mp h
    obtain ⟨s,hs,hz⟩ := readAll_of_records hg (r := r) rfl rfl (Nat.le_refl _)
    rw [hv]
    exact deserialize_of_remaining (b := all t) hs hz

theorem map_snd_assign {b : Batch} (hb : b.Matches vs) : (b.assign vs).map Prod.snd = vs := by
  cases b with
  | each ts => exact List.map_snd_zip (Nat.le_of_eq hb.symm)
  | all t => simp [assign, Function.comp_def]

/-- The values of a batch, as many as they are, are written as their records one behind the other,
and all are read back in their order, also by a batch of the other kind with the same types. The
first of them are read back one by one from the start, up to where the next record starts, whatever
there is from there on. -/
theorem deserialize_serialize {b : Batch} (hb : b.Matches vs)
    (hw : ∀ part ∈ b.assign vs, Writable part) :
    ∃ ws, List.Forall₂ IsRecord (b.assign vs) ws ∧ (b.assign vs).map Prod.snd = vs ∧
      b.serialize vs = .ok ws.flatten ∧
      ∀ o : Options, o.maxLength < addressSpace →
        ((∀ part ∈ b.assign vs, Restorable o part) →
          ∀ b' : Batch, b'.Matches vs → b'.assign vs = b.assign vs →
            b'.deserialize o ws.flatten = .ok ((b.assign vs).map restored)) ∧
        ∀ (j : Nat) (rest : List UInt8), (∀ part ∈ (b.assign vs).take j, Restorable o part) →
          nextEach o ((ws.take j).flatten ++ rest) (((b.assign vs).take j).map Prod.fst) 0 =
            (.ok (((b.assign vs).take j).map restored),(ws.take j).flatten.length) := by
  obtain ⟨ws,hws⟩ := exists_records hw
  refine ⟨ws,hws,map_snd_assign hb,serialize_of_records hws,fun o ho => ⟨fun hr => ?_,?_⟩⟩
  · intro b' hb' ha
    have hg := gives_of_records ho hws hw hr
    rw [← ha] at hg ⊢
    exact deserialize_of_records hb' hg
  · intro j rest hr
    have hfirst : ∀ part ∈ (b.assign vs).take j, Writable part :=
      fun part hp => hw part (List.mem_of_mem_take hp)
    exact nextEach_of_records (gives_of_records ho (List.forall₂_take j hws) hfirst hr) rest

theorem deserialize_serialize_noted :
    let note := Value.record
      [.sequence [.record [.int 2, .text "b"]], .text "filled", .present (.sequence [.text "hi"])]
    let kept := Value.record
      [.sequence [.record [.int 2, .text "none"]], .text "", .present (.sequence [.text "hi"])]
    ∃ w w', Record.serialize noted note = .ok w ∧ Record.serialize (.scalar .u8) (.int 7) = .ok w' ∧
      (each [noted, .scalar .u8]).serialize [note, .int 7] = .ok (w ++ w') ∧
      (each [noted, .scalar .u8]).deserialize {} (w ++ w') = .ok [kept, .int 7] ∧
      ∀ rest, nextEach {} (w ++ rest) [noted] 0 = (.ok [kept],w.length) := by
  intro note kept
  have hnote : Writable (noted,note) := ⟨⟨noted.shape,rfl⟩,by decide,by decide⟩
  have hseven : Writable (.scalar .u8,.int 7) := ⟨⟨_,rfl⟩,by decide,by decide⟩
  have hnote' : Restorable {} (noted,note) := ⟨by decide,by decide⟩
  have hseven' : Restorable {} (.scalar .u8,.int 7) := ⟨by decide,by decide⟩
  have hmatches : (each [noted, .scalar .u8]).Matches [note, .int 7] := rfl
  obtain ⟨ws,hws,-,hbytes,hread⟩ := deserialize_serialize hmatches
    (List.forall_mem_cons.mpr ⟨hnote,List.forall_mem_singleton.mpr hseven⟩)
  obtain ⟨hall,hfirst⟩ := hread {} (by decide)
  obtain ⟨w,ws₁,hw,hws₁,rfl⟩ := List.forall₂_cons_left_iff.mp hws
  obtain ⟨w',ws₂,hw',hws₂,rfl⟩ := List.forall₂_cons_left_iff.mp hws₁
  obtain rfl := List.forall₂_nil_left_iff.mp hws₂
  have hflat : [w, w'].flatten = w ++ w' := by simp
  rw [hflat] at hbytes hall
  refine ⟨w,w',hw,hw',hbytes,?_,fun rest => ?_⟩
  · have hparts := List.forall_mem_cons.mpr ⟨hnote',List.forall_mem_singleton.mpr hseven'⟩
    exact hall hparts (each [noted, .scalar .u8]) rfl rfl
  · have h := hfirst 1 rest (List.forall_mem_singleton.mpr hnote')
    have hone : ([w, w'].take 1).flatten = w := by simp
    rw [hone] at h
    exact h

end Batch
end RecordCodec
