import RecordCodec.Proofs.Location

/-! # What the slots of an aggregate take

A consumer reads the slots that it declares, one behind the other, and steps over those that are
left. Producer and consumer need not agree on their number: wherever the work is split between
reading and stepping over, each filled slot takes its parcel, and no other slot takes anything.
-/
namespace RecordCodec

open Read (Gives)

/-- A payload behind the length that declares it. -/
structure Parcel (o : Options) where
  head : List UInt8
  body : List UInt8
  declared : Gives o Read.length head (.ok body.length)

namespace Parcel

variable {o : Options}

def bytes (p : Parcel o) : List UInt8 := p.head ++ p.body

def laid : List (Option (Parcel o)) → List UInt8
  | [] => []
  | none :: ps => laid ps
  | some p :: ps => p.bytes ++ laid ps

theorem exists_of_crosses {bs : List (Option (List UInt8))} {r s : Reader} (ho : r.options = o)
    (h : Slots.Crosses bs r s) :
    ∃ ps : List (Option (Parcel o)), ps.map (Option.map body) = bs ∧ r.Passes (laid ps) s := by
  induction bs generalizing r with
  | nil =>
    obtain rfl : s = r := h
    exact ⟨[],rfl,.refl s⟩
  | cons b bs ih =>
    cases b with
    | none =>
      obtain ⟨ps,rfl,hp⟩ := ih ho h
      exact ⟨none :: ps,rfl,hp⟩
    | some b =>
      obtain ⟨u,t,hu,hb,h⟩ := h
      obtain ⟨a,ha,hg⟩ := Read.local_length r _ u hu
      obtain ⟨ps,rfl,hp⟩ := ih ((ha.trans hb).options_eq.trans ho) h
      exact ⟨some ⟨a,b,ho ▸ hg⟩ :: ps,rfl,(ha.trans hb).trans hp⟩

end Parcel

namespace Slots

def readEach : List Schema → Slots → Read (List (Option Value) × Slots)
  | [], s => pure ([], s)
  | t :: ts, s => do
    let (x, s) ← s.read t.decode
    let (xs, s) ← readEach ts s
    pure (x :: xs, s)

/-- Reads the declared slots of a bitmap and steps over the others. -/
def claim (ts : List Schema) (p : Presence) : Read (List (Option Value)) := do
  let (xs, s) ← readEach ts { presence := p }
  s.finish
  pure xs

/-- A declared slot comes to nothing if it is empty or not there, and otherwise to what its type
reads from its own payload. -/
def Holds (o : Options) (t : Schema) (x : Option Value) : (payload : Option (List UInt8)) → Prop
  | none => x = none
  | some b => ∃ v, x = some v ∧ Gives o t.decode b (.ok v)

variable {t : Schema} {ts : List Schema} {xs : List (Option Value)} {slots slots' : Slots}
  {r s u : Reader}

theorem readEach_cons_eq_ok :
    readEach (t :: ts) slots r = .ok (xs,slots') s ↔
      ∃ x ys mid v, slots.read t.decode r = .ok (x,mid) v ∧
        readEach ts mid v = .ok (ys,slots') s ∧ xs = x :: ys := by
  constructor
  · intro h
    obtain ⟨⟨x,mid⟩,v,hv,h⟩ := EStateM.bind_eq_ok.mp h
    obtain ⟨⟨ys,slots⟩,w,hw,h⟩ := EStateM.bind_eq_ok.mp h
    obtain ⟨he,rfl⟩ := EStateM.pure_eq_ok.mp h
    obtain ⟨rfl,rfl⟩ := Prod.mk.inj he
    exact ⟨x,ys,mid,v,hv,hw,rfl⟩
  · rintro ⟨x,ys,mid,v,hv,hw,rfl⟩
    exact (EStateM.bind_of_ok _ hv).trans (EStateM.bind_of_ok _ hw)

theorem crosses_of_read {x : Option Value} (hr : slots.read t.decode r = .ok (x,slots') u)
    {bs : List (Option (List UInt8))} (hs : bs.map Option.isSome = slots'.left)
    (hc : Crosses bs u s) :
    ∃ cs, cs.map Option.isSome = slots.left ∧ Crosses cs r s ∧
      Holds r.options t x cs.head?.join ∧ cs.tail = bs := by
  obtain ⟨rfl,⟨hl,rfl,rfl⟩ | ⟨b,w,a,⟨bits,hl⟩,rfl,hw,hb,hg⟩⟩ := read_eq_ok t.local_decode hr
  · rcases hl with hl | ⟨bits,hl⟩
    · rw [(left_nil hl).2] at hs
      obtain rfl := List.map_eq_nil_iff.mp hs
      exact ⟨[],hl.symm,hc,rfl,rfl⟩
    · rw [(left_cons hl).2] at hs
      exact ⟨none :: bs,hl.symm ▸ congrArg (false :: ·) hs,hc,rfl,rfl⟩
  · rw [(left_cons hl).2] at hs
    exact ⟨some b :: bs,hl.symm ▸ congrArg (true :: ·) hs,⟨w,u,hw,hb,hc⟩,⟨a,rfl,hg⟩,rfl⟩

/-- Slots that are read and those that are stepped over behind them make one way over all that were
left, and each declared slot comes to what its own payload holds. -/
theorem crosses_of_readEach (hr : readEach ts slots r = .ok (xs,slots') u)
    (hf : slots'.finish u = .ok () s) :
    ∃ bs, bs.map Option.isSome = slots.left ∧ Crosses bs r s ∧ xs.length = ts.length ∧
      ∀ (i : Nat) (t : Schema), ts[i]? = some t →
        ∃ x, xs[i]? = some x ∧ Holds r.options t x bs[i]?.join := by
  induction ts generalizing slots r xs with
  | nil =>
    obtain ⟨he,rfl⟩ := EStateM.pure_eq_ok.mp hr
    obtain ⟨rfl,rfl⟩ := Prod.mk.inj he
    obtain ⟨bs,hs,hc⟩ := forM_stepOver_eq_ok.mp hf
    refine ⟨bs,hs,hc,rfl,?_⟩
    intro i t hi
    cases hi
  | cons t ts ih =>
    obtain ⟨x,ys,mid,v,hv,hw,rfl⟩ := readEach_cons_eq_ok.mp hr
    obtain ⟨bs,hs,hc,hn,hh⟩ := ih hw
    obtain ⟨cs,hs',hc',hx,rfl⟩ := crosses_of_read hv hs hc
    obtain ⟨p,hp⟩ := (slots.local_slot t.local_decode).passes hv
    refine ⟨cs,hs',hc',congrArg (· + 1) hn,?_⟩
    intro i t' hi
    cases i with
    | zero =>
      obtain rfl : t = t' := Option.some.inj hi
      rw [List.head?_eq_getElem?] at hx
      exact ⟨x,rfl,hx⟩
    | succ i =>
      have hi := hh i t' hi
      rwa [hp.options_eq, List.getElem?_tail] at hi

theorem finish_of_readEach (hr : readEach ts slots r = .ok (xs,slots') u)
    (hf : slots'.finish u = .ok () s) : slots.finish r = .ok () s := by
  induction ts generalizing slots r xs with
  | nil =>
    obtain ⟨he,rfl⟩ := EStateM.pure_eq_ok.mp hr
    obtain ⟨rfl,rfl⟩ := Prod.mk.inj he
    exact hf
  | cons t ts ih =>
    obtain ⟨x,ys,mid,v,hv,hw,rfl⟩ := readEach_cons_eq_ok.mp hr
    exact finish_of_read t.local_decode hv (ih hw)

theorem claim_eq_ok {p : Presence} :
    claim ts p r = .ok xs s ↔
      ∃ slots u, readEach ts { presence := p } r = .ok (xs,slots) u ∧
        slots.finish u = .ok () s := by
  constructor
  · intro h
    obtain ⟨⟨ys,slots⟩,u,hu,h⟩ := EStateM.bind_eq_ok.mp h
    obtain ⟨_,v,hv,h⟩ := EStateM.bind_eq_ok.mp h
    obtain ⟨rfl,rfl⟩ := EStateM.pure_eq_ok.mp h
    exact ⟨slots,u,hu,hv⟩
  · rintro ⟨slots,u,hu,hs⟩
    exact (EStateM.bind_of_ok _ hu).trans (EStateM.bind_of_ok _ hs)

theorem Holds.of_parcels {o : Options} {ps : List (Option (Parcel o))} {x : Option Value} {i : Nat}
    (h : Holds o t x (ps.map (Option.map Parcel.body))[i]?.join) :
    (x.isSome ↔ (ps.map Option.isSome)[i]? = some true) ∧
      ∀ v, x = some v → ∃ parcel, ps[i]? = some (some parcel) ∧
        Gives o t.decode parcel.body (.ok v) := by
  rw [List.getElem?_map] at h
  rw [List.getElem?_map]
  rcases hp : ps[i]? with _ | _ | parcel
  · rw [hp] at h
    obtain rfl : x = none := h
    simp
  · rw [hp] at h
    obtain rfl : x = none := h
    simp
  · rw [hp] at h
    obtain ⟨v,rfl,hg⟩ := h
    refine ⟨by simp,?_⟩
    intro w hw
    obtain rfl := Option.some.inj hw
    exact ⟨parcel,rfl,hg⟩

/-- The declared slots of a bitmap, however many and of whatever types, and those that are left
take the parcels of the filled slots in their order and nothing else. A declared slot comes to a
value exactly if it is there and filled, which is then read from its own payload. No other
declaration ends elsewhere. -/
theorem claim_accounts {p : Presence} (h : claim ts p r = .ok xs s) :
    ∃ ps : List (Option (Parcel r.options)), ps.map Option.isSome = p.slots ∧
      r.Passes (Parcel.laid ps) s ∧ xs.length = ts.length ∧
      (∀ (i : Nat) (x : Option Value), xs[i]? = some x →
        (x.isSome ↔ i < p.size ∧ p.slots[i]? = some true) ∧
        ∀ v, x = some v → ∃ t parcel, ts[i]? = some t ∧ ps[i]? = some (some parcel) ∧
          Gives r.options t.decode parcel.body (.ok v)) ∧
      ∀ us ys u, claim us p r = .ok ys u → u = s := by
  obtain ⟨slots,u,hu,hs⟩ := claim_eq_ok.mp h
  obtain ⟨bs,hb,hc,hn,hx⟩ := crosses_of_readEach hu hs
  obtain ⟨ps,rfl,hp⟩ := Parcel.exists_of_crosses rfl hc
  have hsome : ps.map Option.isSome = p.slots := by
    rw [List.map_map] at hb
    exact (List.map_congr_left fun q _ => Option.isSome_map.symm).trans hb
  refine ⟨ps,hsome,hp,hn,?_,?_⟩
  · intro i x hi
    have hlt : i < ts.length := hn ▸ (List.getElem?_eq_some_iff.mp hi).1
    have ht := List.getElem?_eq_getElem hlt
    obtain ⟨x',hi',hh⟩ := hx i ts[i] ht
    obtain rfl : x = x' := Option.some.inj (hi.symm.trans hi')
    obtain ⟨hfilled,hv⟩ := hh.of_parcels
    rw [hsome] at hfilled
    refine ⟨hfilled.trans ⟨fun hb => ⟨(List.getElem?_eq_some_iff.mp hb).1,hb⟩,And.right⟩,?_⟩
    intro v hxv
    obtain ⟨parcel,hparcel,hg⟩ := hv v hxv
    exact ⟨ts[i],parcel,ht,hparcel,hg⟩
  · intro us ys v hv
    obtain ⟨slots',w,hw,hv⟩ := claim_eq_ok.mp hv
    have he := (finish_of_readEach hw hv).symm.trans (finish_of_readEach hu hs)
    exact (EStateM.Result.ok.inj he).2

/-- Three slots, of which the second is empty and one is declared. -/
theorem claim_accounts_one :
    ∃ s, claim [.scalar .u8] { slots := [true, false, true] }
        (.ofBytes {} [1, 0xAA, 2, 0xBB, 0xCC, 0xEE]) = .ok [some (.int 0xAA)] s ∧
      s.rest = [0xEE] ∧
      ∃ ps : List (Option (Parcel {})), ps.map Option.isSome = [true, false, true] ∧
        (Reader.ofBytes {} [1, 0xAA, 2, 0xBB, 0xCC, 0xEE]).Passes (Parcel.laid ps) s := by
  have h : claim [.scalar .u8] { slots := [true, false, true] }
      (.ofBytes {} [1, 0xAA, 2, 0xBB, 0xCC, 0xEE]) = .ok [some (.int 0xAA)] _ := rfl
  obtain ⟨ps,hs,hp,-⟩ := claim_accounts h
  exact ⟨_,h,rfl,ps,hs,hp⟩

end Slots
end RecordCodec
