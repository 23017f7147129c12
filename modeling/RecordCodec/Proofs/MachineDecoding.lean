import RecordCodec.Machine.Decode
import RecordCodec.Proofs.MachineRoom

/-! # Decoders on a machine

For every schema and old value the machine does what the library does, or runs out of room; what
steps over values makes no room, and never stops.
-/
namespace RecordCodec

/-- The reader that an operation over a place leaves behind. -/
def Overwritten.reader {α : Type} (o : Overwritten α) : Reader :=
  match o.outcome with
  | .ok _ r => r
  | .error _ r => r

theorem Overwritten.onward_reader {α : Type} {x : Read Unit} (h : Read.Forward x) (place : α)
    (r : Reader) : r.Onward (⟨place,x r⟩ : Overwritten α).reader := by
  unfold reader
  cases hu : x r with
  | ok u s => exact h.of_ok hu
  | error e s => exact h.of_error hu

namespace Machine

open Overwritten (onward_reader)
open Read (Forward forward_closed forward_elementary)
open Schema (HasRoomAs ComponentsHaveRoom FieldsHaveRoom AlternativesHaveRoom)

/-! ## Values from bytes -/

section
variable {memory : Memory} {o : Options} {tight : Prop}

mutual

theorem follows_decodeAs : ∀ as t : Schema, (¬tight → HasRoomAs memory o as t) →
    Follows o tight (decodeAs memory as t) t.decode
  | _, .unit, _ => .pure _
  | _, .scalar s, _ => (does_scalar s).follows (forward_closed.scalar s)
  | _, .text, _ => (does_text.follows forward_closed.text).map _
  | _, .duration, _ => does_duration.follows forward_closed.duration
  | _, .sequence t, h =>
    have element := follows_decodeAs t t fun ht => (h ht).2
    Follows.counted (fun ht => (h ht).1) fun n => (element.replicate n).map _
  | _, .set t, h =>
    have element := follows_decodeAs t t fun ht => (h ht).2
    Follows.counted (fun ht => (h ht).1) fun n => (element.distinct id n []).map _
  | _, .map k v, h =>
    have key := follows_decodeAs k k fun ht => (h ht).2.1
    have value := follows_decodeAs v v fun ht => (h ht).2.2
    have entry := key.bind fun key => value.bind fun value => Follows.pure (Value.entry key value)
    Follows.counted (fun ht => (h ht).1) fun n => (entry.distinct Value.key n []).map _
  | _, .array t n, h =>
    have element := follows_decodeAs t t fun ht => (h ht).2
    ((element.replicate n).map _).reserve fun ht => (h ht).1
  | _, .option t, h =>
    have payload := follows_decodeAs t t h
    (does_bool.follows forward_closed.bool).bind fun _ => .ite (payload.map _) (.pure _)
  | _, .tuple ts, h => (follows_decodeComponents ts h).map _
  | _, .pointer _ t, h => follows_decodeAs t t h
  | as, .named _ t, h => follows_decodeAs as t h
  | _, .compatible .., _ => .fault _
  | _, .struct _ _ fields, h =>
    ((does_start true).follows (forward_elementary.map _ (forward_closed.start true))).bind_map
      (forward_closed.start true) fun s => (follows_decodeFields fields s h).map _
  | _, .enum _ _ alternatives, h =>
    ((does_nat _).follows (forward_closed.nat _)).bind fun i =>
      (follows_decodeAlternative alternatives i h (.fault _)).map _
  | _, .reference _, _ => .throw _

theorem follows_decodeComponents : ∀ ts : List Schema, (¬tight → ComponentsHaveRoom memory o ts) →
    Follows o tight (decodeComponents memory ts) (Schema.decodeComponents ts)
  | [], _ => .pure _
  | t :: ts, h =>
    (follows_decodeAs t t fun ht => (h ht).1).bind fun _ =>
      (follows_decodeComponents ts fun ht => (h ht).2).bind fun _ => .pure _

theorem follows_decodeFields : ∀ (fs : List Field) (s : RecordCodec.Slots),
    (¬tight → FieldsHaveRoom memory o fs) →
      Follows o tight (decodeFields memory fs (Slots.of s)) (Schema.decodeFields fs s)
  | [], s, _ => ((does_finish s).follows (forward_closed.finish s)).bind fun _ => .pure _
  | .mandatory _ t :: fs, s, h =>
    (follows_decodeAs t t fun ht => (h ht).1).bind fun _ =>
      (follows_decodeFields fs s fun ht => (h ht).2).bind fun _ => .pure _
  | .compatible _ _ t :: fs, s, h =>
    have payload := follows_decodeAs t t fun ht => (h ht).1
    (payload.slot s).bind_map (forward_closed.slot s payload.forward) fun p =>
      (follows_decodeFields fs p.2 fun ht => (h ht).2).bind fun _ => .pure _
  | .skipped .. :: fs, s, h => (follows_decodeFields fs s h).bind fun _ => .pure _

theorem follows_decodePayload : ∀ fs : List Field, (¬tight → FieldsHaveRoom memory o fs) →
    Follows o tight (decodePayload memory fs) (Schema.decodePayload fs)
  | [], _ => .pure _
  | .mandatory _ t :: fs, h =>
    (follows_decodeAs t t fun ht => (h ht).1).bind fun _ =>
      (follows_decodePayload fs fun ht => (h ht).2).bind fun _ => .pure _
  | .compatible .. :: _, _ => .fault _
  | .skipped .. :: fs, h => (follows_decodePayload fs h).bind fun _ => .pure _

theorem follows_decodeAlternative : ∀ (as : List Alternative) (i : Nat) {m : Run (List Value)}
    {missing : Read (List Value)}, (¬tight → AlternativesHaveRoom memory o as) →
      Follows o tight m missing →
        Follows o tight (decodeAlternative memory as i m) (Schema.decodeAlternative as i missing)
  | [], _, _, _, _, h => h
  | .mk _ _ fields :: _, 0, _, _, hf, _ => follows_decodePayload fields fun ht => (hf ht).1
  | .mk .. :: as, i + 1, _, _, hf, h => follows_decodeAlternative as i (fun ht => (hf ht).2) h

end

theorem follows_decodeBodyAs (as t : Schema) (s : RecordCodec.Slots)
    (h : ¬tight → HasRoomAs memory o as t) :
    Follows o tight (decodeBodyAs memory as t (Slots.of s)) (t.decodeBody s) := by
  fun_induction Schema.decodeBody t s generalizing as with
  | case1 name style fields s => exact (follows_decodeFields fields s h).map _
  | case2 p t s ih => exact ih t h
  | case3 name t s ih => exact ih as h
  | case4 t s hstruct hpointer hnamed =>
    rw [decodeBodyAs]
    · exact (follows_decodeAs as t h).bind fun _ =>
        ((does_finish s).follows (forward_closed.finish s)).bind fun _ => .pure _
    · exact hstruct
    · exact hpointer
    · exact hnamed

end

/-! ## Reading over a value -/

/-- A place that the library reads over, as a machine tells it. -/
def Placed.of {α : Type} (o : Overwritten α) : Placed α := ⟨o.place,told o.outcome⟩

/-- A machine reads over a place as the library does, which only moves the reader on; if room is
tight, the machine may also run out of it. -/
def FollowsOver {α : Type} (r : Reader) (tight : Prop) (found : Placed α) (o : Overwritten α) :
    Prop :=
  (found = .of o ∧ r.Onward o.reader) ∨ tight ∧ RunsOut r found.outcome

section
variable {α β : Type} {r s : Reader} {tight : Prop} {found : Placed α} {placed : Overwritten α}

theorem FollowsOver.map (f : α → β) (h : FollowsOver r tight found placed) :
    FollowsOver r tight (found.map f) (placed.map f) := by
  obtain ⟨rfl,hr⟩ | h := h
  · exact .inl ⟨rfl,hr⟩
  · exact .inr h

theorem FollowsOver.behind (h : FollowsOver s tight found placed) (hr : r.Onward s) :
    FollowsOver r tight found placed := by
  obtain ⟨hf,hs⟩ | ⟨ht,hs⟩ := h
  · exact .inl ⟨hf,hr.trans hs⟩
  · exact .inr ⟨ht,hs.behind hr⟩

theorem FollowsFrom.replace {m : Run Value} {x : Read Value} (h : FollowsFrom r tight m x)
    (hx : Forward x) (old : Value) :
    FollowsOver r tight (.replace m old r.cursor) (.replace x old r) := by
  unfold FollowsOver Placed.replace Overwritten.replace
  obtain hm | ⟨ht,s,hs,hm⟩ := h
  · rw [hm]
    left
    cases hv : x r with
    | ok v s => exact ⟨rfl,hx.of_ok hv⟩
    | error e s => exact ⟨rfl,hx.of_error hv⟩
  · rw [hm]
    exact .inr ⟨ht,s,hs,rfl⟩

theorem follows_finish (place : α) (s : RecordCodec.Slots) (r : Reader) :
    FollowsOver r tight ⟨place,(Slots.of s).finish r.cursor⟩ ⟨place,s.finish r⟩ := by
  refine .inl ⟨congrArg (Placed.mk place) (does_finish s r),?_⟩
  exact onward_reader (forward_closed.finish s) place r

theorem FollowsOver.andThen {m : Run Unit} {x : Read Unit} (h : FollowsOver r tight found placed)
    (hm : Does m x) (hx : Forward x) : FollowsOver r tight (found.andThen m) (placed.andThen x) := by
  obtain ⟨rfl,hr⟩ | ⟨ht,s,hs,hf⟩ := h
  · obtain ⟨place,outcome⟩ := placed
    cases outcome with
    | ok u s =>
      have hs : r.Onward s := hr
      exact .inl ⟨congrArg (Placed.mk place) (hm s),hs.trans (onward_reader hx place s)⟩
    | error e s => exact .inl ⟨rfl,hr⟩
  · right
    refine ⟨ht,s,hs,?_⟩
    unfold Placed.andThen
    rw [hf]
    exact hf

end

section
variable {memory : Memory} {o : Options} {tight : Prop} (ownership : Ownership)

mutual

theorem follows_overwriteAs (as t : Schema) (old : Value) (r : Reader) (hr : r.options = o)
    (h : ¬tight → HasRoomAs memory o as t) :
    FollowsOver r tight (overwriteAs memory ownership as t old r.cursor)
      (t.overwrite ownership old r) := by
  have hread := follows_decodeAs as t h
  cases t with
  | struct name style fields =>
    cases old with
    | record vs =>
      rw [overwriteAs, Schema.overwrite]
      have hstart := forward_closed.start true
      cases hs : RecordCodec.Slots.start true r with
      | ok slots s =>
        have hrs := hstart.of_ok hs
        rw [(does_start true).of_ok hs]
        exact ((follows_overwriteFields fields vs slots s (hrs.options_eq.trans hr) h).map
          Value.record).behind hrs
      | error e s =>
        rw [(does_start true).of_error hs]
        exact .inl ⟨rfl,hstart.of_error hs⟩
    | _ => exact (hread.run r hr).replace hread.forward _
  | pointer p t =>
    unfold overwriteAs Schema.overwrite
    split
    · exact follows_overwriteAs t t old r hr h
    · have hpointee := follows_decodeAs t t h
      exact (hpointee.run r hr).replace hpointee.forward old
  | named name t => exact follows_overwriteAs as t old r hr h
  | unit | scalar | text | duration | sequence | set | map | array | option | tuple | compatible
  | enum | reference => exact (hread.run r hr).replace hread.forward old

theorem follows_overwriteFields : ∀ (fs : List Field) (vs : List Value) (s : RecordCodec.Slots)
    (r : Reader), r.options = o → (¬tight → FieldsHaveRoom memory o fs) →
      FollowsOver r tight (overwriteFields memory ownership fs vs (Slots.of s) r.cursor)
        (Schema.overwriteFields ownership fs vs s r)
  | .mandatory _ t :: fs, v :: vs, s, r, hr, h => by
    have hv := follows_overwriteAs t t v r hr fun ht => (h ht).1
    rw [overwriteFields, Schema.overwriteFields]
    obtain ⟨hv,ho⟩ | ⟨ht,s,hs,hv⟩ := hv
    · rw [hv]
      generalize t.overwrite ownership v r = placed at ho ⊢
      obtain ⟨place,outcome⟩ := placed
      cases outcome with
      | ok u r' =>
        have hr' : r.Onward r' := ho
        exact ((follows_overwriteFields fs vs s r' (hr'.options_eq.trans hr) fun ht => (h ht).2).map
          (place :: ·)).behind hr'
      | error e r' => exact .inl ⟨rfl,ho⟩
    · rw [hv]
      exact .inr ⟨ht,s,hs,rfl⟩
  | .compatible _ _ t :: fs, v :: vs, s, r, hr, h => by
    have hpayload := follows_decodeAs t t fun ht => (h ht).1
    have hforward := forward_closed.slot s hpayload.forward
    rw [overwriteFields, Schema.overwriteFields]
    obtain hm | ⟨ht,s,hs,hm⟩ := (hpayload.slot s).run r hr
    · unfold decode
      rw [hm]
      cases hs : s.read t.decode r with
      | ok p r' =>
        have hr' := hforward.of_ok hs
        have hp : ((fun p => (p.1,Slots.of p.2)) <$> s.read t.decode) r =
            .ok (p.1,Slots.of p.2) r' := EStateM.bind_of_ok _ hs
        rw [hp]
        exact ((follows_overwriteFields fs vs p.2 r' (hr'.options_eq.trans hr)
          fun ht => (h ht).2).map _).behind hr'
      | error e r' =>
        have hp : ((fun p => (p.1,Slots.of p.2)) <$> s.read t.decode) r = .error e r' :=
          EStateM.bind_of_error _ hs
        rw [hp]
        exact .inl ⟨rfl,hforward.of_error hs⟩
    · unfold decode
      rw [hm]
      exact .inr ⟨ht,s,hs,rfl⟩
  | .skipped .. :: fs, v :: vs, s, r, hr, h =>
    (follows_overwriteFields fs vs s r hr h).map (v :: ·)
  | [], vs, s, r, _, _ => follows_finish vs s r
  | .mandatory .. :: _, [], s, r, _, _ => follows_finish [] s r
  | .compatible .. :: _, [], s, r, _, _ | .skipped .. :: _, [], s, r, _, _ =>
    follows_finish [] s r

end

theorem follows_overwriteBodyAs (as t : Schema) (old : Value) (s : RecordCodec.Slots) (r : Reader)
    (hr : r.options = o) (h : ¬tight → HasRoomAs memory o as t) :
    FollowsOver r tight (overwriteBodyAs memory ownership as t old (Slots.of s) r.cursor)
      (t.overwriteBody ownership old s r) := by
  fun_induction Schema.overwriteBody ownership t old s r generalizing as with
  | case1 name style fields vs s r =>
    exact (follows_overwriteFields ownership fields vs s r hr h).map Value.record
  | case2 p t old s r hp ih =>
    rw [overwriteBodyAs, if_pos hp]
    exact ih t hr h
  | case3 p t old s r hp =>
    rw [overwriteBodyAs, if_neg hp]
    have hbody := follows_decodeBodyAs t t s h
    exact (hbody.run r hr).replace hbody.forward old
  | case4 name t old s r ih => exact ih as hr h
  | case5 t old s r hstruct hpointer hnamed =>
    rw [overwriteBodyAs]
    · exact (follows_overwriteAs ownership as t old r hr h).andThen (does_finish s)
        (forward_closed.finish s)
    · exact hpointer
    · exact hnamed
    · exact hstruct

end

/-! ## Stepping over values -/

theorem does_pass (n : Nat) : Does (do let _ ← take n) (do let _ ← Read.take n) :=
  (does_take n).bind fun _ => .pure ()

variable {m : Run Unit} {x : Read Unit}

theorem Does.passOr (h : Does m x) (width : Option Nat) :
    Does (passOr width m) (Descriptor.passOr width x) := by
  cases width with
  | some w => exact does_pass w
  | none => exact h

theorem Does.passRun (h : Does m x) (width : Option Nat) (count : Nat) :
    Does (passRun width count m) (Descriptor.passRun width count x) := by
  cases width with
  | none => exact h.times count
  | some w =>
    unfold Machine.passRun Descriptor.passRun
    dsimp only
    cases hc : checked (count * w) with
    | none => exact .fault _
    | some total =>
      intro r
      refine (EStateM.bind_of_ok _ (represent_of_checked hc r.cursor)).trans ?_
      exact does_pass total r

mutual

theorem does_skip : ∀ d : Descriptor, Does (skip d) d.skip
  | .unit => does_pass 0
  | .scalar s => does_pass s.width
  | .text => does_length.bind does_pass
  | .sequence element | .set element => does_length.bind ((does_skip element).passRun _)
  | .map key value =>
    does_length.bind ((does_skip key).bind fun _ => does_skip value).times
  | .array element count => ((does_skip element).passRun _ count).passOr _
  | .optional payload => does_bool.bind fun _ => .ite (does_skip payload) (.pure ())
  | .variant _ alternatives =>
    (does_nat _).bind fun i => does_skipAlternative alternatives i (.fault _)
  | .aggregate _ fields extensible =>
    .passOr ((does_start extensible).bind_map fun s =>
      (does_skipMandatory fields).bind fun _ => does_finish s) _

theorem does_skipMandatory : ∀ fs : List FieldDescriptor,
    Does (skipMandatory fs) (Descriptor.skipMandatory fs)
  | [] => .pure ()
  | ⟨_, shape, none⟩ :: fs => (does_skip shape).bind fun _ => does_skipMandatory fs
  | ⟨_, _, some _⟩ :: fs => does_skipMandatory fs

theorem does_skipPayload : ∀ fs : List FieldDescriptor,
    Does (skipPayload fs) (Descriptor.skipPayload fs)
  | [] => .pure ()
  | ⟨_, shape, _⟩ :: fs => (does_skip shape).bind fun _ => does_skipPayload fs

theorem does_skipAlternative : ∀ (as : List AlternativeDescriptor) (i : Nat) {m : Run Unit}
    {missing : Read Unit}, Does m missing →
    Does (skipAlternative as i m) (Descriptor.skipAlternative as i missing)
  | [], _, _, _, h => h
  | ⟨_, fields⟩ :: _, 0, _, _, _ => does_skipPayload fields
  | ⟨_, _⟩ :: as, i + 1, _, _, h => does_skipAlternative as i h

end

end Machine
end RecordCodec
