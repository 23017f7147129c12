import RecordCodec.Proofs.PartialContents
import RecordCodec.Proofs.Prefixes
import RecordCodec.Proofs.RoundTrip
import RecordCodec.Record.Batch

/-! # Records in a row are single records

What a record is read as depends on the bytes from its start on, not on what stands before it. So
many records are read as single ones are that start where the one before has ended. Every record has
a header, so the end of the bytes is reached.
-/
namespace RecordCodec

namespace Read

variable {α β : Type} {x : Read α} {f : α → Read β}

/-- Places with the same bytes left, under the same options. -/
def Level (r r' : Reader) : Prop := r'.rest = r.rest ∧ r'.options = r.options

/-- What the operation does depends on the bytes that are left and on the options alone. -/
def Placeless (x : Read α) : Prop := ∀ r r', Level r r' → Corresponds Level Eq (x r) (x r')

theorem Placeless.pure (a : α) : Placeless (pure a : Read α) := fun _ _ h => .ok a h

theorem Placeless.throw (e : Error) : Placeless (throw e : Read α) := fun _ _ h => .error h rfl

theorem Placeless.bind (h : Placeless x) (k : ∀ a, Placeless (f a)) : Placeless (x >>= f) :=
  fun r r' hr => (h r r' hr).bind fun a s s' hs => k a s s' hs

theorem placeless_take (n : Nat) : Placeless (take n) := by
  rintro r r' ⟨hr,ho⟩
  unfold take
  by_cases hn : n ≤ r.rest.length
  · have hn' : n ≤ r'.rest.length := hr ▸ hn
    rw [dif_pos hn, dif_pos hn', hr]
    exact .ok _ ⟨congrArg (List.drop n) hr,ho⟩
  · have hn' : ¬n ≤ r'.rest.length := hr ▸ hn
    rw [dif_neg hn, dif_neg hn', Reader.remaining, Reader.remaining, hr]
    exact .error ⟨hr,ho⟩ rfl

theorem placeless_remaining : Placeless remaining := by
  intro r r' h
  have hr : remaining r' = .ok r.remaining r' :=
    congrArg (fun b : List UInt8 => EStateM.Result.ok b.length r') h.1
  rw [hr]
  exact .ok _ h

theorem placeless_options : Placeless options := by
  intro r r' h
  have ho : options r' = .ok r.options r' := congrArg (fun o => EStateM.Result.ok o r') h.2
  rw [ho]
  exact .ok _ h

theorem placeless_elementary : Elementary Placeless where
  pure := .pure
  bind := .bind
  fail _ := .throw _
  take := placeless_take

theorem placeless_sequential : Sequential Placeless where
  toElementary := placeless_elementary
  length := placeless_elementary.length_of_options placeless_options

theorem placeless_closed : Closed Placeless where
  toSequential := placeless_sequential
  payload := placeless_sequential.payload_of_remaining placeless_remaining _
  throw := .throw

end Read

namespace Record

open Read (Placeless)

variable {o : Options} {t : Schema} {bytes : List UInt8} {r s : Reader} {v : Value} {e : Error}
  {k j : Nat}

theorem placeless_read (t : Schema) : Placeless (read t) := read_of_closed Read.placeless_closed t

theorem local_read (t : Schema) : Read.Local (read t) := read_of_closed Read.local_closed t

theorem layout_eq_ok {l : Layout} (h : layout t r = .ok l s) : s = r := by
  unfold layout at h
  cases hl : Layout.of t with
  | ok l' =>
    rw [hl] at h
    exact (EStateM.pure_eq_ok.mp h).2.symm
  | error e =>
    rw [hl] at h
    cases h

/-- A record that is read has a header. -/
theorem read_passes (h : read t r = .ok v s) : ∃ b, r.Passes b s ∧ Header.width ≤ b.length := by
  obtain ⟨b,hb,hg⟩ := local_read t r v s h
  refine ⟨b,hb,?_⟩
  -- the bytes of the record alone have a header too, and there is nothing else to take it from
  obtain ⟨u,hu,-⟩ := hg.ok (r := .ofBytes r.options b) rfl (List.prefix_refl b)
  rw [read_eq_bind] at hu
  obtain ⟨slots,q,hq,-⟩ := EStateM.bind_eq_ok.mp hu
  obtain ⟨l,p,hp,hq⟩ := EStateM.bind_eq_ok.mp hq
  obtain rfl := layout_eq_ok hp
  obtain ⟨n,w,hn,-⟩ := EStateM.bind_eq_ok.mp hq
  obtain ⟨c,hc,hlen⟩ := Read.nat_passes hn
  rw [← hlen]
  exact hc.isPrefix.length_le

/-- The record at the position of a reader is read as one that starts there. -/
theorem next_of_read (t : Schema) (ho : r.options = o) :
    next o t r.bytes r.position =
      match read t r with
      | .ok v s => (.ok v,s.position)
      | .error e _ => (.error e,r.position) := by
  have hlt : ¬r.bytes.length < r.position := Nat.not_lt.mpr r.position_le
  have h := placeless_read t r (.ofBytes o (r.bytes.drop r.position)) ⟨r.rest_eq.symm,ho.symm⟩
  unfold next deserializeAt
  rw [if_neg hlt]
  generalize hp : read t r = p, hq : read t (.ofBytes o (r.bytes.drop r.position)) = q at h
  cases h with
  | error _ he =>
    rw [he]
  | @ok v s s' hs =>
    obtain ⟨b,hb⟩ := (local_read t).passes hp
    obtain ⟨c,hc⟩ := (local_read t).passes hq
    -- both leave the same of the same bytes, and so pass as many
    have hlen : b.length = c.length := by
      have hr := hb.rest_eq
      have hr' : r.bytes.drop r.position = c ++ s'.rest := hc.rest_eq
      rw [← r.rest_eq, hr, hs.1] at hr'
      exact congrArg List.length (List.append_cancel_right hr')
    have hpos : s.position = r.position + s'.position := by
      have hb' := hb.position_eq
      have hc' : s'.position = 0 + c.length := hc.position_eq
      omega
    change (Except.ok v,r.position + s'.position) = (Except.ok v,s.position)
    rw [hpos]

/-- What is read at an offset is a record of at least four bytes within the bytes, and alone it is
the same value. -/
theorem next_eq_ok (h : next o t bytes k = (.ok v,j)) :
    ∃ n, 4 ≤ n ∧ j = k + n ∧ j ≤ bytes.length ∧
      deserialize o t ((bytes.drop k).take n) = .ok v := by
  unfold next deserializeAt at h
  by_cases hlt : bytes.length < k
  · rw [if_pos hlt] at h
    cases h
  · rw [if_neg hlt] at h
    cases hr : read t (.ofBytes o (bytes.drop k)) with
    | error e s =>
      rw [hr] at h
      cases h
    | ok w s =>
      rw [hr] at h
      cases h
      obtain ⟨hg,hlen⟩ := (local_read t).gives_take hr
      obtain ⟨b,hb,hw⟩ := read_passes hr
      have hpos : s.position = 0 + b.length := hb.position_eq
      rw [List.length_take, List.length_drop] at hlen
      refine ⟨s.position,?_,rfl,?_,deserialize_of_ok hg⟩
      · change 4 ≤ b.length at hw
        omega
      · omega

theorem next_eq_error (h : next o t bytes k = (.error e,j)) : j = k := by
  unfold next at h
  split at h
  · cases h
  · cases h
    rfl

theorem next_past (h : bytes.length < k) :
    next o t bytes k = (.error (.truncated k bytes.length),k) := by
  unfold next deserializeAt
  rw [if_pos h]

/-- Reads one record for each schema, each where the one before has ended, and tells the offset
afterwards. -/
def nextEach (o : Options) (bytes : List UInt8) :
    List Schema → Nat → Except Error (List Value) × Nat
  | [], k => (.ok [],k)
  | t :: ts, k =>
    match next o t bytes k with
    | (.error e,j) => (.error e,j)
    | (.ok v,j) =>
      match nextEach o bytes ts j with
      | (.error e,i) => (.error e,i)
      | (.ok vs,i) => (.ok (v :: vs),i)

/-- Reading at an offset as long as it is before the end yields the values up to another offset. -/
inductive Calls (o : Options) (t : Schema) (bytes : List UInt8) : Nat → List Value → Nat → Prop
  | nil (k : Nat) : Calls o t bytes k [] k
  | cons {k j i : Nat} {v : Value} {vs : List Value} : k < bytes.length →
    next o t bytes k = (.ok v,j) → Calls o t bytes j vs i → Calls o t bytes k (v :: vs) i

/-- Whether no further record is read at an offset. -/
def Stuck (o : Options) (t : Schema) (bytes : List UInt8) (k : Nat) : Prop :=
  ∀ v j, k < bytes.length → next o t bytes k ≠ (.ok v,j)

theorem Calls.unique {i : Nat} {vs ws : List Value} (h : Calls o t bytes k vs i)
    (hi : Stuck o t bytes i) (h' : Calls o t bytes k ws j) (hj : Stuck o t bytes j) :
    vs = ws ∧ i = j := by
  induction h generalizing ws with
  | nil k =>
    cases h' with
    | nil => exact ⟨rfl,rfl⟩
    | cons hk hn => exact absurd hn (hi _ _ hk)
  | cons hk hn _ ih =>
    cases h' with
    | nil => exact absurd hn (hj _ _ hk)
    | cons _ hn' h' =>
      rw [hn] at hn'
      cases hn'
      obtain ⟨rfl,rfl⟩ := ih hi h'
      exact ⟨rfl,rfl⟩

theorem stuck_at_end : Stuck o t bytes bytes.length := fun _ _ h => absurd h (Nat.lt_irrefl _)

theorem stuck_of_error (h : next o t bytes k = (.error e,j)) : Stuck o t bytes k := by
  intro v i _ hn
  rw [h] at hn
  cases hn

end Record

namespace Batch

open Record

variable {o : Options} {t : Schema} {r : Reader}

/-- Records for each of some schemas are read one behind the other. -/
theorem readEach_eq (ts : List Schema) (ho : r.options = o) :
    match readEach ts r with
    | .ok vs s => nextEach o r.bytes ts r.position = (.ok vs,s.position) ∧ s.bytes = r.bytes ∧
        s.options = o
    | .error e _ => ∃ k, nextEach o r.bytes ts r.position = (.error e,k) := by
  induction ts generalizing r with
  | nil => exact ⟨rfl,rfl,ho⟩
  | cons t ts ih =>
    have hn := next_of_read t ho
    unfold readEach nextEach
    cases hr : Record.read t r with
    | error e s =>
      rw [hr] at hn
      rw [EStateM.bind_of_error _ hr, hn]
      exact ⟨r.position,rfl⟩
    | ok v s =>
      obtain ⟨b,hb⟩ := (local_read t).passes hr
      rw [hr] at hn
      rw [EStateM.bind_of_ok _ hr, hn]
      have h := ih (hb.options_eq.trans ho)
      rw [hb.bytes_eq] at h
      cases hs : readEach ts s with
      | error e q =>
        rw [hs] at h
        obtain ⟨k,hk⟩ := h
        rw [EStateM.bind_of_error _ hs]
        exact ⟨k,by simp only [hk]⟩
      | ok vs q =>
        rw [hs] at h
        obtain ⟨hk,hq⟩ := h
        rw [EStateM.bind_of_ok _ hs]
        exact ⟨by simp only [hk],hq⟩

/-- With room for all records that there can be, records are read up to the end or up to the first
that fails. -/
theorem readAll_calls (t : Schema) (ho : r.options = o) {most : Nat} (hm : r.remaining ≤ most) :
    match readAll t most r with
    | .ok vs s => Calls o t r.bytes r.position vs r.bytes.length ∧ s.remaining = 0
    | .error e _ => ∃ vs k, Calls o t r.bytes r.position vs k ∧ k < r.bytes.length ∧
        next o t r.bytes k = (.error e,k) := by
  have hle := r.position_le
  have hrem := r.remaining_eq
  induction most generalizing r with
  | zero =>
    have hp : r.position = r.bytes.length := by omega
    exact ⟨hp ▸ .nil _,Nat.le_zero.mp hm⟩
  | succ most ih =>
    have hn := next_of_read t ho
    have hleft : Read.remaining r = .ok r.remaining r := rfl
    unfold readAll
    rw [EStateM.bind_of_ok _ hleft]
    by_cases hz : r.remaining = 0
    · have hp : r.position = r.bytes.length := by omega
      rw [if_pos hz]
      exact ⟨hp ▸ .nil _,hz⟩
    rw [if_neg hz]
    have hlt : r.position < r.bytes.length := by omega
    cases hr : Record.read t r with
    | error e s =>
      rw [hr] at hn
      rw [EStateM.bind_of_error _ hr]
      exact ⟨[],r.position,.nil _,hlt,hn⟩
    | ok v s =>
      obtain ⟨b,hb,hw⟩ := read_passes hr
      have hs := hb.remaining_eq
      -- a record has bytes, so that there is room for all records behind it
      change 4 ≤ b.length at hw
      rw [hr] at hn
      rw [EStateM.bind_of_ok _ hr]
      have h := ih (hb.options_eq.trans ho) (by omega) s.position_le s.remaining_eq
      rw [hb.bytes_eq] at h
      cases hq : readAll t most s with
      | error e q =>
        rw [hq] at h
        obtain ⟨vs,k,hc,hk⟩ := h
        rw [EStateM.bind_of_error _ hq]
        exact ⟨v :: vs,k,.cons hlt hn hc,hk⟩
      | ok vs q =>
        rw [hq] at h
        rw [EStateM.bind_of_ok _ hq]
        exact ⟨.cons hlt hn h.1,h.2⟩

theorem deserialize_of_error {b : Batch} {bytes : List UInt8} {e : Error}
    (h : b.read (.ofBytes o bytes) = .error e r) : deserialize o b bytes = .error e :=
  run_eq_error.mpr ⟨r,EStateM.bind_of_error _ h⟩

theorem deserialize_of_ok {b : Batch} {bytes : List UInt8} {vs : List Value}
    (h : b.read (.ofBytes o bytes) = .ok vs r) :
    deserialize o b bytes =
      if r.options.trailing = .reject ∧ 0 < r.remaining then .error (.trailingBytes r.remaining)
      else .ok vs := by
  have hc := checkTrailing_eq r
  by_cases ht : r.options.trailing = .reject ∧ 0 < r.remaining
  · rw [if_pos ht] at hc ⊢
    exact run_eq_error.mpr ⟨r,(EStateM.bind_of_ok _ h).trans (EStateM.bind_of_error _ hc)⟩
  · rw [if_neg ht] at hc ⊢
    exact run_eq_ok.mpr ⟨r,(EStateM.bind_of_ok _ h).trans (EStateM.bind_of_ok _ hc)⟩

theorem deserialize_each (o : Options) (ts : List Schema) (bytes : List UInt8) :
    deserialize o (.each ts) bytes =
      match nextEach o bytes ts 0 with
      | (.ok vs,k) =>
        if o.trailing = .reject ∧ k < bytes.length then .error (.trailingBytes (bytes.length - k))
        else .ok vs
      | (.error e,_) => .error e := by
  have h := readEach_eq (r := .ofBytes o bytes) ts rfl
  cases hr : readEach ts (.ofBytes o bytes) with
  | error e s =>
    rw [hr] at h
    obtain ⟨k,hk⟩ := h
    change nextEach o bytes ts 0 = _ at hk
    rw [hk, deserialize_of_error (b := .each ts) hr]
  | ok vs s =>
    rw [hr] at h
    obtain ⟨hk,hb,ho⟩ := h
    change s.options = o at ho
    have hrem := s.remaining_eq
    rw [hb] at hrem
    change nextEach o bytes ts 0 = _ at hk
    change s.remaining = bytes.length - s.position at hrem
    rw [hk, deserialize_of_ok (b := .each ts) hr, ho, hrem]
    simp only [Nat.sub_pos_iff_lt]

theorem deserialize_all (o : Options) (t : Schema) (bytes : List UInt8) :
    match deserialize o (.all t) bytes with
    | .ok vs => Calls o t bytes 0 vs bytes.length
    | .error e => ∃ vs k, Calls o t bytes 0 vs k ∧ k < bytes.length ∧
        next o t bytes k = (.error e,k) := by
  have h := readAll_calls (r := .ofBytes o bytes) t rfl (Nat.le_refl bytes.length)
  cases hr : readAll t bytes.length (.ofBytes o bytes) with
  | error e s =>
    rw [hr] at h
    rw [deserialize_of_error (b := .all t) hr]
    exact h
  | ok vs s =>
    rw [hr] at h
    have hz : ¬(s.options.trailing = .reject ∧ 0 < s.remaining) := by
      rw [h.2]
      exact fun h => Nat.lt_irrefl 0 h.2
    rw [deserialize_of_ok (b := .all t) hr, if_neg hz]
    exact h.1

/-- Many records are read as by calls for single ones. Under one schema there are calls as long as
bytes are left, under a schema for each record there are as many calls as schemas. Each call that
succeeds passes a record of at least four bytes, which alone has the same value, and each call that
fails moves nothing. -/
theorem deserialize_eq_calls (o : Options) (t : Schema) (ts : List Schema) (bytes : List UInt8) :
    (∀ vs, deserialize o (.all t) bytes = .ok vs ↔ Calls o t bytes 0 vs bytes.length) ∧
      (∀ e, deserialize o (.all t) bytes = .error e ↔
        ∃ vs k, Calls o t bytes 0 vs k ∧ k < bytes.length ∧ next o t bytes k = (.error e,k)) ∧
      (deserialize o (.each ts) bytes =
        match nextEach o bytes ts 0 with
        | (.ok vs,k) =>
          if o.trailing = .reject ∧ k < bytes.length then
            .error (.trailingBytes (bytes.length - k))
          else .ok vs
        | (.error e,_) => .error e) ∧
      (∀ k v j, next o t bytes k = (.ok v,j) →
        ∃ n, 4 ≤ n ∧ j = k + n ∧ j ≤ bytes.length ∧
          Record.deserialize o t ((bytes.drop k).take n) = .ok v) ∧
      (∀ k e j, next o t bytes k = (.error e,j) → j = k) ∧
      ∀ k, bytes.length < k → next o t bytes k = (.error (.truncated k bytes.length),k) := by
  have hall := deserialize_all o t bytes
  refine ⟨fun vs => ⟨fun h => ?_,fun h => ?_⟩,fun e => ⟨fun h => ?_,fun h => ?_⟩,
    deserialize_each o ts bytes,fun _ _ _ => next_eq_ok,fun _ _ _ => next_eq_error,
    fun _ => next_past⟩
  · rwa [h] at hall
  · cases hd : deserialize o (.all t) bytes with
    | ok ws =>
      rw [hd] at hall
      rw [(h.unique stuck_at_end hall stuck_at_end).1]
    | error e =>
      rw [hd] at hall
      obtain ⟨ws,k,hc,hk,he⟩ := hall
      have hend := (h.unique stuck_at_end hc (stuck_of_error he)).2
      omega
  · rwa [h] at hall
  · obtain ⟨vs,k,hc,hk,he⟩ := h
    cases hd : deserialize o (.all t) bytes with
    | ok ws =>
      rw [hd] at hall
      have hend := (hc.unique (stuck_of_error he) hall stuck_at_end).2
      omega
    | error e' =>
      rw [hd] at hall
      obtain ⟨ws,j,hc',-,he'⟩ := hall
      obtain ⟨-,rfl⟩ := hc.unique (stuck_of_error he) hc' (stuck_of_error he')
      rw [he] at he'
      cases he'
      rfl

/-- Two records of a single byte. -/
def byteRecords : List UInt8 := [160, 75, 91, 151, 7, 160, 75, 91, 151, 9]

theorem deserialize_eq_calls_bytes :
    Calls {} (.scalar .u8) byteRecords 0 [.int 7, .int 9] 10 ∧
      deserialize {} (.each [.scalar .u8]) byteRecords = .error (.trailingBytes 5) := by
  obtain ⟨hall,-,heach,-⟩ := deserialize_eq_calls {} (.scalar .u8) [.scalar .u8] byteRecords
  exact ⟨(hall [.int 7, .int 9]).mp rfl,heach.trans rfl⟩

end Batch
end RecordCodec
