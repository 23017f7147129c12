import RecordCodec.Proofs.Locality
import RecordCodec.Proofs.Merging

/-! # Records that are cut, and bytes behind records

A record that is read is read alike whatever follows it, and a record that is cut short is found to
be too short, wherever the cut is. A failure for any other reason than a lack of bytes stays the same
when more bytes follow. So bytes that arrive piece by piece are read as if all of them were there.
-/
namespace RecordCodec

namespace Read

variable {α β : Type} {x : Read α} {f : α → Read β} {item : Read α} {r s t : Reader} {e : Error}
  {slot n : Nat}

/-- A failure that is no lack of bytes comes whatever follows the bytes that are left. -/
def Persists (x : Read α) : Prop :=
  ∀ r e s, x r = .error e s → e.isTruncated = false → Gives r.options x r.rest (.error e)

/-- Neither a success nor a failure, other than a lack of bytes, depends on what follows. -/
structure Stable (x : Read α) : Prop where
  isLocal : Local x
  persists : Persists x

theorem Persists.throw (e : Error) : Persists (throw e : Read α) := by
  rintro r _ s ⟨⟩ -
  exact fun u _ _ => ⟨u,rfl⟩

theorem Persists.bind (h : Stable x) (k : ∀ a, Persists (f a)) : Persists (x >>= f) := by
  intro r e s hs ht
  rcases EStateM.bind_eq_error hs with hx | ⟨a,u,hu,hf⟩
  · exact (h.persists r e s hx ht).bind_error
  · obtain ⟨b,hb,hg⟩ := h.isLocal r a u hu
    have hk := k a u e s hf ht
    rw [hb.options_eq] at hk
    rw [hb.rest_eq]
    exact hg.bind_ok hk

theorem stable_elementary : Elementary Stable where
  pure a := ⟨.pure a,fun _ _ _ h => nomatch h⟩
  bind h k := ⟨h.isLocal.bind fun a => (k a).isLocal,.bind h fun a => (k a).persists⟩
  fail _ := ⟨.throw _,.throw _⟩
  take n := by
    refine ⟨local_take n,?_⟩
    intro r e s hs ht
    unfold take at hs
    split at hs
    · cases hs
    · cases hs
      cases ht

theorem stable_sequential : Sequential Stable where
  toElementary := stable_elementary
  length := stable_elementary.length_of_options ⟨local_options,fun _ _ _ h => nomatch h⟩

end Read

namespace Slots

open Read

variable {α : Type} {item : Read α} {r s t : Reader} {e : Error} {slot n : Nat}

theorem payload_of_length (h : Read.length r = .ok n s) (hn : n ≤ s.remaining) :
    payload slot item r = (item >>= fun a => Read.remaining >>= fun left =>
      if s.remaining - left = n then pure a
      else Read.fault (.payload slot n (s.remaining - left))) s := by
  have hr : Read.remaining s = .ok s.remaining s := rfl
  unfold payload
  rw [EStateM.bind_of_ok _ h, EStateM.bind_of_ok _ hr, if_neg (Nat.not_lt.mpr hn)]

theorem payload_eq_error (h : payload slot item r = .error e t) (he : e.isTruncated = false) :
    Read.length r = .error e t ∨ ∃ n s, Read.length r = .ok n s ∧ n ≤ s.remaining ∧
      (item s = .error e t ∨ ∃ a, item s = .ok a t ∧ s.remaining - t.remaining ≠ n ∧
        e = .invalidData (.payload slot n (s.remaining - t.remaining))) := by
  rcases EStateM.bind_eq_error h with hl | ⟨n,s,hs,-⟩
  · exact .inl hl
  refine .inr ⟨n,s,hs,?_⟩
  by_cases hn : n ≤ s.remaining
  · rw [payload_of_length hs hn] at h
    refine ⟨hn,?_⟩
    rcases EStateM.bind_eq_error h with hi | ⟨a,u,hu,h⟩
    · exact .inl hi
    · have hr : Read.remaining u = .ok u.remaining u := rfl
      rw [EStateM.bind_of_ok _ hr] at h
      by_cases hc : s.remaining - u.remaining = n
      · cases (congrFun (if_pos hc) u).symm.trans h
      · cases (congrFun (if_neg hc) u).symm.trans h
        exact .inr ⟨a,hu,hc,rfl⟩
  · have hr : Read.remaining s = .ok s.remaining s := rfl
    unfold payload at h
    rw [EStateM.bind_of_ok _ hs, EStateM.bind_of_ok _ hr, if_pos (Nat.lt_of_not_le hn)] at h
    cases h
    cases he

/-- The contents of a payload are compared with their length by the bytes that they take, not by
those that are left. -/
theorem persists_payload (h : Stable item) : Persists (payload slot item) := by
  intro r e t ht he
  rcases payload_eq_error ht he with hl | ⟨n,s,hs,hn,hi⟩
  · exact (stable_sequential.length.persists r e t hl he).bind_error
  obtain ⟨b,hb,hg⟩ := stable_sequential.length.isLocal r n s hs
  rw [hb.rest_eq]
  intro r' ho hpre
  obtain ⟨s',hs',hb'⟩ := hg.ok ho ((List.prefix_append b s.rest).trans hpre)
  have hrest : s.rest <+: s'.rest := by
    rw [hb'.rest_eq] at hpre
    exact (List.prefix_append_right_inj b).mp hpre
  have hopt : s'.options = s.options := (hb'.options_eq.trans ho).trans hb.options_eq.symm
  have hle : s.remaining ≤ s'.remaining := hrest.length_le
  rw [payload_of_length hs' (Nat.le_trans hn hle)]
  rcases hi with hi | ⟨a,ha,hc,rfl⟩
  · obtain ⟨u,hu⟩ := h.persists s e t hi he s' hopt hrest
    exact ⟨u,EStateM.bind_of_error _ hu⟩
  · obtain ⟨c,hpass,hitem⟩ := h.isLocal s a t ha
    obtain ⟨u,hu,hpass'⟩ := hitem.ok hopt (hpass.isPrefix.trans hrest)
    have hr : Read.remaining u = .ok u.remaining u := rfl
    have hsame : s'.remaining - u.remaining = s.remaining - t.remaining := by
      have hl := hpass.remaining_eq
      have hl' := hpass'.remaining_eq
      omega
    refine ⟨u,?_⟩
    rw [EStateM.bind_of_ok _ hu, EStateM.bind_of_ok _ hr, hsame, if_neg hc]
    rfl

end Slots

namespace Read

theorem stable_closed : Closed Stable where
  toSequential := stable_sequential
  payload h := ⟨Slots.local_payload h.isLocal,Slots.persists_payload h⟩
  throw e := ⟨.throw e,.throw e⟩

variable {α : Type} {x : Read α} {o : Options} {b : List UInt8} {a : α} {s : Reader} {e : Error}

/-- Under some options the operation reads byte strings alike that begin alike: a success is one on
every string that begins with the bytes that it takes and a lack of bytes on every shorter beginning
of these, and any other failure is one on every string that begins with the bytes. -/
structure PrefixStable (o : Options) (x : Read α) : Prop where
  extended : ∀ b a s, x (.ofBytes o b) = .ok a s → ∀ c, b.take s.position <+: c →
    ∃ t, x (.ofBytes o c) = .ok a t ∧ t.position = s.position
  cut : ∀ b a s, x (.ofBytes o b) = .ok a s → ∀ k < s.position,
    ∃ needed available t, x (.ofBytes o (b.take k)) = .error (.truncated needed available) t
  failed : ∀ b e s, x (.ofBytes o b) = .error e s → e.isTruncated = false → ∀ c,
    ∃ t, x (.ofBytes o (b ++ c)) = .error e t

theorem Local.gives_take (h : Local x) (hx : x (.ofBytes o b) = .ok a s) :
    Gives o x (b.take s.position) (.ok a) ∧ (b.take s.position).length = s.position := by
  obtain ⟨c,hc,hg⟩ := h _ _ _ hx
  have hp : s.position = c.length := hc.position_eq.trans (Nat.zero_add _)
  have hb : c = b.take s.position := by
    rw [hp]
    exact List.prefix_iff_eq_take.mp hc.isPrefix
  rw [← hb]
  exact ⟨hg,hp.symm⟩

theorem Stable.prefixStable (h : Stable x) (o : Options) : PrefixStable o x where
  extended := by
    intro b a s hx c hc
    obtain ⟨hg,hl⟩ := h.isLocal.gives_take hx
    obtain ⟨t,ht,hp⟩ := hg.ok (r := .ofBytes o c) rfl hc
    exact ⟨t,ht,hp.position_eq.trans ((Nat.zero_add _).trans hl)⟩
  cut := by
    intro b a s hx k hk
    cases hr : x (.ofBytes o (b.take k)) with
    | ok a' t =>
      -- a success here would be one on the whole string, and not move as far
      obtain ⟨c,hc,hg'⟩ := h.isLocal _ _ _ hr
      obtain ⟨u,hu,hp⟩ := hg'.ok (r := .ofBytes o b) rfl (hc.isPrefix.trans (List.take_prefix k b))
      cases hx.symm.trans hu
      have hlast : s.position = 0 + c.length := hp.position_eq
      have hle : c.length ≤ (b.take k).length := hc.isPrefix.length_le
      rw [List.length_take] at hle
      omega
    | error e t =>
      cases ht : e.isTruncated with
      | true =>
        cases e with
        | truncated needed available => exact ⟨needed,available,t,rfl⟩
        | _ => cases ht
      | false =>
        obtain ⟨u,hu⟩ := h.persists _ _ _ hr ht (.ofBytes o b) rfl (List.take_prefix k b)
        cases hx.symm.trans hu
  failed := by
    intro b e s hx he c
    exact h.persists _ _ _ hx he (.ofBytes o (b ++ c)) rfl (List.prefix_append b c)

end Read

namespace Record

open Read (PrefixStable stable_closed)

/-- Records of every type are prefix stable, read alone or over a value. -/
theorem prefixStable_read (o : Options) (t : Schema) :
    PrefixStable o (read t) ∧ ∀ ownership old, t.admits old = true →
      PrefixStable o fun r => (readOver ownership t old r).result := by
  have hread := read_of_closed stable_closed t
  refine ⟨hread.prefixStable o,fun ownership old h => ?_⟩
  have hover : (fun r => (readOver ownership t old r).result) = t.merge ownership old <$> read t :=
    funext fun r => (readOver_merges h r).result_eq
  rw [hover]
  exact (stable_closed.map _ hread).prefixStable o

theorem prefixStable_read_meter :
    meter.admits meterBefore = true ∧
      (∃ needed available s, read meter (.ofBytes {} (meterBytes.take 13)) =
        .error (.truncated needed available) s) ∧
      ∃ needed available s,
        (readOver .unique meter meterBefore (.ofBytes {} (meterBytes.take 13))).result =
          .error (.truncated needed available) s := by
  have ha : meter.admits meterBefore = true := by decide
  obtain ⟨hread,hover⟩ := prefixStable_read {} meter
  obtain ⟨v,s,hs,hp⟩ : ∃ v s, read meter (.ofBytes {} meterBytes) = .ok v s ∧ 13 < s.position :=
    ⟨_,_,rfl,by decide⟩
  obtain ⟨w,t,ht,hq⟩ : ∃ w t, (readOver .unique meter meterBefore (.ofBytes {} meterBytes)).result =
      .ok w t ∧ 13 < t.position := ⟨_,_,rfl,by decide⟩
  exact ⟨ha,hread.cut meterBytes v s hs 13 hp,
    (hover .unique meterBefore ha).cut meterBytes w t ht 13 hq⟩

end Record
end RecordCodec
