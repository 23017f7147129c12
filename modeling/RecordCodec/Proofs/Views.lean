import RecordCodec.Proofs.PartialContents

/-! # Views of text and bytes

The contents of a text or of a byte sequence can be viewed without decoding the field. A view asks
for the descriptor of the field where a decoder compares literals, takes the contents at once, and
looks for bytes that are left before it looks at the text. None of this can be told from outside:
view and decoder come to the same contents, or fail with errors of one variant.
-/
namespace RecordCodec

/-- Errors of one variant: the same error, or two that name different bytes or faults. -/
inductive Error.SameVariant : Error → Error → Prop
  | refl (e : Error) : SameVariant e e
  | truncated (n a n' a' : Nat) : SameVariant (.truncated n a) (.truncated n' a')
  | invalidData (f f' : Fault) : SameVariant (.invalidData f) (.invalidData f')

/-- The bytes of a sequence as the values that a decoder makes of them. -/
def Value.octets (bs : List UInt8) : Value := sequence (bs.map fun b => int b.toNat)

theorem Value.octets_injective {bs cs : List UInt8} (h : octets bs = octets cs) : bs = cs := by
  have hmap : bs.map (fun b => int b.toNat) = cs.map fun b => int b.toNat :=
    Value.sequence.inj h
  refine List.map_injective_iff.mpr ?_ hmap
  intro b c hbc
  have hn : (b.toNat : Int) = c.toNat := Value.int.inj hbc
  exact UInt8.toNat_inj.mp (Int.ofNat.inj hn)

/-- A byte sequence as a type. -/
def Schema.octets : Schema := sequence (scalar .u8)

/-! ## Shapes and literals -/

namespace Descriptor

/-- Only text has the literal of text. -/
theorem text_literal_eq_iff {d : Descriptor} : text.literal = d.literal ↔ d = text := by
  constructor
  · intro h
    cases d with
    | text => rfl
    | aggregate typeName fields extensible =>
      cases extensible <;> simp [literal, Literal.text, Literal.extensibleBegin,
        Literal.aggregateBegin] at h
    | _ =>
      simp [literal, Literal.text, Literal.unit, Literal.sequence, Literal.set, Literal.map,
        Literal.array, Literal.optional, Literal.variantBegin] at h
  · rintro rfl
    rfl

theorem octet_literal_eq_iff {d : Descriptor} :
    (scalar .u8).literal = d.literal ↔ d = scalar .u8 := by
  constructor
  · intro h
    cases d with
    | scalar s =>
      have htag : Scalar.u8.tag = s.tag := (List.cons.inj h).1
      cases s with
      | u8 => rfl
      | _ => simp [Scalar.tag] at htag
    | aggregate typeName fields extensible =>
      cases extensible <;> simp [literal, Scalar.tag, Literal.extensibleBegin,
        Literal.aggregateBegin] at h
    | _ =>
      simp [literal, Scalar.tag, Literal.text, Literal.unit, Literal.sequence, Literal.set,
        Literal.map, Literal.array, Literal.optional, Literal.variantBegin] at h
  · rintro rfl
    rfl

/-- Only a sequence of bytes has the literal of one. -/
theorem octets_literal_eq_iff {d : Descriptor} :
    (sequence (scalar .u8)).literal = d.literal ↔ d = sequence (scalar .u8) := by
  constructor
  · intro h
    cases d with
    | sequence element =>
      have helement : (scalar .u8).literal = element.literal := (List.cons.inj h).2
      rw [octet_literal_eq_iff.mp helement]
    | scalar s =>
      have hsequence : Literal.sequence = s.tag := (List.cons.inj h).1
      cases s <;> simp [Literal.sequence, Scalar.tag] at hsequence
    | aggregate typeName fields extensible =>
      cases extensible <;> simp [literal, Literal.sequence, Literal.extensibleBegin,
        Literal.aggregateBegin] at h
    | _ =>
      simp [literal, Literal.text, Literal.unit, Literal.sequence, Literal.set, Literal.map,
        Literal.array, Literal.optional, Literal.variantBegin] at h
  · rintro rfl
    rfl

end Descriptor

/-! ## Bytes one by one -/

namespace Read

variable {o : Options} {r : Reader}

theorem gives_octet (o : Options) (b : UInt8) :
    Gives o Scalar.u8.read [b] (.ok (.int b.toNat)) := by
  have hdecode : Bytes.LittleEndian.decode [b] = b.toNat := by simp [Bytes.LittleEndian.decode]
  have hnat : Gives o (nat 1) [b] (.ok b.toNat) := (gives_take o [b]).map_ok _ hdecode
  have hint : Gives o (nat 1 >>= fun n => pure (n : Int)) [b] (.ok (b.toNat : Int)) :=
    hnat.bind_nil (Gives.pure o _)
  exact hint.map_ok Value.int rfl

/-- Bytes that are read one by one are those that are taken at once. -/
theorem gives_octets (o : Options) (bs : List UInt8) :
    Gives o (replicate bs.length Scalar.u8.read) bs (.ok (bs.map fun b => .int b.toNat)) := by
  induction bs with
  | nil => exact Gives.pure o []
  | cons b bs ih => exact (gives_octet o b).bind_ok (ih.bind_nil (Gives.pure o _))

/-- Where bytes are lacking, the first that lacks ends the reading of single ones. -/
theorem octets_truncated {n : Nat} (h : r.rest.length < n) :
    ∃ needed available s,
      replicate n Scalar.u8.read r = .error (.truncated needed available) s := by
  induction n generalizing r with
  | zero => omega
  | succ n ih =>
    cases hr : r.rest with
    | nil =>
      have htake : take 1 r = .error (.truncated 1 r.remaining) r := dif_neg (by simp [hr])
      have hnat : nat 1 r = .error (.truncated 1 r.remaining) r := EStateM.bind_of_error _ htake
      have hbyte : Scalar.u8.read r = .error (.truncated 1 r.remaining) r :=
        EStateM.bind_of_error _ (EStateM.bind_of_error _ hnat)
      exact ⟨1,r.remaining,r,EStateM.bind_of_error _ hbyte⟩
    | cons b rest =>
      obtain ⟨s,hs,hp⟩ := (gives_octet r.options b).ok rfl ⟨rest,hr.symm⟩
      have hrest : s.rest.length < n := by
        have hsplit := congrArg List.length hp.rest_eq
        simp only [List.length_append, List.length_singleton] at hsplit
        omega
      obtain ⟨needed,available,t,ht⟩ := ih hrest
      refine ⟨needed,available,t,?_⟩
      change (Scalar.u8.read >>= fun a => replicate n Scalar.u8.read >>= fun as => pure (a :: as))
        r = _
      rw [EStateM.bind_of_ok _ hs, EStateM.bind_of_error _ ht]

end Read

namespace PartialRecord

open Read (replicate byteString)

/-! ## Outcomes that coincide -/

section Outcomes
variable {α β : Type} {view : α → Value}

/-- The outcomes of a view and of a decoder: the same contents, or errors of one variant. -/
inductive Coincide (view : α → Value) : Except Error α → Except Error Value → Prop
  | ok (a : α) : Coincide view (.ok a) (.ok (view a))
  | error {e e' : Error} (h : e.SameVariant e') : Coincide view (.error e) (.error e')

theorem Coincide.bind {f : β → Except Error α} {g : β → Except Error Value}
    (x : Except Error β) (h : ∀ b, Coincide view (f b) (g b)) :
    Coincide view (x >>= f) (x >>= g) := by
  cases x with
  | ok b => exact h b
  | error e => exact .error (.refl e)

theorem Coincide.ok_iff {x : Except Error α} {y : Except Error Value} (h : Coincide view x y)
    (hinj : ∀ a b, view a = view b → a = b) (a : α) : x = .ok a ↔ y = .ok (view a) := by
  cases h with
  | ok b =>
    constructor
    · rintro ⟨⟩
      rfl
    · intro hb
      rw [hinj b a (Except.ok.inj hb)]
  | error h => simp

/-- A view refuses the shape of a field exactly where the decoder does. -/
theorem Coincide.shapeMismatch_iff {x : Except Error α} {y : Except Error Value}
    (h : Coincide view x y) (name : String) :
    x = .error (.fieldShapeMismatch name) ↔ y = .error (.fieldShapeMismatch name) := by
  cases h with
  | ok a => simp
  | error h => cases h <;> simp

end Outcomes

variable {p : PartialRecord} {s : Selector} {b : List UInt8}

section ReadAll
variable {α : Type} {item : Read α}

theorem readAll_of_ok {a : α} {u : Reader} (h : item (.ofBytes p.options b) = .ok a u) :
    p.readAll s b item =
      if u.remaining = 0 then .ok a else .error (.invalidData (.undecoded s.text u.remaining)) := by
  have hleft : Read.remaining u = .ok u.remaining u := rfl
  unfold readAll Record.run
  rw [EStateM.bind_of_ok _ h, EStateM.bind_of_ok _ hleft]
  by_cases hz : u.remaining = 0
  · rw [if_pos hz, if_pos hz]
    rfl
  · rw [if_neg hz, if_neg hz]
    rfl

theorem readAll_of_error {e : Error} {u : Reader}
    (h : item (.ofBytes p.options b) = .error e u) : p.readAll s b item = .error e := by
  unfold readAll Record.run
  rw [EStateM.bind_of_error _ h]

end ReadAll

/-! ## The contents of a field -/

section Contents
variable {r u : Reader} {contents : List UInt8}

theorem decode_text_of_ok (h : byteString r = .ok contents u) {text : String}
    (hd : Text.Utf8.decode contents = .ok text) : Schema.text.decode r = .ok (.text text) u := by
  have hread : Read.text r = .ok text u := by
    refine (EStateM.bind_of_ok _ h).trans ?_
    rw [hd]
    rfl
  exact EStateM.bind_of_ok _ hread

theorem decode_text_of_error (h : byteString r = .ok contents u) {f : Text.Utf8.Fault}
    (hd : Text.Utf8.decode contents = .error f) :
    Schema.text.decode r = .error (.invalidData (.text f.message)) u := by
  have hread : Read.text r = .error (.invalidData (.text f.message)) u := by
    refine (EStateM.bind_of_ok _ h).trans ?_
    rw [hd]
    rfl
  exact EStateM.bind_of_error _ hread

theorem byteString_of_le {n : Nat} (h : Read.length r = .ok n u) (hle : n ≤ u.rest.length) :
    byteString r = .ok (u.rest.take n) (u.advance n hle) := by
  have hlength : (u.rest.take n).length = n := by simp [hle]
  exact (EStateM.bind_of_ok _ h).trans (Read.take_eq_ok.mpr ⟨u.advance_passes n hle,hlength⟩)

theorem decode_octets_of_le {n : Nat} (h : Read.length r = .ok n u) (hle : n ≤ u.rest.length) :
    Schema.octets.decode r = .ok (.octets (u.rest.take n)) (u.advance n hle) := by
  have hlength : (u.rest.take n).length = n := by simp [hle]
  have hitems := (Read.gives_octets u.options (u.rest.take n)).of_passes rfl
    (u.advance_passes n hle)
  rw [hlength] at hitems
  exact (EStateM.bind_of_ok _ h).trans (EStateM.bind_of_ok _ hitems)

end Contents

/-- The text that is viewed in the contents of a field. -/
def textOf (s : Selector) (contents : List UInt8) : Except Error String :=
  match Text.Utf8.decode contents with
  | .ok text => .ok text
  | .error f => .error (.invalidData (.fieldText s.text f.message))

theorem coincide_text (p : PartialRecord) (s : Selector) (b : List UInt8) :
    Coincide .text (p.readAll s b byteString >>= textOf s) (p.readAll s b Schema.text.decode) := by
  cases h : byteString (.ofBytes p.options b) with
  | error e u =>
    have htext : Schema.text.decode (.ofBytes p.options b) = .error e u :=
      EStateM.bind_of_error _ (EStateM.bind_of_error _ h)
    rw [readAll_of_error h, readAll_of_error htext]
    exact .error (.refl e)
  | ok contents u =>
    rw [readAll_of_ok h]
    -- bytes that are left and bytes that are no text are both faults in data, whichever comes first
    cases hd : Text.Utf8.decode contents with
    | ok text =>
      have hview : textOf s contents = .ok text := by simp [textOf, hd]
      rw [readAll_of_ok (decode_text_of_ok h hd)]
      split
      · change Coincide .text (textOf s contents) _
        rw [hview]
        exact .ok text
      · exact .error (.refl _)
    | error f =>
      have hview : textOf s contents = .error (.invalidData (.fieldText s.text f.message)) := by
        simp [textOf, hd]
      rw [readAll_of_error (decode_text_of_error h hd)]
      split
      · change Coincide .text (textOf s contents) _
        rw [hview]
        exact .error (.invalidData _ _)
      · exact .error (.invalidData _ _)

theorem coincide_octets (p : PartialRecord) (s : Selector) (b : List UInt8) :
    Coincide .octets (p.readAll s b byteString) (p.readAll s b Schema.octets.decode) := by
  cases hn : Read.length (.ofBytes p.options b) with
  | error e u =>
    have hview : byteString (.ofBytes p.options b) = .error e u := EStateM.bind_of_error _ hn
    have hread : Schema.octets.decode (.ofBytes p.options b) = .error e u :=
      EStateM.bind_of_error _ hn
    rw [readAll_of_error hview, readAll_of_error hread]
    exact .error (.refl e)
  | ok n u =>
    by_cases hle : n ≤ u.rest.length
    · rw [readAll_of_ok (byteString_of_le hn hle), readAll_of_ok (decode_octets_of_le hn hle)]
      split
      · exact .ok _
      · exact .error (.refl _)
    · have htake : Read.take n u = .error (.truncated n u.remaining) u := dif_neg hle
      have hview : byteString (.ofBytes p.options b) = .error (.truncated n u.remaining) u :=
        (EStateM.bind_of_ok _ hn).trans htake
      obtain ⟨needed,available,t,ht⟩ := Read.octets_truncated (Nat.lt_of_not_le hle)
      have hread : Schema.octets.decode (.ofBytes p.options b) =
          .error (.truncated needed available) t :=
        (EStateM.bind_of_ok _ hn).trans (EStateM.bind_of_error _ ht)
      rw [readAll_of_error hview, readAll_of_error hread]
      exact .error (.truncated _ _ _ _)

/-! ## Fields as views and decoders find them -/

/-- Whether a field has the literal of a type. -/
def hasLiteral (t : Schema) (f : FieldLayout) : Except Error Bool := do
  pure ((← t.descriptor).literal == f.literal)

theorem hasLiteral_of_eq {t : Schema} {f : FieldLayout} (h : t.descriptor = .ok f.descriptor) :
    hasLiteral t f = .ok true := by
  unfold hasLiteral
  rw [h]
  exact congrArg Except.ok (beq_self_eq_true f.literal)

theorem hasLiteral_of_ne {t : Schema} {d : Descriptor} {f : FieldLayout}
    (ht : t.descriptor = .ok d) (h : d.literal ≠ f.literal) : hasLiteral t f = .ok false := by
  unfold hasLiteral
  rw [ht]
  exact congrArg Except.ok (beq_false_of_ne h)

theorem getText_eq (p : PartialRecord) (s : Selector) :
    p.getText s =
      p.bytesIf s (hasLiteral .text) >>= fun b => p.readAll s b byteString >>= textOf s := by
  refine congrArg (fun asked => p.bytesIf s asked >>= fun b => p.readAll s b byteString >>= textOf s)
    (funext fun f => ?_)
  split
  · rename_i hd
    exact (hasLiteral_of_eq (hd ▸ rfl)).symm
  · rename_i hd
    have hne : Descriptor.text.literal ≠ f.literal := by
      intro h
      exact hd (Descriptor.text_literal_eq_iff.mp h)
    exact (hasLiteral_of_ne rfl hne).symm

theorem getBytes_eq (p : PartialRecord) (s : Selector) :
    p.getBytes s = p.bytesIf s (hasLiteral .octets) >>= fun b => p.readAll s b byteString := by
  refine congrArg (fun asked => p.bytesIf s asked >>= fun b => p.readAll s b byteString)
    (funext fun f => ?_)
  split
  · rename_i hd
    exact (hasLiteral_of_eq (hd ▸ rfl)).symm
  · rename_i hd
    have hne : (Descriptor.sequence (.scalar .u8)).literal ≠ f.literal := by
      intro h
      exact hd (Descriptor.octets_literal_eq_iff.mp h)
    exact (hasLiteral_of_ne rfl hne).symm

/-- A page of one letter, with two drops of ink; both fields are located. -/
def page : PartialRecord where
  layout := ⟨"Page",.aggregate "Page"
    [⟨"title",.text,none⟩, ⟨"ink",.sequence (.scalar .u8),none⟩] true⟩
  spans := [⟨0,some [2, 195, 169]⟩, ⟨1,some [2, 7, 8]⟩]
  options := {}

example :
    page.getText (.name "title") = .ok "é" ∧ page.get (.name "title") .text = .ok (.text "é") ∧
      page.getBytes (.name "ink") = .ok [7, 8] ∧
      page.get (.name "ink") .octets = .ok (.octets [7, 8]) ∧
      page.getText (.name "ink") = .error (.fieldShapeMismatch "`ink`") :=
  ⟨rfl,rfl,rfl,rfl,rfl⟩

end PartialRecord
end RecordCodec
