import RecordCodec.Proofs.Spelling

/-! # Implementations

An item's description, writing and reading are implemented apart from each other, for the same items.
The tokens of the three implementations say the same of an item: they name the same fields, those
that are not marked, in the order of their declaration, and number the alternatives alike.
-/
namespace RecordCodec.Code

namespace Item

variable (item : Item)

theorem exists_methods (h : item.body.Accepted) :
    ∃ d w r, item.describing = .ok d ∧ item.writing = .ok w ∧ item.reading = .ok r ∧
      methodsIn none (Render.method "fn describe" "builder: &mut ::wirepack::DescriptorBuilder,"
        (Render.resultOf "::wirepack::Descriptor") (Render.description d)) = item.body.describers ∧
      methodsIn none (Render.writing w) = item.body.writers ∧
      methodsIn none (Render.reading r) = item.body.readers item.word := by
  obtain ⟨hdescribe,-⟩ := Render.code_beginnings
  have hdescriber := Render.method_last hdescribe not_isBody_describing
  rw [describing_eq, writing_eq, reading_eq]
  cases hb : item.body with
  | union =>
    rw [hb] at h
    exact h.elim
  | struct fs =>
    rw [hb] at h
    refine ⟨_,_,_,ItemBody.planned_struct h,ItemBody.planned_struct h,ItemBody.planned_struct h,
      ?_,?_,?_⟩
    · rw [hdescriber, fs.held_seen, Render.description_struct]
      rfl
    · rw [fs.held_seen, Render.writing_struct]
    · rw [fs.held_seen, Render.reading_struct]
  | «enum» as =>
    rw [hb] at h
    refine ⟨_,_,_,ItemBody.planned_enum h,ItemBody.planned_enum h,ItemBody.planned_enum h,
      ?_,?_,?_⟩
    · have hd : (as.zipIdx.map fun p => (p.2,p.1,p.1.fields.seen)).map
          (fun p => (plainName p.2.1.word,CodecField.held p.2.2)) =
          as.map fun a => (plainName a.word,a.fields.kept) := by
        rw [List.map_map, ← List.zipIdx_map_fst 0 as, List.map_map, List.zipIdx_map_fst]
        exact List.map_congr_left fun p _ => congrArg _ p.1.fields.held_seen
      rw [hdescriber, hd, Render.description_enum]
      rfl
    · rw [List.map_map, ← Render.writing_enum]
      simp only [Function.comp_def, FieldItems.held_seen]
    · rw [List.map_map, ← Render.reading_enum]
      rfl

/-- An item's description, writing and reading are implemented for the same items: all but unions and
those with a malformed or unknown attribute. What their methods say is spelled out from one list of
fields, those that are not marked, in the order of their declaration: they are described, marked,
written, read and read over, each one once and no others. A value is made of all fields, in which
those that are marked have the default of their types. An alternative is described, written and read
in the same place, which is its number among as many as are described. -/
theorem codes_agree :
    ((∃ ts, item.shapeCode = .ok ts) ↔ item.body.Accepted) ∧
    ((∃ ts, item.encodeCode = .ok ts) ↔ item.body.Accepted) ∧
    ((∃ ts, item.decodeCode = .ok ts) ↔ item.body.Accepted) ∧
    (item.body.Accepted → ∃ s e d,
      item.shapeCode = .ok s ∧ item.encodeCode = .ok e ∧ item.decodeCode = .ok d ∧
        item.Implements "Shape" item.body.describers s ∧
        item.Implements "Encode" item.body.writers e ∧
        item.Implements "Decode" (item.body.readers item.word) d) ∧
    ∀ fs : FieldItems, fs.seen.filter (!·.isSkipped) = fs.kept ∧
      (fs.seen.map CodecField.binding).Nodup := by
  refine ⟨(exists_code _).trans ?_,(exists_code _).trans ?_,(exists_code _).trans ?_,?_,?_⟩
  · rw [describing_eq]
    exact ItemBody.exists_planned
  · rw [writing_eq]
    exact ItemBody.exists_planned
  · rw [reading_eq]
    exact ItemBody.exists_planned
  · intro h
    obtain ⟨d,w,r,hd,hw,hr,hs,he,hm⟩ := item.exists_methods h
    exact ⟨_,_,_,Except.bind_eq_ok.mpr ⟨d,hd,rfl⟩,Except.bind_eq_ok.mpr ⟨w,hw,rfl⟩,
      Except.bind_eq_ok.mpr ⟨r,hr,rfl⟩,Render.implements_implementation item (by decide) hs,
      Render.implements_implementation item (by decide) he,
      Render.implements_implementation item (by decide) hm⟩
  · intro fs
    exact ⟨fs.held_seen,fs.nodup_bindings⟩

/-- Three fields, of which the second is marked. -/
def cachedFields : FieldItems where
  style := .named
  fields := [
    ⟨[],some "name",[.word "String"]⟩,
    ⟨[⟨false,["wirepack"],.arguments .parentheses [.word "skip", .operator ","]⟩],some "cache",
      [.word "u64"]⟩,
    ⟨[⟨false,["deprecated"],.none⟩],some "r#type",[.word "u8"]⟩]

def cached : Item where
  word := "Cached"
  generics := {}
  body := .struct cachedFields

theorem codes_agree_cached :
    cached.body.Accepted ∧ cachedFields.kept.map CodecField.name = ["name", "type"] ∧
      ∃ s e d, cached.shapeCode = .ok s ∧ cached.encodeCode = .ok e ∧ cached.decodeCode = .ok d ∧
        cached.Implements "Shape" cached.body.describers s ∧
        cached.Implements "Encode" cached.body.writers e ∧
        cached.Implements "Decode" (cached.body.readers "Cached") d := by
  have ha : cached.body.Accepted := by
    simp only [cached, cachedFields, ItemBody.Accepted, FieldItems.Accepted, List.forall_mem_cons]
    have hskip : Skip.Accepted [.word "skip", .operator ","] := .more .none
    exact ⟨List.forall_mem_nil _,⟨fun _ => ⟨_,_,rfl,hskip⟩,List.forall_mem_nil _⟩,
      ⟨fun h => absurd h (by decide),List.forall_mem_nil _⟩,List.forall_mem_nil _⟩
  obtain ⟨-,-,-,hcodes,-⟩ := cached.codes_agree
  exact ⟨ha,by decide +kernel,hcodes ha⟩

example : cachedFields.bodyOverwriting =
    code "::wirepack::Decode::decode_field_into(&mut self.name, decoder, &mut compatible,)?;
      ::wirepack::Decode::decode_field_into(&mut self.r#type, decoder, &mut compatible,)?;
      compatible.finish(decoder)" := by
  decide +kernel

end Item
end RecordCodec.Code
