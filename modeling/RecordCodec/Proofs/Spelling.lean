import RecordCodec.Proofs.Generation

/-! # What generated code says

The tokens of generated code, spelled out one by one: what the methods of an item's three
implementations say of each field, and of each alternative under which number. All of them speak of
the same fields, those that are not marked, in the order of their declaration.
-/
namespace RecordCodec.Code

/-! ## Tokens one by one -/

namespace Token

mutual

def same : Token → Token → Bool
  | word s, word t | lifetime s, lifetime t | operator s, operator t | literal s, literal t => s == t
  | group d ts, group e us => d == e && sameAll ts us
  | attached t, attached u => same t u
  | _, _ => false
termination_by structural t => t

def sameAll : List Token → List Token → Bool
  | [], [] => true
  | t :: ts, u :: us => same t u && sameAll ts us
  | _, _ => false
termination_by structural ts => ts

end

mutual

theorem eq_of_same : ∀ t u : Token, same t u = true → t = u
  | word s, u, h | lifetime s, u, h | operator s, u, h | literal s, u, h => by
    cases u <;> first | exact congrArg _ (eq_of_beq h) | cases h
  | group d ts, u, h => by
    cases u with
    | group e us =>
      obtain ⟨hd,hs⟩ := Bool.and_eq_true_iff.mp h
      rw [eq_of_sameAll ts us hs, of_decide_eq_true hd]
    | _ => cases h
  | attached t, u, h => by
    cases u with
    | attached u => exact congrArg attached (eq_of_same t u h)
    | _ => cases h

theorem eq_of_sameAll : ∀ ts us : List Token, sameAll ts us = true → ts = us
  | [], us, h => by
    cases us with
    | nil => rfl
    | cons u us => cases h
  | t :: ts, us, h => by
    cases us with
    | nil => cases h
    | cons u us =>
      obtain ⟨ht,hs⟩ := Bool.and_eq_true_iff.mp h
      rw [eq_of_same t u ht, eq_of_sameAll ts us hs]

end

mutual

theorem same_self : ∀ t : Token, same t t = true
  | word _ | lifetime _ | operator _ | literal _ => BEq.rfl
  | group _ ts => Bool.and_eq_true_iff.mpr ⟨BEq.rfl,sameAll_self ts⟩
  | attached t => same_self t

theorem sameAll_self : ∀ ts : List Token, sameAll ts ts = true
  | [] => rfl
  | t :: ts => Bool.and_eq_true_iff.mpr ⟨same_self t,sameAll_self ts⟩

end

instance : DecidableEq Token := fun t u =>
  decidable_of_iff (same t u = true) ⟨eq_of_same t u,fun h => h ▸ same_self t⟩

end Token

/-- Words, with operators among them. -/
def row (texts : List String) : List Token :=
  texts.map fun s =>
    if s.toList.all fun c => c.isAlphanum || c == '_' then .word s else .operator s

def inParentheses (ts : List Token) : List Token := [.group .parentheses ts]

def inBraces (ts : List Token) : List Token := [.group .braces ts]

/-- A call that passes an error on. -/
def asked (callee : List String) (arguments : List Token) : List Token :=
  row callee ++ inParentheses arguments ++ row ["?"]

def tried (callee : List String) (arguments : List Token) : List Token :=
  asked callee arguments ++ row [";"]

/-- The end of a body that has nothing to return. -/
def success : List Token :=
  row ["::", "std", "::", "result", "::", "Result", "::", "Ok"] ++ inParentheses (inParentheses [])

def enclosed (style : Style) (runs : List (List Token)) : List Token :=
  match style with
  | .named => inBraces ((row [","]).intercalate runs)
  | .positional => inParentheses ((row [","]).intercalate runs)
  | .unit => []

/-! ## What is said of a field -/

def Member.token : Member → Token
  | .word w => .word w
  | .position i => .literal (toString i)

namespace CodecField

variable (f : CodecField)

/-- The field of the value that a method has. -/
def own : List Token := row ["self", "."] ++ [f.member.token]

def listed : List Token :=
  row ["fields", ".", "field", "::", "<"] ++ f.type ++ tried [">"] [.string f.name]

def marked : List Token :=
  tried ["::", "wirepack", "::", "Encode", "::", "mark_presence"]
    (row ["&"] ++ f.own ++ row [",", "&", "mut", "presence"])

def written : List Token :=
  tried ["::", "wirepack", "::", "Encode", "::", "encode"]
    (row ["&"] ++ f.own ++ row [",", "encoder"])

/-- Writes what a pattern has bound. -/
def boundWritten : List Token :=
  tried ["::", "wirepack", "::", "Encode", "::", "encode"]
    ([.word f.binding] ++ row [",", "encoder"])

def overwritten : List Token :=
  tried ["::", "wirepack", "::", "Decode", "::", "decode_field_into"]
    (row ["&", "mut"] ++ f.own ++ row [",", "decoder", ",", "&", "mut", "compatible", ","])

/-- Contents behind the field's name, if it has one. -/
def named (contents : List Token) : List Token :=
  match f.member with
  | .word w => [.word w] ++ row [":"] ++ contents
  | .position _ => contents

def bound : List Token := f.named [.word (if f.isSkipped then "_" else f.binding)]

/-- What the field is made of: the default of its type if it is marked, and otherwise what a function
of its type reads. -/
def made (read : List Token) : List Token :=
  f.named
    (if f.isSkipped then
      row ["<"] ++ f.type ++
        row ["as", "::", "std", "::", "default", "::", "Default", ">", "::", "default"] ++
        inParentheses []
    else row ["<"] ++ f.type ++ row ["as", "::", "wirepack", "::", "Decode", ">", "::"] ++ read)

end CodecField

/-! ## What methods say -/

namespace FieldItems

variable (fs : FieldItems)

def listing : List Token :=
  row ["let", "_", "=", "&", "fields", ";"] ++ fs.kept.flatMap CodecField.listed ++ success

def describing : List Token :=
  row ["builder", ".", "aggregate", "::", "<", "Self", ">"] ++
    inParentheses (row ["|", "fields", "|"] ++ inBraces fs.listing)

def marking : List Token :=
  row ["#"] ++ [.group .brackets (row ["allow"] ++ inParentheses (row ["unused_mut"]))] ++
    row ["let", "mut", "presence", "=", "::", "wirepack", "::", "PresenceBitmap", "::", "new"] ++
    inParentheses [] ++ row [";"] ++ fs.kept.flatMap CodecField.marked

def writing : List Token :=
  fs.marking ++ tried ["presence", ".", "encode"] (row ["encoder"]) ++
    fs.kept.flatMap CodecField.written ++ success

/-- Writes the fields of an outermost value, where an empty bitmap is left out. -/
def bodyWriting : List Token :=
  fs.marking ++ row ["if", "!", "presence", ".", "is_empty"] ++ inParentheses [] ++
    inBraces (tried ["presence", ".", "encode"] (row ["encoder"])) ++
    fs.kept.flatMap CodecField.written ++ success

/-- Makes a value of all fields, in the order of their declaration. -/
def construction (path read : List Token) : List Token :=
  path ++ enclosed fs.style (fs.seen.map fun f => f.made read)

def bodyReading : List Token :=
  row ["let", "value", "="] ++
    fs.construction (row ["Self"])
      (asked ["decode_field"] (row ["decoder", ",", "&", "mut", "compatible"])) ++
    row [";"] ++ tried ["compatible", ".", "finish"] (row ["decoder"]) ++
    row ["::", "std", "::", "result", "::", "Result", "::", "Ok"] ++ inParentheses (row ["value"])

def bodyOverwriting : List Token :=
  fs.kept.flatMap CodecField.overwritten ++ row ["compatible", ".", "finish"] ++
    inParentheses (row ["decoder"])

end FieldItems

/-- Opens the slots, and goes on with a method of the body. -/
def opening (method : String) (arguments : List String) : List Token :=
  row ["let", "compatible", "="] ++
    tried ["::", "wirepack", "::", "compatible", "::", "CompatibleFields", "::", "begin"]
      (row ["decoder", ",", "true"]) ++
    row ["<", "Self", "as", "::", "wirepack", "::", "Decode", ">", "::", method] ++
    inParentheses (row arguments)

/-- A number of the type of sizes. -/
def size (n : Nat) : List Token := [.literal (toString n ++ "usize")]

namespace AlternativeItem

variable (a : AlternativeItem) (index count : Nat)

def describing : List Token :=
  tried ["alternatives", ".", "alternative"]
    ([.string (plainName a.word)] ++ row [",", "|", "fields", "|"] ++ inBraces a.fields.listing)

def path : List Token := row ["Self", "::"] ++ [.word a.word]

def writing : List Token :=
  a.path ++ enclosed a.fields.style (a.fields.seen.map CodecField.bound) ++ row ["=>"] ++
    inBraces
      (tried ["encoder", ".", "emit_discriminant"] (size index ++ row [","] ++ size count) ++
        a.fields.kept.flatMap CodecField.boundWritten)

def reading : List Token :=
  size index ++ row ["=>", "::", "std", "::", "result", "::", "Result", "::", "Ok"] ++
    inParentheses (a.fields.construction a.path (asked ["decode"] (row ["decoder"]))) ++ row [","]

end AlternativeItem

def describingAll (as : List AlternativeItem) : List Token :=
  row ["builder", ".", "variant", "::", "<", "Self", ">"] ++
    inParentheses (row ["|", "alternatives", "|"] ++ inBraces
      (row ["let", "_", "=", "&", "alternatives", ";"] ++
        as.flatMap AlternativeItem.describing ++ success))

/-- Chooses by the alternative; there is nothing to choose if there is none. -/
def writingAll (as : List AlternativeItem) : List Token :=
  if as.isEmpty then row ["match", "*", "self"] ++ inBraces []
  else
    row ["match", "self"] ++
      inBraces (as.zipIdx.flatMap fun p => p.1.writing p.2 as.length) ++ success

/-- Chooses by the number that is read. -/
def readingAll (label : String) (as : List AlternativeItem) : List Token :=
  row ["let", "index", "="] ++
    tried ["decoder", ".", "read_discriminant"] (size as.length) ++
    row ["match", "index"] ++
    inBraces
      (as.zipIdx.flatMap (fun p => p.1.reading p.2) ++
        row ["_", "=>", "::", "std", "::", "result", "::", "Result", "::", "Err"] ++
        inParentheses
          (row ["::", "wirepack", "::", "Error", "::", "invalid_discriminant"] ++
            inParentheses
              (row ["index", ","] ++ size as.length ++ row [","] ++ [.string label]) ++
            row [","]) ++
        row [","])

/-! ## Methods -/

structure Method where
  name : String
  signature : List Token
  body : List Token

def Token.isBody : Token → Bool
  | .group .braces _ => true
  | _ => false

/-- The methods in the body of an implementation, behind the signature of one that has been begun. -/
def methodsIn : (begun : Option (String × List Token)) → List Token → List Method
  | _, [] => []
  | none, .word "fn" :: .word name :: ts => methodsIn (some (name,[])) ts
  | none, _ :: ts => methodsIn none ts
  | some (name,signature), .group .braces body :: ts => ⟨name,signature,body⟩ :: methodsIn none ts
  | some (name,signature), t :: ts => methodsIn (some (name,signature ++ [t])) ts

def describingSignature : List Token :=
  inParentheses (row ["builder", ":", "&", "mut", "::", "wirepack", "::", "DescriptorBuilder", ","]) ++
    row ["->", "::", "wirepack", "::", "Result", "<", "::", "wirepack", "::", "Descriptor", ">"]

def writingSignature : List Token :=
  row ["<", "__E", ":", "::", "wirepack", "::", "Encoder", "+", "?", "Sized", ">"] ++
    inParentheses (row ["&", "self", ",", "encoder", ":", "&", "mut", "__E", ","]) ++
    row ["->", "::", "wirepack", "::", "Result", "<"] ++ inParentheses [] ++ row [">"]

def readingSignature (arguments : List String) (result : List Token) : List Token :=
  row ["<", "__D", ":", "::", "wirepack", "::", "Decoder", "+", "?", "Sized", ">"] ++
    inParentheses (row arguments) ++ row ["->", "::", "wirepack", "::", "Result", "<"] ++ result ++
    row [">"]

def ownArgument : List String := ["&", "mut", "self", ","]

def decoderArgument : List String := ["decoder", ":", "&", "mut", "__D", ","]

def slotsArgument : List String :=
  ["mut", "compatible", ":", "::", "wirepack", "::", "compatible", "::", "CompatibleFields", ","]

namespace ItemBody

/-- The methods that describe an item's type. -/
def describers : ItemBody → List Method
  | .struct fs => [⟨"describe",describingSignature,fs.describing⟩]
  | .enum as => [⟨"describe",describingSignature,describingAll as⟩]
  | .union => []

def writers : ItemBody → List Method
  | .struct fs =>
    [⟨"encode",writingSignature,fs.writing⟩, ⟨"encode_body",writingSignature,fs.bodyWriting⟩]
  | .enum as => [⟨"encode",writingSignature,writingAll as⟩]
  | .union => []

def readers (label : String) : ItemBody → List Method
  | .struct fs =>
    [⟨"decode",readingSignature decoderArgument (row ["Self"]),
        opening "decode_body" ["decoder", ",", "compatible"]⟩,
      ⟨"decode_into",readingSignature (ownArgument ++ decoderArgument) (inParentheses []),
        opening "decode_body_into" ["self", ",", "decoder", ",", "compatible"]⟩,
      ⟨"decode_body",readingSignature (decoderArgument ++ slotsArgument) (row ["Self"]),
        fs.bodyReading⟩,
      ⟨"decode_body_into",
        readingSignature (ownArgument ++ decoderArgument ++ slotsArgument) (inParentheses []),
        fs.bodyOverwriting⟩]
  | .enum as =>
    [⟨"decode",readingSignature decoderArgument (row ["Self"]),readingAll label as⟩]
  | .union => []

end ItemBody

/-- The tokens implement a trait for the item's type by some methods. -/
def Item.Implements (item : Item) (trait : String) (methods : List Method) (ts : List Token) :
    Prop :=
  ∃ parameters behind inner,
    ts = row ["#"] ++ [.group .brackets (row ["allow"] ++
        inParentheses (row ["clippy", "::", "trait_duplication_in_bounds"]))] ++ row ["impl"] ++
      parameters ++ row ["::", "wirepack", "::", trait, "for"] ++ [.word item.word] ++ behind ++
      inBraces inner ∧
    methodsIn none inner = methods

/-! ## Texts -/

namespace Render

theorem code_tried : code "?;" = row ["?", ";"] := by decide +kernel

theorem code_success : code "::std::result::Result::Ok(())" = success := by decide +kernel

theorem code_describing :
    code "let _ = &fields;" = row ["let", "_", "=", "&", "fields", ";"] ∧
    code "fields.field::<" = row ["fields", ".", "field", "::", "<"] ∧
    code ">" = row [">"] ∧
    code "builder.aggregate::<Self>" =
      row ["builder", ".", "aggregate", "::", "<", "Self", ">"] ∧
    code "|fields|" = row ["|", "fields", "|"] ∧
    code "builder.variant::<Self>" = row ["builder", ".", "variant", "::", "<", "Self", ">"] ∧
    code "|alternatives|" = row ["|", "alternatives", "|"] ∧
    code "let _ = &alternatives;" = row ["let", "_", "=", "&", "alternatives", ";"] ∧
    code "alternatives.alternative" = row ["alternatives", ".", "alternative"] ∧
    code ", |fields|" = row [",", "|", "fields", "|"] := by
  decide +kernel

theorem code_own :
    code "self." = row ["self", "."] ∧ code "&self." = row ["&"] ++ code "self." ∧
    code "&mut self." = row ["&", "mut"] ++ code "self." := by
  decide +kernel

theorem code_writing :
    code "#[allow(unused_mut)] let mut presence = ::wirepack::PresenceBitmap::new();" =
      row ["#"] ++ [.group .brackets (row ["allow"] ++ inParentheses (row ["unused_mut"]))] ++
        row ["let", "mut", "presence", "=", "::", "wirepack", "::", "PresenceBitmap", "::", "new"] ++
        inParentheses [] ++ row [";"] ∧
    code "::wirepack::Encode::mark_presence" =
      row ["::", "wirepack", "::", "Encode", "::", "mark_presence"] ∧
    code ", &mut presence" = row [",", "&", "mut", "presence"] ∧
    code "::wirepack::Encode::encode" = row ["::", "wirepack", "::", "Encode", "::", "encode"] ∧
    code ", encoder" = row [",", "encoder"] ∧
    code "presence.encode(encoder)?;" = tried ["presence", ".", "encode"] (row ["encoder"]) ∧
    code "if !presence.is_empty()" =
      row ["if", "!", "presence", ".", "is_empty"] ++ inParentheses [] := by
  decide +kernel

theorem code_choosing :
    code "match *self" = row ["match", "*", "self"] ∧ code "match self" = row ["match", "self"] ∧
    code "Self::" = row ["Self", "::"] ∧ code "=>" = row ["=>"] ∧ code "," = row [","] ∧
    code "encoder.emit_discriminant" = row ["encoder", ".", "emit_discriminant"] ∧
    code "let index = decoder.read_discriminant" =
      row ["let", "index", "="] ++ row ["decoder", ".", "read_discriminant"] ∧
    code "?; match index" = row ["?"] ++ row [";"] ++ row ["match", "index"] ∧
    code "=> ::std::result::Result::Ok" =
      row ["=>", "::", "std", "::", "result", "::", "Result", "::", "Ok"] ∧
    code "decode(decoder)?" = asked ["decode"] (row ["decoder"]) ∧
    code "_ => ::std::result::Result::Err" =
      row ["_", "=>", "::", "std", "::", "result", "::", "Result", "::", "Err"] ∧
    code "::wirepack::Error::invalid_discriminant" =
      row ["::", "wirepack", "::", "Error", "::", "invalid_discriminant"] ∧
    code "index," = row ["index", ","] := by
  decide +kernel

theorem code_making :
    code "<" = row ["<"] ∧
    code "as ::std::default::Default>::default()" =
      row ["as", "::", "std", "::", "default", "::", "Default", ">", "::", "default"] ++
        inParentheses [] ∧
    code "as ::wirepack::Decode>::" =
      row ["as", "::", "wirepack", "::", "Decode", ">", "::"] ∧
    code "let value =" = row ["let", "value", "="] ∧ code "Self" = row ["Self"] ∧
    code "decode_field(decoder, &mut compatible)?" =
      asked ["decode_field"] (row ["decoder", ",", "&", "mut", "compatible"]) ∧
    code "; compatible.finish(decoder)?; ::std::result::Result::Ok(value)" =
      row [";"] ++ tried ["compatible", ".", "finish"] (row ["decoder"]) ++
        row ["::", "std", "::", "result", "::", "Result", "::", "Ok"] ++
        inParentheses (row ["value"]) := by
  decide +kernel

theorem code_reading :
    opening "decode_body(decoder, compatible)" =
      Code.opening "decode_body" ["decoder", ",", "compatible"] ∧
    opening "decode_body_into(self, decoder, compatible)" =
      Code.opening "decode_body_into" ["self", ",", "decoder", ",", "compatible"] ∧
    code "::wirepack::Decode::decode_field_into" =
      row ["::", "wirepack", "::", "Decode", "::", "decode_field_into"] ∧
    code ", decoder, &mut compatible," =
      row [",", "decoder", ",", "&", "mut", "compatible", ","] ∧
    code "compatible.finish(decoder)" =
      row ["compatible", ".", "finish"] ++ inParentheses (row ["decoder"]) := by
  decide +kernel

end Render

/-! ## Methods in tokens -/

theorem row_append (ss ts : List String) : row ss ++ row ts = row (ss ++ ts) :=
  List.map_append.symm

theorem not_isBody_row (texts : List String) : (row texts).all (!·.isBody) = true := by
  unfold row
  rw [List.all_map, List.all_eq_true]
  intro s _
  dsimp only [Function.comp_apply]
  split <;> rfl

theorem not_isBody_describing : describingSignature.all (!·.isBody) = true := by
  unfold describingSignature inParentheses
  simp only [List.all_append, not_isBody_row]
  rfl

theorem not_isBody_writing : writingSignature.all (!·.isBody) = true := by
  unfold writingSignature inParentheses
  simp only [List.all_append, not_isBody_row]
  rfl

theorem not_isBody_reading {result : List Token} (arguments : List String)
    (h : result.all (!·.isBody) = true) :
    (readingSignature arguments result).all (!·.isBody) = true := by
  unfold readingSignature inParentheses
  simp only [List.all_append, not_isBody_row, h]
  rfl

theorem methodsIn_begun {name : String} {begun signature body rest : List Token}
    (h : signature.all (!·.isBody) = true) :
    methodsIn (some (name,begun)) (signature ++ .group .braces body :: rest) =
      ⟨name,begun ++ signature,body⟩ :: methodsIn none rest := by
  induction signature generalizing begun with
  | nil => rw [List.append_nil, List.nil_append, methodsIn]
  | cons t ts ih =>
    obtain ⟨ht,hts⟩ := Bool.and_eq_true_iff.mp h
    have hbody (inner : List Token) : t ≠ .group .braces inner := by
      rintro rfl
      cases ht
    rw [List.cons_append, methodsIn, ih hts, List.append_assoc]
    · rfl
    · exact hbody

namespace Render

/-- What is generated for a method up to its body. -/
def beginning (head arguments result : String) : List Token :=
  code head ++ parenthesized (code arguments) ++ code result

theorem code_beginnings :
    beginning "fn describe" "builder: &mut ::wirepack::DescriptorBuilder,"
        (resultOf "::wirepack::Descriptor") =
      [.word "fn", .word "describe"] ++ describingSignature ∧
    beginning (genericHead "encode" "E" "Encoder") "&self, encoder: &mut __E,"
        (resultOf "()") =
      [.word "fn", .word "encode"] ++ writingSignature ∧
    beginning (genericHead "encode_body" "E" "Encoder") "&self, encoder: &mut __E,"
        (resultOf "()") =
      [.word "fn", .word "encode_body"] ++ writingSignature ∧
    beginning (genericHead "decode" "D" "Decoder") "decoder: &mut __D,"
        (resultOf "Self") =
      [.word "fn", .word "decode"] ++ readingSignature decoderArgument (row ["Self"]) ∧
    beginning (genericHead "decode_into" "D" "Decoder") "&mut self, decoder: &mut __D,"
        (resultOf "()") =
      [.word "fn", .word "decode_into"] ++
        readingSignature (ownArgument ++ decoderArgument) (inParentheses []) ∧
    beginning (genericHead "decode_body" "D" "Decoder")
        "decoder: &mut __D, mut compatible: ::wirepack::compatible::CompatibleFields,"
        (resultOf "Self") =
      [.word "fn", .word "decode_body"] ++
        readingSignature (decoderArgument ++ slotsArgument) (row ["Self"]) ∧
    beginning (genericHead "decode_body_into" "D" "Decoder")
        "&mut self, decoder: &mut __D, mut compatible: ::wirepack::compatible::CompatibleFields,"
        (resultOf "()") =
      [.word "fn", .word "decode_body_into"] ++
        readingSignature (ownArgument ++ decoderArgument ++ slotsArgument) (inParentheses []) := by
  decide +kernel

/-- A method is found in what is generated for it, whatever stands behind. -/
theorem method_eq {head arguments result name : String} {signature : List Token}
    (hbegin : beginning head arguments result = [.word "fn", .word name] ++ signature)
    (hsignature : signature.all (!·.isBody) = true) (body rest : List Token) :
    methodsIn none (method head arguments result body ++ rest) =
      ⟨name,signature,body⟩ :: methodsIn none rest := by
  unfold method
  unfold beginning at hbegin
  rw [hbegin, List.append_assoc, List.append_assoc, List.cons_append, List.cons_append,
    List.nil_append, methodsIn]
  exact methodsIn_begun hsignature

theorem method_last {head arguments result name : String} {signature : List Token}
    (hbegin : beginning head arguments result = [.word "fn", .word name] ++ signature)
    (hsignature : signature.all (!·.isBody) = true) (body : List Token) :
    methodsIn none (method head arguments result body) = [⟨name,signature,body⟩] := by
  have hlast := method_eq hbegin hsignature body []
  rwa [List.append_nil] at hlast

/-! ## What is generated -/

theorem listed_eq (f : CodecField) : listed f = f.listed := by
  obtain ⟨-,hopen,hclose,-⟩ := code_describing
  unfold listed CodecField.listed
  rw [hopen, hclose, code_tried]
  simp only [tried, asked, List.append_assoc, row_append]
  rfl

theorem fieldDescription_eq (fs : FieldItems) : fieldDescription fs.kept = fs.listing := by
  obtain ⟨hlet,-⟩ := code_describing
  unfold fieldDescription FieldItems.listing
  rw [hlet, code_success, funext listed_eq]

theorem description_struct (fs : FieldItems) : description (.aggregate fs.kept) = fs.describing := by
  obtain ⟨-,-,-,hopen,hfields,-⟩ := code_describing
  unfold description FieldItems.describing
  dsimp only
  rw [hopen, hfields, fieldDescription_eq]
  rfl

theorem alternativeDescription_eq (a : AlternativeItem) :
    alternativeDescription (plainName a.word,a.fields.kept) = a.describing := by
  obtain ⟨-,-,-,-,-,-,-,-,hcall,hfields⟩ := code_describing
  unfold alternativeDescription AlternativeItem.describing
  dsimp only
  rw [hcall, hfields, code_tried, fieldDescription_eq]
  simp only [tried, asked, List.append_assoc, row_append]
  rfl

theorem description_enum (as : List AlternativeItem) :
    description (.variant (as.map fun a => (plainName a.word,a.fields.kept))) =
      describingAll as := by
  obtain ⟨-,-,-,-,-,hopen,halternatives,hlet,-⟩ := code_describing
  unfold description describingAll
  dsimp only
  rw [List.flatMap_map, hopen, halternatives, hlet, code_success, funext alternativeDescription_eq]
  rfl

theorem member_eq (f : CodecField) : code "self." ++ member f.member = f.own := by
  obtain ⟨hself,-⟩ := code_own
  unfold member CodecField.own
  rw [hself]
  cases f.member <;> rfl

theorem marked_eq (f : CodecField) : marked f = f.marked := by
  obtain ⟨-,hcall,hpresence,-⟩ := code_writing
  obtain ⟨-,hself,-⟩ := code_own
  unfold marked CodecField.marked
  rw [hcall, hself, List.append_assoc (row ["&"]), member_eq, hpresence, code_tried]
  simp only [tried, asked, List.append_assoc, row_append]
  rfl

theorem marking_eq (fs : FieldItems) : marking fs.kept = fs.marking := by
  obtain ⟨hopen,-⟩ := code_writing
  unfold marking FieldItems.marking
  rw [hopen, funext marked_eq]

theorem written_eq (value : List Token) : written value =
    tried ["::", "wirepack", "::", "Encode", "::", "encode"] (value ++ row [",", "encoder"]) := by
  obtain ⟨-,-,-,hcall,hencoder,-⟩ := code_writing
  unfold written
  rw [hcall, hencoder, code_tried]
  simp only [tried, asked, List.append_assoc, row_append]
  rfl

theorem fieldWriting_eq (fs : FieldItems) :
    fieldWriting fs.kept = fs.kept.flatMap CodecField.written ++ success := by
  obtain ⟨-,hself,-⟩ := code_own
  have hfield (f : CodecField) : written (code "&self." ++ member f.member) = f.written := by
    rw [hself, List.append_assoc, member_eq, written_eq]
    rfl
  unfold fieldWriting
  rw [code_success, funext hfield]

theorem labelled_eq (f : CodecField) (contents : List Token) :
    labelled f contents = f.named contents := by
  unfold labelled CodecField.named
  cases f.member <;> rfl

theorem assembled_eq (path : List Token) (style : Style) (runs : List (List Token)) :
    assembled path style runs = path ++ enclosed style runs := by
  unfold assembled enclosed
  cases style with
  | named => rfl
  | positional => rfl
  | unit => exact (List.append_nil path).symm

theorem construction_eq (fs : FieldItems) (path read : List Token) :
    construction path ⟨fs.style,fs.seen⟩ read = fs.construction path read := by
  obtain ⟨hopen,hdefault,hread,-⟩ := code_making
  unfold construction FieldItems.construction CodecField.made
  rw [assembled_eq, hopen, hdefault, hread]
  simp only [labelled_eq, List.append_assoc]

theorem writing_struct (fs : FieldItems) :
    methodsIn none (writing (.struct ⟨fs.kept,fs.kept⟩ ⟨fs.kept,fs.kept⟩)) =
      ItemBody.writers (.struct fs) := by
  obtain ⟨-,-,-,-,-,hbitmap,hempty⟩ := code_writing
  obtain ⟨-,hencode,hbody,-⟩ := code_beginnings
  unfold writing writer
  dsimp only
  rw [method_eq hencode not_isBody_writing, method_last hbody not_isBody_writing, hbitmap, hempty,
    marking_eq, fieldWriting_eq]
  unfold ItemBody.writers FieldItems.writing FieldItems.bodyWriting
  simp only [List.append_assoc]
  rfl

theorem size_eq (n : Nat) : size n = Code.size n := rfl

theorem alternativePath_eq (a : AlternativeItem) : alternativePath a.word = a.path := by
  obtain ⟨-,-,hself,-⟩ := code_choosing
  unfold alternativePath AlternativeItem.path
  rw [hself]

theorem pattern_eq (a : AlternativeItem) (index count : Nat) (fields : List CodecField) :
    pattern ⟨a.word,⟨a.fields.style,a.fields.seen⟩,index,count,fields⟩ =
      a.path ++ enclosed a.fields.style (a.fields.seen.map CodecField.bound) := by
  unfold pattern CodecField.bound
  dsimp only
  simp only [alternativePath_eq, assembled_eq, labelled_eq]

theorem alternativeWriting_eq (a : AlternativeItem) (index count : Nat) :
    alternativeWriting ⟨a.word,⟨a.fields.style,a.fields.seen⟩,index,count,a.fields.kept⟩ =
      a.writing index count := by
  obtain ⟨-,-,-,harrow,hcomma,hemit,-⟩ := code_choosing
  have hfield (f : CodecField) : written [.word f.binding] = f.boundWritten := written_eq _
  unfold alternativeWriting AlternativeItem.writing
  dsimp only
  rw [pattern_eq, harrow, hemit, hcomma, code_tried, funext hfield]
  simp only [tried, asked, List.append_assoc, row_append]
  rfl

theorem writing_of_ne_nil {ws : List AlternativeWriting} (h : ws ≠ []) :
    writing (.enum ws) = writer "encode" (code "match self" ++
      braced (ws.flatMap alternativeWriting) ++ code "::std::result::Result::Ok(())") := by
  cases ws with
  | nil => exact absurd rfl h
  | cons w ws => rfl

theorem writing_enum (as : List AlternativeItem) :
    methodsIn none (writing (.enum (as.zipIdx.map fun p =>
        ⟨p.1.word,⟨p.1.fields.style,p.1.fields.seen⟩,p.2,as.length,p.1.fields.kept⟩))) =
      ItemBody.writers (.enum as) := by
  obtain ⟨hnone,hself,-⟩ := code_choosing
  obtain ⟨-,hencode,-⟩ := code_beginnings
  unfold ItemBody.writers writingAll
  cases as with
  | nil =>
    rw [List.zipIdx_nil, List.map_nil, writing, writer, method_last hencode not_isBody_writing, hnone]
    rfl
  | cons a more =>
    have hsome : (a :: more).zipIdx.map (fun p => (⟨p.1.word,⟨p.1.fields.style,p.1.fields.seen⟩,
        p.2,(a :: more).length,p.1.fields.kept⟩ : AlternativeWriting)) ≠ [] := by simp
    rw [writing_of_ne_nil hsome, writer, method_last hencode not_isBody_writing, List.flatMap_map,
      hself, code_success]
    simp only [alternativeWriting_eq]
    rfl

theorem overwritten_eq (f : CodecField) : overwritten f = f.overwritten := by
  obtain ⟨-,-,hcall,hmore,-⟩ := code_reading
  obtain ⟨-,-,hself⟩ := code_own
  unfold overwritten CodecField.overwritten
  rw [hcall, hself, List.append_assoc (row ["&", "mut"]), member_eq, hmore, code_tried]
  simp only [tried, asked, List.append_assoc, row_append]
  rfl

theorem reading_struct (fs : FieldItems) (label : String) :
    methodsIn none (reading (.struct ⟨fs.style,fs.seen⟩ fs.kept)) =
      ItemBody.readers label (.struct fs) := by
  obtain ⟨hopening,hopeningInto,-,-,hlast⟩ := code_reading
  obtain ⟨-,-,-,hlet,hself,hread,hfinish⟩ := code_making
  obtain ⟨-,-,-,hdecode,hinto,hbody,hbodyInto⟩ := code_beginnings
  have hvalue := not_isBody_row ["Self"]
  unfold reading reader
  dsimp only
  rw [List.append_assoc, List.append_assoc, method_eq hdecode (not_isBody_reading _ hvalue),
    method_eq hinto (not_isBody_reading _ rfl), method_eq hbody (not_isBody_reading _ hvalue),
    method_last hbodyInto (not_isBody_reading _ rfl), hopening, hopeningInto, hlet, hself, hread,
    hfinish, hlast, construction_eq, funext overwritten_eq]
  unfold ItemBody.readers FieldItems.bodyReading FieldItems.bodyOverwriting
  simp only [List.append_assoc]

theorem alternativeReading_eq (a : AlternativeItem) (index : Nat) :
    alternativeReading ⟨a.word,index,⟨a.fields.style,a.fields.seen⟩⟩ = a.reading index := by
  obtain ⟨-,-,-,-,hcomma,-,-,-,hok,hread,-⟩ := code_choosing
  unfold alternativeReading
  dsimp only
  rw [hok, hread, hcomma, alternativePath_eq, construction_eq]
  rfl

theorem reading_enum (as : List AlternativeItem) (label : String) :
    methodsIn none (reading (.enum label as.length (as.zipIdx.map fun p =>
        ⟨p.1.word,p.2,⟨p.1.fields.style,p.1.fields.seen⟩⟩))) =
      ItemBody.readers label (.enum as) := by
  obtain ⟨-,-,-,-,hcomma,-,hread,hmatch,-,-,herr,hinvalid,hindex⟩ := code_choosing
  obtain ⟨-,-,-,hdecode,-⟩ := code_beginnings
  have hvalue := not_isBody_row ["Self"]
  unfold reading reader ItemBody.readers readingAll
  dsimp only
  rw [method_last hdecode (not_isBody_reading _ hvalue), List.flatMap_map, hread, hmatch, herr,
    hinvalid, hindex, hcomma]
  simp only [alternativeReading_eq, tried, asked, List.append_assoc]
  rfl

theorem code_implementing :
    code "#[allow(clippy::trait_duplication_in_bounds)] impl" =
      row ["#"] ++ [.group .brackets (row ["allow"] ++
        inParentheses (row ["clippy", "::", "trait_duplication_in_bounds"]))] ++ row ["impl"] ∧
    code "for" = row ["for"] ∧
    ∀ trait ∈ ["Shape", "Encode", "Decode"],
      code s!"::wirepack::{trait}" = row ["::", "wirepack", "::", trait] := by
  decide +kernel

theorem implements_implementation (item : Item) {trait : String} {body : List Token}
    {methods : List Method} (ht : trait ∈ ["Shape", "Encode", "Decode"])
    (hm : methodsIn none body = methods) :
    item.Implements trait methods (implementation item trait body) := by
  obtain ⟨himpl,hfor,htrait⟩ := code_implementing
  refine ⟨angled GenericParameter.tokens item.generics.parameters,
    angled (fun p => [p.token]) item.generics.parameters ++
      conditions item.generics (row ["::", "wirepack", "::", trait]),body,?_,hm⟩
  unfold implementation
  dsimp only
  rw [himpl, hfor, htrait trait ht]
  simp only [List.append_assoc, row_append]
  rfl

end Render

end RecordCodec.Code
