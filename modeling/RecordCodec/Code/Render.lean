import RecordCodec.Code.Lexer
import RecordCodec.Code.Plan

/-! # Generated code

The tokens of the code that is generated for an item, from the plans of what the code does.
-/
namespace RecordCodec.Code

namespace Render

def parenthesized (ts : List Token) : List Token := [.group .parentheses ts]

def braced (ts : List Token) : List Token := [.group .braces ts]

def commas (runs : List (List Token)) : List Token :=
  (runs.intersperse [.operator ","]).flatten

def size (n : Nat) : List Token := [.literal s!"{n}usize"]

def member : Member → List Token
  | .word w => [.word w]
  | .position i => [.literal (toString i)]

def listed (f : CodecField) : List Token :=
  code "fields.field::<" ++ f.type ++ code ">" ++ parenthesized [.string f.name] ++ code "?;"

def fieldDescription (fields : List CodecField) : List Token :=
  code "let _ = &fields;" ++ fields.flatMap listed ++ code "::std::result::Result::Ok(())"

def alternativeDescription (a : String × List CodecField) : List Token :=
  code "alternatives.alternative" ++
    parenthesized ([.string a.1] ++ code ", |fields|" ++ braced (fieldDescription a.2)) ++
    code "?;"

def description : DescriptionPlan → List Token
  | .aggregate fields =>
    code "builder.aggregate::<Self>" ++
      parenthesized (code "|fields|" ++ braced (fieldDescription fields))
  | .variant alternatives =>
    code "builder.variant::<Self>" ++
      parenthesized (code "|alternatives|" ++ braced
        (code "let _ = &alternatives;" ++ alternatives.flatMap alternativeDescription ++
          code "::std::result::Result::Ok(())"))

/-- A method: its name, its generic parameter, its arguments, its result and its body. -/
def method (head arguments result : String) (body : List Token) : List Token :=
  code head ++ parenthesized (code arguments) ++ code result ++ braced body

def genericHead (name letter bound : String) : String :=
  s!"fn {name}<__{letter}: ::wirepack::{bound} + ?Sized>"

def resultOf (type : String) : String := s!"-> ::wirepack::Result<{type}>"

def writer (name : String) (body : List Token) : List Token :=
  method (genericHead name "E" "Encoder") "&self, encoder: &mut __E," (resultOf "()") body

def marked (f : CodecField) : List Token :=
  code "::wirepack::Encode::mark_presence" ++
    parenthesized (code "&self." ++ member f.member ++ code ", &mut presence") ++ code "?;"

/-- What marks the slots of fields in a new bitmap. -/
def marking (fields : List CodecField) : List Token :=
  code "#[allow(unused_mut)] let mut presence = ::wirepack::PresenceBitmap::new();" ++
    fields.flatMap marked

def written (value : List Token) : List Token :=
  code "::wirepack::Encode::encode" ++ parenthesized (value ++ code ", encoder") ++ code "?;"

def fieldWriting (fields : List CodecField) : List Token :=
  fields.flatMap (fun f => written (code "&self." ++ member f.member)) ++
    code "::std::result::Result::Ok(())"

def assembled (path : List Token) (style : Style) (runs : List (List Token)) : List Token :=
  match style with
  | .named => path ++ braced (commas runs)
  | .positional => path ++ parenthesized (commas runs)
  | .unit => path

def labelled (f : CodecField) (contents : List Token) : List Token :=
  match f.member with
  | .word w => [.word w, .operator ":"] ++ contents
  | .position _ => contents

def alternativePath (word : String) : List Token := code "Self::" ++ [.word word]

def pattern (a : AlternativeWriting) : List Token :=
  assembled (alternativePath a.word) a.pattern.style
    (a.pattern.fields.map fun f => labelled f [.word (if f.isSkipped then "_" else f.binding)])

def alternativeWriting (a : AlternativeWriting) : List Token :=
  pattern a ++ code "=>" ++ braced
    (code "encoder.emit_discriminant" ++
      parenthesized (size a.discriminant ++ code "," ++ size a.count) ++ code "?;" ++
      a.written.flatMap fun f => written [.word f.binding])

def writing : WritingPlan → List Token
  | .struct nested outermost =>
    writer "encode"
      (marking nested.marked ++ code "presence.encode(encoder)?;" ++ fieldWriting nested.written) ++
    writer "encode_body"
      (marking outermost.marked ++ code "if !presence.is_empty()" ++
        braced (code "presence.encode(encoder)?;") ++ fieldWriting outermost.written)
  | .enum [] => writer "encode" (code "match *self" ++ braced [])
  | .enum alternatives =>
    writer "encode"
      (code "match self" ++ braced (alternatives.flatMap alternativeWriting) ++
        code "::std::result::Result::Ok(())")

/-- A value made of fields that are read, or have their default if they are skipped. -/
def construction (path : List Token) (c : Construction) (read : List Token) : List Token :=
  assembled path c.style (c.fields.map fun f =>
    labelled f
      (if f.isSkipped then code "<" ++ f.type ++ code "as ::std::default::Default>::default()"
      else code "<" ++ f.type ++ code "as ::wirepack::Decode>::" ++ read))

def reader (name arguments result : String) (body : List Token) : List Token :=
  method (genericHead name "D" "Decoder") arguments (resultOf result) body

def opening (call : String) : List Token :=
  code "let compatible = ::wirepack::compatible::CompatibleFields::begin(decoder, true)?;" ++
    code s!"<Self as ::wirepack::Decode>::{call}"

def overwritten (f : CodecField) : List Token :=
  code "::wirepack::Decode::decode_field_into" ++
    parenthesized (code "&mut self." ++ member f.member ++ code ", decoder, &mut compatible,") ++
    code "?;"

def alternativeReading (a : AlternativeReading) : List Token :=
  size a.discriminant ++ code "=> ::std::result::Result::Ok" ++
    parenthesized
      (construction (alternativePath a.word) a.construction (code "decode(decoder)?")) ++
    code ","

def reading : ReadingPlan → List Token
  | .struct c fields =>
    reader "decode" "decoder: &mut __D," "Self" (opening "decode_body(decoder, compatible)") ++
    reader "decode_into" "&mut self, decoder: &mut __D," "()"
      (opening "decode_body_into(self, decoder, compatible)") ++
    reader "decode_body"
      "decoder: &mut __D, mut compatible: ::wirepack::compatible::CompatibleFields," "Self"
      (code "let value =" ++
        construction (code "Self") c (code "decode_field(decoder, &mut compatible)?") ++
        code "; compatible.finish(decoder)?; ::std::result::Result::Ok(value)") ++
    reader "decode_body_into"
      "&mut self, decoder: &mut __D, mut compatible: ::wirepack::compatible::CompatibleFields,"
      "()" (fields.flatMap overwritten ++ code "compatible.finish(decoder)")
  | .enum label count alternatives =>
    reader "decode" "decoder: &mut __D," "Self"
      (code "let index = decoder.read_discriminant" ++ parenthesized (size count) ++
        code "?; match index" ++ braced
          (alternatives.flatMap alternativeReading ++ code "_ => ::std::result::Result::Err" ++
            parenthesized
              (code "::wirepack::Error::invalid_discriminant" ++
                parenthesized (code "index," ++ size count ++ code "," ++ [.string label]) ++
                code ",") ++
            code ","))

def angled (display : GenericParameter → List Token) (ps : List GenericParameter) : List Token :=
  if ps.isEmpty then []
  else
    [.operator "<"] ++ Listed.inOrder (ps.map fun p => ⟨p.isLifetime, display p, p.hasComma⟩) ++
      [.operator ">"]

/-- The conditions on an item's parameters: those that it declares, and one for each type. -/
def conditions (g : Generics) (trait : List Token) : List Token :=
  let types := g.parameters.filter fun p =>
    match p.kind with
    | .type _ => true
    | _ => false
  let added := types.map fun p => [p.token, .operator ":"] ++ trait
  let all := g.conditions ++ added
  let last : List Token := if added.isEmpty && g.conditionsEndInComma then [.operator ","] else []
  if all.isEmpty then [] else [.word "where"] ++ commas all ++ last

def implementation (item : Item) (trait : String) (body : List Token) : List Token :=
  let trait := code s!"::wirepack::{trait}"
  code "#[allow(clippy::trait_duplication_in_bounds)] impl" ++
    angled GenericParameter.tokens item.generics.parameters ++ trait ++ code "for" ++
    [.word item.word] ++ angled (fun p => [p.token]) item.generics.parameters ++
    conditions item.generics trait ++ braced body

def failure (e : SyntaxError) : List Token :=
  code "::core::compile_error!" ++ braced [.string e.message]

end Render

def Item.shapeCode (item : Item) : Except SyntaxError (List Token) := do
  let plan ← item.describing
  pure (Render.implementation item "Shape"
    (Render.method "fn describe" "builder: &mut ::wirepack::DescriptorBuilder,"
      (Render.resultOf "::wirepack::Descriptor") (Render.description plan)))

def Item.encodeCode (item : Item) : Except SyntaxError (List Token) := do
  let plan ← item.writing
  pure (Render.implementation item "Encode" (Render.writing plan))

def Item.decodeCode (item : Item) : Except SyntaxError (List Token) := do
  let plan ← item.reading
  pure (Render.implementation item "Decode" (Render.reading plan))

/-- The text of the code that `generate` makes of the item in some tokens, or of its first error. -/
def expand (generate : Item → Except SyntaxError (List Token)) (tokens : List Token) : String :=
  match Item.parse tokens >>= generate with
  | .ok generated => Token.renderAll generated
  | .error e => Token.renderAll (Render.failure e)

end RecordCodec.Code
