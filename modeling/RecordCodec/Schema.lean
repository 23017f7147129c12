import RecordCodec.Value

/-! # Schemas

The types of record values, unfolded to trees: scalars, text, collections, pointers, and declared
structs and enums with their fields. A struct's last fields may be compatible: they have slots of
their own, so that another release of the struct may lack them.
-/
namespace RecordCodec

inductive Scalar where
  | bool | u8 | i8 | u16 | i16 | u32 | i32 | u64 | i64 | u128 | i128 | f32 | f64 | char
deriving DecidableEq, Repr

namespace Scalar

def width : Scalar → Nat
  | bool | u8 | i8 => 1
  | u16 | i16 => 2
  | u32 | i32 | f32 | char => 4
  | u64 | i64 | f64 => 8
  | u128 | i128 => 16

def name : Scalar → String
  | bool => "bool"
  | u8 => "u8"
  | i8 => "i8"
  | u16 => "u16"
  | i16 => "i16"
  | u32 => "u32"
  | i32 => "i32"
  | u64 => "u64"
  | i64 => "i64"
  | u128 => "u128"
  | i128 => "i128"
  | f32 => "f32"
  | f64 => "f64"
  | char => "char"

def all : List Scalar :=
  [bool, u8, i8, u16, i16, u32, i32, u64, i64, u128, i128, f32, f64, char]

def named? (name : String) : Option Scalar := all.find? fun s => s.name == name

end Scalar

inductive Style where
  | unit
  | positional
  | named
deriving DecidableEq, Repr

/-- The pointers. A box owns its pointee; the others may share it. -/
inductive Pointer where
  | box
  | rc
  | arc
deriving DecidableEq, Repr

mutual

inductive Schema where
  | unit
  | scalar (s : Scalar)
  | text
  | duration
  | sequence (element : Schema)
  | set (element : Schema)
  | map (key value : Schema)
  | array (element : Schema) (length : Nat)
  | option (payload : Schema)
  | tuple (components : List Schema)
  | pointer (kind : Pointer) (pointee : Schema)
  /-- A compatible field's type where no struct has a slot for it. -/
  | compatible (payload : Schema) (version : Nat)
  | struct (name : String) (style : Style) (fields : List Field)
  /-- An enum; `label` is the name by which it reports a discriminant without alternative. -/
  | enum (name label : String) (alternatives : List Alternative)
  /-- A type under another name. -/
  | named (name : String) (of : Schema)
  /-- A declared type by name. In an unfolded schema it stands for a type inside its own
  definition. -/
  | reference (name : String)

inductive Field where
  | mandatory (name : String) (schema : Schema)
  | compatible (name : String) (version : Nat) (payload : Schema)
  /-- A field that no record holds, with the value that it has after reading. -/
  | skipped (name : String) (schema : Schema) (default : Value)

inductive Alternative where
  | mk (name : String) (style : Style) (fields : List Field)

end

namespace Alternative

def name : Alternative → String
  | mk name _ _ => name

def style : Alternative → Style
  | mk _ style _ => style

def fields : Alternative → List Field
  | mk _ _ fields => fields

end Alternative

namespace Field

def name : Field → String
  | mandatory name _ | compatible name _ _ | skipped name _ _ => name

/-- The field of that name and type: a compatible type makes it compatible. -/
def of (name : String) : Schema → Field
  | .compatible payload version => compatible name version payload
  | schema => mandatory name schema

end Field

namespace Pointer

def name : Pointer → String
  | box => "alloc::boxed::Box"
  | rc => "alloc::rc::Rc"
  | arc => "alloc::sync::Arc"

end Pointer

namespace Schema

def applied (name : String) (arguments : List String) : String :=
  name ++ "<" ++ ", ".intercalate arguments ++ ">"

mutual

def name : Schema → String
  | unit => "()"
  | scalar s => s.name
  | text => "alloc::string::String"
  | duration => "core::time::Duration"
  | sequence t => applied "alloc::vec::Vec" [t.name]
  | set t => applied "alloc::collections::btree::set::BTreeSet" [t.name]
  | map k v => applied "alloc::collections::btree::map::BTreeMap" [k.name, v.name]
  | array t n => "[" ++ t.name ++ s!"; {n}]"
  | option t => applied "core::option::Option" [t.name]
  | tuple [t] => "(" ++ t.name ++ ",)"
  | tuple ts => "(" ++ ", ".intercalate (names ts) ++ ")"
  | pointer p t => applied p.name [t.name]
  | compatible t 0 => applied "wirepack::compatible::Compatible" [t.name]
  | compatible t version =>
    applied "wirepack::compatible::Compatible" [t.name, s!"{version}"]
  | struct name .. | enum name .. | named name _ | reference name => name
termination_by structural t => t

def names : List Schema → List String
  | [] => []
  | t :: ts => t.name :: names ts
termination_by structural ts => ts

end

def usize : Schema := named "usize" (scalar .u64)

def isize : Schema := named "isize" (scalar .i64)

def str : Schema := named "str" text

def slice (element : Schema) : Schema := named ("[" ++ element.name ++ "]") (sequence element)

def deque (element : Schema) : Schema :=
  named (applied "alloc::collections::vec_deque::VecDeque" [element.name]) (sequence element)

def linkedList (element : Schema) : Schema :=
  named (applied "alloc::collections::linked_list::LinkedList" [element.name]) (sequence element)

def hashSet (element : Schema) : Schema :=
  named (applied "std::collections::hash::set::HashSet" [element.name]) (set element)

def hashMap (key value : Schema) : Schema :=
  named (applied "std::collections::hash::map::HashMap" [key.name, value.name]) (map key value)

/-- A mark that mentions a type and holds nothing of it. -/
def phantom (marked : Schema) : Schema :=
  named (applied "core::marker::PhantomData" [marked.name]) unit

def resultNamed (name : String) (success failure : Schema) : Schema :=
  enum name "Result"
    [.mk "Ok" .positional [.of "0" success], .mk "Err" .positional [.of "0" failure]]

def result (success failure : Schema) : Schema :=
  resultNamed (applied "core::result::Result" [success.name, failure.name]) success failure

end Schema
end RecordCodec
