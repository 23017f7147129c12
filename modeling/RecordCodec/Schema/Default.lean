import RecordCodec.Schema

/-! # Default values

The value that a place of a schema has before anything is put into it: zero, nothing, or a whole of
such parts.
-/
namespace RecordCodec

namespace Scalar

def default : Scalar → Value
  | bool => .bool false
  | char => .char (Char.ofNat 0)
  | f32 | f64 => .float 0
  | _ => .int 0

end Scalar

namespace Schema

mutual

/-- The default of a schema; of an enum that of its first alternative. -/
def default : Schema → Value
  | unit => .unit
  | scalar s => s.default
  | text => .text ""
  | duration => .record [.int 0, .int 0]
  | sequence _ | set _ | map .. => .sequence []
  | array t n => .sequence (List.replicate n t.default)
  | option _ | compatible .. => .absent
  | tuple ts => .record (defaults ts)
  | pointer _ t | named _ t => t.default
  | struct _ _ fields => .record (fieldDefaults fields)
  | enum _ _ [] => .unit
  | enum _ _ (.mk _ _ fields :: _) => .variant 0 (fieldDefaults fields)
  | reference _ => .unit
termination_by structural t => t

def defaults : List Schema → List Value
  | [] => []
  | t :: ts => t.default :: defaults ts
termination_by structural ts => ts

def fieldDefaults : List Field → List Value
  | [] => []
  | .mandatory _ t :: fs => t.default :: fieldDefaults fs
  | .compatible .. :: fs => .absent :: fieldDefaults fs
  | .skipped _ _ v :: fs => v :: fieldDefaults fs
termination_by structural fs => fs

end
end Schema
end RecordCodec
