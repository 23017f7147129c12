import RecordCodec.Proofs.Closure
import RecordCodec.Proofs.Slots

/-! # Values are read out of their own bytes

Reading a value and stepping over one are local: what stands behind the bytes that they pass has no
part in their success. So a value that is found in a record is found in a copy of its bytes too.
-/
namespace RecordCodec

theorem Read.local_elementary : Read.Elementary Read.Local where
  pure := .pure
  bind := .bind
  fail _ := .throw _
  take := local_take

theorem Read.local_closed : Read.Closed Read.Local where
  toElementary := local_elementary
  length := local_elementary.length_of_options local_options
  payload := Slots.local_payload
  throw := .throw

open Read (Local local_closed)

namespace Schema

theorem local_decode (t : Schema) : Local t.decode := t.decode_of_closed local_closed

theorem local_decodeFields (fs : List Field) (s : Slots) : Local (decodeFields fs s) :=
  decodeFields_of_closed local_closed fs s

end Schema

theorem Descriptor.local_skip (d : Descriptor) : Local d.skip :=
  d.skip_of_sequential local_closed.toSequential

end RecordCodec
