import RecordCodec.Code.Declaration
import RecordCodec.Code.Render
import RecordCodec.Compatible
import RecordCodec.Proofs.Accounting
import RecordCodec.Proofs.Bitmaps
import RecordCodec.Proofs.Boundaries
import RecordCodec.Proofs.Bounds
import RecordCodec.Proofs.Collections
import RecordCodec.Proofs.Defaults
import RecordCodec.Proofs.Descriptions
import RecordCodec.Proofs.Discriminants
import RecordCodec.Proofs.Implementations
import RecordCodec.Proofs.MachineCalls
import RecordCodec.Proofs.Packing
import RecordCodec.Proofs.PartialReading
import RecordCodec.Proofs.Placement
import RecordCodec.Proofs.Reports
import RecordCodec.Proofs.Restoration
import RecordCodec.Proofs.Samples
import RecordCodec.Proofs.Sinks
import RecordCodec.Proofs.Streams
import RecordCodec.Proofs.VariableLength
import RecordCodec.Proofs.Views
