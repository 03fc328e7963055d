import ProtoScribe.Binary64
import ProtoScribe.Code.Basic
import ProtoScribe.Code.Emit
import ProtoScribe.Code.Module
import ProtoScribe.Code.Object
import ProtoScribe.Code.Printer
import ProtoScribe.Code.Run
import ProtoScribe.Codec.Agreement
import ProtoScribe.Codec.Conform
import ProtoScribe.Codec.Encode
import ProtoScribe.Codec.Evolution
import ProtoScribe.Codec.Normal
import ProtoScribe.Codec.Read
import ProtoScribe.Codec.Slot
import ProtoScribe.Codec.Write
import ProtoScribe.CommandLine.Command
import ProtoScribe.CommandLine.Directory
import ProtoScribe.CommandLine.Grammar
import ProtoScribe.CommandLine.Note
import ProtoScribe.CommandLine.Report
import ProtoScribe.CommandLine.Tree
import ProtoScribe.Cursor.Basic
import ProtoScribe.Cursor.Method
import ProtoScribe.Cursor.Read
import ProtoScribe.Cursor.Script
import ProtoScribe.Cursor.Session
import ProtoScribe.Cursor.Write
import ProtoScribe.Decimal.Reading
import ProtoScribe.Decimal.Shortest
import ProtoScribe.Decimal.Written
import ProtoScribe.Descriptor.Basic
import ProtoScribe.Descriptor.Decode
import ProtoScribe.Descriptor.Description
import ProtoScribe.Fault
import ProtoScribe.Json
import ProtoScribe.Main
import ProtoScribe.Path
import ProtoScribe.Scalar
import ProtoScribe.Schema.Basic
import ProtoScribe.Schema.Description
import ProtoScribe.Schema.File
import ProtoScribe.Scope.Basic
import ProtoScribe.Scope.Defaults
import ProtoScribe.Text.Dotted
import ProtoScribe.Text.Numeral
import ProtoScribe.Text.Printable
import ProtoScribe.Text.Quoted
import ProtoScribe.Value
import ProtoScribe.Value.Conversion
import ProtoScribe.Value.Display
import ProtoScribe.Wire.Coding
import ProtoScribe.Wire.Varint
import ProtoScribe.Proofs.Binary64
import ProtoScribe.Proofs.Code.Acceptance
import ProtoScribe.Proofs.Code.Binding
import ProtoScribe.Proofs.Code.Canonical
import ProtoScribe.Proofs.Code.Defaults
import ProtoScribe.Proofs.Code.Emission
import ProtoScribe.Proofs.Code.Entries
import ProtoScribe.Proofs.Code.Evaluation
import ProtoScribe.Proofs.Code.Evolution
import ProtoScribe.Proofs.Code.Frames
import ProtoScribe.Proofs.Code.Framing
import ProtoScribe.Proofs.Code.Hygiene
import ProtoScribe.Proofs.Code.Literals
import ProtoScribe.Proofs.Code.Merging
import ProtoScribe.Proofs.Code.Options
import ProtoScribe.Proofs.Code.Pruning
import ProtoScribe.Proofs.Code.Reading
import ProtoScribe.Proofs.Code.Reencoding
import ProtoScribe.Proofs.Code.References
import ProtoScribe.Proofs.Code.Refinement
import ProtoScribe.Proofs.Code.RoundTrip
import ProtoScribe.Proofs.Code.Safety
import ProtoScribe.Proofs.Code.Writing
import ProtoScribe.Proofs.Codec.Canonical
import ProtoScribe.Proofs.Codec.Defaults
import ProtoScribe.Proofs.Codec.Depth
import ProtoScribe.Proofs.Codec.Encoding
import ProtoScribe.Proofs.Codec.Entries
import ProtoScribe.Proofs.Codec.Evolution
import ProtoScribe.Proofs.Codec.Folding
import ProtoScribe.Proofs.Codec.Merging
import ProtoScribe.Proofs.Codec.Omission
import ProtoScribe.Proofs.Codec.Reading
import ProtoScribe.Proofs.Codec.Reencoding
import ProtoScribe.Proofs.Codec.RoundTrip
import ProtoScribe.Proofs.Codec.Scalars
import ProtoScribe.Proofs.Cursor.Emission
import ProtoScribe.Proofs.Cursor.Faults
import ProtoScribe.Proofs.Cursor.Forward
import ProtoScribe.Proofs.Cursor.Framing
import ProtoScribe.Proofs.Cursor.Growth
import ProtoScribe.Proofs.Cursor.Locality
import ProtoScribe.Proofs.Cursor.Scripts
import ProtoScribe.Proofs.Cursor.Session
import ProtoScribe.Proofs.Cursor.Skipping
import ProtoScribe.Proofs.Cursor.Transfer
import ProtoScribe.Proofs.Cursor.Varint
import ProtoScribe.Proofs.Descriptor.Conversion
import ProtoScribe.Proofs.Descriptor.Description
import ProtoScribe.Proofs.Descriptor.Loading
import ProtoScribe.Proofs.Descriptor.References
import ProtoScribe.Proofs.Outcome
import ProtoScribe.Proofs.Run
import ProtoScribe.Proofs.Schema.Described
import ProtoScribe.Proofs.Schema.Grammar
import ProtoScribe.Proofs.Schema.Loading
import ProtoScribe.Proofs.Scope.Acceptance
import ProtoScribe.Proofs.Scope.Defaults
import ProtoScribe.Proofs.Scope.Fields
import ProtoScribe.Proofs.Scope.Names
import ProtoScribe.Proofs.Scope.Options
import ProtoScribe.Proofs.Scope.Paths
import ProtoScribe.Proofs.Scope.Pruning
import ProtoScribe.Proofs.Scope.Resolution
import ProtoScribe.Proofs.Scope.Tree
import ProtoScribe.Proofs.Text.Numeral
import ProtoScribe.Proofs.Value
import ProtoScribe.Proofs.Wire.Varint
