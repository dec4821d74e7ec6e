import CilMethod.Body
import CilMethod.CommandLine
import CilMethod.Decimal.Binary
import CilMethod.Decimal.Reader
import CilMethod.Decimal.Shortest
import CilMethod.Directory
import CilMethod.Error
import CilMethod.Handle
import CilMethod.Handler
import CilMethod.Image.Bytes
import CilMethod.Image.Code
import CilMethod.Image.Encoder
import CilMethod.Image.HandlerTable
import CilMethod.Image.Signature
import CilMethod.Image.UserStrings
import CilMethod.Instruction
import CilMethod.Listing.Basic
import CilMethod.Listing.Error
import CilMethod.Listing.Line
import CilMethod.Listing.Printer
import CilMethod.Listing.Reader
import CilMethod.Locals
import CilMethod.Main
import CilMethod.Metadata.Attributes
import CilMethod.Metadata.Token
import CilMethod.Metadata.TypeGraph
import CilMethod.Offset
import CilMethod.Opcode.Basic
import CilMethod.Opcode.Table
import CilMethod.Operand
import CilMethod.Proofs.Changes
import CilMethod.Proofs.CodeStream
import CilMethod.Proofs.Consistency
import CilMethod.Proofs.Contents
import CilMethod.Proofs.DanglingTargets
import CilMethod.Proofs.Decoder
import CilMethod.Proofs.Edits
import CilMethod.Proofs.FailedEncoding
import CilMethod.Proofs.Faults
import CilMethod.Proofs.FreshListing
import CilMethod.Proofs.Layouts
import CilMethod.Proofs.Levels
import CilMethod.Proofs.Lines
import CilMethod.Proofs.Links
import CilMethod.Proofs.Literals
import CilMethod.Proofs.Loads
import CilMethod.Proofs.MemberNames
import CilMethod.Proofs.NamedPlaces
import CilMethod.Proofs.Numerals
import CilMethod.Proofs.OperandBytes
import CilMethod.Proofs.Outlines
import CilMethod.Proofs.Placeholders
import CilMethod.Proofs.PrintedCode
import CilMethod.Proofs.PrintedHandlers
import CilMethod.Proofs.ProtectedRanges
import CilMethod.Proofs.Recompute
import CilMethod.Proofs.Reencoding
import CilMethod.Proofs.RegisteredNames
import CilMethod.Proofs.Removals
import CilMethod.Proofs.Reprint
import CilMethod.Proofs.Rereading
import CilMethod.Proofs.Runs
import CilMethod.Proofs.SharedLiterals
import CilMethod.Proofs.SignatureReader
import CilMethod.Proofs.SourceFaults
import CilMethod.Proofs.SourceLayout
import CilMethod.Proofs.TypeNames
import CilMethod.Proofs.TypeRegistry
import CilMethod.Proofs.Undoing
import CilMethod.Proofs.VariableLists
import CilMethod.Proofs.Variables
import CilMethod.Proofs.Walks
import CilMethod.Proofs.Widening
import CilMethod.Scope
import CilMethod.Sequence.Basic
import CilMethod.Sequence.ByHandle
import CilMethod.Sequence.Layout
import CilMethod.Sequence.Script
import CilMethod.Text.Blank
import CilMethod.Text.Numeral
import CilMethod.Text.Quoted
import CilMethod.Text.Unprinted
