import LuaAssembly.Bytecode.CodeListing
import LuaAssembly.Bytecode.Field
import LuaAssembly.Bytecode.Instruction
import LuaAssembly.Bytecode.Opcode
import LuaAssembly.Bytecode.Operand
import LuaAssembly.Bytes
import LuaAssembly.Bytes.Numeral
import LuaAssembly.Bytes.Printable
import LuaAssembly.Bytes.Utf8
import LuaAssembly.Cbor.Item
import LuaAssembly.Cbor.Read
import LuaAssembly.Chunk.Basic
import LuaAssembly.Chunk.Decode
import LuaAssembly.Chunk.Encode
import LuaAssembly.Chunk.Header
import LuaAssembly.Chunk.Listing
import LuaAssembly.Chunk.Sized
import LuaAssembly.Chunk.Writer
import LuaAssembly.Command.Request
import LuaAssembly.Command.Run
import LuaAssembly.Command.Switch
import LuaAssembly.Digest
import LuaAssembly.Document.Basic
import LuaAssembly.Document.Export
import LuaAssembly.Document.Import
import LuaAssembly.Editor.Diagnostic
import LuaAssembly.Editor.Navigation
import LuaAssembly.Editor.Place
import LuaAssembly.Editor.Session
import LuaAssembly.Editor.Vocabulary
import LuaAssembly.Main
import LuaAssembly.Number
import LuaAssembly.Number.Binary
import LuaAssembly.Number.Numeral
import LuaAssembly.Number.Shortest
import LuaAssembly.Project.Build
import LuaAssembly.Project.Lock
import LuaAssembly.Project.Manifest
import LuaAssembly.Proofs.Bytecode.Independence
import LuaAssembly.Proofs.Bytecode.Word
import LuaAssembly.Proofs.Bytes.Numeral
import LuaAssembly.Proofs.Bytes.Utf8
import LuaAssembly.Proofs.Cbor.ReadBack
import LuaAssembly.Proofs.Chunk.Delivery
import LuaAssembly.Proofs.Chunk.Extension
import LuaAssembly.Proofs.Chunk.Fields
import LuaAssembly.Proofs.Chunk.Indexed
import LuaAssembly.Proofs.Chunk.Layout
import LuaAssembly.Proofs.Chunk.Limits
import LuaAssembly.Proofs.Chunk.ReadBack
import LuaAssembly.Proofs.Chunk.Respelling
import LuaAssembly.Proofs.Chunk.RoundTrip
import LuaAssembly.Proofs.Chunk.Safety
import LuaAssembly.Proofs.Chunk.Shifts
import LuaAssembly.Proofs.Chunk.Stability
import LuaAssembly.Proofs.Chunk.Stored
import LuaAssembly.Proofs.Chunk.Tree
import LuaAssembly.Proofs.Document.Digest
import LuaAssembly.Proofs.Document.ReadBack
import LuaAssembly.Proofs.Document.Restore
import LuaAssembly.Proofs.Document.RoundTrip
import LuaAssembly.Proofs.Editor.Definition
import LuaAssembly.Proofs.Editor.Diagnostic
import LuaAssembly.Proofs.Editor.Symbol
import LuaAssembly.Proofs.Editor.Word
import LuaAssembly.Proofs.Number.Conversion
import LuaAssembly.Proofs.Number.Ratio
import LuaAssembly.Proofs.Number.Rounding
import LuaAssembly.Proofs.Number.Shortest
import LuaAssembly.Proofs.Number.Text
import LuaAssembly.Proofs.Project.Containment
import LuaAssembly.Proofs.Project.Idle
import LuaAssembly.Proofs.Project.Incremental
import LuaAssembly.Proofs.Project.LockText
import LuaAssembly.Proofs.Project.Lookup
import LuaAssembly.Proofs.Project.Run
import LuaAssembly.Proofs.Project.Units
import LuaAssembly.Proofs.Source.Arena
import LuaAssembly.Proofs.Source.Argument
import LuaAssembly.Proofs.Source.Arrangement
import LuaAssembly.Proofs.Source.Blame
import LuaAssembly.Proofs.Source.Closing
import LuaAssembly.Proofs.Source.Cursor
import LuaAssembly.Proofs.Source.Describing
import LuaAssembly.Proofs.Source.Dumped
import LuaAssembly.Proofs.Source.Encoded
import LuaAssembly.Proofs.Source.Entries
import LuaAssembly.Proofs.Source.Exchange
import LuaAssembly.Proofs.Source.Faults
import LuaAssembly.Proofs.Source.Function
import LuaAssembly.Proofs.Source.Grammar
import LuaAssembly.Proofs.Source.Instruction
import LuaAssembly.Proofs.Source.Items
import LuaAssembly.Proofs.Source.Layout
import LuaAssembly.Proofs.Source.Lexing
import LuaAssembly.Proofs.Source.Literal
import LuaAssembly.Proofs.Source.Nesting
import LuaAssembly.Proofs.Source.Numbered
import LuaAssembly.Proofs.Source.Outline
import LuaAssembly.Proofs.Source.Packing
import LuaAssembly.Proofs.Source.Parsed
import LuaAssembly.Proofs.Source.Path
import LuaAssembly.Proofs.Source.Program
import LuaAssembly.Proofs.Source.Reassembly
import LuaAssembly.Proofs.Source.Recoding
import LuaAssembly.Proofs.Source.Relisting
import LuaAssembly.Proofs.Source.Restart
import LuaAssembly.Proofs.Source.Script
import LuaAssembly.Proofs.Source.Steps
import LuaAssembly.Proofs.Source.Tokens
import LuaAssembly.Proofs.Storage.FileSystem
import LuaAssembly.Proofs.Storage.Install
import LuaAssembly.Source.Assembly
import LuaAssembly.Source.Directive
import LuaAssembly.Source.Draft
import LuaAssembly.Source.Failure
import LuaAssembly.Source.Literal
import LuaAssembly.Source.Position
import LuaAssembly.Source.Reading
import LuaAssembly.Source.Statement
import LuaAssembly.Source.Token
import LuaAssembly.Storage.FileSystem
import LuaAssembly.Storage.FileTask
import LuaAssembly.Storage.Path
import LuaAssembly.Toml.Read
import LuaAssembly.Toml.Scalar
import LuaAssembly.Toml.Setting
import LuaAssembly.Toml.Syntax
import LuaAssembly.Toml.Table
import LuaAssembly.Toml.Text
