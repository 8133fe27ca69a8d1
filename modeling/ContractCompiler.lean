import ContractCompiler.Main
import ContractCompiler.Proofs.Binding.Ambient
import ContractCompiler.Proofs.Binding.Receiver
import ContractCompiler.Proofs.Binding.SpanKeys
import ContractCompiler.Proofs.Contract.Characters
import ContractCompiler.Proofs.Contract.FirstUnknown
import ContractCompiler.Proofs.Contract.Indentation
import ContractCompiler.Proofs.Contract.Operators
import ContractCompiler.Proofs.Contract.Placeholders
import ContractCompiler.Proofs.Contract.ReadBack
import ContractCompiler.Proofs.Contract.Renderable
import ContractCompiler.Proofs.Emission
import ContractCompiler.Proofs.Formatting.Compiling
import ContractCompiler.Proofs.Printing.RoundTrip
import ContractCompiler.Proofs.Printing.Statements
import ContractCompiler.Proofs.Reading.Bodies
import ContractCompiler.Proofs.Reading.Skipping
import ContractCompiler.Proofs.Reading.Coverage
import ContractCompiler.Proofs.Reading.Precedence
import ContractCompiler.Proofs.Reading.RightShifts
import ContractCompiler.Proofs.Spans.Validity
import ContractCompiler.Proofs.Text.Utf8
import ContractCompiler.Proofs.Token.Escapes
import ContractCompiler.Proofs.Token.NumberFlaws
import ContractCompiler.Proofs.Token.Printable
import ContractCompiler.Proofs.Token.Reprint
import ContractCompiler.Proofs.Token.Tiling
import ContractCompiler.Proofs.Binding.Independence
import ContractCompiler.Proofs.CommandLine.Checking
import ContractCompiler.Proofs.Reading.Settling
import ContractCompiler.Proofs.Reading.Progress
import ContractCompiler.Proofs.Reading.Bounds
import ContractCompiler.Proofs.Contract.Frame
import ContractCompiler.Proofs.Output.Buffers
import ContractCompiler.Proofs.Text.Json
import ContractCompiler.Proofs.Output.Records
import ContractCompiler.Proofs.Output.Capacity
import ContractCompiler.Proofs.Output.Directory
import ContractCompiler.Proofs.Contract.MappedTypes
import ContractCompiler.Proofs.Reading.OtherItems
import ContractCompiler.Proofs.Contract.FieldNames
import ContractCompiler.Proofs.Printing.Annotations
