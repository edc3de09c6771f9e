import Bracket.FileSystem.Memory
import Bracket.Main
import Bracket.Proofs.Decoding
import Bracket.Proofs.Grammar.Recognition
import Bracket.Proofs.Lexing
import Bracket.Proofs.Commands
import Bracket.Proofs.RoundTrip
import Bracket.Proofs.Compilation.Gathering
import Bracket.Proofs.Compilation.Loss
import Bracket.Proofs.Positions
import Bracket.Proofs.FailurePlace
import Bracket.Proofs.Document
import Bracket.Proofs.Document.Wire
import Bracket.Proofs.Path
import Bracket.Proofs.Target
import Bracket.Proofs.ReadFailure
import Bracket.Proofs.Utf8.Encoding
import Bracket.Proofs.Chunks
import Bracket.Proofs.Document.Json
import Bracket.Proofs.FileSystem.Disk
import Bracket.Proofs.FileSystem.Confinement
import Bracket.Proofs.Output
import Bracket.Proofs.Compilation.Selection
import Bracket.Proofs.Compilation.Calls
import Bracket.Proofs.FileSystem.Memory
import Bracket.Proofs.Compilation.Unsupported
import Bracket.Proofs.Compilation.Pool
import Bracket.Proofs.Compilation.Dumps
import Bracket.Proofs.Compilation.Targets
import Bracket.Proofs.Complaint
import Bracket.Proofs.CommandLine
import Bracket.Proofs.Outline
import Bracket.Proofs.Lookahead
import Bracket.Proofs.Grammar.Diagnostics
import Bracket.Proofs.Grammar.Unclosed
import Bracket.Proofs.Grammar.Consumption
import Bracket.Proofs.Statistics
import Bracket.Proofs.TokenEnd
import Bracket.Proofs.Reporting
import Bracket.Proofs.Causes
import Bracket.Proofs.Target.Canonical
import Bracket.Proofs.FileSystem.Expansion
import Bracket.Proofs.FileSystem.ReadBack
import Bracket.Proofs.Path.Parts
import Bracket.Proofs.Reading
import Bracket.Proofs.Environment
import Bracket.Proofs.Environment.Directories
