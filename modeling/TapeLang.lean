import TapeLang.CommandLine
import TapeLang.Files.Tree
import TapeLang.Repl
import TapeLang.Tape.Lemmas
import TapeLang.Streams.Lemmas
import TapeLang.Main
import TapeLang.Proofs.Brackets.Scanning
import TapeLang.Proofs.Brackets.Table
import TapeLang.Proofs.Tape.View
import TapeLang.Proofs.Machine.Blocks
import TapeLang.Proofs.Machine.Alignment
import TapeLang.Proofs.Machine.Condensing
import TapeLang.Proofs.Source.Fusing
import TapeLang.Proofs.Source.Reencoding
import TapeLang.Proofs.Source.Weight
import TapeLang.Proofs.Source.Minifying
import TapeLang.Proofs.Brackets.Partners
import TapeLang.Proofs.Source.Walk
import TapeLang.Proofs.Source.Lockstep
import TapeLang.Proofs.Machine.Progress
import TapeLang.Proofs.Command.Meaning
import TapeLang.Proofs.Command.Flattening
import TapeLang.Proofs.Machine.Calls
import TapeLang.Proofs.Machine.Installing
import TapeLang.Proofs.Machine.Staying
import TapeLang.Proofs.Machine.Bare
import TapeLang.Proofs.Machine.Safety
import TapeLang.Proofs.Machine.Unending
import TapeLang.Proofs.Machine.Cutting
import TapeLang.Proofs.Source.Restoring
import TapeLang.Proofs.Brackets.Checking
import TapeLang.Proofs.Machine.Exchange
import TapeLang.Proofs.Machine.Twins
import TapeLang.Proofs.Streams.Mending
import TapeLang.Proofs.Machine.Persisting
import TapeLang.Proofs.Machine.Limiting
import TapeLang.Proofs.Machine.Composing
import TapeLang.Proofs.Registry.Reversing
import TapeLang.Proofs.Repl.Accounting
import TapeLang.Proofs.CommandLine.Agreement
import TapeLang.Proofs.Registry.Copying
import TapeLang.Proofs.Machine.Prolonging
import TapeLang.Proofs.Machine.Flushing
import TapeLang.Proofs.Program.Storing
import TapeLang.Proofs.Brackets.Matching
import TapeLang.Proofs.Program.NormalForm
import TapeLang.Proofs.Source.Symbols
import TapeLang.Proofs.Source.Canceling
import TapeLang.Proofs.Source.Settling
import TapeLang.Proofs.Source.Grouping
import TapeLang.Proofs.Source.Decoding
import TapeLang.Proofs.Source.Loading
import TapeLang.Proofs.Tape.Doubling
import TapeLang.Proofs.Tape.Spreading
import TapeLang.Proofs.Machine.Repeating
import TapeLang.Proofs.Machine.Multiplying
import TapeLang.Proofs.Machine.Restarting
import TapeLang.Proofs.Json.Assembling
import TapeLang.Proofs.Source.Directories
import TapeLang.Proofs.Settings.Members
import TapeLang.Proofs.Machine.Narrating
import TapeLang.Proofs.CommandLine.Piping
import TapeLang.Proofs.Program.Reloading
import TapeLang.Proofs.Source.Concatenating
