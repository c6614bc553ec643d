import Piecemeal.Buffer
import Piecemeal.Input
import Piecemeal.Failure
import Piecemeal.Run
import Piecemeal.Prompt
import Piecemeal.Gather
import Piecemeal.Parser.Basic
import Piecemeal.Parser.Choice
import Piecemeal.Parser.Repeat
import Piecemeal.Parser.Token
import Piecemeal.Parser.Scan
import Piecemeal.Exec
import Piecemeal.Reading
import Piecemeal.Parse
import Piecemeal.Binary64
import Piecemeal.Text.Letter
import Piecemeal.Text.Blank
import Piecemeal.Text.Quoted
import Piecemeal.Text.CharClass
import Piecemeal.Text.Parsers
import Piecemeal.Source
import Piecemeal.Records
import Piecemeal.Arena.Basic
import Piecemeal.Arena.Machine
import Piecemeal.Arena.Lists
import Piecemeal.Proofs.Outcome
import Piecemeal.Proofs.Paths
import Piecemeal.Proofs.Built
import Piecemeal.Proofs.Record
import Piecemeal.Proofs.Conservation
import Piecemeal.Proofs.Budget
import Piecemeal.Proofs.Adequacy
import Piecemeal.Proofs.Reads
import Piecemeal.Proofs.Future
import Piecemeal.Proofs.Chunking
import Piecemeal.Proofs.Delivery
import Piecemeal.Proofs.Turns
import Piecemeal.Proofs.Decoding
import Piecemeal.Proofs.Windows
import Piecemeal.Proofs.Guarded
import Piecemeal.Proofs.Termination
import Piecemeal.Proofs.Passes
import Piecemeal.Proofs.Progress
import Piecemeal.Proofs.SourceUse
import Piecemeal.Proofs.Completing
import Piecemeal.Proofs.EmptyChunks
import Piecemeal.Proofs.Filling
import Piecemeal.Proofs.Scanning
import Piecemeal.Proofs.Promptness
import Piecemeal.Proofs.Alternatives
import Piecemeal.Proofs.EndTests
import Piecemeal.Proofs.Failing
import Piecemeal.Proofs.LeastReading
import Piecemeal.Proofs.Deliveries
import Piecemeal.Proofs.NeverFailing
import Piecemeal.Proofs.Shortage
import Piecemeal.Proofs.Draining
import Piecemeal.Proofs.StreamReadings
import Piecemeal.Proofs.LeftmostMatch
import Piecemeal.Proofs.Numerals
import Piecemeal.Proofs.DirectStyle
import Piecemeal.Proofs.Lines
import Piecemeal.Proofs.Rounding
import Piecemeal.Proofs.DecimalValues
