import ScannerlessLR.Main
import ScannerlessLR.Table.Encode
import ScannerlessLR.Proofs.Parser.Deduplication
import ScannerlessLR.Proofs.Parser.Dispatch
import ScannerlessLR.Proofs.Parser.Freezing
import ScannerlessLR.Proofs.Parser.LivePaths
import ScannerlessLR.Proofs.Parser.Outcome
import ScannerlessLR.Proofs.Parser.Ownership
import ScannerlessLR.Proofs.Parser.Recognition
import ScannerlessLR.Proofs.Parser.Termination
import ScannerlessLR.Proofs.Stack.Enumeration
import ScannerlessLR.Proofs.Term.Feeding
import ScannerlessLR.Proofs.Term.Grammar
import ScannerlessLR.Proofs.Term.Reading
import ScannerlessLR.Proofs.Term.Tracing
import ScannerlessLR.Proofs.Term.Printing
import ScannerlessLR.Proofs.Table.Validation
import ScannerlessLR.Proofs.Table.Serialization
import ScannerlessLR.Proofs.Term.Faults
import ScannerlessLR.Proofs.Forest.LeastSolution
import ScannerlessLR.Proofs.Forest.Text
import ScannerlessLR.Proofs.Parser.Lookahead
