import NandStack.Session.CommandLine
import NandStack.Main
import NandStack.Proofs.Program.RoundTrip
import NandStack.Proofs.Program.Completion
import NandStack.Proofs.Token.Numerals
import NandStack.Proofs.Scopes.History
import NandStack.Proofs.Machine.Framing
import NandStack.Proofs.Machine.DepthLimit
import NandStack.Proofs.Machine.Shadowing
import NandStack.Proofs.Machine.Factoring
import NandStack.Proofs.Machine.Layout
import NandStack.Proofs.Machine.Checks
import NandStack.Proofs.Vocabulary.Comparisons
import NandStack.Proofs.Vocabulary.InPlace
import NandStack.Proofs.Session.Addresses
import NandStack.Proofs.Session.Observers
import NandStack.Proofs.Session.Reports
import NandStack.Proofs.Session.Capacity
import NandStack.Proofs.Session.Transcript
