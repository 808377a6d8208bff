import Lox.Forest
import Lox.Main
import Lox.Proofs.Grammar.Acceptance
import Lox.Proofs.Machine.Steps
import Lox.Proofs.Scope.Inputs
import Lox.Proofs.Scope.Recorded
import Lox.Proofs.Machine.Catching
import Lox.Proofs.Session.Activations
import Lox.Proofs.Session.Catching
import Lox.Proofs.Session.Definedness
import Lox.Proofs.Session.Renaming
import Lox.Proofs.Session.Restoration
import Lox.Proofs.Session.Batch
import Lox.Proofs.Scope.Sites
import Lox.Proofs.Session.Layout
import Lox.Proofs.Session.Termination
import Lox.Proofs.Session.Room
import Lox.Proofs.Source.Decomposition
import Lox.Proofs.Session.Binding
import Lox.Proofs.Session.ForLoop
import Lox.Proofs.Grammar.Line
import Lox.Proofs.Grammar.Recovery
import Lox.Proofs.Session.Lines
import Lox.Proofs.Grammar.OneComplaint
import Lox.Proofs.Grammar.Bounds
import Lox.Proofs.Grammar.Strays
import Lox.Proofs.Scope.LocalFaults
import Lox.Proofs.Scope.Placement
import Lox.Proofs.Scope.Closing
import Lox.Proofs.Session.Nesting
import Lox.Proofs.Session.Construction
import Lox.Proofs.Session.Printing
import Lox.Proofs.Forest.Access
import Lox.Proofs.Forest.Writes
import Lox.Proofs.Source.Counting
import Lox.Proofs.Source.Spacing
import Lox.Proofs.Source.Blanking
import Lox.Proofs.Source.NestedComments
import Lox.Proofs.Grammar.OpenLoops
import Lox.Proofs.Grammar.Readback
import Lox.Proofs.Scope.Walks
import Lox.Proofs.Session.Identities
