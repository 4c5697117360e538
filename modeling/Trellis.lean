import Trellis.Main
import Trellis.Proofs.Grammar.WellFormed
import Trellis.Proofs.Run.Frame
import Trellis.Proofs.Run.Schedule
import Trellis.Proofs.Layout.RoundTrip
import Trellis.Proofs.Grammar.Steady
import Trellis.Proofs.Grammar.Matching
import Trellis.Proofs.Session.Isolation
import Trellis.Proofs.Session.Completeness
import Trellis.Proofs.Run.Accounts
import Trellis.Proofs.Run.Grounded
import Trellis.Proofs.Run.Return
import Trellis.Proofs.Run.Beside
import Trellis.Proofs.Run.Breakpoints
import Trellis.Proofs.Run.Constants
import Trellis.Proofs.Run.Names
import Trellis.Proofs.Run.Faults
import Trellis.Proofs.Run.Indifference
import Trellis.Proofs.Run.Loading
import Trellis.Proofs.Script.Nodes
import Trellis.Proofs.Script.Outline
import Trellis.Proofs.Grammar.Numbering
import Trellis.Proofs.Layout.Kept
import Trellis.Proofs.Layout.Stability
import Trellis.Proofs.Token.Places
import Trellis.Proofs.Grammar.Stripped
import Trellis.Proofs.Grammar.Tracks
import Trellis.Proofs.Run.Located
import Trellis.Proofs.Token.Origin
import Trellis.Proofs.Report.Underline
import Trellis.Proofs.Grammar.Yields
import Trellis.Proofs.Grammar.Anchored
import Trellis.Proofs.Run.Apt
import Trellis.Proofs.Path.Folding
import Trellis.Proofs.Path.Joining
import Trellis.Proofs.Scope.Assignment
import Trellis.Proofs.Run.Using
import Trellis.Proofs.Value.Comparison
import Trellis.Proofs.Value.Members
import Trellis.Proofs.Run.Folded
import Trellis.Proofs.Run.Parameters
import Trellis.Proofs.Value.Searching
import Trellis.Proofs.Value.Fields
import Trellis.Proofs.Token.BlankLines
import Trellis.Proofs.Token.Spacing
import Trellis.Proofs.Token.Faults
import Trellis.Proofs.Grammar.Progress
import Trellis.Proofs.Scope.Deletion
