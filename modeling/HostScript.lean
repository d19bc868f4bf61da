import HostScript.Code.Interchange
import HostScript.Compile
import HostScript.Eval
import HostScript.Host.Stock
import HostScript.Machine
import HostScript.Source
import HostScript.Proofs.Typing
import HostScript.Proofs.Reader.Moves
import HostScript.Proofs.Reader.Typed
import HostScript.Proofs.Evaluation
import HostScript.Proofs.Scoping
import HostScript.Proofs.Machine.Path
import HostScript.Proofs.Machine.Simulation
import HostScript.Proofs.Machine.Compiled
import HostScript.Proofs.Reader.Layout
import HostScript.Proofs.Reader.Standing
import HostScript.Proofs.Reader.Tokens
import HostScript.Proofs.Spelling
import HostScript.Proofs.Reader.Phrases
import HostScript.Proofs.Reader.Expressions
import HostScript.Proofs.Reader.Derivations
import HostScript.Proofs.Folding
import HostScript.Proofs.Host
import HostScript.Proofs.Machine.DeadBranches
import HostScript.Proofs.Machine.Forward
import HostScript.Proofs.Machine.Returns
import HostScript.Proofs.Json.Text
import HostScript.Proofs.Json.Artifacts
import HostScript.Proofs.Stream.Lookahead
import HostScript.Proofs.Reader.Proceeding
import HostScript.Proofs.Reader.Progress
import HostScript.Proofs.Reader.Composition
import HostScript.Proofs.Reader.Termination
import HostScript.Proofs.Stream.Tiling
import HostScript.Proofs.Stream.Positions
import HostScript.Proofs.Machine.References
import HostScript.Proofs.Machine.Alongside
import HostScript.Proofs.Host.Sessions
import HostScript.Proofs.Host.Growth
import HostScript.Proofs.Reader.Parallel
import HostScript.Proofs.Reader.Blanks
import HostScript.Proofs.Reader.Errors
import HostScript.Proofs.Reader.Openings
import HostScript.Proofs.Reader.Completeness
import HostScript.Proofs.Reader.RoundTrip
import HostScript.Proofs.Reader.Failures
import HostScript.Proofs.Reader.Mentions
import HostScript.Proofs.Host.Frame
import HostScript.Proofs.Reader.Printing
import HostScript.Proofs.Reader.Longest
import HostScript.Proofs.Machine.Folded
import HostScript.Proofs.Reader.Nodes
import HostScript.Proofs.Resolution
import HostScript.Proofs.Reader.Alternatives
import HostScript.Proofs.Reader.TrialOrder
import HostScript.Proofs.Code.Listing
import HostScript.Proofs.Numerals
import HostScript.Proofs.Stream.Diagnostics
