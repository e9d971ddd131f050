import Bronti.Main
import Bronti.Proofs.Rendering
import Bronti.Proofs.Layout
import Bronti.Proofs.Lexing
import Bronti.Proofs.ReadingSound
import Bronti.Proofs.Passing
import Bronti.Proofs.ReadingComplete
import Bronti.Proofs.Endings
import Bronti.Proofs.FrameDiscipline
import Bronti.Proofs.KindSafety
import Bronti.Proofs.Correspondence
import Bronti.Proofs.Likeness
import Bronti.Proofs.Rewriting
import Bronti.Proofs.Observation
import Bronti.Proofs.Renaming
import Bronti.Proofs.Unmentioned
import Bronti.Proofs.Parentheses
import Bronti.Proofs.DeadCode
import Bronti.Proofs.Stacks
import Bronti.Proofs.Shadowing
import Bronti.Proofs.Lowering
import Bronti.Proofs.Roles
import Bronti.Proofs.ParsedTrees
import Bronti.Proofs.ExtraFrame
import Bronti.Proofs.Braces
import Bronti.Proofs.ReadingApart
import Bronti.Proofs.Joining
import Bronti.Proofs.Unspanned
import Bronti.Proofs.Piecewise
import Bronti.Proofs.Invariants
import Bronti.Proofs.Division
import Bronti.Proofs.MachineArithmetic
import Bronti.Proofs.Faultless
import Bronti.Proofs.WordRange
import Bronti.Proofs.EntryPoints
import Bronti.Proofs.Places
import Bronti.Proofs.Nodes
import Bronti.Proofs.Placement
import Bronti.Proofs.Stopping
import Bronti.Proofs.Truncation
import Bronti.Proofs.FirstFailure
import Bronti.Proofs.Excerpts
import Bronti.Proofs.ErrorLines
import Bronti.Proofs.Defects
import Bronti.Proofs.Strictness
import Bronti.Proofs.Mirroring
import Bronti.Proofs.Tracing
import Bronti.Proofs.Decimal
import Bronti.Proofs.Inlining
import Bronti.Proofs.Bindings
import Bronti.Proofs.Sparing
import Bronti.Proofs.Subruns
import Bronti.Proofs.ResultKinds
import Bronti.Proofs.Finishing
import Bronti.Proofs.CallGraph
import Bronti.Proofs.Separators
import Bronti.Proofs.Output
import Bronti.Proofs.ExcerptLayout
import Bronti.Proofs.Labels
import Bronti.Proofs.Dumps
import Bronti.Proofs.Literals
import Bronti.Proofs.Repetition
