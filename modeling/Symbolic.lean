import Symbolic.Builtin.Registration
import Symbolic.Definitions
import Symbolic.Newton
import Symbolic.Pattern.Construct
import Symbolic.Pattern.Mapping
import Symbolic.Pattern.Search
import Symbolic.Rule
import Symbolic.Stored
import Symbolic.Value.Update
import Symbolic.Proofs.Computation
import Symbolic.Proofs.Elements
import Symbolic.Proofs.Pattern.Relation
import Symbolic.Proofs.Pattern.Soundness
import Symbolic.Proofs.CanonicalOrder
import Symbolic.Proofs.Evaluation.Steps
import Symbolic.Proofs.Evaluation.Rewriting
import Symbolic.Proofs.Evaluation.Folding
import Symbolic.Proofs.Evaluation.Arrangement
import Symbolic.Proofs.Evaluation.Outcome
import Symbolic.Proofs.NormalForm
import Symbolic.Proofs.ArithmeticMeaning
import Symbolic.Proofs.Regrouping
import Symbolic.Proofs.Pattern.Quiet
import Symbolic.Proofs.Evaluation.Frame
import Symbolic.Proofs.Evaluation.Tracking
import Symbolic.Proofs.Evaluation.Compositional
import Symbolic.Proofs.Evaluation.Restoration
import Symbolic.Proofs.Evaluation.Limits
import Symbolic.Proofs.Evaluation.Termination
import Symbolic.Proofs.Evaluation.Isolation
import Symbolic.Proofs.Pattern.Segmentation
import Symbolic.Proofs.Pattern.Enumeration
import Symbolic.Proofs.Pattern.Places
import Symbolic.Proofs.Pattern.Counterparts
import Symbolic.Proofs.Pattern.Transport
import Symbolic.Proofs.Pattern.Threading
import Symbolic.Proofs.Pattern.Relabelling
import Symbolic.Proofs.Pattern.Names
import Symbolic.Proofs.Pattern.Rigid
import Symbolic.Proofs.Pattern.Completeness
import Symbolic.Proofs.Pattern.RoundTrip
import Symbolic.Proofs.Construction
import Symbolic.Proofs.Pattern.Elements
import Symbolic.Proofs.Pattern.Orderless
import Symbolic.Proofs.Evaluation.Firing
import Symbolic.Proofs.Evaluation.Siblings
import Symbolic.Proofs.Evaluation.Ground
import Symbolic.Proofs.Evaluation.Closure
import Symbolic.Proofs.Evaluation.Room
import Symbolic.Proofs.Evaluation.Environment
import Symbolic.Proofs.Evaluation.Scoping
import Symbolic.Proofs.Evaluation.Conditions
import Symbolic.Proofs.Evaluation.Freshness
import Symbolic.Proofs.Pattern.Consumption
import Symbolic.Proofs.Pattern.Depth
import Symbolic.Proofs.Pattern.Alone
import Symbolic.Proofs.Pattern.Calls
import Symbolic.Proofs.Pattern.Cutoff
import Symbolic.Proofs.Pattern.Literals
import Symbolic.Proofs.Pattern.Merging
import Symbolic.Proofs.Substitution
import Symbolic.Proofs.Pattern.Collection
import Symbolic.Proofs.Pattern.Wrappers
import Symbolic.Proofs.Splicing
import Symbolic.Proofs.Flattening
import Symbolic.Proofs.Evaluation.Fuel
import Symbolic.Proofs.Evaluation.Sequences
import Symbolic.Proofs.Evaluation.Transparency
import Symbolic.Proofs.Evaluation.Holding
import Symbolic.Proofs.Evaluation.Heads
import Symbolic.Proofs.Evaluation.Delayed
import Symbolic.Proofs.Evaluation.Elementwise
import Symbolic.Proofs.Evaluation.Calls
import Symbolic.Proofs.Evaluation.Switching
import Symbolic.Proofs.Evaluation.Abreast
import Symbolic.Proofs.Evaluation.Attributes
import Symbolic.Proofs.Evaluation.Loops
import Symbolic.Proofs.Evaluation.Blocks
import Symbolic.Proofs.Evaluation.Shadowing
import Symbolic.Proofs.Evaluation.Branching
import Symbolic.Proofs.Evaluation.Iterates
import Symbolic.Proofs.Evaluation.Progressions
import Symbolic.Proofs.Evaluation.Summation
import Symbolic.Proofs.Evaluation.Priorities
import Symbolic.Proofs.Evaluation.Lookup
import Symbolic.Proofs.NumericFaults
import Symbolic.Proofs.UnitFactors
import Symbolic.Proofs.Evaluation.Budget
import Symbolic.Proofs.Evaluation.Numerics
import Symbolic.Proofs.Evaluation.NumericSafety
import Symbolic.Proofs.Records
import Symbolic.Proofs.Evaluation.Clearing
import Symbolic.Proofs.Pattern.Interchange
import Symbolic.Proofs.Evaluation.Prospects
import Symbolic.Proofs.Evaluation.Remainders
import Symbolic.Proofs.Evaluation.Variables
import Symbolic.Proofs.Newton
import Symbolic.Proofs.SortedSections
