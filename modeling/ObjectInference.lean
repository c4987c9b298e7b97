import ObjectInference.LogFormat
import ObjectInference.Interner
import ObjectInference.Guard
import ObjectInference.Arguments
import ObjectInference.Evidence
import ObjectInference.Json.Token
import ObjectInference.Program.Bind
import ObjectInference.Inference.State
import ObjectInference.Inference.Expression
import ObjectInference.Session
import ObjectInference.Options.Load
import ObjectInference.CallLog
import ObjectInference.Object
import ObjectInference.Tree.Walk
import ObjectInference.Tree.Builder
import ObjectInference.Proofs.Guard
import ObjectInference.Proofs.Arguments
import ObjectInference.Proofs.Store
import ObjectInference.Proofs.Forgetting
import ObjectInference.Proofs.Settling
import ObjectInference.Proofs.Operation
import ObjectInference.Proofs.Pairing.Basic
import ObjectInference.Proofs.Pairing.Laws
import ObjectInference.Proofs.Pairing.Calls
import ObjectInference.Proofs.Pairing.Evaluation
import ObjectInference.Proofs.Pairing.Analysis
import ObjectInference.Proofs.Pairing.Depth
import ObjectInference.Proofs.Pairing.Operation
import ObjectInference.Proofs.Pairing.Diagonal
import ObjectInference.Proofs.Pairing.Tracking
import ObjectInference.Proofs.Bracketing
import ObjectInference.Proofs.Runs
import ObjectInference.Proofs.Discipline
import ObjectInference.Proofs.Signals
import ObjectInference.Proofs.Binding
import ObjectInference.Proofs.Walks
import ObjectInference.Proofs.Matching.Shape
import ObjectInference.Proofs.Termination
import ObjectInference.Proofs.Matching.Guards
import ObjectInference.Proofs.Matching.State
import ObjectInference.Proofs.Matching.Steps
import ObjectInference.Proofs.Matching.Parameters
import ObjectInference.Proofs.Matching.Lookup
import ObjectInference.Proofs.Matching.Laws
import ObjectInference.Proofs.Matching.Brackets
import ObjectInference.Proofs.Matching.Runs
import ObjectInference.Proofs.Matching.Views
import ObjectInference.Proofs.Matching.Leftovers
import ObjectInference.Proofs.Queries
import ObjectInference.Proofs.Moves
import ObjectInference.Proofs.Drifting
import ObjectInference.Proofs.Balance
import ObjectInference.Proofs.Nesting
import ObjectInference.Proofs.Ancestry
import ObjectInference.Proofs.Agenda
import ObjectInference.Proofs.Coverage
import ObjectInference.Proofs.Reentry
import ObjectInference.Proofs.Repetition
import ObjectInference.Proofs.Coherence
import ObjectInference.Proofs.Logging.Basic
import ObjectInference.Proofs.Logging.Evaluation
import ObjectInference.Proofs.Logging.Operation
import ObjectInference.Proofs.Chronicle
import ObjectInference.Proofs.Limits
import ObjectInference.Proofs.WellFormed
import ObjectInference.Proofs.Universe
import ObjectInference.Proofs.Recording
import ObjectInference.Proofs.Lexical
import ObjectInference.Proofs.Rebinding
import ObjectInference.Proofs.Pairing.Counting
import ObjectInference.Proofs.Matching.Retracing
import ObjectInference.Proofs.Succession
import ObjectInference.Proofs.Beside
import ObjectInference.Proofs.Tallying
import ObjectInference.Proofs.FullPath
import ObjectInference.Proofs.Extending
import ObjectInference.Proofs.Scanning
import ObjectInference.Proofs.Noting
import ObjectInference.Proofs.ScopeTree
import ObjectInference.Proofs.Returning
import ObjectInference.Proofs.Chaining
import ObjectInference.Proofs.Resolving
import ObjectInference.Proofs.Recursing
import ObjectInference.Proofs.Unpacking
import ObjectInference.Proofs.Filling
import ObjectInference.Proofs.SpecialMethods
import ObjectInference.Proofs.Storing
import ObjectInference.Proofs.ReadingBack
import ObjectInference.Proofs.Simulating
import ObjectInference.Proofs.GuardHistory
import ObjectInference.Proofs.Applying
import ObjectInference.Proofs.Displaying
import ObjectInference.Proofs.Belonging
import ObjectInference.Proofs.Registering
import ObjectInference.Proofs.Replaying
import ObjectInference.Proofs.Independence
import ObjectInference.Proofs.FlatLog
import ObjectInference.Proofs.ForgettingScopes
import ObjectInference.Proofs.Preorder
import ObjectInference.Proofs.Interning
import ObjectInference.Proofs.Numbering
import ObjectInference.Proofs.Constructing
