import TokenNet.Bag.Lemmas
import TokenNet.Bag.Tally
import TokenNet.Diagram.Lemmas
import TokenNet.Diagram.Cursor
import TokenNet.Exploration.Lemmas
import TokenNet.Expr.Lemmas
import TokenNet.Net.Declaration
import TokenNet.Proofs.FinMap
import TokenNet.Proofs.Diagram.Family
import TokenNet.Proofs.Diagram.Listing
import TokenNet.Proofs.Diagram.Sound
import TokenNet.Proofs.Diagram.Making
import TokenNet.Proofs.Diagram.Union
import TokenNet.Proofs.Diagram.Join
import TokenNet.Proofs.Diagram.Building
import TokenNet.Proofs.Sift
import TokenNet.Proofs.Evaluation
import TokenNet.Proofs.Demand
import TokenNet.Proofs.Enabling.Chain
import TokenNet.Proofs.Session
import TokenNet.Proofs.Enabling.Places
import TokenNet.Proofs.Diagram.Filtering
import TokenNet.Proofs.Diagram.Table
import TokenNet.Proofs.Diagram.Lookup
import TokenNet.Proofs.Diagram.LookupFilter
import TokenNet.Proofs.Diagram.Calls
import TokenNet.Proofs.Diagram.Families
import TokenNet.Proofs.Diagram.Enumeration
import TokenNet.Proofs.Diagram.Recomputing
import TokenNet.Proofs.Diagram.Forgetting
import TokenNet.Proofs.Diagram.Clearing
import TokenNet.Proofs.Enabling.Guards
import TokenNet.Proofs.Enabling.Bindings
import TokenNet.Proofs.Results
import TokenNet.Proofs.Exploration
import TokenNet.Proofs.SessionCalls
import TokenNet.Proofs.Independence
import TokenNet.Proofs.Beside
import TokenNet.Proofs.Expr.Tokens
import TokenNet.Proofs.Expr.Reading
import TokenNet.Proofs.Substitution
import TokenNet.Proofs.Propagation
import TokenNet.Proofs.Simplification
import TokenNet.Proofs.Restoring
import TokenNet.Proofs.Firing
import TokenNet.Proofs.SimplifiedNets
import TokenNet.Proofs.Reachability
import TokenNet.Proofs.Update
import TokenNet.Proofs.RestoredFiring
import TokenNet.Proofs.Declaration
import TokenNet.Proofs.Enabling.Disabled
import TokenNet.Proofs.Equations
import TokenNet.Proofs.NormalForm
import TokenNet.Proofs.WellFormed
import TokenNet.Proofs.Iterations
import TokenNet.Proofs.Failures
import TokenNet.Proofs.Layers
import TokenNet.Proofs.Expr.Grammar
import TokenNet.Proofs.Expr.Sentences
import TokenNet.Proofs.EqualTexts
import TokenNet.Proofs.TextSubstitution
import TokenNet.Proofs.Diagram.Semiring
import TokenNet.Proofs.StateLimit
import TokenNet.Proofs.Eliminations
import TokenNet.Proofs.SimplificationFailures
import TokenNet.Proofs.Enabling.Scope
import TokenNet.Interpreter.Firing
import TokenNet.Proofs.FiringOutcome
import TokenNet.Proofs.Questions
import TokenNet.Proofs.Engine
import TokenNet.Proofs.EngineResults
import TokenNet.Proofs.Monotonicity
import TokenNet.Proofs.Expr.Exact
import TokenNet.Proofs.Keys
import TokenNet.Proofs.VariableOrder
import TokenNet.Proofs.Constants
import TokenNet.Proofs.Bags
import TokenNet.Proofs.DeclarationFaults
import TokenNet.Proofs.Enabling.Capacity
import TokenNet.Proofs.Diagram.Steps
import TokenNet.Proofs.Diagram.Learning
import TokenNet.Proofs.Diagram.Memory
