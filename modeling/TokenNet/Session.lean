import TokenNet.Diagram.Store
import TokenNet.Error
import TokenNet.Key.Order

/-!
# Sessions

A session is the store of diagrams that a series of computations shares.  What one computation leaves there makes later
ones faster, but does not change their results.
-/

namespace TokenNet

/-- A diagram whose maps are bindings. -/
abbrev BindingDiagram := Diagram Key Value

abbrev Session := Store Key Value

/-- Computations that use a session and may fail; what they leave in the session stays there after a failure. -/
abbrev SessionM := ExceptT Error (StoreM Key Value)

namespace SessionM

variable {α : Type}

def ofExcept (x : Except Error α) : SessionM α := fun s => (x, s)

def ofStructural (x : Except StructuralError α) : SessionM α := ofExcept (x.mapError .structural)

def ofEvaluation (x : Except EvaluationError α) : SessionM α := ofExcept (x.mapError .evaluation)

end SessionM

end TokenNet
