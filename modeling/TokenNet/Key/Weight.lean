import TokenNet.Inscription
import TokenNet.Key
import TokenNet.Sort

/-!
# The variable order of a transition

Variables that occur in large guards come late.  A guard that refers to `n` variables adds `2 ^ n` to the weight of each
of them; the variables are sorted by weight, and variables of equal weight stay in the order of their declaration: the
variables of the input arcs, then those that occur in guards only.
-/

namespace TokenNet.KeyOrder

/-- Weights do not grow beyond this. -/
def maxWeight : Nat := 0xffffffffffffffff

/-- What a guard over `n` variables adds to the weight of each. -/
def penalty (n : Nat) : Nat := Nat.pow 2 (min n 63)

/-- The variables declared so far, and the weights of those that occur in guards. -/
structure Weighing where
  declared : List Variable
  weights : FinMap Variable Nat

namespace Weighing

def weight (w : Weighing) (x : Variable) : Nat := (w.weights.get? x).getD 0

/-- Adds to the weight of one variable, and declares it if it is new. -/
def add (n : Nat) (w : Weighing) (x : Variable) : Weighing where
  declared := if w.declared.contains x then w.declared else w.declared ++ [x]
  weights := w.weights.insert x (min (w.weight x + n) maxWeight)

/-- Adds the penalty of a guard over the given variables. -/
def addGuard (w : Weighing) (vars : FinSet Variable) : Weighing :=
  vars.keys.foldl (add (penalty vars.keys.length)) w

/-- The declared variables by increasing weight; the sort is stable. -/
def order (w : Weighing) : KeyOrder :=
  .mk (sortOnce w.weight w.declared)

end Weighing

/-- The variable order for the given input variables and guards, or the error of the first guard that cannot be read. -/
def ofGuards (inputs : List Variable) (guards : List Guard) : Except EvaluationError KeyOrder := do
  let vars ← guards.mapM Guard.vars
  return (vars.foldl Weighing.addGuard ⟨inputs, ∅⟩).order

end TokenNet.KeyOrder
