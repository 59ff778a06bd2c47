import TokenNet.Interpreter.Firing
import TokenNet.Simplified

/-!
# Simplifying nets with an interpreter

Variables are replaced inside formulas by the interpreter, and the replacements of eliminated variables are evaluated by
it.
-/

namespace TokenNet.Interpreter

/-- The map with the answer for each entry, in key order. -/
def traverse {ε K V W : Type} [Ord K] [Std.TransOrd K] (f : K → V → ExceptT ε (StateM Interpreter) W) (m : FinMap K V) :
    ExceptT ε (StateM Interpreter) (FinMap K W) :=
  return FinMap.ofList (← m.entries.mapM fun e => return (e.1, ← f e.1 e.2))

def substituteInscription (x : Variable) (r : Inscription) : Inscription → InterpreterM Inscription
  | .expr f => return .expr (.ofText (← substitute f.text x r))
  | i => ofExcept (i.substitute x r)

def substituteGuard (x : Variable) (r : Inscription) (g : Guard) : InterpreterM Guard := do
  let left ← substituteInscription x r g.left
  let right ← substituteInscription x r g.right
  return ⟨left, right⟩

def substituteArcs (x : Variable) (r : Inscription) (arcs : Arcs) : InterpreterM Arcs :=
  traverse (fun _ inscriptions => inscriptions.mapM (substituteInscription x r)) arcs

/-! ### Eliminating variables -/

/-- Replaces a variable on all arcs and in all guards. -/
def eliminate (w : Propagation) (x : Variable) (r : Inscription) : InterpreterM Propagation := do
  let input ← substituteArcs x r w.input
  let output ← substituteArcs x r w.output
  let examined ← w.examined.mapM (substituteGuard x r)
  let pending ← w.pending.mapM (substituteGuard x r)
  return ⟨input, output, examined, pending, w.eliminated ++ [(x, r)]⟩

/-- Examines the next guard: it stays, unless it equates two variables. -/
def examine (w : Propagation) : InterpreterM Propagation :=
  match w.pending with
  | [] => return w
  | ⟨.var x, .var y⟩ :: rest =>
    let w := { w with pending := rest }
    let (x, y) := Propagation.orient x y
    if x = y then return w else eliminate w x (.var y)
  | g :: rest => return { w with examined := w.examined ++ [g], pending := rest }

/-- Examines all guards; a replacement also applies to the guards that are still to come. -/
def propagateEqualities (w : Propagation) : InterpreterM Propagation :=
  w.pending.foldlM (fun w _ => examine w) w

/-- Removes the guards that assign constants and replaces their variables, in the order of the variables. -/
def propagateConstants (t : TransitionName) (w : Propagation) : ExceptT Error (StateM Interpreter) Propagation := do
  let (constants, guards) ←
    (Propagation.collectConstants t (w.examined ++ w.pending) ∅).mapError Error.constantConflict
  let w := { w with examined := guards, pending := [] }
  (constants.entries.foldlM (fun w e => eliminate w e.1 (.const e.2)) w).adapt Error.evaluation

/-! ### Simplifying -/

/-- The transition without equalities of variables and constants, and the variables that were eliminated. -/
def simplifyTransition (name : TransitionName) (t : Transition) :
    ExceptT Error (StateM Interpreter) (Transition × Eliminations) := do
  let w ← (propagateEqualities (.ofTransition t)).adapt Error.evaluation
  let w ← propagateConstants name w
  return (w.toTransition, w.eliminated)

/-- Simplifies every transition once. -/
def simplify (net : Net) : ExceptT Error (StateM Interpreter) Simplified := do
  let parts ← traverse simplifyTransition net.transitions
  return ⟨⟨net.places, parts.map Prod.fst⟩, parts.map Prod.snd⟩

/-- Simplifies up to `n` times, until the net does not change any more. -/
def repeatSimplify : Nat → Simplified → ExceptT Error (StateM Interpreter) Simplified
  | 0, s => return s
  | n + 1, s => do
    let next ← simplify s.net
    if next.net = s.net then return s else repeatSimplify n (s.andThen next)

/-- Simplifies until the net does not change any more. -/
def simplifyFully (net : Net) : ExceptT Error (StateM Interpreter) Simplified := do
  let s ← simplify net
  repeatSimplify (s.net.guardCount + 1) s

/-- Extends a binding by the values of the eliminated variables; the last elimination is undone first. -/
def restore (s : Simplified) (t : TransitionName) (b : Binding) : InterpreterM Binding :=
  (s.eliminatedOf t).reverse.foldlM (fun b e => return b.insert e.1 (← inscription b e.2)) b

end TokenNet.Interpreter
