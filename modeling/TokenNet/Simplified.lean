import TokenNet.Net

/-!
# Simplified nets

A guard that equates two variables lets one of them be replaced by the other throughout the transition, and a guard that
equates a variable and a constant lets the variable be replaced by the constant.  A simplified net no longer has these
guards; it comes with the variables that were eliminated, from which a binding of the simplified transition is extended
to one of the transition it came from.
-/

namespace TokenNet

/-- Variables and what they were replaced by, in the order of their elimination. -/
abbrev Eliminations := List (Variable × Inscription)

/-- A transition while its variables are being eliminated. -/
structure Propagation where
  input : Arcs
  output : Arcs
  /-- The guards that stay. -/
  examined : List Guard
  /-- The guards that are still to be examined. -/
  pending : List Guard
  eliminated : Eliminations

def Arcs.substitute (arcs : Arcs) (x : Variable) (r : Inscription) : Except EvaluationError Arcs :=
  arcs.traverse fun _ inscriptions => inscriptions.mapM (·.substitute x r)

namespace Propagation

def ofTransition (t : Transition) : Propagation := ⟨t.input, t.output, [], t.guards, []⟩

def toTransition (w : Propagation) : Transition := ⟨w.input, w.output, w.examined ++ w.pending⟩

/-- Replaces a variable on all arcs and in all guards. -/
def eliminate (w : Propagation) (x : Variable) (r : Inscription) : Except EvaluationError Propagation := do
  let input ← Arcs.substitute w.input x r
  let output ← Arcs.substitute w.output x r
  let examined ← w.examined.mapM (·.substitute x r)
  let pending ← w.pending.mapM (·.substitute x r)
  return ⟨input, output, examined, pending, w.eliminated ++ [(x, r)]⟩

/-! ### Equalities -/

/-- Which of two equal variables is replaced, and by which.  Only identifiers can be written into expressions, so of an
identifier and another name the identifier stays. -/
def orient (x y : Variable) : Variable × Variable :=
  if Expr.isIdentifier x && !Expr.isIdentifier y then (y, x) else (x, y)

/-- Examines the next guard: it stays, unless it equates two variables. -/
def examine (w : Propagation) : Except EvaluationError Propagation :=
  match w.pending with
  | [] => .ok w
  | ⟨.var x, .var y⟩ :: rest =>
    let w := { w with pending := rest }
    let (x, y) := orient x y
    if x = y then .ok w else w.eliminate x (.var y)
  | g :: rest => .ok { w with examined := w.examined ++ [g], pending := rest }

/-- Examines all guards; a replacement also applies to the guards that are still to come. -/
def propagateEqualities (w : Propagation) : Except EvaluationError Propagation :=
  w.pending.foldlM (fun w _ => w.examine) w

/-! ### Constants -/

/-- The variable and the constant that a guard equates. -/
def assignment? (g : Guard) : Option (Variable × Value) :=
  match g with
  | ⟨.var x, .const v⟩ => some (x, v)
  | ⟨.const v, .var x⟩ => some (x, v)
  | _ => none

/-- Splits guards into the constants that they assign and the guards that assign none. -/
def collectConstants (t : TransitionName) :
    List Guard → FinMap Variable Value → Except ConstantConflict (FinMap Variable Value × List Guard)
  | [], constants => .ok (constants, [])
  | g :: rest, constants =>
    match assignment? g with
    | none => return (← collectConstants t rest constants).map id (g :: ·)
    | some (x, v) =>
      match constants.get? x with
      | none => collectConstants t rest (constants.insert x v)
      | some first =>
        if first = v then collectConstants t rest constants else .error ⟨t, x, first, v⟩

/-- Removes the guards that assign constants and replaces their variables, in the order of the variables. -/
def propagateConstants (t : TransitionName) (w : Propagation) : Except Error Propagation := do
  let (constants, guards) ← (collectConstants t (w.examined ++ w.pending) ∅).mapError Error.constantConflict
  let w := { w with examined := guards, pending := [] }
  (constants.entries.foldlM (fun (w : Propagation) e => w.eliminate e.1 (.const e.2)) w).mapError Error.evaluation

end Propagation

/-- The transition without equalities of variables and constants, and the variables that were eliminated. -/
def Transition.simplify (name : TransitionName) (t : Transition) : Except Error (Transition × Eliminations) := do
  let w ← (Propagation.ofTransition t).propagateEqualities.mapError Error.evaluation
  let w ← w.propagateConstants name
  return (w.toTransition, w.eliminated)

/-- A net and, for each transition, the variables that were eliminated to arrive at it. -/
structure Simplified where
  net : Net
  eliminated : FinMap TransitionName Eliminations
  deriving DecidableEq

namespace Net

/-- Simplifies every transition once. -/
def simplify (net : Net) : Except Error Simplified := do
  let parts ← net.transitions.traverse Transition.simplify
  return ⟨⟨net.places, parts.map Prod.fst⟩, parts.map Prod.snd⟩

/-- The number of guards of all transitions. -/
def guardCount (net : Net) : Nat := (net.transitions.values.flatMap Transition.guards).length

end Net

namespace Simplified

def eliminatedOf (s : Simplified) (t : TransitionName) : Eliminations := (s.eliminated.get? t).getD []

/-- The eliminations of a net followed by those of the net that was made of it. -/
def andThen (s next : Simplified) : Simplified where
  net := next.net
  eliminated := next.eliminated.entries.foldl (fun e d => e.alter d.1 fun o => some (o.getD [] ++ d.2)) s.eliminated

/-- Simplifies up to `n` times, until the net does not change any more. -/
def repeatSimplify : Nat → Simplified → Except Error Simplified
  | 0, s => .ok s
  | n + 1, s => do
    let next ← s.net.simplify
    if next.net = s.net then return s else repeatSimplify n (s.andThen next)

/-- Extends a binding by the values of the eliminated variables.  A replacement refers only to variables that stay or
that were eliminated later, so the last elimination is undone first. -/
def restore (s : Simplified) (t : TransitionName) (b : Binding) : Except EvaluationError Binding :=
  (s.eliminatedOf t).reverse.foldlM (fun b e => return b.insert e.1 (← e.2.evaluate b)) b

end Simplified

/-- Simplifies until the net does not change any more.  A net that changes has lost a guard, so the number of guards
bounds the number of repetitions. -/
def Net.simplifyFully (net : Net) : Except Error Simplified := do
  let s ← net.simplify
  Simplified.repeatSimplify (s.net.guardCount + 1) s

end TokenNet
