import TokenNet.Diagram.Asking
import TokenNet.Exploration
import TokenNet.Interpreter.Guards
import TokenNet.Interpreter.Simplification

/-!
# Engines

An engine is a session with an interpreter.  It does what the session does, but asks the interpreter wherever a formula is
read, evaluated or rewritten; so its results could depend on the trees that the interpreter remembers, as they could on what
the session does.
-/

namespace TokenNet

/-- A session, and the interpreter that its computations ask. -/
abbrev Engine := Beside Session Interpreter

/-- Computations of an engine. -/
abbrev EngineM := BesideM Error Session Interpreter

namespace Engine

open BesideM

def fresh : Engine := ⟨{}, {}⟩

/-- A question to the interpreter of the engine. -/
def ask {α : Type} (x : InterpreterM α) : EngineM α := onSide (x.adapt Error.evaluation)

/-! ### Enabled bindings -/

/-- The paths of the diagram on which the guard holds. -/
def applyGuard (o : KeyOrder) (g : Guard) (vars : FinSet Variable) (d : BindingDiagram) : EngineM BindingDiagram := do
  let keys := sortOn id (vars.keys.map o.key)
  let f ← liftM (Diagram.Asking.filter keys (fun path => Interpreter.holds g (Binding.ofPath path)) d)
  onMain (SessionM.ofEvaluation f.result)

/-- The diagram of the bindings of a transition that are enabled at a marking. -/
def enabledBindings (net : Net) (t : TransitionName) (m : Marking) : EngineM BindingDiagram := do
  let some d ← onMain (SessionM.ofStructural (net.demand t m)) | return .emptySet
  if d.input.keys.any fun p => ((d.marking.get? p).getD ∅).isEmpty then
    return .emptySet
  let tr ← onMain (SessionM.ofStructural (net.transition t))
  let some guards ← ask (Interpreter.openGuards tr.guards) | return .emptySet
  let o ← ask (Interpreter.keyOrder tr.inputVariables tr.guards)
  let (joined, deferred) ← onMain (liftM (Enabling.joinPlaces o d guards))
  let filtered ← guards.foldlM
    (fun r (g, vars) => if r.isEmptySet then return r else applyGuard o g vars r) joined
  deferred.foldlM (fun r c => onMain (liftM (Diagram.join r c))) filtered

/-- Whether some binding of the transition is enabled. -/
def isEnabled (net : Net) (t : TransitionName) (m : Marking) : EngineM Bool :=
  return !(← enabledBindings net t m).isEmptySet

/-- The enabled bindings of a transition, and their number. -/
def listBindings (net : Net) (t : TransitionName) (m : Marking) : EngineM (List Binding × Nat) := do
  let d ← enabledBindings net t m
  let n ← onMain (liftM (Diagram.count d))
  return (bindings d, n)

/-! ### Simplifying -/

/-- Simplifies every transition once. -/
def simplify (net : Net) : EngineM Simplified := onSide (Interpreter.simplify net)

/-- Simplifies until the net does not change any more. -/
def simplifyFully (net : Net) : EngineM Simplified := onSide (Interpreter.simplifyFully net)

/-- Extends a binding by the values of the eliminated variables. -/
def restore (s : Simplified) (t : TransitionName) (b : Binding) : EngineM Binding := ask (Interpreter.restore s t b)

/-! ### Firing -/

/-- The marking after the transition has fired under the binding; `none` if the marking lacks some of the tokens. -/
def fire (net : Net) (t : TransitionName) (m : Marking) (b : Binding) : EngineM (Option Marking) :=
  onSide (Interpreter.fire net t m b)

/-- The markings after firing each enabled binding of a transition, in the order of the bindings. -/
def successors (net : Net) (t : TransitionName) (m : Marking) : EngineM (List Marking) := do
  let d ← enabledBindings net t m
  let found ← (bindings d).foldlM (fun found b => return (← fire net t m b).toList ++ found) []
  return found.reverse

/-! ### Exploring -/

/-- A trigger outside is asked before a marking is expanded, which happens once: it says nothing, or why to stop there. -/
abbrev Watch := Marking → Option String

/-- Adds what firing one binding leads to. -/
def followBinding (net : Net) (limits : Limits) (t : TransitionName) (m : Marking) (f : Found) (b : Binding) :
    EngineM Found := do
  match ← fire net t m b with
  | some m' => onMain (SessionM.ofExcept (f.add limits m'))
  | none => return f

/-- Adds what firing one transition leads to. -/
def followTransition (net : Net) (limits : Limits) (m : Marking) (f : Found) (t : TransitionName) : EngineM Found := do
  let d ← enabledBindings net t m
  (bindings d).foldlM (followBinding net limits t m) f

/-- Adds what firing any transition leads to, unless the trigger says to stop. -/
def followMarking (net : Net) (limits : Limits) (watch : Watch) (f : Found) (m : Marking) : EngineM Found :=
  match watch m with
  | some cause => throw (.cancelled (.outside cause))
  | none => net.transitions.keys.foldlM (followTransition net limits m) f

/-- Explores from a frontier, in at most `n` iterations. -/
def exploreFrom (net : Net) (limits : Limits) (watch : Watch) : Nat → Std.TreeSet Marking → List Marking →
    EngineM (Std.TreeSet Marking)
  | _, seen, [] => return seen
  | 0, _, _ :: _ => throw (.cancelled .iterations)
  | n + 1, seen, frontier => do
    let f ← frontier.foldlM (followMarking net limits watch) { seen := seen }
    onMain limits.trimCaches
    exploreFrom net limits watch n f.seen f.next.reverse

/-- The markings that the net reaches from an initial one, which is among them.  The net is simplified first. -/
def explore (net : Net) (initial : Marking) (limits : Limits) (watch : Watch) : EngineM (Std.TreeSet Marking) := do
  let s ← simplify net
  exploreFrom s.net limits watch limits.iterations (Std.TreeSet.empty.insert initial) [initial]

end Engine

end TokenNet
