import TokenNet.Demand
import TokenNet.Diagram.Filter
import TokenNet.Diagram.Join
import TokenNet.Key.Weight
import TokenNet.Session

/-!
# Enabled bindings

A binding of a transition is enabled at a marking if the tokens that it takes are there and every guard holds.  The
diagram of all enabled bindings is the join of one diagram for each input place, filtered by the guards.  A place whose
variables occur nowhere else is joined after the filters, since no guard can constrain it.
-/

namespace TokenNet

/-- The binding that a path of a diagram stands for. -/
def Binding.ofPath (path : List (Key × Value)) : Binding := FinMap.ofList (path.map fun e => (e.1.name, e.2))

namespace Enabling

/-! ### The bindings of one place -/

/-- How often each variable occurs, in key order. -/
def levels (o : KeyOrder) (vars : List Variable) : FinMap Key Nat :=
  vars.foldl (fun m x => m.alter (o.key x) fun n => some (n.getD 0 + 1)) ∅

/-- The ways to choose a value for each level so that the tokens contain every value as often as its level says. -/
def chain : List (Key × Nat) → Bag Value → StoreM Key Value BindingDiagram
  | [], _ => return .emptyMap
  | (k, n) :: rest, tokens => do
    let take ← (tokens.toList.filter fun e => n ≤ e.2).mapM fun e =>
      return (e.1, ← chain rest (tokens.erase e.1 n))
    Diagram.mkNode k take .emptySet

/-- The ways to take the variables of one arc from the tokens of its place. -/
def placeChain (o : KeyOrder) (vars : List Variable) (tokens : Bag Value) : StoreM Key Value BindingDiagram :=
  chain (levels o vars).entries tokens

/-! ### Guards -/

/-- The guards with their variables, unless a guard without variables fails to hold; such a guard holds under every
binding or under none. -/
def openGuards : List Guard → Except EvaluationError (Option (List (Guard × FinSet Variable)))
  | [] => .ok (some [])
  | g :: rest => do
    let vars ← g.vars
    if vars.isEmpty then
      if ← g.holds ∅ then openGuards rest else return none
    else
      return (← openGuards rest).map ((g, vars) :: ·)

/-- The paths of the diagram on which the guard holds. -/
def applyGuard (o : KeyOrder) (g : Guard) (vars : FinSet Variable) (d : BindingDiagram) : SessionM BindingDiagram := do
  let keys := sortOn id (vars.keys.map o.key)
  let f ← Diagram.filter keys (fun path => g.holds (Binding.ofPath path)) d
  SessionM.ofEvaluation f.result

/-! ### Joining the places -/

/-- Whether a variable occurs once on the arcs and in no guard. -/
def isIndependent (d : Demand) (guards : List (Guard × FinSet Variable)) (x : Variable) : Bool :=
  d.input.values.flatten.count x = 1 && !guards.any fun g => g.2.contains x

/-- Joins the places into the diagrams `joined`, or into `deferred` if no guard can constrain them. -/
def joinPlaces (o : KeyOrder) (d : Demand) (guards : List (Guard × FinSet Variable)) :
    StoreM Key Value (BindingDiagram × List BindingDiagram) :=
  d.input.entries.foldlM (fun (joined, deferred) (p, vars) => do
    let c ← placeChain o vars ((d.marking.get? p).getD ∅)
    if vars.all (isIndependent d guards) then
      return (joined, deferred ++ [c])
    else
      return (← Diagram.join joined c, deferred)) (.emptyMap, [])

end Enabling

/-! ### The bindings of a transition -/

open Enabling in
/-- The diagram of the bindings of a transition that are enabled at a marking. -/
def Net.enabledBindings (net : Net) (t : TransitionName) (m : Marking) : SessionM BindingDiagram := do
  let some d ← SessionM.ofStructural (net.demand t m) | return .emptySet
  if d.input.keys.any fun p => ((d.marking.get? p).getD ∅).isEmpty then
    return .emptySet
  let tr ← SessionM.ofStructural (net.transition t)
  let some guards ← SessionM.ofEvaluation (openGuards tr.guards) | return .emptySet
  let o ← SessionM.ofEvaluation (KeyOrder.ofGuards tr.inputVariables tr.guards)
  let (joined, deferred) ← joinPlaces o d guards
  let filtered ← guards.foldlM
    (fun r (g, vars) => if r.isEmptySet then return r else applyGuard o g vars r) joined
  deferred.foldlM (fun r c => Diagram.join r c) filtered

/-- The bindings of a diagram in the order of its paths. -/
def bindings (d : BindingDiagram) : List Binding := d.maps.map Binding.ofPath

/-- Goes through the bindings of a diagram in the order of its paths, up to the first failure. -/
@[inline] def foldBindings {β : Type} (f : β → Binding → Except Error β) (b : β) (d : BindingDiagram) :
    Except Error β :=
  d.foldlM (fun b path => f b (Binding.ofPath path)) b

/-- The enabled bindings of a transition, and their number. -/
def Net.listBindings (net : Net) (t : TransitionName) (m : Marking) : SessionM (List Binding × Nat) := do
  let d ← net.enabledBindings t m
  let n ← (liftM (Diagram.count d) : SessionM Nat)
  return (bindings d, n)

/-- Whether some binding of the transition is enabled. -/
def Net.isEnabled (net : Net) (t : TransitionName) (m : Marking) : SessionM Bool :=
  return !(← net.enabledBindings t m).isEmptySet

end TokenNet
