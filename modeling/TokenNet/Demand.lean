import TokenNet.Net

/-!
# The demand of a transition

The constants on the input arcs of a transition name tokens that it takes whatever the values of its variables are.
Taking them out of a marking first leaves the demand: for each input place the variables whose values are to be taken
from what is left there.  If a token is missing, the transition is disabled.
-/

namespace TokenNet

structure Demand where
  /-- The variables to be taken from each place that has any, as often as they occur on the arc. -/
  input : FinMap Place (List Variable)
  /-- The marking without the tokens that the constants name. -/
  marking : Marking
  deriving DecidableEq

/-- Takes the constants of an arc out of the tokens of its place; also returns the variables of the arc. -/
def Demand.takeConstants (p : Place) (t : TransitionName) :
    List Inscription → Bag Value → Except StructuralError (Option (List Variable × Bag Value))
  | [], tokens => .ok (some ([], tokens))
  | .const v :: rest, tokens =>
    if tokens.contains v then Demand.takeConstants p t rest (tokens.erase v 1) else .ok none
  | .var x :: rest, tokens => return (← Demand.takeConstants p t rest tokens).map fun r => (x :: r.1, r.2)
  | .expr f :: _, _ => .error (.expressionOnInputArc p t f.text)

/-- Takes the constants of the given arcs out of the marking of a demand and adds their variables to it. -/
def Demand.extend (t : TransitionName) : List (Place × List Inscription) → Demand →
    Except StructuralError (Option Demand)
  | [], d => .ok (some d)
  | (p, inscriptions) :: rest, d =>
    match d.marking.get? p with
    | none => .error (.unknownPlace p)
    | some tokens => do
      match ← Demand.takeConstants p t inscriptions tokens with
      | none => return none
      | some (vars, left) =>
        Demand.extend t rest
          { input := if vars.isEmpty then d.input else d.input.insert p vars
            marking := d.marking.modify p fun _ => left }

/-- The demand of a transition at a marking, unless a token that a constant names is missing. -/
def Net.demand (net : Net) (t : TransitionName) (m : Marking) : Except StructuralError (Option Demand) := do
  let tr ← net.transition t
  Demand.extend t tr.input.entries ⟨∅, m⟩

end TokenNet
