import TokenNet.Inscription
import TokenNet.Marking

/-!
# Nets

A net has places and transitions.  A transition takes tokens from its input places and puts tokens into its output
places, as the inscriptions of the arcs say, for values of its variables that satisfy its guards.  Variables of different
transitions have nothing to do with each other.
-/

namespace TokenNet

/-- The inscriptions of the arcs of one direction, by place. -/
abbrev Arcs := FinMap Place (List Inscription)

structure Transition where
  input : Arcs
  output : Arcs
  guards : List Guard
  deriving DecidableEq

namespace Transition

/-- The variables on the input arcs in the order of their first occurrence. -/
def inputVariables (t : Transition) : List Variable :=
  (t.input.values.flatten.filterMap fun | .var x => some x | _ => none).eraseDups

end Transition

structure Net where
  places : FinSet Place
  transitions : FinMap TransitionName Transition
  deriving DecidableEq

namespace Net

def transition? (net : Net) (t : TransitionName) : Option Transition := net.transitions.get? t

/-- The transition of that name, which the net has to have. -/
def transition (net : Net) (t : TransitionName) : Except StructuralError Transition :=
  match net.transition? t with
  | some tr => .ok tr
  | none => .error (.unknownTransition t)

/-- The marking with the given tokens; places that are not mentioned are empty. -/
def marking (net : Net) (tokens : List (Place × Bag Value)) : Except StructuralError Marking :=
  tokens.foldlM (fun m e => m.add e.1 e.2) (Marking.empty net.places)

end Net

end TokenNet
