import TokenNet.Net

/-!
# Declaring nets

A net is built from declarations of its transitions, which are checked in the order in which they stand: each transition
is declared once, and each of its arcs joins a declared place, is the only one of its direction at that place, and
carries no expression if it is an input arc.  The first fault is reported.
-/

namespace TokenNet

structure ArcDeclaration where
  place : Place
  direction : Direction
  inscriptions : List Inscription
  deriving DecidableEq

structure TransitionDeclaration where
  name : TransitionName
  arcs : List ArcDeclaration
  guards : List Guard
  deriving DecidableEq

namespace ArcDeclaration

/-- The first expression on an arc. -/
def expression? (a : ArcDeclaration) : Option String :=
  a.inscriptions.findSome? fun | .expr f => some f.text | _ => none

end ArcDeclaration

namespace Transition

def arcs (t : Transition) : Direction → Arcs
  | .input => t.input
  | .output => t.output

/-- Adds the inscriptions of an arc, whatever there was before. -/
def withArc (t : Transition) (a : ArcDeclaration) : Transition :=
  match a.direction with
  | .input => { t with input := t.input.insert a.place a.inscriptions }
  | .output => { t with output := t.output.insert a.place a.inscriptions }

/-- Adds an arc after checking it. -/
def addArc (places : FinSet Place) (name : TransitionName) (t : Transition) (a : ArcDeclaration) :
    Except StructuralError Transition :=
  if !places.contains a.place then .error (.unknownPlace a.place)
  else
    match a.direction, a.expression? with
    | .input, some e => .error (.expressionOnInputArc a.place name e)
    | _, _ =>
      if (t.arcs a.direction).contains a.place then .error (.duplicateArc a.place name a.direction)
      else .ok (t.withArc a)

end Transition

namespace Net

/-- Adds a transition after checking it. -/
def addTransition (net : Net) (d : TransitionDeclaration) : Except StructuralError Net := do
  if net.transitions.contains d.name then
    throw (.duplicateTransition d.name)
  let t ← d.arcs.foldlM (Transition.addArc net.places d.name) ⟨∅, ∅, d.guards⟩
  return { net with transitions := net.transitions.insert d.name t }

/-- The net of the declarations, or their first fault. -/
def build (places : List Place) (decls : List TransitionDeclaration) : Except StructuralError Net :=
  decls.foldlM addTransition ⟨FinSet.ofList places, ∅⟩

end Net

end TokenNet
