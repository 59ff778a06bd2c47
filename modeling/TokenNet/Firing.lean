import TokenNet.Net

/-!
# Firing

A transition fires under a binding by taking the tokens of its input inscriptions and putting the tokens of its output
inscriptions.  All inscriptions are evaluated before the marking changes: those of the input arcs, then, if their tokens
are there, those of the output arcs.
-/

namespace TokenNet

/-- The tokens that the inscriptions of an arc denote. -/
def Inscription.tokens (b : Binding) (inscriptions : List Inscription) : Except EvaluationError (Bag Value) :=
  return Bag.ofList (← inscriptions.mapM (Inscription.evaluate b))

/-- The tokens that each arc denotes, or the first error in the order of places and inscriptions. -/
def Arcs.tokens (b : Binding) (arcs : Arcs) : Except EvaluationError (FinMap Place (Bag Value)) :=
  arcs.traverse fun _ inscriptions => Inscription.tokens b inscriptions

/-- Whether the marking holds the tokens of every place. -/
def Marking.covers (m : Marking) : List (Place × Bag Value) → Except StructuralError Bool
  | [] => .ok true
  | (p, tokens) :: rest =>
    match m.get? p with
    | none => .error (.unknownPlace p)
    | some available => if tokens.isSubset available then m.covers rest else .ok false

def Marking.take (m : Marking) (tokens : List (Place × Bag Value)) : Marking :=
  tokens.foldl (fun m e => m.modify e.1 (·.difference e.2)) m

def Marking.put (m : Marking) (tokens : List (Place × Bag Value)) : Except StructuralError Marking :=
  tokens.foldlM (fun m e => m.add e.1 e.2) m

/-- The marking after the transition has fired under the binding; `none` if the marking lacks some of the tokens. -/
def Net.fire (net : Net) (t : TransitionName) (m : Marking) (b : Binding) : Except Error (Option Marking) := do
  let tr ← (net.transition t).mapError Error.structural
  let taken ← (Arcs.tokens b tr.input).mapError Error.evaluation
  if ← (m.covers taken.entries).mapError Error.structural then
    let made ← (Arcs.tokens b tr.output).mapError Error.evaluation
    return some (← ((m.take taken.entries).put made.entries).mapError Error.structural)
  else
    return none

end TokenNet
