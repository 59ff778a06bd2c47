import TokenNet.Firing
import TokenNet.Interpreter

/-!
# Firing with an interpreter

Firing evaluates the formulas on the arcs, so it can ask an interpreter about them.  The interpreter is all that it
changes: it remembers the trees of the formulas that it has read.
-/

namespace TokenNet.Interpreter

def inscription (b : Binding) : Inscription → InterpreterM Value
  | .expr f => evaluate f.text b
  | i => ofExcept (i.evaluate b)

/-- The tokens that the inscriptions of an arc denote. -/
def tokens (b : Binding) (inscriptions : List Inscription) : InterpreterM (Bag Value) :=
  return Bag.ofList (← inscriptions.mapM (inscription b))

/-- The tokens that each arc denotes, or the first error in the order of places and inscriptions. -/
def arcTokens (b : Binding) (arcs : Arcs) : InterpreterM (List (Place × Bag Value)) :=
  arcs.entries.mapM fun e => return (e.1, ← tokens b e.2)

/-- The marking after the transition has fired under the binding; `none` if the marking lacks some of the tokens. -/
def fire (net : Net) (t : TransitionName) (m : Marking) (b : Binding) :
    ExceptT Error (StateM Interpreter) (Option Marking) := do
  let tr ← (net.transition t).mapError Error.structural
  let taken ← (arcTokens b tr.input).adapt Error.evaluation
  if ← (m.covers taken).mapError Error.structural then
    let made ← (arcTokens b tr.output).adapt Error.evaluation
    return some (← ((m.take taken).put made).mapError Error.structural)
  else
    return none

end TokenNet.Interpreter
