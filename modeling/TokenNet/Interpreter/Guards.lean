import TokenNet.Enabling
import TokenNet.Interpreter.Firing

/-!
# Guards with an interpreter

The variables of a guard and whether it holds depend on the formulas in it, about which an interpreter can be asked.
-/

namespace TokenNet.Interpreter

def inscriptionVars : Inscription → InterpreterM (FinSet Variable)
  | .expr f => vars f.text
  | i => ofExcept i.vars

def guardVars (g : Guard) : InterpreterM (FinSet Variable) := do
  let l ← inscriptionVars g.left
  let r ← inscriptionVars g.right
  return l.union r

/-- Sides with the same text are equal without a question; otherwise the left side is evaluated first. -/
def holds (g : Guard) (b : Binding) : InterpreterM Bool :=
  if g.left.text = g.right.text then
    return true
  else do
    let x ← inscription b g.left
    let y ← inscription b g.right
    return x = y

/-- The guards with their variables, unless a guard without variables fails to hold. -/
def openGuards : List Guard → InterpreterM (Option (List (Guard × FinSet Variable)))
  | [] => return some []
  | g :: rest => do
    let vars ← guardVars g
    if vars.isEmpty then
      if ← holds g ∅ then openGuards rest else return none
    else
      return (← openGuards rest).map ((g, vars) :: ·)

/-- The variable order for the given input variables and guards, or the error of the first guard that cannot be read. -/
def keyOrder (inputs : List Variable) (guards : List Guard) : InterpreterM KeyOrder := do
  let vars ← guards.mapM guardVars
  return (vars.foldl KeyOrder.Weighing.addGuard ⟨inputs, ∅⟩).order

end TokenNet.Interpreter
