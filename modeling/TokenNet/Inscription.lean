import TokenNet.Expr.Printer
import TokenNet.Formula

/-!
# Inscriptions and guards

An arc is inscribed with variables, constants and formulas; a guard equates two inscriptions.  Replacing a variable inside
a formula means replacing it in the tree that the text reads as, and writing the tree.
-/

namespace TokenNet

/-- The label of an arc, or one side of a guard. -/
inductive Inscription where
  | var (x : Variable)
  | const (v : Value)
  | expr (formula : Formula)
  deriving DecidableEq

namespace Inscription

/-- The text of an inscription; constants as literals. -/
def text : Inscription → String
  | var x => x
  | const v => v.text
  | expr f => f.text

def vars : Inscription → Except EvaluationError (FinSet Variable)
  | var x => .ok (FinSet.ofList [x])
  | const _ => .ok ∅
  | expr f => f.vars

def evaluate (b : Binding) : Inscription → Except EvaluationError Value
  | var x => Binding.value b x
  | const v => .ok v
  | expr f => f.evaluate b

/-- The tree that stands for an inscription inside an expression; only identifiers can be written there. -/
def toExpr : Inscription → Except EvaluationError Expr
  | var x => if Expr.isIdentifier x then .ok (.var x) else .error (.notAnIdentifier x)
  | const v => .ok (.lit v)
  | expr f => f.reading

end Inscription

/-- The formula with `r` in place of every occurrence of `x`; the formula itself if there is none. -/
def Formula.substitute (f : Formula) (x : Variable) (r : Inscription) : Except EvaluationError Formula := do
  let e ← f.reading
  if e.mentions x then
    return .ofText (e.substitute x (← r.toExpr)).text
  else
    return f

/-- The inscription with `r` in place of every occurrence of `x`. -/
def Inscription.substitute (i : Inscription) (x : Variable) (r : Inscription) :
    Except EvaluationError Inscription :=
  match i with
  | var y => .ok (if y = x then r else var y)
  | const v => .ok (const v)
  | expr f => return expr (← f.substitute x r)

/-- An equation between two inscriptions. -/
structure Guard where
  left : Inscription
  right : Inscription
  deriving DecidableEq

namespace Guard

def text (g : Guard) : String := g.left.text ++ " = " ++ g.right.text

def vars (g : Guard) : Except EvaluationError (FinSet Variable) := do
  let l ← g.left.vars
  let r ← g.right.vars
  return l.union r

/-- Sides with the same text are equal without being evaluated; otherwise the left side is evaluated first. -/
def holds (g : Guard) (b : Binding) : Except EvaluationError Bool :=
  if g.left.text = g.right.text then
    .ok true
  else do
    let x ← g.left.evaluate b
    let y ← g.right.evaluate b
    return x = y

def substitute (g : Guard) (x : Variable) (r : Inscription) : Except EvaluationError Guard := do
  let left ← g.left.substitute x r
  let right ← g.right.substitute x r
  return ⟨left, right⟩

end Guard

end TokenNet
