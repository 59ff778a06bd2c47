import Std.Data.TreeMap.Basic
import TokenNet.Inscription

/-!
# Interpreters

An interpreter answers questions about expressions that are given as texts.  It reads a text the first time it is asked
about it, and remembers the tree; a text that cannot be read is tried again each time.
-/

namespace TokenNet

structure Interpreter where
  trees : Std.TreeMap String Expr := ∅

/-- Computations that use and change an interpreter, and may fail. -/
abbrev InterpreterM := ExceptT EvaluationError (StateM Interpreter)

namespace Interpreter

def ofExcept {α : Type} (x : Except EvaluationError α) : InterpreterM α := fun i => (x, i)

/-- The tree of a text, which is remembered from then on. -/
def parsed (text : String) : InterpreterM Expr := do
  match (← get).trees[text]? with
  | some e => return e
  | none =>
    let e ← ofExcept (Expr.parse text)
    modify fun i => { i with trees := i.trees.insert text e }
    return e

/-- The value of the expression; every variable in it has to be bound. -/
def evaluate (text : String) (b : Binding) : InterpreterM Value := do ofExcept ((← parsed text).evaluate b)

def vars (text : String) : InterpreterM (FinSet Variable) := return (← parsed text).vars

/-- What an inscription is replaced by inside an expression; a formula is read as well. -/
def replacement : Inscription → InterpreterM Expr
  | .expr f => parsed f.text
  | i => ofExcept i.toExpr

/-- The text of the expression with `r` in place of every occurrence of `x`; the text itself if there is none. -/
def substitute (text : String) (x : Variable) (r : Inscription) : InterpreterM String := do
  let e ← parsed text
  if e.mentions x then
    return (e.substitute x (← replacement r)).text
  else
    return text

end Interpreter

end TokenNet
