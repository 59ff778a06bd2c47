/-!
# States side by side

A computation on one state may ask something that has a state of its own: a filter its test, a search for bindings its
interpreter.  It is a computation on both states, of which each step works on one.
-/

namespace TokenNet

/-- A state, and another one beside it. -/
structure Beside (S T : Type) where
  main : S
  side : T

/-- Computations on two states that may fail; what they leave in the states stays there after a failure. -/
abbrev BesideM (ε S T : Type) := ExceptT ε (StateM (Beside S T))

namespace BesideM

variable {ε S T α : Type}

def onMain (x : ExceptT ε (StateM S) α) : BesideM ε S T α := fun b =>
  let (r, s) := x.run.run b.main
  (r, { b with main := s })

def onSide (x : ExceptT ε (StateM T) α) : BesideM ε S T α := fun b =>
  let (r, t) := x.run.run b.side
  (r, { b with side := t })

end BesideM

end TokenNet
