import TokenNet.Expr
import TokenNet.Text.Quoted

/-!
# What can go wrong

Errors are told apart by their cause, and each has one message.  Places and transitions are quoted in messages.
-/

namespace TokenNet

/-- The word for a direction in messages. -/
def Direction.word : Direction → String
  | input => "Input"
  | output => "Output"

/-- A fault in the declarations of a net, or a name that the net does not have. -/
inductive StructuralError where
  | duplicateArc (place : Place) (transition : TransitionName) (direction : Direction)
  | duplicateTransition (transition : TransitionName)
  | unknownPlace (place : Place)
  | unknownTransition (transition : TransitionName)
  | expressionOnInputArc (place : Place) (transition : TransitionName) (expression : String)
  deriving DecidableEq

open Text (quoted)

def StructuralError.message : StructuralError → String
  | duplicateArc p t d => s!"duplicate {d.word} arc between place {quoted p} and transition {quoted t}"
  | duplicateTransition t => s!"transition {quoted t} is declared more than once"
  | unknownPlace p => s!"place {quoted p} is not part of the net"
  | unknownTransition t => s!"transition {quoted t} is not part of the net"
  | expressionOnInputArc p t e =>
    s!"input arc from place {quoted p} to transition {quoted t} carries expression `{e}`"

/-- Two guards of one transition give a variable different constants. -/
structure ConstantConflict where
  transition : TransitionName
  name : Variable
  first : Value
  second : Value
  deriving DecidableEq

def ConstantConflict.message (c : ConstantConflict) : String :=
  s!"transition {quoted c.transition} assigns both {c.first.text} and {c.second.text} to variable {c.name}"

/-- Why a text is not an expression: none can be read at its start, or something is left over behind it. -/
inductive ReadFailure where
  | noExpression (rest : String)
  | leftOver (rest : String)
  deriving DecidableEq

def ReadFailure.message : ReadFailure → String
  | noExpression rest => "Parsing Error: Error \x7b input: " ++ quoted rest ++ ", code: Char \x7d"
  | leftOver rest => "Parsing Error: Error \x7b input: " ++ quoted rest ++ ", code: Eof \x7d"

/-- A failure to read an expression, to write a variable into one, or to evaluate one. -/
inductive EvaluationError where
  | unreadable (text : String) (failure : ReadFailure)
  | unbound (x : Variable)
  | notAnIdentifier (x : Variable)
  | operandKind (op : UnaryOp) (found : Value.Kind)
  | conditionKind (op : BinaryOp) (found : Value.Kind)
  | operandKinds (op : BinaryOp) (left right : Value.Kind)
  | divisionByZero
  | overflow
  deriving DecidableEq

def EvaluationError.message : EvaluationError → String
  | unreadable text failure => s!"cannot parse `{text}`: {failure.message}"
  | unbound x => s!"variable {x} is not bound"
  | notAnIdentifier x => s!"variable `{x}` cannot be written in an expression"
  | operandKind op found => s!"operator `{op.word}` cannot be applied to {found.word}"
  | conditionKind op found => s!"operator `{op.symbol}` cannot be applied to {found.word}"
  | operandKinds op l r => s!"operator `{op.symbol}` cannot be applied to {l.word} and {r.word}"
  | divisionByZero => "division by zero"
  | overflow => "integer overflow"

/-- What ended an exploration: the limit that was reached, or a trigger outside, which gives the cause. -/
inductive Limit where
  | iterations
  | states
  | outside (cause : String)
  deriving DecidableEq

def Limit.word : Limit → String
  | iterations => "ExplorationConfig::max_iterations"
  | states => "ExplorationConfig::max_states"
  | outside cause => cause

inductive Error where
  | structural (e : StructuralError)
  | constantConflict (c : ConstantConflict)
  | evaluation (e : EvaluationError)
  | cancelled (limit : Limit)
  deriving DecidableEq

def Error.message : Error → String
  | structural e => e.message
  | constantConflict c => c.message
  | evaluation e => e.message
  | cancelled l => "exploration cancelled: Cancelled \x7b cause: \"" ++ l.word ++ "\" \x7d"

instance : Coe StructuralError Error := ⟨.structural⟩

instance : Coe ConstantConflict Error := ⟨.constantConflict⟩

instance : Coe EvaluationError Error := ⟨.evaluation⟩

end TokenNet
