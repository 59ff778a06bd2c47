import TokenNet.Name
import TokenNet.Value

/-!
# Expressions

Expressions compute token values from the values of variables.  This module holds the trees, the variables that occur
in them, and the replacement of a variable by an expression; how trees are written, read and evaluated is said in the
modules beside it.
-/

namespace TokenNet

/-- Values for some of the variables. -/
abbrev Binding := FinMap Variable Value

inductive UnaryOp where
  | negate
  | not
  deriving DecidableEq

namespace UnaryOp

/-- The character that stands before the operand. -/
def sign : UnaryOp → Char
  | negate => '-'
  | not => '!'

/-- The word for the operator in messages. -/
def word : UnaryOp → String
  | negate => "Negate"
  | not => "Not"

end UnaryOp

inductive BinaryOp where
  | or
  | and
  | equal
  | notEqual
  | less
  | lessEqual
  | greater
  | greaterEqual
  | add
  | subtract
  | multiply
  | divide
  | remainder
  deriving DecidableEq

namespace BinaryOp

/-- The characters that stand between the operands. -/
def symbolChars : BinaryOp → List Char
  | or => ['|', '|']
  | and => ['&', '&']
  | equal => ['=', '=']
  | notEqual => ['!', '=']
  | less => ['<']
  | lessEqual => ['<', '=']
  | greater => ['>']
  | greaterEqual => ['>', '=']
  | add => ['+']
  | subtract => ['-']
  | multiply => ['*']
  | divide => ['/']
  | remainder => ['%']

def symbol (op : BinaryOp) : String := String.ofList op.symbolChars

end BinaryOp

inductive Expr where
  | lit (v : Value)
  | var (x : Variable)
  | unary (op : UnaryOp) (e : Expr)
  | binary (op : BinaryOp) (left right : Expr)
  deriving DecidableEq

namespace Expr

/-- Adds the variables that occur in an expression. -/
def addVars (s : FinSet Variable) : Expr → FinSet Variable
  | lit _ => s
  | var x => s.add x
  | unary _ e => e.addVars s
  | binary _ l r => r.addVars (l.addVars s)

/-- The variables that occur in an expression. -/
def vars (e : Expr) : FinSet Variable := e.addVars ∅

/-- Whether a variable occurs in an expression. -/
def mentions (x : Variable) : Expr → Bool
  | lit _ => false
  | var y => y = x
  | unary _ e => e.mentions x
  | binary _ l r => l.mentions x || r.mentions x

/-- The expression with `r` in place of every occurrence of `x`. -/
def substitute (e : Expr) (x : Variable) (r : Expr) : Expr :=
  match e with
  | lit v => lit v
  | var y => if y = x then r else var y
  | unary op e => unary op (e.substitute x r)
  | binary op a b => binary op (a.substitute x r) (b.substitute x r)

end Expr

end TokenNet
