import TokenNet.Error

/-!
# Evaluating expressions

Integers are computed exactly and then have to fit into 64 bits.  Operands are evaluated from left to right; the right
operand of a conjunction or disjunction only if the left one does not decide it.
-/

namespace TokenNet

/-- The value of an exact result, or an overflow if it does not fit into 64 bits. -/
def Value.ofExact (z : Int) : Except EvaluationError Value :=
  match Value.int? z with
  | some v => .ok v
  | none => .error .overflow

def UnaryOp.apply (op : UnaryOp) (x : Value) : Except EvaluationError Value :=
  match op, x with
  | negate, .int n => Value.ofExact (-n.toInt)
  | not, .bool b => .ok (.bool (!b))
  | op, x => .error (.operandKind op x.kind)

/-- The truth value that a conjunction or a disjunction asks for. -/
def BinaryOp.condition (op : BinaryOp) : Value → Except EvaluationError Bool
  | .bool b => .ok b
  | x => .error (.conditionKind op x.kind)

/-- Applies an operator to the values of both operands.  Quotients and remainders truncate towards zero; a remainder
exists only if the quotient fits into 64 bits as well. -/
def BinaryOp.apply (op : BinaryOp) (x y : Value) : Except EvaluationError Value :=
  match op, x, y with
  | equal, x, y => .ok (.bool (x = y))
  | notEqual, x, y => .ok (.bool (x ≠ y))
  | less, .int m, .int n => .ok (.bool (compare m n).isLT)
  | lessEqual, .int m, .int n => .ok (.bool (compare m n).isLE)
  | greater, .int m, .int n => .ok (.bool (compare m n).isGT)
  | greaterEqual, .int m, .int n => .ok (.bool (compare m n).isGE)
  | less, .str s, .str t => .ok (.bool (compare s t).isLT)
  | lessEqual, .str s, .str t => .ok (.bool (compare s t).isLE)
  | greater, .str s, .str t => .ok (.bool (compare s t).isGT)
  | greaterEqual, .str s, .str t => .ok (.bool (compare s t).isGE)
  | add, .int m, .int n => Value.ofExact (m.toInt + n.toInt)
  | add, .str s, .str t => .ok (.str (s ++ t))
  | subtract, .int m, .int n => Value.ofExact (m.toInt - n.toInt)
  | multiply, .int m, .int n => Value.ofExact (m.toInt * n.toInt)
  | divide, .int m, .int n =>
    if n = 0 then .error .divisionByZero else Value.ofExact (m.toInt.tdiv n.toInt)
  | remainder, .int m, .int n =>
    if n = 0 then .error .divisionByZero
    else do
      let _ ← Value.ofExact (m.toInt.tdiv n.toInt)
      Value.ofExact (m.toInt.tmod n.toInt)
  | op, x, y => .error (.operandKinds op x.kind y.kind)

/-- The value of a variable that the binding binds. -/
def Binding.value (b : Binding) (x : Variable) : Except EvaluationError Value :=
  match b.get? x with
  | some v => .ok v
  | none => .error (.unbound x)

namespace Expr

def evaluate (b : Binding) : Expr → Except EvaluationError Value
  | lit v => .ok v
  | var x => Binding.value b x
  | unary op e => do op.apply (← e.evaluate b)
  | binary op l r => do
    let x ← l.evaluate b
    match op with
    | .and =>
      if ← BinaryOp.condition .and x then
        return .bool (← BinaryOp.condition .and (← r.evaluate b))
      else
        return .bool false
    | .or =>
      if ← BinaryOp.condition .or x then
        return .bool true
      else
        return .bool (← BinaryOp.condition .or (← r.evaluate b))
    | op => op.apply x (← r.evaluate b)

end Expr

end TokenNet
