import TokenNet.Expr

/-!
# Writing expressions

Every compound expression is written in parentheses, so that the text determines the tree.
-/

namespace TokenNet.Expr

/-- The characters of an expression, followed by `rest`. -/
def charsBefore (rest : List Char) : Expr → List Char
  | lit v => v.literal ++ rest
  | var x => x.toList ++ rest
  | unary op e => '(' :: op.sign :: ' ' :: e.charsBefore (')' :: rest)
  | binary op l r => '(' :: l.charsBefore (' ' :: (op.symbolChars ++ ' ' :: r.charsBefore (')' :: rest)))

def chars (e : Expr) : List Char := e.charsBefore []

theorem charsBefore_eq (e : Expr) (rest : List Char) : e.charsBefore rest = e.chars ++ rest := by
  unfold chars
  induction e generalizing rest with
  | lit v => simp [charsBefore]
  | var x => simp [charsBefore]
  | unary op e ih => simp [charsBefore, ih (')' :: rest), ih [')']]
  | binary op l r ihl ihr => simp [charsBefore, ihl (_ :: _), ihr (')' :: rest), ihr [')']]

def text (e : Expr) : String := String.ofList e.chars

end TokenNet.Expr
