import TokenNet.Expr
import TokenNet.FinMap.Lemmas

/-!
# Laws of expressions

The variables of an expression are those that it mentions: `contains_vars`.
-/

namespace TokenNet.Expr

theorem contains_addVars (e : Expr) (s : FinSet Variable) (x : Variable) :
    (e.addVars s).contains x = (s.contains x || e.mentions x) := by
  induction e generalizing s with
  | lit v => simp [addVars, mentions]
  | var y =>
    simp only [addVars, mentions, FinSet.add, FinMap.contains, FinMap.get?_insert]
    by_cases h : y = x
    · simp [h]
    · simp [h, Ne.symm h]
  | unary op e ih => exact ih s
  | binary op l r ihl ihr => rw [addVars, ihr, ihl, mentions, Bool.or_assoc]

theorem contains_vars (e : Expr) (x : Variable) : e.vars.contains x = e.mentions x := by
  rw [vars, contains_addVars]
  rfl

end TokenNet.Expr
