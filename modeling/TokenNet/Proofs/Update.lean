import TokenNet.Firing
import TokenNet.Proofs.Substitution
import TokenNet.Simplified

/-!
# Substitution and updates of a binding

If a replacement has a value, replacing the variable and giving it that value come to the same, errors included:
`Expr.evaluate_substitute_insert`, `Inscription.evaluate_substitute_insert`, `Arcs.tokens_substitute`.  The names of
variables do not have to be identifiers: an inscription into which one that is not cannot be written has no
substitution.
-/

namespace TokenNet

variable {b : Binding} {x : Variable} {v : Value}

/-! ### Expressions -/

namespace Expr

theorem evaluate_substitute_insert {r : Expr} (hr : r.evaluate b = .ok v) (e : Expr) :
    (e.substitute x r).evaluate b = e.evaluate (b.insert x v) := by
  induction e with
  | lit w => rfl
  | var y =>
    by_cases hy : y = x
    · have hsubst : (var y).substitute x r = r := if_pos hy
      have hvalue : Binding.value (b.insert x v) y = .ok v := by
        rw [hy, Binding.value_eq_ok, FinMap.get?_insert_self]
      rw [hsubst, hr]
      exact hvalue.symm
    · have hsubst : (var y).substitute x r = var y := if_neg hy
      rw [hsubst]
      exact Binding.value_congr (FinMap.get?_insert_of_ne b hy v).symm
  | unary op e ih => exact congrArg (· >>= op.apply) ih
  | binary op l r' ihl ihr =>
    have hsubst : (binary op l r').substitute x r = binary op (l.substitute x r) (r'.substitute x r) := rfl
    rw [hsubst, evaluate_binary, evaluate_binary, ihl, ihr]

end Expr

/-! ### Inscriptions -/

namespace Inscription

variable {i i' r : Inscription}

/-- An inscription that can stand in an expression has the value of its tree. -/
theorem evaluate_of_toExpr {e : Expr} (h : i.toExpr = .ok e) (b : Binding) : i.evaluate b = e.evaluate b := by
  have hi : i.Named := by
    rintro y rfl
    by_contra hy
    rw [toExpr, if_neg hy] at h
    cases h
  rw [evaluate_eq hi, h]
  rfl

theorem evaluate_substitute_insert (hr : r.evaluate b = .ok v) (h : i.substitute x r = .ok i') :
    i'.evaluate b = i.evaluate (b.insert x v) := by
  cases i with
  | var y =>
    cases h
    by_cases hy : y = x
    · rw [if_pos hy, hr, hy]
      exact (Binding.value_eq_ok.2 (FinMap.get?_insert_self b x v)).symm
    · rw [if_neg hy]
      exact Binding.value_congr (FinMap.get?_insert_of_ne b hy v).symm
  | const w =>
    cases h
    rfl
  | expr f =>
    obtain ⟨f', hf', rfl⟩ := substitute_expr_eq_ok.1 h
    obtain ⟨e, he, hcases⟩ := reading_of_substitute hf'
    have hf : (Inscription.expr f).toExpr = .ok e := he
    rw [evaluate_of_toExpr hf]
    rcases hcases with ⟨-, er, her, he'⟩ | ⟨hx, rfl⟩
    · have hf' : (Inscription.expr f').toExpr = .ok (e.substitute x er) := he'
      rw [evaluate_of_toExpr her] at hr
      rw [evaluate_of_toExpr hf', Expr.evaluate_substitute_insert hr]
    · rw [evaluate_of_toExpr hf]
      refine Expr.evaluate_congr fun y hy => ?_
      have hne : y ≠ x := by
        rintro rfl
        rw [hx] at hy
        cases hy
      exact (FinMap.get?_insert_of_ne b hne v).symm

end Inscription

/-! ### Arcs -/

theorem Arcs.tokens_substitute {arcs arcs' : Arcs} {r : Inscription} (hr : r.evaluate b = .ok v)
    (h : Arcs.substitute arcs x r = .ok arcs') : Arcs.tokens b arcs' = Arcs.tokens (b.insert x v) arcs := by
  refine FinMap.traverse_eq_of_traverse h fun p l l' _ hl => ?_
  have hvalues : l'.mapM (Inscription.evaluate b) = l.mapM (Inscription.evaluate (b.insert x v)) :=
    mapM_eq_of_mapM hl fun i _ i' hi => Inscription.evaluate_substitute_insert hr hi
  unfold Inscription.tokens
  rw [hvalues]

end TokenNet
