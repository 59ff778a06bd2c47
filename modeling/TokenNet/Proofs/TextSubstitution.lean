import TokenNet.Proofs.Interpreter
import TokenNet.Proofs.Update

/-!
# Substitution in texts

An interpreter substitutes in texts: it reads them, replaces the variable in the tree, and writes the tree.  The variables
of the new tree are those of the old one without the replaced variable, and those of the replacement,
`Expr.vars_substitute`.  The new text has the value of the old one with the variable bound to the value of the
replacement, errors included: `Interpreter.Reaches.evaluate_of_substitute`.  The replacement may mention the variable
itself, and the interpreters that are asked may have been asked anything before.
-/

namespace TokenNet

/-! ### Sets of variables -/

section FinSet

variable {K : Type} [Ord K] [Std.TransOrd K] [Std.LawfulEqOrd K]

theorem FinSet.ext_contains {s t : FinSet K} (h : ∀ k, s.contains k = true ↔ t.contains k = true) : s = t := by
  refine FinMap.ext_get? fun k => ?_
  have hk : (s.get? k).isSome = true ↔ (t.get? k).isSome = true := h k
  cases hs : s.get? k <;> cases ht : t.get? k <;> simp_all

theorem FinSet.contains_erase (s : FinSet K) (x k : K) :
    (s.erase x).contains k = true ↔ s.contains k = true ∧ k ≠ x := by
  unfold FinMap.contains
  rw [FinMap.get?_erase]
  by_cases hk : k = x <;> simp [hk]

end FinSet

/-! ### The variables after a substitution -/

namespace Expr

variable {e r : Expr} {x y : Variable}

theorem mentions_substitute : (e.substitute x r).mentions y = true ↔
    (e.mentions y = true ∧ y ≠ x) ∨ (e.mentions x = true ∧ r.mentions y = true) := by
  induction e with
  | lit v => simp [substitute, mentions]
  | var z =>
    by_cases hz : z = x
    · have hsubst : (var z).substitute x r = r := if_pos hz
      have hx : (var z).mentions x = true := decide_eq_true hz
      have hy : ¬ ((var z).mentions y = true ∧ y ≠ x) := fun h => h.2 ((of_decide_eq_true h.1).symm.trans hz)
      rw [hsubst]
      simp [hx, hy]
    · have hsubst : (var z).substitute x r = var z := if_neg hz
      have hx : (var z).mentions x = false := decide_eq_false hz
      have hy : (var z).mentions y = true → y ≠ x := fun h hyx => hz ((of_decide_eq_true h).trans hyx)
      rw [hsubst, hx, and_iff_left_of_imp hy]
      simp
  | unary op e ih => exact ih
  | binary op a b iha ihb =>
    simp only [substitute, mentions, Bool.or_eq_true, iha, ihb]
    rw [or_and_right, or_and_right, or_or_or_comm]

/-- If the variable occurs, the variables of the replacement take its place. -/
theorem vars_substitute (hx : e.mentions x = true) :
    (e.substitute x r).vars = FinSet.union (e.vars.erase x) r.vars := by
  refine FinSet.ext_contains fun y => ?_
  rw [FinSet.contains_union, FinSet.contains_erase, contains_vars, contains_vars, contains_vars, mentions_substitute]
  simp [hx]

end Expr

/-- The variables of an inscription that can stand in an expression are those of its tree. -/
theorem Inscription.vars_of_toExpr {i : Inscription} {e : Expr} (h : i.toExpr = .ok e) : i.vars = .ok e.vars := by
  cases i with
  | var x =>
    rw [toExpr] at h
    by_cases hx : Expr.isIdentifier x = true
    · rw [if_pos hx] at h
      cases h
      rfl
    · rw [if_neg hx] at h
      cases h
  | const v =>
    cases h
    rfl
  | expr f =>
    have hreading : f.reading = .ok e := h
    change f.vars = .ok e.vars
    rw [Formula.vars, hreading]
    rfl

/-! ### Formulas -/

namespace Formula

variable {f f' : Formula} {x : Variable} {r : Inscription} {b : Binding} {v : Value}

theorem evaluate_substitute_insert (h : f.substitute x r = .ok f') (hr : r.evaluate b = .ok v) :
    f'.evaluate b = f.evaluate (b.insert x v) := by
  have hsubst : (Inscription.expr f).substitute x r = .ok (.expr f') :=
    Inscription.substitute_expr_eq_ok.2 ⟨f', h, rfl⟩
  exact Inscription.evaluate_substitute_insert hr hsubst

/-- A formula with a substitution has variables; if the variable is not among them, the formula stays, and otherwise the
variables of the replacement take its place. -/
theorem vars_substitute (h : f.substitute x r = .ok f') : ∃ vs vs', f.vars = .ok vs ∧ f'.vars = .ok vs' ∧
    (vs.contains x = true → ∃ rs, r.vars = .ok rs ∧ vs' = FinSet.union (vs.erase x) rs) ∧
    (vs.contains x = false → f' = f) := by
  have hvars : ∀ {g : Formula} {e : Expr}, g.reading = .ok e → g.vars = .ok e.vars := by
    intro g e hg
    rw [Formula.vars, hg]
    rfl
  obtain ⟨e, he, ⟨hx, er, her, he'⟩ | ⟨hx, rfl⟩⟩ := Inscription.reading_of_substitute h
  · refine ⟨e.vars, (e.substitute x er).vars, hvars he, hvars he', fun _ => ?_, fun hnot => ?_⟩
    · exact ⟨er.vars, Inscription.vars_of_toExpr her, Expr.vars_substitute hx⟩
    · rw [Expr.contains_vars, hx] at hnot
      cases hnot
  · refine ⟨e.vars, e.vars, hvars he, hvars he, fun hyes => ?_, fun _ => rfl⟩
    rw [Expr.contains_vars, hx] at hyes
    cases hyes

end Formula

/-! ### Interpreters -/

namespace Interpreter

variable {i : Interpreter} {text text' : String} {x : Variable} {r : Inscription}

/-- What an interpreter substitutes in a text, it substitutes in the formula. -/
theorem Reaches.substitute_eq_ok (hi : Reaches {} i) (h : ((Interpreter.substitute text x r).run.run i).1 = .ok text') :
    (Formula.ofText text).substitute x r = .ok (Formula.ofText text') := by
  rw [(hi.answers_eq text).2.2 x r] at h
  cases hf : (Formula.ofText text).substitute x r with
  | error e =>
    rw [hf] at h
    cases h
  | ok f =>
    rw [hf] at h
    cases h
    rw [Formula.ofText_text]

/-- Let an interpreter substitute `r` for `x` in a text, whatever it has been asked before.  If `r` has a value under a
binding, the new text has the value that the old one has with `x` bound to that value, or the same error.  If `x` occurs
in the text, the variables of the new text are the other variables of the old one and those of `r`; otherwise the text
stays as it is.  All this is found by any interpreters, whatever they have been asked. -/
theorem Reaches.evaluate_of_substitute (hi : Reaches {} i)
    (h : ((Interpreter.substitute text x r).run.run i).1 = .ok text') :
    (∀ j j', Reaches {} j → Reaches {} j' → ∀ b v, r.evaluate b = .ok v →
      ((Interpreter.evaluate text' b).run.run j).1 = ((Interpreter.evaluate text (b.insert x v)).run.run j').1) ∧
    ∃ vs vs', (∀ j, Reaches {} j →
        ((Interpreter.vars text).run.run j).1 = .ok vs ∧ ((Interpreter.vars text').run.run j).1 = .ok vs') ∧
      (vs.contains x = true → ∃ rs, r.vars = .ok rs ∧ vs' = FinSet.union (vs.erase x) rs) ∧
      (vs.contains x = false → text' = text) := by
  have hsubst := hi.substitute_eq_ok h
  refine ⟨fun j j' hj hj' b v hv => ?_, ?_⟩
  · rw [(hj.answers_eq text').1 b, (hj'.answers_eq text).1 (b.insert x v)]
    exact Formula.evaluate_substitute_insert hsubst hv
  · obtain ⟨vs, vs', hvs, hvs', hoccurs, hstays⟩ := Formula.vars_substitute hsubst
    refine ⟨vs, vs', fun j hj => ?_, hoccurs, fun hx => congrArg Formula.text (hstays hx)⟩
    rw [(hj.answers_eq text).2.1, (hj.answers_eq text').2.1]
    exact ⟨hvs, hvs'⟩

/-- A variable is replaced by a difference in which it occurs again. -/
theorem Reaches.evaluate_of_substitute_difference :
    let r : Inscription := .expr (.ofText "x - 2")
    let b : Binding := .ofList [("x", .int 5), ("y", .int 1)]
    let text := "x * (x - -1) + y"
    let text' := "(((x - 2) * ((x - 2) - -1)) + y)"
    let i := ((Interpreter.evaluate "x - 2" b).run.run {}).2
    ((Interpreter.substitute text "x" r).run.run i).1 = .ok text' ∧ r.evaluate b = .ok (.int 3) ∧
      ((Interpreter.evaluate text' b).run.run i).1 = .ok (.int 13) ∧
      ((Interpreter.evaluate text' b).run.run i).1 =
        ((Interpreter.evaluate text (b.insert "x" (.int 3))).run.run {}).1 := by
  intro r b text text' i
  have hi : Reaches {} i := .evaluate (.refl {}) "x - 2" b
  have hsubst : ((Interpreter.substitute text "x" r).run.run i).1 = .ok text' := by decide +kernel
  have hr : r.evaluate b = .ok (.int 3) := by decide +kernel
  have hvalue : ((Interpreter.evaluate text' b).run.run i).1 = .ok (.int 13) := by decide +kernel
  exact ⟨hsubst, hr, hvalue, (hi.evaluate_of_substitute hsubst).1 i {} hi (.refl {}) b _ hr⟩

end Interpreter

end TokenNet
