import TokenNet.Expr.Lemmas
import TokenNet.Inscription
import TokenNet.Proofs.FinMap

/-!
# Evaluation depends on the variables that occur

Bindings that agree on the variables of an expression, an inscription or a guard give it the same value, or the same
error: `Expr.evaluate_congr`, `Inscription.evaluate_congr`, `Guard.holds_congr`.
-/

namespace TokenNet

variable {a b : Binding}

theorem Binding.value_congr {x : Variable} (h : a.get? x = b.get? x) : Binding.value a x = Binding.value b x := by
  unfold Binding.value
  rw [h]

theorem Binding.value_eq_ok {x : Variable} {v : Value} : Binding.value a x = .ok v ↔ a.get? x = some v := by
  unfold Binding.value
  cases a.get? x <;> simp

theorem Expr.evaluate_congr {e : Expr} (h : ∀ x, e.mentions x = true → a.get? x = b.get? x) :
    e.evaluate a = e.evaluate b := by
  induction e with
  | lit v => rfl
  | var x => exact Binding.value_congr (h x (by simp [mentions]))
  | unary op e ih =>
    rw [evaluate, evaluate, ih h]
  | binary op l r ihl ihr =>
    have hl := ihl fun x hx => h x (by simp [mentions, hx])
    have hr := ihr fun x hx => h x (by simp [mentions, hx])
    rw [evaluate, evaluate, hl, hr]

/-! ### Formulas, inscriptions and guards -/

/-- Variables are known only of a formula that can be read. -/
theorem Formula.reading_of_vars {f : Formula} {vs : FinSet Variable} (h : f.vars = .ok vs) :
    ∃ e, f.reading = .ok e ∧ vs = e.vars := by
  unfold Formula.vars at h
  cases hr : f.reading with
  | error e =>
    rw [hr] at h
    cases h
  | ok e =>
    rw [hr] at h
    cases h
    exact ⟨e, rfl, rfl⟩

theorem Formula.evaluate_congr {f : Formula} {vs : FinSet Variable} (hv : f.vars = .ok vs)
    (h : ∀ x, vs.contains x = true → a.get? x = b.get? x) : f.evaluate a = f.evaluate b := by
  obtain ⟨e, hr, rfl⟩ := reading_of_vars hv
  unfold Formula.evaluate
  rw [hr]
  exact Expr.evaluate_congr fun x hx => h x (by rw [Expr.contains_vars, hx])

theorem Inscription.evaluate_congr {i : Inscription} {vs : FinSet Variable} (hv : i.vars = .ok vs)
    (h : ∀ x, vs.contains x = true → a.get? x = b.get? x) : i.evaluate a = i.evaluate b := by
  cases i with
  | var x =>
    cases hv
    exact Binding.value_congr (h x ((FinSet.contains_ofList [x] x).2 (by simp)))
  | const v => rfl
  | expr f => exact Formula.evaluate_congr hv h

/-- The variables of a guard are those of its sides. -/
theorem Guard.contains_vars {g : Guard} {vs : FinSet Variable} (h : g.vars = .ok vs) :
    ∃ l r, g.left.vars = .ok l ∧ g.right.vars = .ok r ∧
      ∀ x, vs.contains x = true ↔ l.contains x = true ∨ r.contains x = true := by
  unfold Guard.vars at h
  cases hl : g.left.vars with
  | error e =>
    rw [hl] at h
    cases h
  | ok l =>
    cases hr : g.right.vars with
    | error e =>
      rw [hl, hr] at h
      cases h
    | ok r =>
      rw [hl, hr] at h
      cases h
      exact ⟨l, r, rfl, rfl, FinSet.contains_union l r⟩

theorem Guard.holds_congr {g : Guard} {vs : FinSet Variable} (hv : g.vars = .ok vs)
    (h : ∀ x, vs.contains x = true → a.get? x = b.get? x) : g.holds a = g.holds b := by
  obtain ⟨l, r, hl, hr, hvs⟩ := contains_vars hv
  have hleft := Inscription.evaluate_congr hl fun x hx => h x ((hvs x).2 (.inl hx))
  have hright := Inscription.evaluate_congr hr fun x hx => h x ((hvs x).2 (.inr hx))
  unfold Guard.holds
  rw [hleft, hright]

end TokenNet
