import TokenNet.Proofs.Substitution

/-!
# Sides with the same text

A guard takes sides with the same text for equal, without evaluating them.  Texts determine trees, so sides with the same
text have the same value, `Inscription.evaluate_eq_of_text_eq`, with one exception: the name of a variable may be the text
of something else, `Inscription.Mimics`, if it is not an identifier.  A guard with such a side is taken to hold also where
its sides have different values, and no other guard is: `Guard.holds_eq_decide`.
-/

namespace TokenNet

/-- The inscription is a variable that is not an identifier, and its name is the text of the other one, which is no
variable. -/
def Inscription.Mimics (i j : Inscription) : Prop :=
  ∃ x, i = .var x ∧ Expr.isIdentifier x = false ∧ j.text = x ∧ ∀ y, j ≠ .var y

/-- One side of the guard mimics the other. -/
def Guard.IsAmbiguous (g : Guard) : Prop := g.left.Mimics g.right ∨ g.right.Mimics g.left

variable {i j : Inscription} {b : Binding} {v w : Value} {x : Variable}

namespace Inscription

theorem named_of_ne_var (h : ∀ y, i ≠ .var y) : i.Named := fun x hx => absurd hx (h x)

/-- If the names of both are identifiers, inscriptions with the same text have the same value. -/
theorem Named.evaluate_eq_of_text_eq (hi : i.Named) (hj : j.Named) (h : i.text = j.text) (b : Binding) :
    i.evaluate b = j.evaluate b := by
  rw [evaluate_eq hi, evaluate_eq hj, toExpr_congr hi hj h]

/-- A variable and an inscription with the same text have the same value, unless the variable mimics the inscription. -/
private theorem evaluate_var_eq_of_text_eq (h : j.text = x) (hj : ¬ (var x).Mimics j) (b : Binding) :
    (var x).evaluate b = j.evaluate b := by
  by_cases hvar : ∃ y, j = .var y
  · obtain ⟨y, rfl⟩ := hvar
    have hyx : y = x := h
    rw [hyx]
  · have hne : ∀ y, j ≠ .var y := fun y hy => hvar ⟨y, hy⟩
    have hx : Expr.isIdentifier x = true := by
      by_contra hx
      exact hj ⟨x, rfl, Bool.eq_false_iff.2 hx, h, hne⟩
    have hnamed : (var x).Named := by
      intro y hy
      cases hy
      exact hx
    exact hnamed.evaluate_eq_of_text_eq (named_of_ne_var hne) h.symm b

/-- Inscriptions with the same text have the same value, unless one of them mimics the other. -/
theorem evaluate_eq_of_text_eq (h : i.text = j.text) (hij : ¬ i.Mimics j) (hji : ¬ j.Mimics i) (b : Binding) :
    i.evaluate b = j.evaluate b := by
  by_cases hi : ∃ x, i = .var x
  · obtain ⟨x, rfl⟩ := hi
    exact evaluate_var_eq_of_text_eq h.symm hij b
  · by_cases hj : ∃ y, j = .var y
    · obtain ⟨y, rfl⟩ := hj
      exact (evaluate_var_eq_of_text_eq h hji b).symm
    · exact (named_of_ne_var (not_exists.1 hi)).evaluate_eq_of_text_eq (named_of_ne_var (not_exists.1 hj)) h b

/-- A variable that is not an identifier cannot be written in an expression, so only the variable itself has its value. -/
theorem evaluate_insert_of_not_identifier (hx : Expr.isIdentifier x = false) (hj : ∀ y, j ≠ .var y) (b : Binding)
    (u : Value) : j.evaluate (b.insert x u) = j.evaluate b := by
  rw [evaluate_eq (named_of_ne_var hj), evaluate_eq (named_of_ne_var hj)]
  cases he : j.toExpr with
  | error e => rfl
  | ok e =>
    refine Expr.evaluate_congr fun y hy => ?_
    have hne : y ≠ x := by
      rintro rfl
      have hid := hasIdentifiers_of_toExpr he y hy
      rw [hx] at hid
      cases hid
    exact FinMap.get?_insert_of_ne b hne u

/-- An inscription and the variable that mimics it have different values under some binding. -/
theorem Mimics.exists_evaluate_ne (h : i.Mimics j) (hj : j.evaluate b = .ok w) :
    ∃ b' u, i.evaluate b' = .ok u ∧ j.evaluate b' = .ok w ∧ u ≠ w := by
  obtain ⟨x, rfl, hx, -, hne⟩ := h
  obtain ⟨u, hu⟩ : ∃ u, u ≠ w := by
    by_cases hw : w = .dot
    · exact ⟨.bool true, by rw [hw]; decide⟩
    · exact ⟨.dot, Ne.symm hw⟩
  refine ⟨b.insert x u, u, ?_, ?_, hu⟩
  · exact Binding.value_eq_ok.2 (FinMap.get?_insert_self b x u)
  · rw [evaluate_insert_of_not_identifier hx hne, hj]

theorem Mimics.text_eq (h : i.Mimics j) : i.text = j.text := by
  obtain ⟨x, rfl, -, htext, -⟩ := h
  exact htext.symm

end Inscription

namespace Guard

variable {g : Guard}

theorem holds_of_text_eq (h : g.left.text = g.right.text) (b : Binding) : g.holds b = .ok true := if_pos h

theorem IsAmbiguous.text_eq (h : g.IsAmbiguous) : g.left.text = g.right.text := by
  rcases h with h | h
  · exact h.text_eq
  · exact h.text_eq.symm

/-- A guard whose sides have values is decided by whether the values are equal, if neither side mimics the other.  If one
does, the guard is always taken to hold, and there is a binding under which its sides have different values. -/
theorem holds_eq_decide (hv : g.left.evaluate b = .ok v) (hw : g.right.evaluate b = .ok w) :
    (¬ g.IsAmbiguous → g.holds b = .ok (decide (v = w))) ∧
      (g.IsAmbiguous → (∀ b', g.holds b' = .ok true) ∧
        ∃ b' v' w', g.left.evaluate b' = .ok v' ∧ g.right.evaluate b' = .ok w' ∧ v' ≠ w') := by
  refine ⟨fun hplain => ?_, fun hambiguous => ⟨holds_of_text_eq hambiguous.text_eq, ?_⟩⟩
  · obtain ⟨hleft, hright⟩ := not_or.1 hplain
    by_cases htext : g.left.text = g.right.text
    · have hvalues := Inscription.evaluate_eq_of_text_eq htext hleft hright b
      rw [hv, hw] at hvalues
      cases hvalues
      rw [holds_of_text_eq htext, decide_eq_true rfl]
    · rw [holds, if_neg htext, hv, hw]
      rfl
  · rcases hambiguous with h | h
    · obtain ⟨b', u, hu, hw', hne⟩ := h.exists_evaluate_ne hw
      exact ⟨b', u, w, hu, hw', hne⟩
    · obtain ⟨b', u, hu, hv', hne⟩ := h.exists_evaluate_ne hv
      exact ⟨b', v, u, hv', hu, Ne.symm hne⟩

/-- A variable whose name is a sum, and the sum: at first their values agree. -/
theorem holds_eq_decide_sum :
    let g : Guard := ⟨.var "x + 1", .expr (.ofText "x + 1")⟩
    let b : Binding := .ofList [("x", .int 1), ("x + 1", .int 2)]
    g.left.evaluate b = .ok (.int 2) ∧ g.right.evaluate b = .ok (.int 2) ∧ g.holds b = .ok true ∧ g.IsAmbiguous ∧
      ∃ b' v w, g.left.evaluate b' = .ok v ∧ g.right.evaluate b' = .ok w ∧ v ≠ w := by
  intro g b
  have hleft : g.left.evaluate b = .ok (.int 2) := by decide +kernel
  have hright : g.right.evaluate b = .ok (.int 2) := by decide +kernel
  have hambiguous : g.IsAmbiguous := .inl ⟨"x + 1", rfl, by decide +kernel, rfl, fun y hy => by cases hy⟩
  obtain ⟨hholds, hdifferent⟩ := (holds_eq_decide hleft hright).2 hambiguous
  exact ⟨hleft, hright, hholds b, hambiguous, hdifferent⟩

/-- A variable named like a number is taken for the number, whatever its value. -/
theorem holds_of_different_values :
    let g : Guard := ⟨.var "1", .const (.int 1)⟩
    let b : Binding := .ofList [("1", .int 2)]
    g.left.evaluate b = .ok (.int 2) ∧ g.right.evaluate b = .ok (.int 1) ∧ g.holds b = .ok true := by
  intro g b
  exact ⟨by decide +kernel, by decide +kernel, by decide +kernel⟩

end Guard

end TokenNet
