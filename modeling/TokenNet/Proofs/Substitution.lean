import TokenNet.Proofs.Evaluation
import TokenNet.Proofs.Expr.Reading
import TokenNet.Proofs.Results

/-!
# Substitution and evaluation

Replacing a variable by an inscription means giving the variable the value of the inscription: `evaluate_substitute`,
where `Binding.undo` gives it that value.  Formulas are written and read again on the way, so this needs the names of
variables to be identifiers.  Computations are compared by `Alike`, since their errors name different variables.

Two inscriptions with the same text denote the same tree, `toExpr_congr`, and are evaluated alike.
-/

namespace TokenNet

/-! ### Succeeding alike -/

section Alike

variable {ε α β : Type} {x y z : Except ε α} {f g : α → Except ε β}

/-- The computations have the same result, or both fail. -/
def Alike (x y : Except ε α) : Prop := ∀ a, x = .ok a ↔ y = .ok a

theorem Alike.refl (x : Except ε α) : Alike x x := fun _ => Iff.rfl

theorem Alike.trans (h : Alike x y) (h' : Alike y z) : Alike x z := fun a => (h a).trans (h' a)

theorem Alike.bind (h : Alike x y) (hfg : ∀ a, Alike (f a) (g a)) : Alike (x >>= f) (y >>= g) := by
  intro b
  rw [bind_eq_ok, bind_eq_ok]
  exact exists_congr fun a => and_congr (h a) (hfg a b)

end Alike

/-! ### Expressions -/

/-- All values of the first binding are values of the second one. -/
def Binding.Below (b c : Binding) : Prop := ∀ x v, b.get? x = some v → c.get? x = some v

namespace Expr

/-- Combines the value of the left operand with the right operand, which may not be asked for its value. -/
def combine (op : BinaryOp) (x : Value) (y : Except EvaluationError Value) : Except EvaluationError Value :=
  match op with
  | .and => do
    if ← BinaryOp.condition .and x then
      return .bool (← BinaryOp.condition .and (← y))
    else
      return .bool false
  | .or => do
    if ← BinaryOp.condition .or x then
      return .bool true
    else
      return .bool (← BinaryOp.condition .or (← y))
  | op => do op.apply x (← y)

theorem evaluate_binary (op : BinaryOp) (l r : Expr) (b : Binding) :
    (binary op l r).evaluate b = l.evaluate b >>= fun x => combine op x (r.evaluate b) := by
  cases op <;> rfl

/-- Nothing but the success of the right operand matters. -/
theorem combine_eq_ok {op : BinaryOp} {x v : Value} {y y' : Except EvaluationError Value}
    (hy : ∀ w, y = .ok w → y' = .ok w) (h : combine op x y = .ok v) : combine op x y' = .ok v := by
  have hbind : ∀ f : Value → Except EvaluationError Value, y >>= f = .ok v → y' >>= f = .ok v := by
    intro f hf
    obtain ⟨w, hw, hfw⟩ := bind_eq_ok.1 hf
    exact bind_eq_ok.2 ⟨w, hy w hw, hfw⟩
  unfold combine at h ⊢
  cases op with
  | and =>
    obtain ⟨c, hc, h⟩ := bind_eq_ok.1 h
    refine bind_eq_ok.2 ⟨c, hc, ?_⟩
    cases c with
    | true => exact hbind _ h
    | false => exact h
  | or =>
    obtain ⟨c, hc, h⟩ := bind_eq_ok.1 h
    refine bind_eq_ok.2 ⟨c, hc, ?_⟩
    cases c with
    | true => exact h
    | false => exact hbind _ h
  | _ => exact hbind _ h

theorem alike_combine (op : BinaryOp) (x : Value) {y y' : Except EvaluationError Value} (h : Alike y y') :
    Alike (combine op x y) (combine op x y') :=
  fun _ => ⟨combine_eq_ok fun w => (h w).1, combine_eq_ok fun w => (h w).2⟩

theorem evaluate_substitute {e r : Expr} {x : Variable} {b c : Binding} (hx : Alike (r.evaluate b) (Binding.value c x))
    (hc : ∀ y, y ≠ x → b.get? y = c.get? y) : Alike ((e.substitute x r).evaluate b) (e.evaluate c) := by
  induction e with
  | lit v => exact .refl _
  | var y =>
    by_cases hy : y = x
    · have hsubst : (var y).substitute x r = r := if_pos hy
      rw [hsubst, hy]
      exact hx
    · have hsubst : (var y).substitute x r = var y := if_neg hy
      have hvalue : Binding.value b y = Binding.value c y := Binding.value_congr (hc y hy)
      rw [hsubst]
      change Alike (Binding.value b y) (Binding.value c y)
      rw [hvalue]
      exact .refl _
  | unary op e ih => exact ih.bind fun v => .refl _
  | binary op l r ihl ihr =>
    have hsubst : ∀ r', (binary op l r).substitute x r' = binary op (l.substitute x r') (r.substitute x r') := fun _ => rfl
    rw [hsubst, evaluate_binary, evaluate_binary]
    exact ihl.bind fun v => alike_combine op v ihr

theorem evaluate_mono {e : Expr} {b c : Binding} (h : b.Below c) {v : Value} (he : e.evaluate b = .ok v) :
    e.evaluate c = .ok v := by
  induction e generalizing v with
  | lit w => exact he
  | var x => exact Binding.value_eq_ok.2 (h x v (Binding.value_eq_ok.1 he))
  | unary op e ih =>
    obtain ⟨w, hw, hop⟩ := bind_eq_ok.1 he
    exact bind_eq_ok.2 ⟨w, ih hw, hop⟩
  | binary op l r ihl ihr =>
    rw [evaluate_binary] at he ⊢
    obtain ⟨w, hw, hcombine⟩ := bind_eq_ok.1 he
    exact bind_eq_ok.2 ⟨w, ihl hw, combine_eq_ok (fun w' hw' => ihr hw') hcombine⟩

theorem substitute_of_not_mentions {e : Expr} {x : Variable} (h : e.mentions x = false) (r : Expr) :
    e.substitute x r = e := by
  induction e with
  | lit v => rfl
  | var y => exact if_neg (of_decide_eq_false h)
  | unary op e ih => exact congrArg (unary op) (ih h)
  | binary op l r ihl ihr =>
    obtain ⟨hl, hr⟩ := Bool.or_eq_false_iff.1 h
    unfold substitute
    rw [ihl hl, ihr hr]

theorem HasIdentifiers.substitute {e r : Expr} (he : e.HasIdentifiers) (hr : r.HasIdentifiers) (x : Variable) :
    (e.substitute x r).HasIdentifiers := by
  induction e with
  | lit v => exact hasIdentifiers_lit v
  | var y =>
    by_cases hy : y = x
    · have hsubst : (var y).substitute x r = r := if_pos hy
      rwa [hsubst]
    · have hsubst : (var y).substitute x r = var y := if_neg hy
      rwa [hsubst]
  | unary op e ih => exact ih he
  | binary op a b iha ihb =>
    exact (iha fun y hy => he y (by rw [mentions, hy, Bool.true_or])).binary
      (ihb fun y hy => he y (by rw [mentions, hy, Bool.or_true])) op

end Expr

/-! ### Inscriptions -/

/-- The binding, with the value of `r` for `x`. -/
def Binding.undo (x : Variable) (r : Inscription) (b : Binding) : Binding := b.alter x fun _ => (r.evaluate b).toOption

theorem Binding.get?_undo (x : Variable) (r : Inscription) (b : Binding) (y : Variable) :
    (Binding.undo x r b).get? y = if y = x then (r.evaluate b).toOption else b.get? y := by
  rw [Binding.undo, FinMap.get?_alter]
  by_cases hy : y = x
  · simp [hy]
  · simp [hy]

namespace Inscription

/-- The name of a variable is an identifier. -/
def Named (i : Inscription) : Prop := ∀ x, i = .var x → Expr.isIdentifier x = true

instance (i : Inscription) : Decidable i.Named :=
  match i with
  | .var x => decidable_of_iff (Expr.isIdentifier x = true) ⟨fun h _ hy => Inscription.var.inj hy ▸ h, fun h => h x rfl⟩
  | .const _ => isTrue nofun
  | .expr _ => isTrue nofun

variable {i i' j r : Inscription} {x : Variable} {b c : Binding}

theorem alike_value_undo (x : Variable) (r : Inscription) (b : Binding) :
    Alike (r.evaluate b) (Binding.value (Binding.undo x r b) x) := by
  intro v
  rw [Binding.value_eq_ok, Binding.get?_undo, if_pos rfl]
  cases r.evaluate b with
  | error e => simp [Except.toOption]
  | ok w => simp [Except.toOption]

/-- The tree of an inscription is the tree of its text. -/
theorem toExpr_eq_parse (hi : i.Named) : i.toExpr = Expr.parse i.text := by
  cases i with
  | var x =>
    have hx := hi x rfl
    have he : (Expr.var x).HasIdentifiers := by
      intro y hy
      rwa [← of_decide_eq_true hy]
    have htext : (Expr.var x).text = x := by simp [Expr.text, Expr.chars, Expr.charsBefore]
    have hparse := Expr.parse_text he
    rw [htext] at hparse
    rw [text, hparse, toExpr, if_pos hx]
  | const v =>
    have htext : (Expr.lit v).text = v.text := by simp [Expr.text, Expr.chars, Expr.charsBefore, Value.text]
    have hparse := Expr.parse_text (Expr.hasIdentifiers_lit v)
    rw [htext] at hparse
    rw [text, hparse, toExpr]
  | expr f => exact f.reading_eq

theorem toExpr_congr (hi : i.Named) (hj : j.Named) (h : i.text = j.text) : i.toExpr = j.toExpr := by
  rw [toExpr_eq_parse hi, toExpr_eq_parse hj, h]

theorem hasIdentifiers_of_toExpr {e : Expr} (h : i.toExpr = .ok e) : e.HasIdentifiers := by
  cases i with
  | var x =>
    rw [toExpr] at h
    by_cases hx : Expr.isIdentifier x = true
    · rw [if_pos hx] at h
      cases h
      intro y hy
      rwa [← of_decide_eq_true hy]
    · rw [if_neg hx] at h
      cases h
  | const v =>
    cases h
    exact Expr.hasIdentifiers_lit v
  | expr f =>
    have hreading : Expr.parse f.text = .ok e := f.reading_eq.symm.trans h
    exact Expr.hasIdentifiers_of_parse hreading

/-- An inscription is evaluated as its tree. -/
theorem evaluate_eq (hi : i.Named) (b : Binding) : i.evaluate b = i.toExpr >>= Expr.evaluate b := by
  cases i with
  | var x =>
    rw [toExpr, if_pos (hi x rfl)]
    rfl
  | const v => rfl
  | expr f => rfl

theorem evaluate_mono (h : b.Below c) {v : Value} (hi : i.evaluate b = .ok v) : i.evaluate c = .ok v := by
  cases i with
  | var x => exact Binding.value_eq_ok.2 (h x v (Binding.value_eq_ok.1 hi))
  | const w => exact hi
  | expr f =>
    obtain ⟨e, he, hv⟩ := bind_eq_ok.1 hi
    exact bind_eq_ok.2 ⟨e, he, Expr.evaluate_mono h hv⟩

theorem substitute_expr_eq_ok {f : Formula} :
    (Inscription.expr f).substitute x r = .ok i' ↔ ∃ f', f.substitute x r = .ok f' ∧ .expr f' = i' := by
  unfold substitute
  rw [bind_eq_ok]
  simp only [pure, Except.pure, Except.ok.injEq]

/-- A formula with a substitution can be read; if its tree mentions the variable, the new tree is written down and read
again, and otherwise the formula stays. -/
theorem reading_of_substitute {f f' : Formula} (h : f.substitute x r = .ok f') : ∃ e, f.reading = .ok e ∧
    ((e.mentions x = true ∧ ∃ er, r.toExpr = .ok er ∧ f'.reading = .ok (e.substitute x er)) ∨
      (e.mentions x = false ∧ f' = f)) := by
  obtain ⟨e, he, hsubst⟩ := bind_eq_ok.1 h
  refine ⟨e, he, ?_⟩
  cases hx : e.mentions x with
  | true =>
    rw [if_pos hx] at hsubst
    obtain ⟨er, her, heq⟩ := bind_eq_ok.1 hsubst
    cases heq
    have hid := hasIdentifiers_of_toExpr (i := .expr f) he
    exact .inl ⟨rfl, er, her, Expr.parse_text (hid.substitute (hasIdentifiers_of_toExpr her) x)⟩
  | false =>
    rw [hx] at hsubst
    cases hsubst
    exact .inr ⟨rfl, rfl⟩

/-- The tree of an inscription after a substitution. -/
theorem toExpr_substitute (hi : i.Named) {er : Expr} (her : r.toExpr = .ok er)
    (h : i.substitute x r = .ok i') : ∃ e, i.toExpr = .ok e ∧ i'.toExpr = .ok (e.substitute x er) := by
  cases i with
  | var y =>
    cases h
    refine ⟨.var y, by rw [toExpr, if_pos (hi y rfl)], ?_⟩
    by_cases hy : y = x
    · simp [hy, her, Expr.substitute]
    · simp [hy, toExpr, hi y rfl, Expr.substitute]
  | const v =>
    cases h
    exact ⟨.lit v, rfl, rfl⟩
  | expr f =>
    obtain ⟨f', hf', rfl⟩ := substitute_expr_eq_ok.1 h
    obtain ⟨e, he, hcases⟩ := reading_of_substitute hf'
    refine ⟨e, he, ?_⟩
    rcases hcases with ⟨-, er', her', he'⟩ | ⟨hx, rfl⟩
    · rw [her] at her'
      cases her'
      exact he'
    · rw [Expr.substitute_of_not_mentions hx]
      exact he

/-- Replacing a variable means giving it the value of what replaces it. -/
theorem evaluate_substitute (hi : i.Named) (hi' : i'.Named) (hr : r.Named) {er : Expr} (her : r.toExpr = .ok er)
    (h : i.substitute x r = .ok i') (b : Binding) : Alike (i'.evaluate b) (i.evaluate (Binding.undo x r b)) := by
  obtain ⟨e, he, he'⟩ := toExpr_substitute hi her h
  have hvalue := alike_value_undo x r b
  rw [evaluate_eq hr, her] at hvalue
  rw [evaluate_eq hi', evaluate_eq hi, he, he']
  refine Expr.evaluate_substitute hvalue fun y hy => ?_
  rw [Binding.get?_undo, if_neg hy]

theorem Named.substitute (hi : i.Named) (hr : r.Named) (h : i.substitute x r = .ok i') : i'.Named := by
  cases i with
  | var y =>
    cases h
    by_cases hy : y = x
    · rwa [if_pos hy]
    · rwa [if_neg hy]
  | const v =>
    cases h
    nofun
  | expr f =>
    obtain ⟨f', -, rfl⟩ := substitute_expr_eq_ok.1 h
    nofun

/-- A variable after a substitution is the replacement, or was there before. -/
theorem eq_var_of_substitute {z : Variable} (h : i.substitute x r = .ok (.var z)) :
    (i = .var x ∧ r = .var z) ∨ (i = .var z ∧ z ≠ x) := by
  cases i with
  | var y =>
    have hvar : (if y = x then r else var y) = var z := Except.ok.inj h
    by_cases hy : y = x
    · rw [if_pos hy] at hvar
      exact .inl ⟨by rw [hy], hvar⟩
    · rw [if_neg hy] at hvar
      cases hvar
      exact .inr ⟨rfl, hy⟩
  | const v => cases h
  | expr f =>
    obtain ⟨f', -, heq⟩ := substitute_expr_eq_ok.1 h
    cases heq

/-- Where an atom replaces a variable, what is a formula after the substitution was one before. -/
theorem eq_expr_of_substitute {f' : Formula} (hr : ∀ f, r ≠ .expr f) (h : i.substitute x r = .ok (.expr f')) :
    ∃ f, i = .expr f ∧ f.substitute x r = .ok f' := by
  cases i with
  | var y =>
    have hvar : (if y = x then r else var y) = expr f' := Except.ok.inj h
    by_cases hy : y = x
    · rw [if_pos hy] at hvar
      exact absurd hvar (hr f')
    · rw [if_neg hy] at hvar
      cases hvar
  | const v => cases h
  | expr f =>
    obtain ⟨f₁, hf₁, heq⟩ := substitute_expr_eq_ok.1 h
    cases heq
    exact ⟨f, rfl, hf₁⟩

end Inscription

end TokenNet
