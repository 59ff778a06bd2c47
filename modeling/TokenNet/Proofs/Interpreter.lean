import Std.Data.TreeMap.Lemmas
import TokenNet.Interpreter

/-!
# Remembered trees are what the texts read as

An interpreter is `Right` if each tree that it remembers is that of its text.  It starts and stays so, whatever it is
asked, so its answers are those of the formulas themselves: `Interpreter.Reaches.answers_eq`.
-/

namespace TokenNet

/-- Questions to the first interpreter lead to the second one; they may have failed. -/
inductive Interpreter.Reaches : Interpreter → Interpreter → Prop where
  | refl (i : Interpreter) : Reaches i i
  | evaluate {i i' : Interpreter} (h : Reaches i i') (text : String) (b : Binding) :
      Reaches i ((evaluate text b).run.run i').2
  | vars {i i' : Interpreter} (h : Reaches i i') (text : String) : Reaches i ((vars text).run.run i').2
  | substitute {i i' : Interpreter} (h : Reaches i i') (text : String) (x : Variable) (r : Inscription) :
      Reaches i ((substitute text x r).run.run i').2

namespace Interpreter

/-- Each remembered tree is that of its text. -/
def Right (i : Interpreter) : Prop := ∀ text e, i.trees[text]? = some e → Expr.parse text = .ok e

/-- The interpreter answers `r`, and still remembers right trees. -/
def Answers {ε α : Type} (x : ExceptT ε (StateM Interpreter) α) (i : Interpreter) (r : Except ε α) : Prop :=
  (x.run.run i).1 = r ∧ (x.run.run i).2.Right

variable {ε α β : Type} {i i' : Interpreter}

theorem Answers.bind {x : ExceptT ε (StateM Interpreter) α} {f : α → ExceptT ε (StateM Interpreter) β} {r : Except ε α}
    {q : α → Except ε β} (hx : Answers x i r)
    (hf : ∀ a i', r = .ok a → i'.Right → Answers (f a) i' (q a)) : Answers (x >>= f) i (r >>= q) := by
  obtain ⟨hr, hright⟩ := hx
  unfold Answers
  rw [ExceptT.run_bind, StateT.run_bind]
  rcases hrun : x.run.run i with ⟨_ | a, i'⟩
  · rw [hrun] at hr hright
    subst hr
    exact ⟨rfl, hright⟩
  · rw [hrun] at hr hright
    subst hr
    exact hf a i' rfl hright

theorem answers_pure (a : α) (hi : i.Right) : Answers (ε := ε) (pure a) i (.ok a) := ⟨rfl, hi⟩

theorem answers_ofExcept (r : Except EvaluationError α) (hi : i.Right) : Answers (ofExcept r) i r := ⟨rfl, hi⟩

theorem answers_lift (r : Except ε α) (hi : i.Right) : Answers (liftM r : ExceptT ε (StateM Interpreter) α) i r := ⟨rfl, hi⟩

theorem Answers.adapt {ε' : Type} {x : ExceptT ε (StateM Interpreter) α} {r : Except ε α} (hx : Answers x i r)
    (f : ε → ε') : Answers (x.adapt f) i (r.mapError f) := by
  obtain ⟨hr, hright⟩ := hx
  refine ⟨?_, hright⟩
  rw [← hr]
  rfl

theorem answers_mapM {f : α → ExceptT ε (StateM Interpreter) β} {g : α → Except ε β}
    (hf : ∀ a i, i.Right → Answers (f a) i (g a)) (l : List α) (hi : i.Right) : Answers (l.mapM f) i (l.mapM g) := by
  induction l generalizing i with
  | nil => exact answers_pure [] hi
  | cons a l ih =>
    rw [List.mapM_cons, List.mapM_cons]
    exact (hf a i hi).bind fun b i₁ _ hi₁ => (ih hi₁).bind fun bs i₂ _ hi₂ => answers_pure (b :: bs) hi₂

theorem answers_foldlM {f : β → α → ExceptT ε (StateM Interpreter) β} {g : β → α → Except ε β}
    (h : ∀ b a i, i.Right → Answers (f b a) i (g b a)) (l : List α) (b : β) (hi : i.Right) :
    Answers (l.foldlM f b) i (l.foldlM g b) := by
  induction l generalizing b i with
  | nil => exact answers_pure b hi
  | cons a l ih =>
    rw [List.foldlM_cons, List.foldlM_cons]
    exact (h b a i hi).bind fun b' _ _ hi' => ih b' hi'

theorem run_get_bind (f : Interpreter → InterpreterM α) (i : Interpreter) :
    (get >>= f).run.run i = (f i).run.run i := rfl

theorem answers_parsed (text : String) (hi : i.Right) : Answers (parsed text) i (Expr.parse text) := by
  unfold Answers parsed
  rw [run_get_bind]
  cases hget : i.trees[text]? with
  | some e =>
    rw [hi text e hget]
    exact ⟨rfl, hi⟩
  | none =>
    cases hparse : Expr.parse text with
    | error e => exact ⟨rfl, hi⟩
    | ok e =>
      refine ⟨rfl, fun text' e' he' => ?_⟩
      change (i.trees.insert text e)[text']? = some e' at he'
      rw [Std.TreeMap.getElem?_insert] at he'
      split at he'
      · rename_i heq
        obtain rfl := Std.LawfulEqCmp.eq_of_compare heq
        rw [hparse, Option.some.inj he']
      · exact hi text' e' he'

theorem answers_evaluate (text : String) (b : Binding) (hi : i.Right) :
    Answers (evaluate text b) i ((Formula.ofText text).evaluate b) :=
  (answers_parsed text hi).bind fun e _ _ hi' => answers_ofExcept (e.evaluate b) hi'

theorem answers_vars (text : String) (hi : i.Right) : Answers (vars text) i (Formula.ofText text).vars :=
  (answers_parsed text hi).bind fun e _ _ hi' => answers_pure e.vars hi'

theorem answers_replacement (r : Inscription) (hi : i.Right) : Answers (replacement r) i r.toExpr := by
  cases r with
  | expr f =>
    have hreading : (Inscription.expr f).toExpr = Expr.parse f.text := f.reading_eq
    rw [hreading]
    exact answers_parsed f.text hi
  | _ => exact answers_ofExcept _ hi

theorem answers_substitute (text : String) (x : Variable) (r : Inscription) (hi : i.Right) :
    Answers (substitute text x r) i (((Formula.ofText text).substitute x r).map Formula.text) := by
  have hmap : ((Formula.ofText text).substitute x r).map Formula.text = Expr.parse text >>= fun e =>
      if e.mentions x then r.toExpr >>= fun e' => .ok (e.substitute x e').text else .ok text := by
    unfold Formula.substitute
    change (Expr.parse text >>= _).map _ = _
    cases Expr.parse text with
    | error e => rfl
    | ok e =>
      change (if e.mentions x then _ else _ : Except EvaluationError Formula).map _ = if e.mentions x then _ else _
      by_cases hx : e.mentions x
      · rw [if_pos hx, if_pos hx]
        cases r.toExpr <;> rfl
      · rw [if_neg hx, if_neg hx]
        rfl
  rw [hmap]
  refine (answers_parsed text hi).bind fun e i' _ hi' => ?_
  by_cases hx : e.mentions x
  · rw [if_pos hx, if_pos hx]
    exact (answers_replacement r hi').bind fun e' _ _ hi'' => answers_pure _ hi''
  · rw [if_neg hx, if_neg hx]
    exact answers_pure text hi'

theorem right_empty : ({} : Interpreter).Right := by
  intro text e he
  have hnone : ({} : Interpreter).trees[text]? = none := by simp
  rw [hnone] at he
  cases he

theorem Reaches.right (h : Reaches i i') (hi : i.Right) : i'.Right := by
  induction h with
  | refl => exact hi
  | evaluate _ text b ih => exact (answers_evaluate text b ih).2
  | vars _ text ih => exact (answers_vars text ih).2
  | substitute _ text x r ih => exact (answers_substitute text x r ih).2

/-- Whatever an interpreter has been asked before, its answers are those of the formulas. -/
theorem Reaches.answers_eq (h : Reaches {} i) (text : String) :
    (∀ b, ((Interpreter.evaluate text b).run.run i).1 = (Formula.ofText text).evaluate b) ∧
      ((Interpreter.vars text).run.run i).1 = (Formula.ofText text).vars ∧
      ∀ x r, ((Interpreter.substitute text x r).run.run i).1 =
        ((Formula.ofText text).substitute x r).map Formula.text := by
  have hi := h.right right_empty
  exact ⟨fun b => (answers_evaluate text b hi).1, (answers_vars text hi).1, fun x r => (answers_substitute text x r hi).1⟩

end Interpreter

end TokenNet
