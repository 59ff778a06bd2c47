import TokenNet.Interpreter.Guards
import TokenNet.Interpreter.Simplification
import TokenNet.Proofs.FiringOutcome

/-!
# Asking an interpreter about guards and nets

An interpreter that remembers right trees answers about guards, and simplifies nets, as the formulas themselves say:
`Interpreter.answers_openGuards`, `Interpreter.answers_keyOrder`, `Interpreter.answers_simplify`.
-/

namespace TokenNet.Interpreter

variable {i : Interpreter}

/-! ### Guards -/

theorem answers_inscriptionVars (label : Inscription) (hi : i.Right) : Answers (inscriptionVars label) i label.vars := by
  cases label with
  | expr f =>
    have hanswers := answers_vars f.text hi
    rwa [Formula.ofText_text] at hanswers
  | _ => exact answers_ofExcept _ hi

theorem answers_guardVars (g : Guard) (hi : i.Right) : Answers (guardVars g) i g.vars :=
  (answers_inscriptionVars g.left hi).bind fun l _ _ hi' =>
    (answers_inscriptionVars g.right hi').bind fun r _ _ hi'' => answers_pure (l.union r) hi''

theorem answers_holds (g : Guard) (b : Binding) (hi : i.Right) : Answers (holds g b) i (g.holds b) := by
  unfold holds Guard.holds
  by_cases htext : g.left.text = g.right.text
  · rw [if_pos htext, if_pos htext]
    exact answers_pure true hi
  · rw [if_neg htext, if_neg htext]
    exact (answers_inscription b g.left hi).bind fun x _ _ hi' =>
      (answers_inscription b g.right hi').bind fun y _ _ hi'' => answers_pure (decide (x = y)) hi''

theorem answers_openGuards (guards : List Guard) (hi : i.Right) :
    Answers (openGuards guards) i (Enabling.openGuards guards) := by
  induction guards generalizing i with
  | nil => exact answers_pure _ hi
  | cons g guards ih =>
    refine (answers_guardVars g hi).bind fun vars i₁ _ hi₁ => ?_
    by_cases hclosed : vars.isEmpty = true
    · rw [if_pos hclosed, if_pos hclosed]
      refine (answers_holds g ∅ hi₁).bind fun keep i₂ _ hi₂ => ?_
      cases keep with
      | true => exact ih hi₂
      | false => exact answers_pure none hi₂
    · rw [if_neg hclosed, if_neg hclosed]
      exact (ih hi₁).bind fun rest _ _ hi₂ => answers_pure (rest.map ((g, vars) :: ·)) hi₂

theorem answers_keyOrder (inputs : List Variable) (guards : List Guard) (hi : i.Right) :
    Answers (keyOrder inputs guards) i (KeyOrder.ofGuards inputs guards) :=
  (answers_mapM (fun g _ => answers_guardVars g) guards hi).bind fun _ _ _ hi' => answers_pure _ hi'

/-! ### Substitution -/

theorem answers_substituteInscription (x : Variable) (r label : Inscription) (hi : i.Right) :
    Answers (substituteInscription x r label) i (label.substitute x r) := by
  cases label with
  | expr f =>
    -- a formula is its text, so it can be made again from the text that the interpreter answers
    have htext : (Inscription.expr f).substitute x r =
        ((Formula.ofText f.text).substitute x r).map Formula.text >>= fun text => .ok (.expr (.ofText text)) := by
      rw [Formula.ofText_text]
      change (f.substitute x r >>= fun f' => pure (Inscription.expr f')) = _
      cases f.substitute x r with
      | error e => rfl
      | ok f' => exact congrArg (fun f => Except.ok (Inscription.expr f)) f'.ofText_text.symm
    rw [htext]
    exact (answers_substitute f.text x r hi).bind fun text _ _ hi' => answers_pure (Inscription.expr (.ofText text)) hi'
  | _ => exact answers_ofExcept _ hi

theorem answers_substituteGuard (x : Variable) (r : Inscription) (g : Guard) (hi : i.Right) :
    Answers (substituteGuard x r g) i (g.substitute x r) :=
  (answers_substituteInscription x r g.left hi).bind fun left _ _ hi' =>
    (answers_substituteInscription x r g.right hi').bind fun right _ _ hi'' => answers_pure (Guard.mk left right) hi''

theorem answers_traverse {ε K V W : Type} [Ord K] [Std.TransOrd K] [Std.LawfulEqOrd K]
    {f : K → V → ExceptT ε (StateM Interpreter) W} {g : K → V → Except ε W}
    (h : ∀ k v i, i.Right → Answers (f k v) i (g k v)) (m : FinMap K V) (hi : i.Right) :
    Answers (traverse f m) i (m.traverse g) := by
  have hlist : m.traverse g = (m.entries.mapM fun e => return (e.1, ← g e.1 e.2)) >>= fun l => .ok (FinMap.ofList l) := by
    rw [← FinMap.traverseEntries_eq_mapM, ← FinMap.map_entries_traverse]
    cases m.traverse g with
    | error e => rfl
    | ok r => exact congrArg Except.ok r.ofList_entries.symm
  rw [hlist]
  exact (answers_mapM (fun e _ hi' => (h e.1 e.2 _ hi').bind fun w _ _ hi'' => answers_pure (e.1, w) hi'') m.entries hi).bind
    fun l _ _ hi' => answers_pure (FinMap.ofList l) hi'

theorem answers_substituteArcs (x : Variable) (r : Inscription) (arcs : Arcs) (hi : i.Right) :
    Answers (substituteArcs x r arcs) i (Arcs.substitute arcs x r) :=
  answers_traverse (fun _ l _ => answers_mapM (fun label _ => answers_substituteInscription x r label) l) arcs hi

/-! ### Simplification -/

theorem answers_eliminate (w : Propagation) (x : Variable) (r : Inscription) (hi : i.Right) :
    Answers (eliminate w x r) i (w.eliminate x r) := by
  refine (answers_substituteArcs x r w.input hi).bind fun input _ _ hi₁ => ?_
  refine (answers_substituteArcs x r w.output hi₁).bind fun output _ _ hi₂ => ?_
  refine (answers_mapM (fun g _ => answers_substituteGuard x r g) w.examined hi₂).bind fun examined _ _ hi₃ => ?_
  exact (answers_mapM (fun g _ => answers_substituteGuard x r g) w.pending hi₃).bind fun pending _ _ hi₄ =>
    answers_pure (Propagation.mk input output examined pending (w.eliminated ++ [(x, r)])) hi₄

theorem answers_examine (w : Propagation) (hi : i.Right) : Answers (examine w) i w.examine := by
  unfold examine Propagation.examine
  rcases w.pending with _ | ⟨⟨left, right⟩, rest⟩
  · exact answers_pure w hi
  · cases left with
    | var x =>
      cases right with
      | var y =>
        dsimp only
        split
        · exact answers_pure _ hi
        · exact answers_eliminate _ _ _ hi
      | _ => exact answers_pure _ hi
    | _ => exact answers_pure _ hi

theorem answers_propagateEqualities (w : Propagation) (hi : i.Right) :
    Answers (propagateEqualities w) i w.propagateEqualities :=
  answers_foldlM (fun w _ _ => answers_examine w) w.pending w hi

theorem answers_propagateConstants (t : TransitionName) (w : Propagation) (hi : i.Right) :
    Answers (propagateConstants t w) i (w.propagateConstants t) :=
  (answers_lift _ hi).bind fun _ _ _ hi' =>
    (answers_foldlM (fun w e _ => answers_eliminate w e.1 (.const e.2)) _ _ hi').adapt _

theorem answers_simplifyTransition (name : TransitionName) (t : Transition) (hi : i.Right) :
    Answers (simplifyTransition name t) i (t.simplify name) :=
  ((answers_propagateEqualities (.ofTransition t) hi).adapt _).bind fun w _ _ hi₁ =>
    (answers_propagateConstants name w hi₁).bind fun w' _ _ hi₂ => answers_pure (w'.toTransition, w'.eliminated) hi₂

theorem answers_simplify (net : Net) (hi : i.Right) : Answers (simplify net) i net.simplify :=
  (answers_traverse (fun name t _ => answers_simplifyTransition name t) net.transitions hi).bind fun _ _ _ hi' =>
    answers_pure _ hi'

theorem answers_repeatSimplify (n : Nat) (s : Simplified) (hi : i.Right) :
    Answers (repeatSimplify n s) i (Simplified.repeatSimplify n s) := by
  induction n generalizing s i with
  | zero => exact answers_pure s hi
  | succ n ih =>
    refine (answers_simplify s.net hi).bind fun next _ _ hi' => ?_
    by_cases hsame : next.net = s.net
    · rw [if_pos hsame, if_pos hsame]
      exact answers_pure s hi'
    · rw [if_neg hsame, if_neg hsame]
      exact ih (s.andThen next) hi'

theorem answers_simplifyFully (net : Net) (hi : i.Right) : Answers (simplifyFully net) i net.simplifyFully :=
  (answers_simplify net hi).bind fun s _ _ hi' => answers_repeatSimplify (s.net.guardCount + 1) s hi'

theorem answers_restore (s : Simplified) (t : TransitionName) (b : Binding) (hi : i.Right) :
    Answers (restore s t b) i (s.restore t b) :=
  answers_foldlM (fun b e _ hi' => (answers_inscription b e.2 hi').bind fun v _ _ hi'' => answers_pure (b.insert e.1 v) hi'')
    (s.eliminatedOf t).reverse b hi

end TokenNet.Interpreter
