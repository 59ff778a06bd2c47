import TokenNet.Diagram.Asking
import TokenNet.Proofs.Results

/-!
# What is beside a state does not matter

`Attends I x y` says that `x`, a computation on two states, does to the first one what `y` does, and has its result,
whatever the second state is, as long as this satisfies `I`; and that it satisfies `I` again afterwards.  So it is if the
questions to the second state always have the same answers, `AlwaysAnswers`.

A filter by a test with a state attends the filter by a test without one that answers the same,
`Diagram.Asking.attends_filterFrom`.
-/

namespace TokenNet

open BesideM

section Attends

variable {ε S T α β : Type} {I : T → Prop}

def Attends (I : T → Prop) (x : BesideM ε S T α) (y : ExceptT ε (StateM S) α) : Prop :=
  ∀ s t, I t → ∃ t', I t' ∧ x.run.run ⟨s, t⟩ = ((y.run.run s).1, ⟨(y.run.run s).2, t'⟩)

theorem attends_pure (a : α) : Attends I (pure a : BesideM ε S T α) (pure a) := fun _ t ht => ⟨t, ht, rfl⟩

theorem attends_throw (e : ε) : Attends I (throw e : BesideM ε S T α) (throw e) := fun _ t ht => ⟨t, ht, rfl⟩

theorem attends_onMain (y : ExceptT ε (StateM S) α) : Attends I (onMain y : BesideM ε S T α) y := fun _ t ht => ⟨t, ht, rfl⟩

/-- A computation that cannot fail. -/
theorem attends_liftM {x : StateM (Beside S T) α} {y : StateM S α}
    (h : ∀ s t, I t → ∃ t', I t' ∧ x.run ⟨s, t⟩ = ((y.run s).1, ⟨(y.run s).2, t'⟩)) :
    Attends I (liftM x : BesideM ε S T α) (liftM y) := by
  intro s t ht
  obtain ⟨t', ht', hrun⟩ := h s t ht
  refine ⟨t', ht', ?_⟩
  change (Except.ok (x.run ⟨s, t⟩).1, (x.run ⟨s, t⟩).2) = _
  rw [hrun]
  rfl

/-- In every state that satisfies `I`, the answer to the question is `r`, and leaves such a state. -/
def AlwaysAnswers (I : T → Prop) (x : ExceptT ε (StateM T) α) (r : Except ε α) : Prop :=
  ∀ t, I t → (x.run.run t).1 = r ∧ I (x.run.run t).2

theorem attends_onSide {x : ExceptT ε (StateM T) α} {r : Except ε α} (hx : AlwaysAnswers I x r) :
    Attends I (onSide x : BesideM ε S T α) (.mk (pure r)) := by
  intro s t ht
  obtain ⟨hr, hI⟩ := hx t ht
  refine ⟨(x.run.run t).2, hI, ?_⟩
  rw [← hr]
  rfl

theorem Attends.bind {x : BesideM ε S T α} {y : ExceptT ε (StateM S) α} {f : α → BesideM ε S T β}
    {g : α → ExceptT ε (StateM S) β} (h : Attends I x y) (hf : ∀ a, Attends I (f a) (g a)) :
    Attends I (x >>= f) (y >>= g) := by
  intro s t ht
  obtain ⟨t', ht', hrun⟩ := h s t ht
  rw [run_bind_state, run_bind_state, hrun]
  rcases y.run.run s with ⟨e | a, s'⟩
  · exact ⟨t', ht', rfl⟩
  · exact hf a s' t' ht'

theorem attends_foldlM {f : β → α → BesideM ε S T β} {g : β → α → ExceptT ε (StateM S) β}
    (h : ∀ b a, Attends I (f b a) (g b a)) (l : List α) (b : β) : Attends I (l.foldlM f b) (l.foldlM g b) := by
  induction l generalizing b with
  | nil => exact attends_pure b
  | cons a l ih =>
    rw [List.foldlM_cons, List.foldlM_cons]
    exact (h b a).bind ih

/-- Questions that are asked one after the other. -/
theorem attends_foldlM_answered {f : β → α → BesideM ε S T β} {g : β → α → Except ε β}
    (h : ∀ b a, Attends I (f b a) (.mk (pure (g b a)))) (l : List α) (b : β) :
    Attends I (l.foldlM f b) (.mk (pure (l.foldlM g b))) := by
  induction l generalizing b with
  | nil => exact attends_pure b
  | cons a l ih =>
    have hbind : (.mk (pure ((a :: l).foldlM g b)) : ExceptT ε (StateM S) β) =
        .mk (pure (g b a)) >>= fun b' => .mk (pure (l.foldlM g b')) := by
      rw [List.foldlM_cons]
      cases g b a <;> rfl
    rw [List.foldlM_cons, hbind]
    exact (h b a).bind ih

end Attends

/-! ### Filters -/

namespace Diagram.Asking

variable {K V ε T : Type} [Ord K] [Ord V] {I : T → Prop} {question : Question ε K V T} {test : Test ε K V}

/-- A test without a state is one whose answers are given already. -/
private theorem judge_eq_bind (test : Test ε K V) (chosen : List (K × V)) (d : Diagram K V) :
    Diagram.judge test chosen d = (modify fun f => { f with calls := chosen :: f.calls }) >>= fun _ =>
      .mk (pure (test chosen)) >>= fun keep => if keep then return d else return .emptySet := by
  unfold Diagram.judge
  refine bind_congr fun _ => ?_
  rcases test chosen with e | _ | _ <;> rfl

theorem attends_judge (h : ∀ l, AlwaysAnswers I (question l) (test l))
    (chosen : List (K × V)) (d : Diagram K V) : Attends I (judge question chosen d) (Diagram.judge test chosen d) := by
  rw [judge_eq_bind]
  refine (attends_onMain _).bind fun _ => (attends_onSide (h chosen)).bind fun keep => ?_
  cases keep with
  | false => exact attends_pure _
  | true => exact attends_pure _

theorem attends_rememberVerdict {x : BesideM ε (FilterState K V) T (Diagram K V)} {y : FilterM ε K V (Diagram K V)}
    (h : Attends I x y) (i : Nat) (chosen : List (K × V)) :
    Attends I (rememberVerdict i chosen x) (Diagram.rememberVerdict i chosen y) := by
  refine (attends_onMain _).bind fun f => ?_
  cases f.verdicts[matter i chosen]? with
  | some d => exact attends_pure d
  | none => exact h.bind fun d => (attends_onMain _).bind fun _ => attends_pure d

mutual

/-- The filter asks the same of a test with a state, and does the same with the answers. -/
theorem attends_filterFrom (h : ∀ l, AlwaysAnswers I (question l) (test l))
    (keys : List K) (chosen : List (K × V)) :
    ∀ d : Diagram K V, Attends I (filterFrom keys question chosen d) (Diagram.filterFrom keys test chosen d)
  | emptySet => by
    rw [filterFrom, Diagram.filterFrom]
    exact attends_pure _
  | emptyMap => by
    rw [filterFrom, Diagram.filterFrom]
    exact attends_rememberVerdict (attends_judge h chosen _) 1 chosen
  | node i k take skip => by
    rw [filterFrom, Diagram.filterFrom]
    refine attends_rememberVerdict ?_ i chosen
    by_cases hdecided : isDecided keys chosen k = true
    · rw [if_pos hdecided, if_pos hdecided]
      exact attends_judge h chosen _
    · rw [if_neg hdecided, if_neg hdecided]
      exact (attends_filterBranches h keys chosen k take).bind fun take' =>
        (attends_filterFrom h keys chosen skip).bind fun skip' => attends_onMain _

theorem attends_filterBranches (h : ∀ l, AlwaysAnswers I (question l) (test l))
    (keys : List K) (chosen : List (K × V)) (k : K) :
    ∀ bs : List (V × Diagram K V),
      Attends I (filterBranches keys question chosen k bs) (Diagram.filterBranches keys test chosen k bs)
  | [] => by
    rw [filterBranches, Diagram.filterBranches]
    exact attends_pure _
  | (v, c) :: rest => by
    rw [filterBranches, Diagram.filterBranches]
    exact (attends_filterFrom h keys _ c).bind fun d =>
      (attends_filterBranches h keys chosen k rest).bind fun ds => attends_pure _

end

/-- Filtering by a test with a state is filtering by one without. -/
theorem run_filter (h : ∀ l, AlwaysAnswers I (question l) (test l)) (keys : List K)
    (d : Diagram K V) (s : Store K V) {t : T} (ht : I t) : ∃ t', I t' ∧ (filter keys question d).run ⟨s, t⟩ =
      (((Diagram.filter keys test d).run s).1, ⟨((Diagram.filter keys test d).run s).2, t'⟩) := by
  obtain ⟨t', ht', hrun⟩ := attends_filterFrom h keys [] d { store := s } t ht
  refine ⟨t', ht', ?_⟩
  have hfilter : (filter keys question d).run ⟨s, t⟩ =
      (⟨((filterFrom keys question [] d).run.run ⟨{ store := s }, t⟩).1,
        ((filterFrom keys question [] d).run.run ⟨{ store := s }, t⟩).2.main.calls.reverse⟩,
        ⟨((filterFrom keys question [] d).run.run ⟨{ store := s }, t⟩).2.main.store,
          ((filterFrom keys question [] d).run.run ⟨{ store := s }, t⟩).2.side⟩) := rfl
  rw [hfilter, hrun]
  rfl

end Diagram.Asking

end TokenNet
