import TokenNet.Engine
import TokenNet.Proofs.Beside
import TokenNet.Proofs.Questions
import TokenNet.Proofs.SessionCalls

/-!
# An engine does what its session does

Beside an interpreter that remembers right trees, the computations of an engine do to the session what the computations of
the session do, and have their results: `Engine.attends_enabledBindings`, `Engine.attends_successors`, and
`Engine.attends_explore` as long as nothing outside stops the exploration.

`Engine.Reaches e e'` says that the engine `e` has become `e'` after any computations, also ones that have failed or have
been stopped.  Then its session has been used as a session may be, and its interpreter still remembers right trees:
`Engine.Reaches.session_right`.
-/

namespace TokenNet

open BesideM Interpreter

namespace Engine

/-! ### Enabled bindings -/

section Bindings

variable {α : Type}

theorem attends_ask {x : InterpreterM α} {r : Except EvaluationError α} (hx : AlwaysAnswers Right x r) :
    Attends Right (ask x) (SessionM.ofEvaluation r) :=
  attends_onSide fun i hi => Answers.adapt (hx i hi) Error.evaluation

theorem attends_applyGuard (o : KeyOrder) (g : Guard) (vars : FinSet Variable) (d : BindingDiagram) :
    Attends Right (applyGuard o g vars d) (Enabling.applyGuard o g vars d) := by
  refine Attends.bind (attends_liftM fun s i hi => ?_) fun f => attends_onMain _
  exact Diagram.Asking.run_filter (fun path i hi => answers_holds g (Binding.ofPath path) hi) _ d s hi

theorem attends_enabledBindings (net : Net) (t : TransitionName) (m : Marking) :
    Attends Right (enabledBindings net t m) (net.enabledBindings t m) := by
  unfold enabledBindings Net.enabledBindings
  refine (attends_onMain _).bind fun d? => ?_
  cases d? with
  | none => exact attends_pure _
  | some d =>
    dsimp only
    by_cases hempty : (d.input.keys.any fun p => ((d.marking.get? p).getD ∅).isEmpty) = true
    · rw [if_pos hempty, if_pos hempty]
      exact attends_pure _
    · rw [if_neg hempty, if_neg hempty]
      refine (attends_onMain _).bind fun tr => ?_
      refine (attends_ask fun i hi => answers_openGuards tr.guards hi).bind fun guards? => ?_
      cases guards? with
      | none => exact attends_pure _
      | some guards =>
        refine (attends_ask fun i hi => answers_keyOrder tr.inputVariables tr.guards hi).bind fun o => ?_
        refine (attends_onMain _).bind fun joined => ?_
        refine (attends_foldlM (fun r e => ?_) guards joined.1).bind fun filtered => ?_
        · by_cases hr : r.isEmptySet = true
          · rw [if_pos hr, if_pos hr]
            exact attends_pure r
          · rw [if_neg hr, if_neg hr]
            exact attends_applyGuard o e.1 e.2 r
        · exact attends_foldlM (fun r c => attends_onMain _) joined.2 filtered

theorem attends_isEnabled (net : Net) (t : TransitionName) (m : Marking) :
    Attends Right (isEnabled net t m) (net.isEnabled t m) :=
  (attends_enabledBindings net t m).bind fun _ => attends_pure _

theorem attends_fire (net : Net) (t : TransitionName) (m : Marking) (b : Binding) :
    Attends Right (fire net t m b) (SessionM.ofExcept (net.fire t m b)) :=
  attends_onSide fun _ hi => answers_fire net t m b hi

theorem attends_successors (net : Net) (t : TransitionName) (m : Marking) :
    Attends Right (successors net t m) (net.successors t m) := by
  refine (attends_enabledBindings net t m).bind fun d => ?_
  have hfireAll : SessionM.ofExcept (net.fireAll t m d) = SessionM.ofExcept ((bindings d).foldlM
      (fun found b => return (← net.fire t m b).toList ++ found) []) >>= fun found => pure found.reverse := by
    unfold Net.fireAll
    rw [foldBindings_eq_foldlM]
    cases (bindings d).foldlM (fun found b => return (← net.fire t m b).toList ++ found) [] <;> rfl
  rw [hfireAll]
  refine (attends_foldlM_answered (fun found b => ?_) (bindings d) []).bind fun found => attends_pure _
  have hstep : (.mk (pure (do return (← net.fire t m b).toList ++ found)) : SessionM (List Marking)) =
      SessionM.ofExcept (net.fire t m b) >>= fun m' => pure (m'.toList ++ found) := by
    cases net.fire t m b <;> rfl
  rw [hstep]
  exact (attends_fire net t m b).bind fun _ => attends_pure _

end Bindings

/-! ### Explorations -/

/-- The trigger outside never says anything. -/
def Watch.Quiet (watch : Watch) : Prop := ∀ m, watch m = none

section Exploration

variable {limits : Limits} {watch : Watch}

theorem attends_followTransition (net : Net) (m : Marking) (f : Found) (t : TransitionName) :
    Attends Right (followTransition net limits m f t) (net.followTransition limits m f t) := by
  refine (attends_enabledBindings net t m).bind fun d => ?_
  rw [foldBindings_eq_foldlM]
  refine attends_foldlM_answered (fun f b => ?_) (bindings d) f
  have hstep : (.mk (pure (net.followBinding limits t m f b)) : SessionM Found) =
      SessionM.ofExcept (net.fire t m b) >>= fun r => r.elim (pure f) fun m' => SessionM.ofExcept (f.add limits m') := by
    unfold Net.followBinding
    rcases net.fire t m b with e | _ | m' <;> rfl
  rw [hstep]
  refine (attends_fire net t m b).bind fun r => ?_
  cases r with
  | some m' => exact attends_onMain _
  | none => exact attends_pure f

theorem attends_followMarking (hwatch : watch.Quiet) (net : Net) (f : Found) (m : Marking) :
    Attends Right (followMarking net limits watch f m) (net.followMarking limits f m) := by
  unfold followMarking
  rw [hwatch m]
  exact attends_foldlM (attends_followTransition net m) net.transitions.keys f

theorem attends_exploreFrom (hwatch : watch.Quiet) (net : Net) (n : Nat) (seen : Std.TreeSet Marking)
    (frontier : List Marking) :
    Attends Right (exploreFrom net limits watch n seen frontier) (net.exploreFrom limits n seen frontier) := by
  induction n generalizing seen frontier with
  | zero =>
    cases frontier with
    | nil => exact attends_pure seen
    | cons m frontier => exact attends_throw _
  | succ n ih =>
    cases frontier with
    | nil => exact attends_pure seen
    | cons m frontier =>
      refine (attends_foldlM (attends_followMarking hwatch net) (m :: frontier) _).bind fun f => ?_
      exact (attends_onMain _).bind fun _ => ih f.seen f.next.reverse

theorem attends_explore (hwatch : watch.Quiet) (net : Net) (initial : Marking) (limits : Limits) :
    Attends Right (explore net initial limits watch) (net.explore initial limits) :=
  Attends.bind (attends_onSide fun _ hi => answers_simplify net hi) fun s =>
    attends_exploreFrom hwatch s.net limits.iterations _ [initial]

end Exploration

/-! ### Using an engine -/

/-- Using the first engine leads to the second one; a computation may have failed on the way, or been stopped. -/
inductive Reaches : Engine → Engine → Prop where
  | refl (e : Engine) : Reaches e e
  | operation {e e' : Engine} {ε : Type} (h : Reaches e e') (c : Call ε Key Value) (hc : c.Admissible e'.main) :
      Reaches e { e' with main := (c.run.run e'.main).2 }
  | question {e e' : Engine} (h : Reaches e e') {i : Interpreter} (hi : Interpreter.Reaches e'.side i) :
      Reaches e { e' with side := i }
  | simplify {e e' : Engine} (h : Reaches e e') (net : Net) : Reaches e ((Engine.simplify net).run.run e').2
  | simplifyFully {e e' : Engine} (h : Reaches e e') (net : Net) : Reaches e ((Engine.simplifyFully net).run.run e').2
  | restore {e e' : Engine} (h : Reaches e e') (s : Simplified) (t : TransitionName) (b : Binding) :
      Reaches e ((Engine.restore s t b).run.run e').2
  | fire {e e' : Engine} (h : Reaches e e') (net : Net) (t : TransitionName) (m : Marking) (b : Binding) :
      Reaches e ((Engine.fire net t m b).run.run e').2
  | enabledBindings {e e' : Engine} (h : Reaches e e') (net : Net) (t : TransitionName) (m : Marking) :
      Reaches e ((Engine.enabledBindings net t m).run.run e').2
  | isEnabled {e e' : Engine} (h : Reaches e e') (net : Net) (t : TransitionName) (m : Marking) :
      Reaches e ((Engine.isEnabled net t m).run.run e').2
  | successors {e e' : Engine} (h : Reaches e e') (net : Net) (t : TransitionName) (m : Marking) :
      Reaches e ((Engine.successors net t m).run.run e').2
  | explore {e e' : Engine} (h : Reaches e e') (net : Net) (initial : Marking) (limits : Limits) (watch : Watch) :
      Reaches e ((Engine.explore net initial limits watch).run.run e').2

/-- The computation uses the session as sessions are used, and right interpreters stay right. -/
def Uses {α : Type} (x : EngineM α) : Prop :=
  ∀ e : Engine, e.side.Right → Session.Reaches e.main (x.run.run e).2.main ∧ (x.run.run e).2.side.Right

section Uses

variable {α β : Type} {x : EngineM α}

theorem uses_pure (a : α) : Uses (pure a) := fun e he => ⟨.refl e.main, he⟩

theorem uses_throw (err : Error) : Uses (throw err : EngineM α) := fun e he => ⟨.refl e.main, he⟩

theorem uses_onSide {q : ExceptT Error (StateM Interpreter) α} {r : Except Error α} (hq : AlwaysAnswers Right q r) :
    Uses (onSide q) := fun e he => ⟨.refl e.main, (hq e.side he).2⟩

/-- What is left of a computation of the session beside an interpreter. -/
theorem Uses.of_attends {y : SessionM α} (h : Attends Right x y) (hy : ∀ s, Session.Reaches s (y.run.run s).2) :
    Uses x := by
  intro e he
  obtain ⟨i, hi, hrun⟩ := h e.main e.side he
  have hrun : x.run.run e = _ := hrun
  rw [hrun]
  exact ⟨hy e.main, hi⟩

theorem Uses.bind {f : α → EngineM β} (hx : Uses x) (hf : ∀ a, Uses (f a)) : Uses (x >>= f) := by
  intro e he
  obtain ⟨hreaches, hright⟩ := hx e he
  rw [run_bind_state]
  rcases hx' : x.run.run e with ⟨err | a, e'⟩
  · rw [hx'] at hreaches hright
    exact ⟨hreaches, hright⟩
  · rw [hx'] at hreaches hright
    obtain ⟨hreaches', hright'⟩ := hf a e' hright
    exact ⟨hreaches.trans hreaches', hright'⟩

theorem uses_foldlM {f : β → α → EngineM β} (h : ∀ b a, Uses (f b a)) (l : List α) (b : β) : Uses (l.foldlM f b) := by
  induction l generalizing b with
  | nil => exact uses_pure b
  | cons a l ih =>
    rw [List.foldlM_cons]
    exact (h b a).bind ih

theorem uses_enabledBindings (net : Net) (t : TransitionName) (m : Marking) : Uses (Engine.enabledBindings net t m) :=
  .of_attends (attends_enabledBindings net t m) fun s => (Session.Reaches.refl s).enabledBindings net t m

theorem uses_fire (net : Net) (t : TransitionName) (m : Marking) (b : Binding) : Uses (Engine.fire net t m b) :=
  uses_onSide fun _ hi => answers_fire net t m b hi

theorem uses_trimCaches (limits : Limits) : Uses (onMain limits.trimCaches) := by
  refine .of_attends (attends_onMain _) fun s => ?_
  have hrun : (limits.trimCaches.run.run s).2 = if limits.cached < s.cached then s.clearCaches else s := rfl
  rw [hrun]
  split
  · exact (Session.Reaches.refl s).operation (.clearCaches : Call Empty Key Value) trivial
  · exact .refl s

variable {limits : Limits} {watch : Watch}

theorem uses_followBinding (net : Net) (t : TransitionName) (m : Marking) (f : Found) (b : Binding) :
    Uses (followBinding net limits t m f b) := by
  refine (uses_fire net t m b).bind fun r => ?_
  cases r with
  | some m' => exact .of_attends (attends_onMain _) fun s => .refl s
  | none => exact uses_pure f

theorem uses_followTransition (net : Net) (m : Marking) (f : Found) (t : TransitionName) :
    Uses (followTransition net limits m f t) :=
  (uses_enabledBindings net t m).bind fun d => uses_foldlM (uses_followBinding net t m) (bindings d) f

theorem uses_followMarking (net : Net) (f : Found) (m : Marking) : Uses (followMarking net limits watch f m) := by
  unfold followMarking
  cases watch m with
  | some cause => exact uses_throw _
  | none => exact uses_foldlM (uses_followTransition net m) net.transitions.keys f

theorem uses_exploreFrom (net : Net) (n : Nat) (seen : Std.TreeSet Marking) (frontier : List Marking) :
    Uses (exploreFrom net limits watch n seen frontier) := by
  induction n generalizing seen frontier with
  | zero =>
    cases frontier with
    | nil => exact uses_pure seen
    | cons m frontier => exact uses_throw _
  | succ n ih =>
    cases frontier with
    | nil => exact uses_pure seen
    | cons m frontier =>
      exact (uses_foldlM (uses_followMarking net) (m :: frontier) _).bind fun f =>
        (uses_trimCaches limits).bind fun _ => ih f.seen f.next.reverse

/-- An exploration is a series of searches for enabled bindings, between which results may be forgotten; so it is if it is
stopped. -/
theorem uses_explore (net : Net) (initial : Marking) (limits : Limits) (watch : Watch) :
    Uses (Engine.explore net initial limits watch) :=
  Uses.bind (uses_onSide fun _ hi => answers_simplify net hi) fun s =>
    uses_exploreFrom s.net limits.iterations _ [initial]

end Uses

/-- However an engine is used, its session is used as sessions are, and its interpreter remembers right trees. -/
theorem Reaches.session_right {e e' : Engine} (h : Reaches e e') (he : e.side.Right) :
    Session.Reaches e.main e'.main ∧ e'.side.Right := by
  have hstep : ∀ {α : Type} {e' : Engine} {x : EngineM α}, Uses x → Session.Reaches e.main e'.main ∧ e'.side.Right →
      Session.Reaches e.main (x.run.run e').2.main ∧ (x.run.run e').2.side.Right := by
    intro α e' x hx ⟨hreaches, hright⟩
    exact ⟨hreaches.trans (hx e' hright).1, (hx e' hright).2⟩
  induction h with
  | refl => exact ⟨.refl e.main, he⟩
  | operation _ c hc ih => exact ⟨ih.1.operation c hc, ih.2⟩
  | question _ hi ih => exact ⟨ih.1, hi.right ih.2⟩
  | simplify _ net ih => exact hstep (uses_onSide fun _ hi => answers_simplify net hi) ih
  | simplifyFully _ net ih => exact hstep (uses_onSide fun _ hi => answers_simplifyFully net hi) ih
  | restore _ s t b ih => exact hstep (uses_onSide fun _ hi => (answers_restore s t b hi).adapt _) ih
  | fire _ net t m b ih => exact hstep (uses_fire net t m b) ih
  | enabledBindings _ net t m ih => exact hstep (uses_enabledBindings net t m) ih
  | isEnabled _ net t m ih =>
    exact hstep (.of_attends (attends_isEnabled net t m) fun s => (Session.Reaches.refl s).isEnabled net t m) ih
  | successors _ net t m ih =>
    exact hstep (.of_attends (attends_successors net t m) fun s => (Session.Reaches.refl s).successors net t m) ih
  | explore _ net initial limits watch ih => exact hstep (uses_explore net initial limits watch) ih

end Engine

end TokenNet
