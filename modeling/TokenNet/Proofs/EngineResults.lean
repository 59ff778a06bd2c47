import TokenNet.Proofs.Engine
import TokenNet.Proofs.Independence

/-!
# What an engine returns

However an engine was used, the bindings that it finds are the enabled ones, `Engine.Reaches.bindings_eq_enabled`; and two
engines that were used differently return the same, whatever diagrams their sessions have, whatever results they remember,
and whatever trees their interpreters remember: `Engine.Reaches.results_eq`.
-/

namespace TokenNet

open Interpreter

namespace Engine

/-- The result of an engine is that of its session, whatever trees its interpreter remembers. -/
theorem result_of_attends {α : Type} {x : EngineM α} {y : SessionM α} (h : Attends Right x y) {e : Engine}
    (he : e.side.Right) : (x.run.run e).1 = (y.run.run e.main).1 := by
  obtain ⟨i, -, hrun⟩ := h e.main e.side he
  exact congrArg Prod.fst hrun

theorem attends_listBindings (net : Net) (t : TransitionName) (m : Marking) :
    Attends Right (listBindings net t m) (net.listBindings t m) :=
  (attends_enabledBindings net t m).bind fun d => (attends_onMain _).bind fun n => attends_pure (bindings d, n)

namespace Reaches

variable {e e' : Engine}

/-- However an engine was used: if the search for the enabled bindings of a transition succeeds, then the bindings of its
result are the enabled ones, each listed once; however the engine is used from then on, counting them gives their number,
as long as it fits into a machine word; the result is the empty set if and only if there are none; and the transition is
called enabled if and only if there are some. -/
theorem bindings_eq_enabled (he : Reaches fresh e) {net : Net} {t : TransitionName} {m : Marking} {d : BindingDiagram}
    (h : (Engine.enabledBindings net t m).run.run e = (.ok d, e')) :
    ∃ tr, net.transition? t = some tr ∧
      (bindings d).Nodup ∧ (∀ B, B ∈ bindings d ↔ tr.Enables m B) ∧
      (∀ e'', Reaches e' e'' → ((Diagram.count d).run e''.main).1 = toWord (bindings d).length ∧
        ((bindings d).length < wordSize → ((Diagram.count d).run e''.main).1 = (bindings d).length)) ∧
      (d = .emptySet ↔ ∀ B, ¬ tr.Enables m B) ∧
      ∃ b, (Engine.isEnabled net t m).run.run e = (.ok b, e') ∧ (b = false ↔ d = .emptySet) := by
  obtain ⟨hsession, hright⟩ := he.session_right right_empty
  obtain ⟨i, hi, hrun⟩ := attends_enabledBindings net t m e.main e.side hright
  have hboth : ((net.enabledBindings t m).run.run e.main).1 = .ok d ∧
      e' = ⟨((net.enabledBindings t m).run.run e.main).2, i⟩ := by
    rw [h] at hrun
    exact ⟨(congrArg Prod.fst hrun).symm, congrArg Prod.snd hrun⟩
  obtain ⟨hd, rfl⟩ := hboth
  have hfound : (net.enabledBindings t m).run.run e.main = (.ok d, ((net.enabledBindings t m).run.run e.main).2) :=
    Prod.ext hd rfl
  obtain ⟨tr, ht, -, hmem⟩ := hsession.mem_bindings hfound
  obtain ⟨tr', ht', hempty⟩ := hsession.eq_emptySet_iff hfound
  obtain rfl : tr = tr' := Option.some.inj (ht.symm.trans ht')
  obtain ⟨hnodup, -, hisEmptySet⟩ := hsession.count_bindings hfound (.refl _)
  refine ⟨tr, ht, hnodup, hmem, fun e'' he'' => ?_, hempty, !d.isEmptySet, ?_, ?_⟩
  · have hcount := (hsession.count_bindings hfound (he''.session_right hi).1).2.1
    exact ⟨hcount, fun hlt => hcount.trans (toWord_of_lt hlt)⟩
  · unfold Engine.isEnabled
    rw [run_bind_state, h]
    rfl
  · rw [Bool.not_eq_false', hisEmptySet]

/-- One transition takes the same value from two places, of which the other one also holds a three, and a smaller one. -/
theorem bindings_eq_enabled_shared_variable :
    let tr : Transition := ⟨.ofList [("p", [.var "x", .var "y"]), ("q", [.var "x", .const (.int 3)])], ∅,
      [⟨.expr (.ofText "x < y"), .const (.bool true)⟩]⟩
    let net : Net := ⟨.ofList ["p", "q"], .ofList [("t", tr)]⟩
    let m : Marking := ⟨.ofList [("p", .ofList [.int 1, .int 2, .int 2]), ("q", .ofList [.int 1, .int 2, .int 3])]⟩
    let used := ((Engine.enabledBindings net "t" m).run.run fresh).2
    ∃ d e', (Engine.enabledBindings net "t" m).run.run used = (.ok d, e') ∧ (bindings d).length = 1 ∧
      (∀ B, B ∈ bindings d ↔ tr.Enables m B) ∧ ((Diagram.count d).run e'.main).1 = 1 := by
  intro tr net m used
  have hlength : (((Engine.enabledBindings net "t" m).run.run used).1.toOption.map fun d => (bindings d).length) =
      some 1 := by decide +kernel
  have hused : Reaches fresh used := (Reaches.refl fresh).enabledBindings net "t" m
  rcases hrun : (Engine.enabledBindings net "t" m).run.run used with ⟨err | d, e'⟩
  · rw [hrun] at hlength
    cases hlength
  · rw [hrun] at hlength
    have hlength : (bindings d).length = 1 := Option.some.inj hlength
    obtain ⟨tr', ht, -, hmem, hcount, -⟩ := bindings_eq_enabled hused hrun
    have htr : net.transition? "t" = some tr := by decide +kernel
    rw [htr] at ht
    cases ht
    refine ⟨d, e', rfl, hlength, hmem, ?_⟩
    rw [(hcount e' (.refl e')).1, hlength]
    rfl

/-- However two engines were used: a transition has the same enabled bindings at a marking, in the same order, and as many
of them; its successors are the same, in the same order; an exploration with the same limits on iterations and states that
nothing outside stops finds the same markings, whenever results are forgotten; and where one of these fails, so does the
other, with the same error. -/
theorem results_eq (he : Reaches fresh e) (he' : Reaches fresh e') (net : Net) (t : TransitionName) (m : Marking)
    (limits : Limits) (cached : Nat) {watch watch' : Watch} (hwatch : watch.Quiet) (hwatch' : watch'.Quiet) :
    ((listBindings net t m).run.run e).1 = ((listBindings net t m).run.run e').1 ∧
      ((Engine.successors net t m).run.run e).1 = ((Engine.successors net t m).run.run e').1 ∧
      ((Engine.explore net m limits watch).run.run e).1 =
        ((Engine.explore net m { limits with cached := cached } watch').run.run e').1 := by
  obtain ⟨hsession, hright⟩ := he.session_right right_empty
  obtain ⟨hsession', hright'⟩ := he'.session_right right_empty
  have hs := hsession.sound
  have hs' := hsession'.sound
  refine ⟨?_, ?_, ?_⟩
  · rw [result_of_attends (attends_listBindings net t m) hright, result_of_attends (attends_listBindings net t m) hright']
    exact (agree_listBindings net t m hs hs').eq
  · rw [result_of_attends (attends_successors net t m) hright, result_of_attends (attends_successors net t m) hright']
    exact (agree_successors net t m hs hs').eq
  · rw [result_of_attends (attends_explore hwatch net m limits) hright,
      result_of_attends (attends_explore hwatch' net m _) hright']
    have hexplore : Agree (net.explore m limits) (net.explore m { limits with cached := cached }) e.main e'.main
        fun a b _ _ => a = b := agree_explore net (by rfl) (by rfl) m hs hs'
    exact hexplore.eq

/-- A fresh engine, and one whose exploration of another net was stopped, which has then forgotten everything and read a
formula, and which never keeps a result. -/
theorem results_eq_other_net :
    let move : Transition := ⟨.ofList [("p", [.var "x"])], .ofList [("q", [.var "x"])],
      [⟨.expr (.ofText "x < 3"), .const (.bool true)⟩]⟩
    let net : Net := ⟨.ofList ["p", "q"], .ofList [("t", move)]⟩
    let m : Marking := ⟨.ofList [("p", .ofList [.int 1, .int 2, .int 3]), ("q", ∅)]⟩
    let pair : Transition := ⟨.ofList [("p", [.var "y", .var "x"])], .ofList [("q", [.var "y"])], []⟩
    let other : Net := ⟨.ofList ["p", "q"], .ofList [("t", pair)]⟩
    let first := (Engine.explore other m {} fun m' => if m' = m then none else some "enough").run.run fresh
    let used : Engine := ⟨((Call.clearCaches : Call Empty Key Value).run.run first.2.main).2,
      ((Interpreter.vars "x < 3").run.run first.2.side).2⟩
    first.1.map (·.size) = .error (.cancelled (.outside "enough")) ∧ used.main.nodes.size ≠ 0 ∧ used.side.trees.size = 1 ∧
      (((Engine.explore net m {} fun _ => none).run.run fresh).1.toOption.map fun found => found.size) = some 4 ∧
      ((listBindings net "t" m).run.run fresh).1 = ((listBindings net "t" m).run.run used).1 ∧
      ((Engine.explore net m {} fun _ => none).run.run fresh).1 =
        ((Engine.explore net m { cached := 0 } fun _ => none).run.run used).1 := by
  intro move net m pair other first used
  have hstopped : Reaches fresh first.2 := (Reaches.refl fresh).explore other m {} _
  have hcleared := hstopped.operation (.clearCaches : Call Empty Key Value) trivial
  have hused : Reaches fresh used := hcleared.question ((Interpreter.Reaches.refl first.2.side).vars "x < 3")
  obtain ⟨hbindings, -, hexplore⟩ := results_eq (.refl fresh) hused net "t" m {} 0 (fun _ => rfl) (fun _ => rfl)
  exact ⟨by decide +kernel, by decide +kernel, by decide +kernel, by decide +kernel, hbindings, hexplore⟩

end Reaches

end Engine

end TokenNet
