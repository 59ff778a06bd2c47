import Mathlib.Data.Set.Function
import TokenNet.Proofs.Declaration
import TokenNet.Proofs.Restoring
import TokenNet.Proofs.SessionCalls

/-!
# Simplified nets

The transitions of a simplified net trace those of the net, `Net.HasIdentifiers.traces`.  Where the enabled bindings of
both can be found, restoring and dropping what is not on an input arc is a bijection between them,
`Session.Reaches.bijOn_restore`.
-/

namespace TokenNet

/-! ### Transitions of a simplified net -/

section Simplify

variable {net : Net} {simplified : Simplified} {t : TransitionName} {tr tr' : Transition}

/-- All variables on the arcs and in the guards of the net are identifiers. -/
def Net.HasIdentifiers (net : Net) : Prop := ∀ t tr, net.transition? t = some tr → tr.Named

instance (net : Net) : Decidable net.HasIdentifiers :=
  decidable_of_iff (∀ e ∈ net.transitions.entries, e.2.Named)
    (FinMap.forall_mem_entries (P := fun _ (tr : Transition) => tr.Named))

theorem Net.simplify_eq_ok (h : net.simplify = .ok simplified) :
    (∀ t, (simplified.net.transition? t).isSome = (net.transition? t).isSome) ∧
      ∀ t tr, net.transition? t = some tr → ∃ tr', simplified.net.transition? t = some tr' ∧
        tr.simplify t = .ok (tr', simplified.eliminatedOf t) := by
  obtain ⟨parts, hparts, h⟩ := bind_eq_ok.1 h
  cases h
  obtain ⟨hkeys, hentries⟩ := FinMap.traverse_eq_ok.1 hparts
  refine ⟨fun t => ?_, fun t tr ht => ?_⟩
  · change ((parts.map Prod.fst).get? t).isSome = (net.transitions.get? t).isSome
    rw [FinMap.get?_map, Option.isSome_map, hkeys]
  · obtain ⟨part, hpart, hget⟩ := hentries t tr ht
    refine ⟨part.1, ?_, ?_⟩
    · change (parts.map Prod.fst).get? t = some part.1
      rw [FinMap.get?_map, hget]
      rfl
    · have heliminated : (parts.map Prod.snd).get? t = some part.2 := by
        rw [FinMap.get?_map, hget]
        rfl
      rw [hpart, Simplified.eliminatedOf]
      change _ = Except.ok (part.1, ((parts.map Prod.snd).get? t).getD [])
      rw [heliminated]
      rfl

theorem Net.simplify_transition (h : net.simplify = .ok simplified) (ht : net.transition? t = some tr)
    (ht' : simplified.net.transition? t = some tr') : tr.simplify t = .ok (tr', simplified.eliminatedOf t) := by
  obtain ⟨tr'', ht'', hsimplify⟩ := (Net.simplify_eq_ok h).2 t tr ht
  rw [ht'] at ht''
  cases ht''
  exact hsimplify

/-- Every transition of the net is traced by its simplified transition. -/
theorem Net.HasIdentifiers.traces (hn : net.HasIdentifiers) (h : net.simplify = .ok simplified)
    (ht : net.transition? t = some tr) (ht' : simplified.net.transition? t = some tr') :
    Traces tr tr'.input tr'.output tr'.guards (simplified.eliminatedOf t) :=
  Transition.traces_of_simplify (hn t tr ht) (Net.simplify_transition h ht ht')

end Simplify

/-! ### Bindings of a simplified net -/

open Diagram Store

/-- Where the enabled bindings of a transition can be found before and after simplification, all those after it can be
restored, and the parts of the restored ones at the input variables are those before it, one for each. -/
theorem Session.Reaches.bijOn_restore {s₁ s₁' s₂ s₂' : Session} {places : List Place}
    {decls : List TransitionDeclaration} {net : Net} {simplified : Simplified} {t : TransitionName} {m : Marking}
    {d d' : BindingDiagram} (hbuild : Net.build places decls = .ok net) (hn : net.HasIdentifiers)
    (hsimplify : net.simplify = .ok simplified) (hs₁ : Reaches {} s₁) (hs₂ : Reaches {} s₂)
    (h : (net.enabledBindings t m).run.run s₁ = (.ok d, s₁'))
    (h' : (simplified.net.enabledBindings t m).run.run s₂ = (.ok d', s₂')) :
    ∃ tr, net.transition? t = some tr ∧ ∃ f : Binding → Binding,
      (∀ B ∈ bindings d', ∃ b, simplified.restore t B = .ok b ∧ f B = b.part tr.inputVariables) ∧
      Set.BijOn f {B | B ∈ bindings d'} {B | B ∈ bindings d} := by
  obtain ⟨tr, ht, hsettled, hmem⟩ := hs₁.mem_bindings h
  obtain ⟨tr', ht', hsettled', hmem'⟩ := hs₂.mem_bindings h'
  have htraces := hn.traces hsimplify ht ht'
  have hnamed := hn t tr ht
  have hplain := Net.plain_of_build hbuild t tr ht
  refine ⟨tr, ht, fun B => B.original tr (simplified.eliminatedOf t), fun B hB => ?_, ?_, ?_, ?_⟩
  · exact ⟨_, htraces.restore_eq_ok hnamed hplain hsettled ((hmem' B).1 hB), rfl⟩
  · exact fun B hB => (hmem _).2 (htraces.enables_original hnamed hplain hsettled ((hmem' B).1 hB))
  · exact fun B₁ hB₁ B₂ hB₂ heq => htraces.original_injective ((hmem' B₁).1 hB₁) ((hmem' B₂).1 hB₂) heq
  · intro B hB
    obtain ⟨henables, horiginal⟩ := htraces.exists_original hplain hsettled' ((hmem B).1 hB)
    exact ⟨_, (hmem' _).2 henables, horiginal⟩

theorem Session.Reaches.bijOn_restore_equal_texts :
    let x : Inscription := .var "x"
    let y : Inscription := .var "y"
    let three : Inscription := .const (.int 3)
    let guards : List Guard := [⟨x, y⟩, ⟨three, .var "z"⟩, ⟨.expr (.ofText "x + z"), .expr (.ofText "(y + 3)")⟩]
    let tr : Transition := ⟨.ofList [("p", [x, y]), ("q", [.var "z"])], .ofList [("q", [x, y])], guards⟩
    let net : Net := ⟨.ofList ["p", "q"], .ofList [("t", tr)]⟩
    let tr' : Transition := ⟨.ofList [("p", [y, y]), ("q", [three])], .ofList [("q", [y, y])],
      [⟨.expr (.ofText "(y + 3)"), .expr (.ofText "(y + 3)")⟩]⟩
    let simplified : Simplified := ⟨⟨.ofList ["p", "q"], .ofList [("t", tr')]⟩, .ofList [("t", [("x", y), ("z", three)])]⟩
    let arcs : List ArcDeclaration := [⟨"q", .input, [.var "z"]⟩, ⟨"p", .input, [x, y]⟩, ⟨"q", .output, [x, y]⟩]
    let m : Marking := ⟨.ofList [("p", .ofList [.int 1, .int 1, .int 2, .int 2]), ("q", .ofList [.int 3, .int 4])]⟩
    Net.build ["q", "p"] [⟨"t", arcs, guards⟩] = .ok net ∧ net.HasIdentifiers ∧ net.simplify = .ok simplified ∧
      ∃ d s d' s', (net.enabledBindings "t" m).run.run {} = (.ok d, s) ∧
        (simplified.net.enabledBindings "t" m).run.run {} = (.ok d', s') ∧ (bindings d).length = 2 ∧
        ∃ f : Binding → Binding,
          (∀ B ∈ bindings d', ∃ b, simplified.restore "t" B = .ok b ∧ f B = b.part tr.inputVariables) ∧
          Set.BijOn f {B | B ∈ bindings d'} {B | B ∈ bindings d} := by
  intro x y three guards tr net tr' simplified arcs m
  have hbuild : Net.build ["q", "p"] [⟨"t", arcs, guards⟩] = .ok net := by decide +kernel
  have hn : net.HasIdentifiers := by decide +kernel
  have hsimplify : net.simplify = .ok simplified := by decide +kernel
  have hlength : (((net.enabledBindings "t" m).run.run {}).1.toOption.map fun d => (bindings d).length) = some 2 := by
    decide +kernel
  have hfound : (((simplified.net.enabledBindings "t" m).run.run {}).1.toOption.isSome) = true := by decide +kernel
  rcases hrun : (net.enabledBindings "t" m).run.run {} with ⟨e | d, s⟩
  · rw [hrun] at hlength
    cases hlength
  · rcases hrun' : (simplified.net.enabledBindings "t" m).run.run {} with ⟨e | d', s'⟩
    · rw [hrun'] at hfound
      cases hfound
    · rw [hrun] at hlength
      obtain ⟨tr₀, ht, hf⟩ := bijOn_restore hbuild hn hsimplify (.refl {}) (.refl {}) hrun hrun'
      have htr : net.transition? "t" = some tr := by decide +kernel
      rw [htr] at ht
      cases ht
      exact ⟨hbuild, hn, hsimplify, d, s, d', s', rfl, rfl, Option.some.inj hlength, hf⟩

end TokenNet
