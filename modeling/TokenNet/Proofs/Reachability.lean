import Mathlib.Order.Bounds.Basic
import TokenNet.Proofs.Firing
import TokenNet.Proofs.SimplifiedNets

/-!
# Reachable markings

A step of a simplified net is a step of the net it was made of, and the other way round, at markings where the guards of
both settle all covered bindings.  So an exploration of the simplified net explores the net, `Net.Explored.of_simplified`,
and what it finds is the least set of markings with the initial one that is closed under successors,
`Session.Reaches.explore_isLeast`.
-/

namespace TokenNet

/-! ### Tokens of simplified arcs -/

section Tokens

variable {arcs original : Arcs} {undo : Binding → Binding} {b c : Binding} {tokens : FinMap Place (Bag Value)}

theorem Arcs.tokens_mono (hbc : b.Below c) (h : Arcs.tokens b arcs = .ok tokens) : Arcs.tokens c arcs = .ok tokens := by
  obtain ⟨hplaces, hbags⟩ := Arcs.tokens_eq_ok.1 h
  refine Arcs.tokens_eq_ok.2 ⟨hplaces, fun p l hl => ?_⟩
  obtain ⟨bag, hbag, hget⟩ := hbags p l hl
  exact ⟨bag, Inscription.tokens_mono hbc hbag, hget⟩

theorem Arcs.ComesFrom.tokens_of_tokens (h : arcs.ComesFrom undo original) (hb : Arcs.tokens b arcs = .ok tokens) :
    Arcs.tokens (undo b) original = .ok tokens := by
  obtain ⟨hplaces, hbags⟩ := Arcs.tokens_eq_ok.1 hb
  refine Arcs.tokens_eq_ok.2 ⟨fun p => (hplaces p).trans (h.places p), fun p l hl => ?_⟩
  obtain ⟨l', hl'⟩ : ∃ l', arcs.get? p = some l' := by
    rw [← Option.isSome_iff_exists]
    exact (h.places p).trans (by rw [FinMap.contains, hl]; rfl)
  obtain ⟨bag, hbag, hget⟩ := hbags p l' hl'
  exact ⟨bag, (h.tokens p l' l hl' hl b bag).1 hbag, hget⟩

end Tokens

/-! ### Steps of a simplified net -/

section Steps

variable {net : Net} {simplified : Simplified} {t : TransitionName} {tr tr' : Transition} {m m' initial : Marking}
  {B : Binding} {eliminated : Eliminations} {found : Std.TreeSet Marking}

/-- What comes out of firing under the part of an enabled binding that is left after simplification comes out of firing
under the binding. -/
theorem Traces.fire_of_part {net' : Net} (h : Traces tr tr'.input tr'.output tr'.guards eliminated)
    (ht : net.transition? t = some tr) (ht' : net'.transition? t = some tr') (hB : tr.Enables m B)
    (hpart : tr'.Enables m (B.part tr'.inputVariables)) {r : Option Marking}
    (hfire : net'.fire t m (B.part tr'.inputVariables) = .ok r) : net.fire t m B = .ok r := by
  obtain ⟨taken, made, m', htaken, hmade, hm', rfl⟩ := (Net.fire_eq_ok ht' hpart.covers).1 hfire
  have hself : B.undoAll eliminated = B := Binding.undoAll_eq_self (h.held B hB.holds).2
  have htokens : ∀ {arcs original : Arcs} {tokens : FinMap Place (Bag Value)},
      arcs.ComesFrom (Binding.undoAll eliminated) original →
      Arcs.tokens (B.part tr'.inputVariables) arcs = .ok tokens → Arcs.tokens B original = .ok tokens := by
    intro arcs original tokens hfrom hb
    have hB := hfrom.tokens_of_tokens (Arcs.tokens_mono (Binding.part_below tr'.inputVariables B) hb)
    rwa [hself] at hB
  exact (Net.fire_eq_ok ht hB.covers).2 ⟨taken, made, m', htokens h.taken htaken, htokens h.made hmade, hm', rfl⟩

section Simplified

variable (hn : net.HasIdentifiers) (hplain : ∀ t tr, net.transition? t = some tr → tr.input.Plain)
  (hsimplify : net.simplify = .ok simplified)

include hn hplain hsimplify

theorem Net.Followed.of_simplified (h : simplified.net.Followed found m t) (ht : net.transition? t = some tr)
    (hsettled : tr.Settled m) : net.Followed found m t := by
  obtain ⟨tr', ht', hsettled', hfires⟩ := h
  have htraces := hn.traces hsimplify ht ht'
  refine ⟨tr, ht, hsettled, fun B hB => ?_⟩
  obtain ⟨hpart, -⟩ := htraces.exists_original (hplain t tr ht) hsettled' hB
  obtain ⟨r, hr, hfound⟩ := hfires _ hpart
  exact ⟨r, htraces.fire_of_part ht ht' hB hpart hr, hfound⟩

theorem Net.Steps.of_simplified (h : simplified.net.Steps m m')
    (hsettled : ∀ t tr, net.transition? t = some tr → tr.Settled m)
    (hsettled' : ∀ t tr', simplified.net.transition? t = some tr' → tr'.Settled m) : net.Steps m m' := by
  obtain ⟨t, tr', B', ht', hB', hfire⟩ := h
  obtain ⟨tr, ht⟩ : ∃ tr, net.transition? t = some tr := by
    rw [← Option.isSome_iff_exists, ← (Net.simplify_eq_ok hsimplify).1 t, ht']
    rfl
  have htraces := hn.traces hsimplify ht ht'
  have hB := htraces.enables_original (hn t tr ht) (hplain t tr ht) (hsettled t tr ht) hB'
  obtain ⟨hpart, horiginal⟩ := htraces.exists_original (hplain t tr ht) (hsettled' t tr' ht') hB
  -- the part that is left is the binding itself, since both stand for the same one
  have heq := htraces.original_injective hpart hB' horiginal
  refine ⟨t, tr, _, ht, hB, htraces.fire_of_part ht ht' hB hpart ?_⟩
  rwa [heq]

end Simplified

theorem Net.Explored.mem_of_steps (h : net.Explored initial found) (hm : m ∈ found) (hstep : net.Steps m m') :
    m' ∈ found := by
  obtain ⟨t, tr, B, ht, hB, hfire⟩ := hstep
  obtain ⟨tr', ht', -, hfires⟩ := h.followed m hm t (FinMap.mem_keys_iff.2 ⟨tr, ht⟩)
  rw [ht] at ht'
  cases ht'
  obtain ⟨r, hr, hfound⟩ := hfires B hB
  rw [hfire] at hr
  cases hr
  exact hfound m' rfl

/-- Exploring the simplified net explores the net, if the guards settle all covered bindings at what is found. -/
theorem Net.Explored.of_simplified (hn : net.HasIdentifiers)
    (hplain : ∀ t tr, net.transition? t = some tr → tr.input.Plain) (hsimplify : net.simplify = .ok simplified)
    (h : simplified.net.Explored initial found)
    (hsettled : ∀ m ∈ found, ∀ t tr, net.transition? t = some tr → tr.Settled m) : net.Explored initial found := by
  have hsettled' : ∀ m ∈ found, ∀ t tr', simplified.net.transition? t = some tr' → tr'.Settled m := by
    intro m hm t tr' ht'
    obtain ⟨tr'', ht'', hsettled, -⟩ := h.followed m hm t (FinMap.mem_keys_iff.2 ⟨tr', ht'⟩)
    rw [ht'] at ht''
    cases ht''
    exact hsettled
  refine ⟨h.start, fun m hm => ?_, fun m hm t ht => ?_⟩
  · -- all markings on the way have been found, so steps from them are steps of the net
    have hreached : ∀ m, Relation.ReflTransGen simplified.net.Steps initial m →
        m ∈ found ∧ Relation.ReflTransGen net.Steps initial m := by
      intro m hsteps
      induction hsteps with
      | refl => exact ⟨h.start, .refl⟩
      | tail _ hstep ih =>
        have hstep' := hstep.of_simplified hn hplain hsimplify (hsettled _ ih.1) (hsettled' _ ih.1)
        exact ⟨h.mem_of_steps ih.1 hstep, ih.2.tail hstep'⟩
    exact (hreached m (h.reached m hm)).2
  · obtain ⟨tr, htr⟩ := FinMap.mem_keys_iff.1 ht
    have ht' : t ∈ simplified.net.transitions.keys := by
      obtain ⟨tr', htr', -⟩ := (Net.simplify_eq_ok hsimplify).2 t tr htr
      exact FinMap.mem_keys_iff.2 ⟨tr', htr'⟩
    exact (h.followed m hm t ht').of_simplified hn hplain hsimplify htr (hsettled m hm t tr htr)

end Steps

/-! ### Successors -/

section Successors

open Diagram Store

variable {net : Net} {t : TransitionName} {m initial : Marking} {s s' : Session} {d : BindingDiagram}
  {found : Std.TreeSet Marking}

/-- Whatever the successors of a marking in the set are found to be, they are in the set. -/
def Net.Closed (net : Net) (T : Set Marking) : Prop :=
  ∀ m ∈ T, ∀ (t : TransitionName) (s s' : Session) (ms : List Marking), Session.Reaches {} s →
    (net.successors t m).run.run s = (.ok ms, s') → ∀ m' ∈ ms, m' ∈ T

/-- Where all that a transition leads to has been found, its successors are found whenever its enabled bindings are. -/
theorem Net.Followed.exists_successors (h : net.Followed found m t) (hs : Session.Reaches {} s)
    (hrun : (net.enabledBindings t m).run.run s = (.ok d, s')) :
    ∃ ms, (net.successors t m).run.run s = (.ok ms, s') := by
  obtain ⟨tr, ht, -, hfires⟩ := h
  obtain ⟨tr', ht', -, hmem⟩ := hs.mem_bindings hrun
  rw [ht] at ht'
  cases ht'
  obtain ⟨ms, hms⟩ : ∃ ms, net.fireAll t m d = .ok ms :=
    Net.exists_fireAll fun B hB => (hfires B ((hmem B).1 hB)).imp fun r hr => hr.1
  refine ⟨ms, ?_⟩
  unfold Net.successors
  rw [run_bind_state, hrun, ← hms]
  rfl

theorem Session.Reaches.mem_successors (hs : Reaches {} s) {ms : List Marking}
    (h : (net.successors t m).run.run s = (.ok ms, s')) : ∃ tr, net.transition? t = some tr ∧ tr.Settled m ∧
      ∀ m', m' ∈ ms ↔ ∃ B, tr.Enables m B ∧ net.fire t m B = .ok (some m') :=
  (net.keeps_successors t m hs.sound).result ms (by rw [h])

theorem Net.Explored.closed (h : net.Explored initial found) : net.Closed {m | m ∈ found} := by
  intro m hm t s s' ms hs hrun m' hm'
  obtain ⟨tr, ht, -, hmem⟩ := hs.mem_successors hrun
  obtain ⟨B, hB, hfire⟩ := (hmem m').1 hm'
  exact h.mem_of_steps hm ⟨t, tr, B, ht, hB, hfire⟩

/-- An exploration of the simplified net that ends finds the least set of markings with the initial one that is closed
under the successors of the net, whatever the limits, if the enabled bindings of the net can be found at all markings
that it finds; all successors can then be found, too. -/
theorem Session.Reaches.explore_isLeast {places : List Place} {decls : List TransitionDeclaration} {limits : Limits}
    (hbuild : Net.build places decls = .ok net) (hn : net.HasIdentifiers) (hs : Reaches {} s)
    (hexplore : (net.explore initial limits).run.run s = (.ok found, s'))
    (henabled : ∀ m ∈ found, ∀ t ∈ net.transitions.keys, ∃ s₁ d s₁', Reaches {} s₁ ∧
      (net.enabledBindings t m).run.run s₁ = (.ok d, s₁')) :
    IsLeast {T : Set Marking | initial ∈ T ∧ net.Closed T} {m | m ∈ found} ∧
      ∀ m ∈ found, ∀ t s₁ d s₁', Reaches {} s₁ → (net.enabledBindings t m).run.run s₁ = (.ok d, s₁') →
        ∃ ms, (net.successors t m).run.run s₁ = (.ok ms, s₁') := by
  obtain ⟨simplified, hsimplify, hsimplified⟩ := (net.keeps_explore initial limits hs.sound).result found (by rw [hexplore])
  have hsettled : ∀ m ∈ found, ∀ t tr, net.transition? t = some tr → tr.Settled m := by
    intro m hm t tr ht
    obtain ⟨s₁, d, s₁', hs₁, hrun⟩ := henabled m hm t (FinMap.mem_keys_iff.2 ⟨tr, ht⟩)
    obtain ⟨tr', ht', hsettled, -⟩ := hs₁.mem_bindings hrun
    rw [ht] at ht'
    cases ht'
    exact hsettled
  have hexplored : net.Explored initial found :=
    hsimplified.of_simplified hn (Net.plain_of_build hbuild) hsimplify hsettled
  have hsuccessors : ∀ m ∈ found, ∀ t s₁ d s₁', Reaches {} s₁ → (net.enabledBindings t m).run.run s₁ = (.ok d, s₁') →
      ∃ ms, (net.successors t m).run.run s₁ = (.ok ms, s₁') := by
    intro m hm t s₁ d s₁' hs₁ hrun
    obtain ⟨tr, ht, -⟩ := hs₁.mem_bindings hrun
    exact (hexplored.followed m hm t (FinMap.mem_keys_iff.2 ⟨tr, ht⟩)).exists_successors hs₁ hrun
  refine ⟨⟨⟨hexplored.start, hexplored.closed⟩, ?_⟩, hsuccessors⟩
  rintro T ⟨hinitial, hclosed⟩ m hm
  have hmem : ∀ m, Relation.ReflTransGen net.Steps initial m → m ∈ found ∧ m ∈ T := by
    intro m hsteps
    induction hsteps with
    | refl => exact ⟨hexplored.start, hinitial⟩
    | tail _ hstep ih =>
      obtain ⟨hfound, hT⟩ := ih
      refine ⟨hexplored.mem_of_steps hfound hstep, ?_⟩
      obtain ⟨t, tr, B, ht, hB, hfire⟩ := hstep
      obtain ⟨s₁, d, s₁', hs₁, hrun⟩ := henabled _ hfound t (FinMap.mem_keys_iff.2 ⟨tr, ht⟩)
      obtain ⟨ms, hms⟩ := hsuccessors _ hfound t s₁ d s₁' hs₁ hrun
      obtain ⟨tr', ht', -, hsucc⟩ := hs₁.mem_successors hms
      rw [ht] at ht'
      cases ht'
      exact hclosed _ hT t s₁ s₁' ms hs₁ hms _ ((hsucc _).2 ⟨B, hB, hfire⟩)
  exact (hmem m (hexplored.reached m hm)).2

theorem Session.Reaches.explore_isLeast_pairs :
    let x : Inscription := .var "x"
    let y : Inscription := .var "y"
    let sum : Inscription := .expr (.ofText "x + y")
    let tr : Transition := ⟨.ofList [("p", [x, y])], .ofList [("q", [sum])], [⟨x, y⟩]⟩
    let net : Net := ⟨.ofList ["p", "q"], .ofList [("t", tr)]⟩
    let arcs : List ArcDeclaration := [⟨"p", .input, [x, y]⟩, ⟨"q", .output, [sum]⟩]
    let marking (p q : List Value) : Marking := ⟨.ofList [("p", .ofList p), ("q", .ofList q)]⟩
    let initial := marking [.int 1, .int 1, .int 2, .int 2, .int 2] []
    let limits : Limits := ⟨4, some 4, 0⟩
    Net.build ["p", "q"] [⟨"t", arcs, [⟨x, y⟩]⟩] = .ok net ∧ net.HasIdentifiers ∧
      ∃ found s', (net.explore initial limits).run.run {} = (.ok found, s') ∧
        found.toList = [marking [.int 1, .int 1, .int 2] [.int 4], initial, marking [.int 2] [.int 2, .int 4],
          marking [.int 2, .int 2, .int 2] [.int 2]] ∧
        (∀ m ∈ found, ∀ t ∈ net.transitions.keys, ∃ s₁ d s₁', Reaches {} s₁ ∧
          (net.enabledBindings t m).run.run s₁ = (.ok d, s₁')) ∧
        IsLeast {T : Set Marking | initial ∈ T ∧ net.Closed T} {m | m ∈ found} := by
  intro x y sum tr net arcs marking initial limits
  have hbuild : Net.build ["p", "q"] [⟨"t", arcs, [⟨x, y⟩]⟩] = .ok net := by decide +kernel
  have hn : net.HasIdentifiers := by decide +kernel
  let all := [marking [.int 1, .int 1, .int 2] [.int 4], initial, marking [.int 2] [.int 2, .int 4],
    marking [.int 2, .int 2, .int 2] [.int 2]]
  have hall : ((net.explore initial limits).run.run {}).1.toOption.map (·.toList) = some all := by decide +kernel
  have hruns : ∀ m ∈ all, ∀ t ∈ net.transitions.keys, ((net.enabledBindings t m).run.run {}).1.toOption.isSome = true := by
    decide +kernel
  rcases hexplore : (net.explore initial limits).run.run {} with ⟨e | found, s'⟩
  · rw [hexplore] at hall
    cases hall
  · rw [hexplore] at hall
    have hlist : found.toList = all := Option.some.inj hall
    have henabled : ∀ m ∈ found, ∀ t ∈ net.transitions.keys, ∃ s₁ d s₁', Reaches {} s₁ ∧
        (net.enabledBindings t m).run.run s₁ = (.ok d, s₁') := by
      intro m hm t ht
      have hrun := hruns m (by rwa [← hlist, Std.TreeSet.mem_toList]) t ht
      rcases h : (net.enabledBindings t m).run.run {} with ⟨e | d, s₁'⟩
      · rw [h] at hrun
        cases hrun
      · exact ⟨{}, d, s₁', .refl {}, h⟩
    exact ⟨hbuild, hn, found, s', rfl, hlist, henabled, (explore_isLeast hbuild hn (.refl {}) hexplore henabled).1⟩

end Successors

end TokenNet
