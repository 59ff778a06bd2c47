import TokenNet.Enabling.Lemmas
import TokenNet.Proofs.Enabling.Guards

/-!
# The enabled bindings

`Transition.Enables` says what an enabled binding is: it binds the input variables, the marking covers the tokens that it
takes, and all guards hold.  The diagram of the enabled bindings has just these: `keeps_enabledBindings`.

The list of the bindings of a diagram has what the diagram describes, without repetition: `Describes.mem_bindings`,
`Describes.nodup_bindings`.
-/

namespace TokenNet

open Diagram Store Enabling

/-- The binding is enabled at the marking. -/
structure Transition.Enables (tr : Transition) (m : Marking) (B : Binding) : Prop where
  binds : B.Binds tr.inputVariables
  covers : tr.Covers m B
  holds : ∀ g ∈ tr.guards, g.holds B = .ok true

/-- The guards settle all bindings that the marking covers. -/
def Transition.Settled (tr : Transition) (m : Marking) : Prop :=
  ∀ B : Binding, B.Binds tr.inputVariables → tr.Covers m B → Guard.Settles tr.guards B

/-- The diagram is that of the enabled bindings, and the guards settle all covered ones. -/
structure Transition.Lists (tr : Transition) (m : Marking) (o : KeyOrder) (d : BindingDiagram) : Prop where
  describes : Describes o tr.inputVariables (fun B => tr.Covers m B ∧ ∀ g ∈ tr.guards, g.holds B = .ok true) d
  settled : tr.Settled m

section Demand

variable {tr : Transition} {m : Marking} {d : Demand} {o : KeyOrder}

theorem Transition.mem_inputVariables {x : Variable} :
    x ∈ tr.inputVariables ↔ ∃ p l, tr.input.get? p = some l ∧ x ∈ Inscription.variableList l := by
  have hvalues : ∀ l, l ∈ tr.input.values ↔ ∃ p, tr.input.get? p = some l := by
    intro l
    unfold FinMap.values
    rw [List.mem_map]
    constructor
    · rintro ⟨e, he, rfl⟩
      exact ⟨e.1, FinMap.mem_entries_iff.1 he⟩
    · rintro ⟨p, hp⟩
      exact ⟨(p, l), FinMap.mem_entries_iff.2 hp, rfl⟩
  have hflatten : x ∈ Inscription.variableList tr.input.values.flatten ↔
      ∃ l ∈ tr.input.values, x ∈ Inscription.variableList l := by
    unfold Inscription.variableList
    rw [List.filterMap_flatten, List.mem_flatten]
    simp only [List.mem_map]
    constructor
    · rintro ⟨_, ⟨l, hl, rfl⟩, hx⟩
      exact ⟨l, hl, hx⟩
    · rintro ⟨l, hl, hx⟩
      exact ⟨_, ⟨l, hl, rfl⟩, hx⟩
  have hvars : x ∈ tr.inputVariables ↔ x ∈ Inscription.variableList tr.input.values.flatten := List.mem_eraseDups
  rw [hvars, hflatten]
  constructor
  · rintro ⟨l, hl, hx⟩
    obtain ⟨p, hp⟩ := (hvalues l).1 hl
    exact ⟨p, l, hp, hx⟩
  · rintro ⟨p, l, hp, hx⟩
    exact ⟨l, (hvalues l).2 ⟨p, hp⟩, hx⟩

/-- The variables of the demand are those of the input arcs. -/
theorem Demand.IsFor.mem_flatMap_variables (h : d.IsFor tr m) {x : Variable} :
    x ∈ d.input.entries.flatMap Prod.snd ↔ x ∈ tr.inputVariables := by
  rw [Transition.mem_inputVariables, List.mem_flatMap]
  constructor
  · rintro ⟨e, he, hx⟩
    obtain ⟨-, l, hl, hvars⟩ := (h.input_iff e.1 e.2).1 (FinMap.mem_entries_iff.1 he)
    exact ⟨e.1, l, hl, by rwa [hvars]⟩
  · rintro ⟨p, l, hl, hx⟩
    have hne : Inscription.variableList l ≠ [] := List.ne_nil_of_mem hx
    exact ⟨(p, Inscription.variableList l), FinMap.mem_entries_iff.2 ((h.input_iff p _).2 ⟨hne, l, hl, rfl⟩), hx⟩

theorem Demand.IsFor.covers_iff_fits (h : d.IsFor tr m) {B : Binding} :
    tr.Covers m B ↔ d.Fits d.input.entries B := by
  rw [h.covers_iff]
  exact FinMap.forall_mem_entries.symm

/-- No binding takes tokens from an empty place. -/
theorem Demand.IsFor.not_covers_of_isEmpty (h : d.IsFor tr m)
    (hempty : (d.input.keys.any fun p => ((d.marking.get? p).getD ∅).isEmpty) = true) (B : Binding) :
    ¬ tr.Covers m B := by
  obtain ⟨p, hp, hemptyp⟩ := List.any_eq_true.1 hempty
  obtain ⟨e, he, rfl⟩ := List.mem_map.1 hp
  have hvars := FinMap.mem_entries_iff.1 he
  intro hcovers
  obtain ⟨hbound, hfits⟩ := h.covers_iff.1 hcovers e.1 e.2 hvars
  obtain ⟨x, rest, hx⟩ := List.exists_cons_of_ne_nil ((h.input_iff e.1 e.2).1 hvars).1
  obtain ⟨v, hv⟩ := Option.isSome_iff_exists.1 (hbound x (by rw [hx]; exact List.mem_cons_self))
  have hcount := hfits v
  have hnone : ((d.marking.get? e.1).getD ∅).count v = 0 := by
    have hentries : ((d.marking.get? e.1).getD ∅).counts.entries = [] := List.isEmpty_iff.1 hemptyp
    simp [Bag.count, FinMap.get?, hentries, FinMap.lookup]
  have hpos : 0 < e.2.countP fun x => B.get? x = some v :=
    List.countP_pos_iff.2 ⟨x, by rw [hx]; exact List.mem_cons_self, by simpa using hv⟩
  omega

end Demand

section Deferred

variable {d : Demand} {guards : List (Guard × FinSet Variable)}

/-- No guard has a variable of a deferred place. -/
theorem Enabling.not_contains_of_isDeferred {e : Place × List Variable} (he : isDeferred d guards e = true) {x : Variable}
    (hx : x ∈ e.2) {g : Guard × FinSet Variable} (hg : g ∈ guards) : g.2.contains x = false := by
  have hind := List.all_eq_true.1 he x hx
  unfold isIndependent at hind
  rw [Bool.and_eq_true, Bool.not_eq_true', List.any_eq_false] at hind
  simpa using hind.2 g hg

theorem Enabling.ignores_deferred (hv : ∀ e ∈ guards, e.1.vars = .ok e.2) :
    Ignores (fun B => ∀ g ∈ guards.map Prod.fst, g.holds B = .ok true)
      fun x => x ∈ (d.input.entries.filter (isDeferred d guards)).flatMap Prod.snd := by
  intro B C h
  refine forall_congr' fun g => forall_congr' fun hg => ?_
  obtain ⟨e, he, rfl⟩ := List.mem_map.1 hg
  rw [Guard.holds_congr (hv e he) fun x hx => h x fun hmem => ?_]
  obtain ⟨e', he', hx'⟩ := List.mem_flatMap.1 hmem
  rw [not_contains_of_isDeferred (List.mem_filter.1 he').2 hx' he] at hx
  cases hx

/-- A guard sees no difference between a binding and its part that the deferred places do not bind. -/
theorem Enabling.holds_part (hv : ∀ e ∈ guards, e.1.vars = .ok e.2) {B : Binding}
    (hB : B.Binds (d.input.entries.flatMap Prod.snd)) {g : Guard} (hg : g ∈ guards.map Prod.fst) :
    g.holds (B.part ((d.input.entries.filter fun e => !isDeferred d guards e).flatMap Prod.snd)) = g.holds B := by
  obtain ⟨e, he, rfl⟩ := List.mem_map.1 hg
  refine Guard.holds_congr (hv e he) fun x hx => ?_
  rw [Binding.get?_part]
  split
  · rfl
  · rename_i hnot
    -- a variable that is bound elsewhere belongs to a deferred place, but then no guard has it
    refine (hB.get?_eq_none fun hmem => ?_).symm
    obtain ⟨e', he', hx'⟩ := List.mem_flatMap.1 hmem
    by_cases hdef : isDeferred d guards e' = true
    · rw [not_contains_of_isDeferred hdef hx' he] at hx
      cases hx
    · refine hnot (List.mem_flatMap.2 ⟨e', List.mem_filter.2 ⟨he', ?_⟩, hx'⟩)
      simpa using hdef

end Deferred

/-! ### The diagram of the enabled bindings -/

/-- Where all is said about the places of a demand and the open guards, all is said about the transition. -/
private theorem lists_of_describes {tr : Transition} {m : Marking} {d : Demand} {o : KeyOrder} {r : BindingDiagram}
    {guards : List (Guard × FinSet Variable)} (h : d.IsFor tr m) (hopen : openGuards tr.guards = .ok (some guards))
    (hdesc : Describes o ((d.input.entries.filter fun e => !isDeferred d guards e) ++
      d.input.entries.filter (isDeferred d guards) |>.flatMap Prod.snd)
      (fun B => d.Fits ((d.input.entries.filter fun e => !isDeferred d guards e) ++
        d.input.entries.filter (isDeferred d guards)) B ∧ ∀ g ∈ guards.map Prod.fst, g.holds B = .ok true) r)
    (hsettles : ∀ B : Binding, B.Binds ((d.input.entries.filter fun e => !isDeferred d guards e).flatMap Prod.snd) →
      d.Fits (d.input.entries.filter fun e => !isDeferred d guards e) B → Guard.Settles (guards.map Prod.fst) B) :
    tr.Lists m o r := by
  obtain ⟨hv, hall⟩ := openGuards_some hopen
  have hvars : ∀ e ∈ guards, e.1.vars = .ok e.2 := fun e he => (hv e he).2
  have hmem : ∀ e, e ∈ (d.input.entries.filter fun e => !isDeferred d guards e) ++
      d.input.entries.filter (isDeferred d guards) ↔ e ∈ d.input.entries := by
    intro e
    rw [List.mem_append, List.mem_filter, List.mem_filter]
    by_cases he : isDeferred d guards e = true <;> simp [he]
  have hguards : ∀ B, (∀ g ∈ guards.map Prod.fst, g.holds B = .ok true) ↔ ∀ g ∈ tr.guards, g.holds B = .ok true := by
    intro B
    constructor
    · intro hholds g hg
      rcases hall g hg with ⟨e, he, rfl⟩ | htrue
      · exact hholds e.1 (List.mem_map.2 ⟨e, he, rfl⟩)
      · exact htrue B
    · intro hholds g hg
      obtain ⟨e, he, rfl⟩ := List.mem_map.1 hg
      exact hholds e.1 (hv e he).1
  refine ⟨hdesc.congr (fun x => ?_) fun B _ => ?_, fun B hB hcovers => ?_⟩
  · rw [← h.mem_flatMap_variables, List.mem_flatMap, List.mem_flatMap]
    simp only [hmem]
  · rw [hguards, h.covers_iff_fits]
    refine and_congr_left fun _ => forall_congr' fun e => ?_
    rw [hmem]
  · have hBd : B.Binds (d.input.entries.flatMap Prod.snd) := fun x => (hB x).trans h.mem_flatMap_variables.symm
    have hpart := hsettles (B.part ((d.input.entries.filter fun e => !isDeferred d guards e).flatMap Prod.snd)) ?_ ?_
    · rcases hpart with htrue | ⟨g, hg, hfalse⟩
      · refine .inl ((hguards B).1 fun g hg => ?_)
        rw [← holds_part hvars hBd hg]
        exact htrue g hg
      · obtain ⟨e, he, rfl⟩ := List.mem_map.1 hg
        refine .inr ⟨e.1, (hv e he).1, ?_⟩
        rw [← holds_part hvars hBd hg]
        exact hfalse
    · refine Binding.binds_part fun x hx => (hBd x).2 ?_
      obtain ⟨e, he, hxe⟩ := List.mem_flatMap.1 hx
      exact List.mem_flatMap.2 ⟨e, (List.mem_filter.1 he).1, hxe⟩
    · have hfits := h.covers_iff_fits.1 hcovers
      refine (d.ignores_fits _ _ B fun x hx => ?_).2 fun e he => hfits e (List.mem_filter.1 he).1
      rw [Binding.get?_part, if_pos (Decidable.not_not.1 hx)]

/-- The empty set lists the enabled bindings of a transition if each covered binding makes a guard false. -/
private theorem lists_emptySet {tr : Transition} {m : Marking} (o : KeyOrder)
    (hfalse : ∀ B, B.Binds tr.inputVariables → tr.Covers m B → ∃ g ∈ tr.guards, g.holds B = .ok false) :
    tr.Lists m o .emptySet := by
  refine ⟨describes_emptySet o fun B hB ⟨hcovers, hholds⟩ => ?_, fun B hB hcovers => .inr (hfalse B hB hcovers)⟩
  obtain ⟨g, hg, hgB⟩ := hfalse B hB hcovers
  rw [hholds g hg] at hgB
  cases hgB

/-- What the search for the enabled bindings ensures, whatever the session remembers. -/
theorem Net.keeps_enabledBindings {s : Session} (net : Net) (t : TransitionName) (m : Marking) (hs : s.Sound) :
    Keeps (net.enabledBindings t m) s fun d s' =>
      s'.Has d ∧ ∃ tr o, net.transition? t = some tr ∧ tr.Lists m o d := by
  have hnothing : ∀ {s' : Session} {tr : Transition}, s'.Sound → net.transition? t = some tr →
      (∀ B, B.Binds tr.inputVariables → tr.Covers m B → ∃ g ∈ tr.guards, g.holds B = .ok false) →
      Keeps (pure .emptySet) s' fun (d : BindingDiagram) s' =>
        s'.Has d ∧ ∃ tr o, net.transition? t = some tr ∧ tr.Lists m o d :=
    fun hs' ht hfalse => .pure hs' ⟨has_emptySet, _, .mk [], ht, lists_emptySet _ hfalse⟩
  unfold Net.enabledBindings
  refine (keeps_ofStructural (P := fun d? _ => net.demand t m = .ok d?) hs fun d? hd? => hd?).bind ?_
  intro d? s₁ _ hs₁ hdemand
  obtain ⟨tr, ht⟩ : ∃ tr, net.transition? t = some tr := by
    cases htr : net.transition? t with
    | some tr => exact ⟨tr, rfl⟩
    | none =>
      unfold Net.demand Net.transition at hdemand
      rw [htr] at hdemand
      cases hdemand
  cases d? with
  | none =>
    exact hnothing hs₁ ht fun B _ hcovers => absurd hcovers (Net.demand_none ht hdemand B)
  | some d =>
    have hfor := Net.demand_some ht hdemand
    dsimp only
    by_cases hempty : (d.input.keys.any fun p => ((d.marking.get? p).getD ∅).isEmpty) = true
    · rw [if_pos hempty]
      exact hnothing hs₁ ht fun B _ hcovers => absurd hcovers (hfor.not_covers_of_isEmpty hempty B)
    · rw [if_neg hempty]
      refine (keeps_ofStructural (P := fun tr' _ => tr' = tr) hs₁ fun tr' htr' => ?_).bind ?_
      · exact Option.some.inj ((Net.transition_eq_ok.1 htr').symm.trans ht)
      intro tr' s₂ _ hs₂ htr'
      subst htr'
      refine (keeps_ofEvaluation (P := fun g? _ => openGuards tr'.guards = .ok g?) hs₂ fun g? hg? => hg?).bind ?_
      intro g? s₃ _ hs₃ hopen
      cases g? with
      | none =>
        obtain ⟨g, hg, hfalse⟩ := openGuards_none hopen
        exact hnothing hs₃ ht fun B _ _ => ⟨g, hg, hfalse B⟩
      | some guards =>
        obtain ⟨hv, -⟩ := openGuards_some hopen
        have hvars : ∀ e ∈ guards, e.1.vars = .ok e.2 := fun e he => (hv e he).2
        refine (keeps_ofEvaluation (P := fun _ _ => True) hs₃ fun _ _ => trivial).bind ?_
        intro o s₄ _ hs₄ _
        refine (keeps_lift (ensures_joinPlaces o d guards hs₄)).bind ?_
        intro r s₅ _ hs₅ ⟨hr, hdesc, hplaces⟩
        refine (keeps_applyGuards hvars hs₅ hr hdesc).bind ?_
        intro d₁ s₆ hg hs₆ ⟨hd₁, hdesc₁, hsettles⟩
        refine (keeps_joinDeferred hs₆ hd₁ hdesc₁ (hplaces.imp fun e c hec => hec.mono hg)
          (ignores_deferred hvars)).imp ?_
        intro d₂ s₇ _ _ ⟨hd₂, hdesc₂⟩
        exact ⟨hd₂, tr', o, ht, lists_of_describes hfor hopen hdesc₂ hsettles⟩

/-! ### The bindings of a diagram -/

section Bindings

variable {o : KeyOrder} {vars : List Variable} {P : Binding → Prop} {d : BindingDiagram}

/-- The bindings of the diagram are those that it describes. -/
theorem Describes.mem_bindings (h : Describes o vars P d) (hd : d.Normal) {B : Binding} :
    B ∈ bindings d ↔ B.Binds vars ∧ P B := by
  unfold bindings
  rw [List.mem_map]
  constructor
  · rintro ⟨l, hl, rfl⟩
    obtain ⟨n, hn, rfl⟩ := hd.mem_maps_iff.1 hl
    obtain ⟨hbinds, hP⟩ := (h n).1 hn
    exact ⟨hbinds.binds_ofPath, hP⟩
  · rintro ⟨hbinds, hP⟩
    obtain ⟨n, hn, rfl⟩ := exists_bindsKeys o hbinds
    exact ⟨n.entries, hd.entries_mem_maps_iff.2 ((h n).2 ⟨hn, hP⟩), rfl⟩

/-- Different maps of the diagram are different bindings. -/
theorem Describes.nodup_bindings (h : Describes o vars P d) (hd : d.Normal) : (bindings d).Nodup := by
  unfold bindings
  refine List.pairwise_map.2 (hd.nodup_maps.imp_of_mem fun {a b} ha hb hne heq => hne ?_)
  obtain ⟨n, hn, rfl⟩ := hd.mem_maps_iff.1 ha
  obtain ⟨n', hn', rfl⟩ := hd.mem_maps_iff.1 hb
  have hbinds := ((h n).1 hn).1
  have hbinds' := ((h n').1 hn').1
  refine congrArg FinMap.entries (FinMap.ext_get? fun k => ?_)
  by_cases hk : ∃ x ∈ vars, k = o.key x
  · obtain ⟨x, -, rfl⟩ := hk
    rw [← hbinds.get?_ofPath, heq, hbinds'.get?_ofPath]
  · have hnone : ∀ {l : FinMap Key Value}, BindsKeys o vars l → l.get? k = none := by
      intro l hl
      rw [← Option.not_isSome_iff_eq_none, hl k]
      exact hk
    rw [hnone hbinds, hnone hbinds']

/-- The diagram is the empty set if and only if it describes no binding. -/
theorem Describes.isEmptySet_iff {s : Session} (h : Describes o vars P d) (hs : s.Sound) (hd : s.Has d) :
    d.isEmptySet = true ↔ ∀ B : Binding, B.Binds vars → ¬ P B := by
  rw [Diagram.isEmptySet_iff]
  constructor
  · intro hindex
    obtain rfl := hd.eq_emptySet hindex
    exact h.not_of_emptySet
  · intro hnone
    by_cases hindex : d.index = 0
    · exact hindex
    · obtain ⟨n, hn⟩ := (hs.normal hd).exists_mem hindex
      obtain ⟨hbinds, hP⟩ := (h n).1 hn
      exact absurd hP (hnone (Binding.ofPath n.entries) hbinds.binds_ofPath)

end Bindings

/-! ### The list of the enabled bindings -/

section Enabled

variable {tr : Transition} {m : Marking} {o : KeyOrder} {d : BindingDiagram}

/-- The bindings of the diagram are the enabled ones. -/
theorem Transition.Lists.mem_bindings (h : tr.Lists m o d) (hd : d.Normal) {B : Binding} :
    B ∈ bindings d ↔ tr.Enables m B := by
  rw [h.describes.mem_bindings hd]
  exact ⟨fun ⟨hbinds, hcovers, hholds⟩ => ⟨hbinds, hcovers, hholds⟩, fun hB => ⟨hB.binds, hB.covers, hB.holds⟩⟩

theorem Transition.Lists.nodup_bindings (h : tr.Lists m o d) (hd : d.Normal) : (bindings d).Nodup :=
  h.describes.nodup_bindings hd

/-- The diagram is the empty set if and only if nothing is enabled. -/
theorem Transition.Lists.isEmptySet_iff {s : Session} (h : tr.Lists m o d) (hs : s.Sound) (hd : s.Has d) :
    d.isEmptySet = true ↔ ∀ B, ¬ tr.Enables m B := by
  rw [h.describes.isEmptySet_iff hs hd]
  exact ⟨fun hnone B hB => hnone B hB.binds ⟨hB.covers, hB.holds⟩,
    fun hnone B hbinds hB => hnone B ⟨hbinds, hB.1, hB.2⟩⟩

end Enabled

end TokenNet
