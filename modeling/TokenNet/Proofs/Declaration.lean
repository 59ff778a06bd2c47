import TokenNet.Net.Declaration
import TokenNet.Proofs.Propagation

/-!
# What building a net checks

A net that is built went through the checks of every declaration: `Transition.addArc_eq_ok`, `Net.addTransition_eq_ok`.
So no expression stands on an input arc, `Net.plain_of_build`, and arcs only join places of the net,
`Net.declared_of_build`: the net is well-formed, and the demand of a transition can be told, `Net.exists_demand`.
-/

namespace TokenNet

variable {places : FinSet Place} {t : TransitionName} {tr tr' : Transition} {a : ArcDeclaration} {net net' : Net}
  {d : TransitionDeclaration}

theorem ArcDeclaration.noExpr_of_expression? (h : a.expression? = none) : Inscription.NoExpr a.inscriptions := by
  intro f hf
  have hnone := List.findSome?_eq_none_iff.1 h _ hf
  cases hnone

theorem Transition.addArc_eq_ok (h : tr.addArc places t a = .ok tr') :
    places.contains a.place = true ∧ (a.direction = .input → a.expression? = none) ∧
      (tr.arcs a.direction).contains a.place = false ∧ tr' = tr.withArc a := by
  have hfresh : ∀ {tr' : Transition}, (if (tr.arcs a.direction).contains a.place then
      .error (.duplicateArc a.place t a.direction) else .ok (tr.withArc a) : Except StructuralError Transition) = .ok tr' →
      (tr.arcs a.direction).contains a.place = false ∧ tr' = tr.withArc a := by
    intro tr' h
    by_cases harc : (tr.arcs a.direction).contains a.place = true
    · rw [if_pos harc] at h
      cases h
    · rw [if_neg harc] at h
      cases h
      exact ⟨by simpa using harc, rfl⟩
  unfold addArc at h
  by_cases hplace : places.contains a.place = true
  · rw [if_neg (by simp [hplace])] at h
    cases hdir : a.direction with
    | input =>
      cases hexpr : a.expression? with
      | some e =>
        rw [hdir, hexpr] at h
        cases h
      | none =>
        rw [hdir] at hfresh
        rw [hdir, hexpr] at h
        exact ⟨hplace, fun _ => rfl, hfresh h⟩
    | output =>
      rw [hdir] at hfresh
      rw [hdir] at h
      exact ⟨hplace, nofun, hfresh h⟩
  · rw [if_pos (by simp [hplace])] at h
    cases h

theorem Net.addTransition_eq_ok (h : net.addTransition d = .ok net') :
    net.transitions.contains d.name = false ∧ ∃ tr,
      d.arcs.foldlM (Transition.addArc net.places d.name) ⟨∅, ∅, d.guards⟩ = .ok tr ∧
      net' = { net with transitions := net.transitions.insert d.name tr } := by
  unfold addTransition at h
  by_cases hd : net.transitions.contains d.name = true
  · rw [if_pos hd] at h
    cases h
  · rw [if_neg hd] at h
    obtain ⟨tr, htr, h⟩ := bind_eq_ok.1 h
    cases h
    exact ⟨by simpa using hd, tr, htr, rfl⟩

/-- Adding an arc keeps expressions away from input arcs. -/
theorem Transition.plain_of_addArc (h : tr.input.Plain) (ha : tr.addArc places t a = .ok tr') : tr'.input.Plain := by
  obtain ⟨-, hexpr, -, rfl⟩ := addArc_eq_ok ha
  intro p l hl
  unfold withArc at hl
  cases hdir : a.direction with
  | output =>
    rw [hdir] at hl
    exact h p l hl
  | input =>
    rw [hdir] at hl
    by_cases hp : p = a.place
    · rw [hp, FinMap.get?_insert_self] at hl
      cases hl
      exact ArcDeclaration.noExpr_of_expression? (hexpr hdir)
    · rw [FinMap.get?_insert_of_ne _ hp] at hl
      exact h p l hl

/-- Adding an arc keeps the places of the arcs among the declared ones. -/
theorem Transition.declared_of_addArc (h : ∀ dir p, (tr.arcs dir).contains p = true → places.contains p = true)
    (ha : tr.addArc places t a = .ok tr') : ∀ dir p, (tr'.arcs dir).contains p = true → places.contains p = true := by
  obtain ⟨hplace, -, -, rfl⟩ := addArc_eq_ok ha
  have hinsert : ∀ {arcs : Arcs}, (∀ p, arcs.contains p = true → places.contains p = true) →
      ∀ p, (arcs.insert a.place a.inscriptions).contains p = true → places.contains p = true := by
    intro arcs harcs p hp
    by_cases hpa : p = a.place
    · rwa [hpa]
    · refine harcs p ?_
      unfold FinMap.contains at hp ⊢
      rwa [FinMap.get?_insert_of_ne _ hpa] at hp
  intro dir
  unfold withArc
  cases hdir : a.direction with
  | input =>
    cases dir with
    | input => exact hinsert (h .input)
    | output => exact h .output
  | output =>
    cases dir with
    | input => exact h .input
    | output => exact hinsert (h .output)

/-- What holds of a transition without arcs, and stays true when an arc is added, holds of all transitions of a built
net. -/
theorem Net.forall_transition_of_build {P : FinSet Place → Transition → Prop} {places : List Place}
    {decls : List TransitionDeclaration} (h : Net.build places decls = .ok net)
    (hstart : ∀ declared guards, P declared ⟨∅, ∅, guards⟩)
    (harc : ∀ declared t tr a tr', P declared tr → tr.addArc declared t a = .ok tr' → P declared tr') :
    ∀ t tr, net.transition? t = some tr → P net.places tr := by
  refine foldlM_invariant (P := fun net : Net => ∀ t tr, net.transition? t = some tr → P net.places tr) h ?_ ?_
  · intro t tr ht
    cases ht
  · intro net d net' hnet hadd t tr ht
    obtain ⟨-, added, harcs, rfl⟩ := addTransition_eq_ok hadd
    by_cases htd : t = d.name
    · rw [htd, Net.transition?, FinMap.get?_insert_self] at ht
      cases ht
      exact foldlM_invariant harcs (hstart net.places d.guards) (harc net.places d.name)
    · rw [Net.transition?, FinMap.get?_insert_of_ne _ htd] at ht
      exact hnet t tr ht

/-- No transition of a built net has an expression on an input arc. -/
theorem Net.plain_of_build {places : List Place} {decls : List TransitionDeclaration}
    (h : Net.build places decls = .ok net) : ∀ t tr, net.transition? t = some tr → tr.input.Plain := by
  refine Net.forall_transition_of_build (P := fun _ tr => tr.input.Plain) h (fun _ _ p l hl => ?_) ?_
  · cases hl
  · exact fun _ _ _ _ _ hplain ha => Transition.plain_of_addArc hplain ha

/-- The arcs of a built net are at places of the net. -/
theorem Net.declared_of_build {places : List Place} {decls : List TransitionDeclaration}
    (h : Net.build places decls = .ok net) : ∀ t tr, net.transition? t = some tr →
      ∀ dir p, (tr.arcs dir).contains p = true → net.places.contains p = true := by
  refine Net.forall_transition_of_build
    (P := fun declared tr => ∀ dir p, (tr.arcs dir).contains p = true → declared.contains p = true) h
    (fun _ _ dir p hp => ?_) ?_
  · cases dir <;> cases hp
  · exact fun _ _ _ _ _ hdeclared ha => Transition.declared_of_addArc hdeclared ha

/-! ### Well-formed nets -/

/-- The arcs of the transition are at the given places, and no expression stands on an input arc. -/
structure Transition.FitsIn (tr : Transition) (places : FinSet Place) : Prop where
  plain : tr.input.Plain
  declared : ∀ dir p, (tr.arcs dir).contains p = true → places.contains p = true

/-- Every transition of the net fits in its places. -/
def Net.WellFormed (net : Net) : Prop := ∀ t tr, net.transition? t = some tr → tr.FitsIn net.places

theorem Net.wellFormed_of_build {places : List Place} {decls : List TransitionDeclaration}
    (h : Net.build places decls = .ok net) : net.WellFormed :=
  fun t tr ht => ⟨Net.plain_of_build h t tr ht, Net.declared_of_build h t tr ht⟩

/-- The demand of each transition can be told at a marking that has the places of the net. -/
theorem Net.WellFormed.exists_demand (h : net.WellFormed) {m : Marking} (ht : net.transition? t = some tr)
    (hm : ∀ p, net.places.contains p = true → (m.get? p).isSome = true) : ∃ d?, net.demand t m = .ok d? := by
  unfold Net.demand
  rw [Net.transition_eq_ok.2 ht]
  refine Demand.exists_extend (fun e he => ?_) fun e he => hm e.1 ?_
  · exact (h t tr ht).plain e.1 e.2 (FinMap.mem_entries_iff.1 he)
  · refine (h t tr ht).declared .input e.1 ?_
    change tr.input.contains e.1 = true
    rw [FinMap.contains, FinMap.mem_entries_iff.1 he]
    rfl

/-- At a marking of its places, a built net tells the demand of each of its transitions. -/
theorem Net.exists_demand {m : Marking} {places : List Place} {decls : List TransitionDeclaration}
    (hnet : Net.build places decls = .ok net) (ht : net.transition? t = some tr)
    (hm : ∀ p ∈ net.places.keys, (m.get? p).isSome = true) : ∃ d?, net.demand t m = .ok d? :=
  (Net.wellFormed_of_build hnet).exists_demand ht fun p hp => hm p (FinMap.contains_iff_mem_keys.1 hp)

end TokenNet
