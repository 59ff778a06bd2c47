import TokenNet.Proofs.Equations
import TokenNet.Proofs.TextSubstitution
import TokenNet.Proofs.WellFormed

/-!
# Eliminated variables

A variable that is eliminated from a transition is gone from it: no arc, no guard and no formula of the simplified
transition mentions it, `Transition.cleared_of_simplify`.  So no variable is eliminated twice, and none is replaced by one
that was eliminated before it, `Eliminations.Acyclic`.  The eliminations can then be undone from the last to the first, as
soon as the variables have values that replace others and are still there: `Eliminations.Acyclic.restore_eq_ok_iff_bound`.

The names of variables do not have to be identifiers here.
-/

namespace TokenNet

/-! ### Inscriptions without a variable -/

namespace Inscription

variable {i i' r : Inscription} {x y z : Variable}

/-- The variables of the inscription can be told, and this one is not among them. -/
def Lacks (i : Inscription) (x : Variable) : Prop := ∃ vs, i.vars = .ok vs ∧ vs.contains x = false

theorem lacks_var : (var y).Lacks x ↔ y ≠ x := by
  have hvars : (var y).vars = .ok (FinSet.ofList [y]) := rfl
  unfold Lacks
  rw [hvars]
  constructor
  · rintro ⟨vs, hvs, hx⟩ rfl
    cases hvs
    rw [(FinSet.contains_ofList [y] y).2 List.mem_cons_self] at hx
    cases hx
  · intro hyx
    refine ⟨_, rfl, Bool.eq_false_iff.2 fun hx => hyx ?_⟩
    exact (List.mem_singleton.1 ((FinSet.contains_ofList [y] x).1 hx)).symm

theorem lacks_const (v : Value) (x : Variable) : (const v).Lacks x := ⟨∅, rfl, rfl⟩

theorem IsAtom.lacks_iff (hr : r.IsAtom) : r.Lacks x ↔ r ≠ .var x := by
  cases r with
  | var y => exact lacks_var.trans (Iff.not ⟨congrArg var, Inscription.var.inj⟩)
  | const v => exact iff_of_true (lacks_const v x) fun h => by cases h
  | expr f => exact absurd rfl (hr f)

/-- What lacks a variable still does when another one is replaced by what lacks it, too; and where the variable itself is
replaced it is gone. -/
theorem Lacks.substitute (h : i.substitute x r = .ok i') (hr : r.Lacks z) (hi : z ≠ x → i.Lacks z) : i'.Lacks z := by
  cases i with
  | var y =>
    have hi' : (if y = x then r else var y) = i' := Except.ok.inj h
    by_cases hy : y = x
    · rw [if_pos hy] at hi'
      rwa [← hi']
    · rw [if_neg hy] at hi'
      rw [← hi']
      by_cases hz : z = x
      · exact lacks_var.2 (hz ▸ hy)
      · exact hi hz
  | const v =>
    cases h
    exact lacks_const v z
  | expr f =>
    obtain ⟨f', hf', rfl⟩ := substitute_expr_eq_ok.1 h
    obtain ⟨vs, vs', hvs, hvs', hoccurs, hstays⟩ := Formula.vars_substitute hf'
    cases hx : vs.contains x with
    | true =>
      obtain ⟨rs, hrs, rfl⟩ := hoccurs hx
      refine ⟨_, hvs', Bool.eq_false_iff.2 fun hmem => ?_⟩
      rcases (FinSet.contains_union _ _ z).1 hmem with hmem | hmem
      · obtain ⟨hmem, hzx⟩ := (FinSet.contains_erase vs x z).1 hmem
        obtain ⟨us, hus, hz⟩ := hi hzx
        cases hus.symm.trans hvs
        rw [hmem] at hz
        cases hz
      · obtain ⟨us, hus, hz⟩ := hr
        cases hus.symm.trans hrs
        rw [hmem] at hz
        cases hz
    | false =>
      obtain rfl := hstays hx
      by_cases hz : z = x
      · exact ⟨vs, hvs, by rw [hz, hx]⟩
      · exact hi hz

end Inscription

/-! ### The inscriptions of a transition -/

/-- The inscription stands on an arc of the transition, or it is a side of a guard. -/
def Transition.Bears (tr : Transition) (i : Inscription) : Prop :=
  (∃ dir p l, (tr.arcs dir).get? p = some l ∧ i ∈ l) ∨ ∃ g ∈ tr.guards, i = g.left ∨ i = g.right

section Bears

variable {input output : Arcs} {guards guards' : List Guard} {tr tr' : Transition} {i' r : Inscription} {x : Variable}

/-- Reordering the guards, turning them around and dropping some adds no inscriptions. -/
theorem Transition.Bears.of_guards (h : Transition.Bears ⟨input, output, guards'⟩ i')
    (hfrom : ∀ g ∈ guards', g ∈ guards ∨ g.flip ∈ guards) : Transition.Bears ⟨input, output, guards⟩ i' := by
  refine h.imp id fun ⟨g, hg, hside⟩ => ?_
  rcases hfrom g hg with hg | hg
  · exact ⟨g, hg, hside⟩
  · exact ⟨g.flip, hg, hside.symm⟩

/-- What stands in a transition after a substitution comes from what stood there before. -/
theorem Transition.Bears.of_substitute (harcs : ∀ dir, Arcs.substitute (tr.arcs dir) x r = .ok (tr'.arcs dir))
    (hguards : tr.guards.mapM (·.substitute x r) = .ok tr'.guards) (h : tr'.Bears i') :
    ∃ i, tr.Bears i ∧ i.substitute x r = .ok i' := by
  rcases h with ⟨dir, p, l', hl', hi'⟩ | ⟨g', hg', hside⟩
  · rcases Arcs.get?_substitute (harcs dir) p with ⟨hnone, -⟩ | ⟨l, l'', hl, hl'', hmap⟩
    · rw [hnone] at hl'
      cases hl'
    · rw [hl''] at hl'
      cases hl'
      obtain ⟨i, hi, hsubst⟩ := (mem_of_mapM hmap).1 hi'
      exact ⟨i, .inl ⟨dir, p, l, hl, hi⟩, hsubst⟩
  · obtain ⟨g, hg, hsubst⟩ := (mem_of_mapM hguards).1 hg'
    obtain ⟨hleft, hright⟩ := Guard.substitute_eq_ok.1 hsubst
    rcases hside with rfl | rfl
    · exact ⟨g.left, .inr ⟨g, hg, .inl rfl⟩, hleft⟩
    · exact ⟨g.right, .inr ⟨g, hg, .inr rfl⟩, hright⟩

end Bears

/-! ### Eliminations without cycles -/

namespace Eliminations

/-- No variable is eliminated twice, and each is replaced by a constant, or by a variable that is eliminated after it or
not at all. -/
structure Acyclic (eliminated : Eliminations) : Prop where
  nodup : (eliminated.map Prod.fst).Nodup
  atoms : ∀ e ∈ eliminated, e.2.IsAtom
  self : ∀ e ∈ eliminated, e.2 ≠ .var e.1
  order : eliminated.Pairwise fun e e' => e'.2 ≠ .var e.1

namespace Acyclic

variable {eliminated : Eliminations} {e : Variable × Inscription} {x y : Variable} {r : Inscription} {b b' : Binding}

theorem nil : Acyclic [] :=
  ⟨List.nodup_nil, fun _ he => absurd he List.not_mem_nil, fun _ he => absurd he List.not_mem_nil, .nil⟩

/-- One more variable may be eliminated, if it and what replaces it have not been eliminated. -/
theorem concat (h : Acyclic eliminated) (hr : r.IsAtom) (hx : r ≠ .var x)
    (hfresh : ∀ e ∈ eliminated, e.1 ≠ x ∧ r ≠ .var e.1) : Acyclic (eliminated ++ [(x, r)]) where
  nodup := Eliminations.nodup_concat h.nodup fun e he => (hfresh e he).1
  atoms := List.forall_mem_append.2 ⟨h.atoms, List.forall_mem_singleton.2 hr⟩
  self := List.forall_mem_append.2 ⟨h.self, List.forall_mem_singleton.2 hx⟩
  order := List.pairwise_append.2 ⟨h.order, List.pairwise_singleton _ _, fun e he e' he' => by
    obtain rfl := List.mem_singleton.1 he'
    exact (hfresh e he).2⟩

theorem tail (h : Acyclic (e :: eliminated)) : Acyclic eliminated where
  nodup := (List.nodup_cons.1 h.nodup).2
  atoms e' he' := h.atoms e' (List.mem_cons_of_mem e he')
  self e' he' := h.self e' (List.mem_cons_of_mem e he')
  order := (List.pairwise_cons.1 h.order).2

/-- What replaces a variable is a constant, or a variable that is eliminated later or not at all. -/
theorem replacement_cases {before after : Eliminations} (h : Acyclic (before ++ (x, r) :: after)) :
    (∃ v, r = .const v) ∨
      ∃ y, r = .var y ∧ (y ∈ after.map Prod.fst ∨ y ∉ (before ++ (x, r) :: after).map Prod.fst) := by
  have hmem : (x, r) ∈ before ++ (x, r) :: after := List.mem_append_right before List.mem_cons_self
  have hbefore : ∀ e ∈ before, r ≠ .var e.1 := fun e he =>
    (List.pairwise_append.1 h.order).2.2 e he (x, r) List.mem_cons_self
  cases r with
  | const v => exact .inl ⟨v, rfl⟩
  | expr f => exact absurd rfl (h.atoms _ hmem f)
  | var y =>
    refine .inr ⟨y, rfl, or_iff_not_imp_left.2 fun hafter hy => ?_⟩
    obtain ⟨e, he, hey⟩ := List.mem_map.1 hy
    have hr : Inscription.var y = .var e.1 := congrArg Inscription.var hey.symm
    rcases List.mem_append.1 he with he | he
    · exact hbefore e he hr
    · rcases List.mem_cons.1 he with rfl | he
      · exact h.self _ hmem hr
      · exact hafter (List.mem_map.2 ⟨e, he, hey⟩)

/-- All eliminated variables get values, from the last one to the first, if the variables have values that replace others
and are not eliminated. -/
theorem contains_undoAll (h : Acyclic eliminated)
    (hb : ∀ x y, (x, .var y) ∈ eliminated → y ∉ eliminated.map Prod.fst → b.contains y = true) :
    ∀ e ∈ eliminated, (b.undoAll eliminated).contains e.1 = true := by
  induction eliminated with
  | nil => exact fun e he => absurd he List.not_mem_nil
  | cons e eliminated ih =>
    obtain ⟨x, r⟩ := e
    have hself := h.self _ List.mem_cons_self
    have hatom := h.atoms _ List.mem_cons_self
    have hrest : ∀ e ∈ eliminated, (b.undoAll eliminated).contains e.1 = true := by
      refine ih h.tail fun x' y hxy hy => hb x' y (List.mem_cons_of_mem _ hxy) fun hmem => ?_
      rcases List.mem_cons.1 hmem with rfl | hmem
      · exact (List.pairwise_cons.1 h.order).1 _ hxy rfl
      · exact hy hmem
    obtain ⟨v, hv⟩ : ∃ v, r.evaluate (b.undoAll eliminated) = .ok v := by
      cases r with
      | const v => exact ⟨v, rfl⟩
      | expr f => exact absurd rfl (hatom f)
      | var y =>
        have hy : (b.undoAll eliminated).contains y = true := by
          by_cases hmem : y ∈ eliminated.map Prod.fst
          · obtain ⟨e, he, rfl⟩ := List.mem_map.1 hmem
            exact hrest e he
          · have hgone : ∀ e ∈ eliminated, e.1 ≠ y := fun e he heq => hmem (List.mem_map.2 ⟨e, he, heq⟩)
            rw [FinMap.contains, Binding.get?_undoAll hgone]
            refine hb x y List.mem_cons_self fun hcons => ?_
            rcases List.mem_cons.1 hcons with rfl | hcons
            · exact hself rfl
            · exact hmem hcons
        obtain ⟨v, hv⟩ := Option.isSome_iff_exists.1 hy
        exact ⟨v, Binding.value_eq_ok.2 hv⟩
    intro e' he'
    change ((Binding.undo x r (b.undoAll eliminated)).get? e'.1).isSome = true
    rw [Binding.get?_undo]
    by_cases hfirst : e'.1 = x
    · rw [if_pos hfirst, hv]
      rfl
    · rw [if_neg hfirst]
      exact hrest e' ((List.mem_cons.1 he').resolve_left fun heq => hfirst (by rw [heq]))

/-- A binding is restored if it has values for the variables that replace others and are not eliminated. -/
theorem restore_eq_ok_iff_bound (h : Acyclic eliminated) : restore eliminated b = .ok b' ↔ b' = b.undoAll eliminated ∧
    ∀ x y, (x, .var y) ∈ eliminated → y ∉ eliminated.map Prod.fst → b.contains y = true := by
  rw [restore_eq_ok_iff h.atoms h.order h.self h.nodup]
  refine and_congr_right fun _ => ⟨fun hall x y hxy hy => ?_, h.contains_undoAll⟩
  have hvalue := Binding.valueOf_eliminated (b := b) h.atoms h.order h.self h.nodup (x, .var y) hxy
  have hgone : ∀ e ∈ eliminated, e.1 ≠ y := fun e he heq => hy (List.mem_map.2 ⟨e, he, heq⟩)
  rw [Binding.valueOf_var, Binding.valueOf_var, Binding.get?_undoAll hgone] at hvalue
  rw [FinMap.contains, ← hvalue]
  exact hall (x, .var y) hxy

/-- A restored binding agrees with the binding where nothing was eliminated, and every eliminated variable has the value
of what replaced it. -/
theorem solves_of_restore (h : Acyclic eliminated) (hb : restore eliminated b = .ok b') :
    (∀ x, x ∉ eliminated.map Prod.fst → b'.get? x = b.get? x) ∧
      ∀ e ∈ eliminated, ∃ v, b'.get? e.1 = some v ∧ e.2.evaluate b' = .ok v := by
  obtain ⟨rfl, hall⟩ := (restore_eq_ok_iff h.atoms h.order h.self h.nodup).1 hb
  refine ⟨fun x hx => Binding.get?_undoAll fun e he heq => hx (List.mem_map.2 ⟨e, he, heq⟩), fun e he => ?_⟩
  obtain ⟨v, hv⟩ := Option.isSome_iff_exists.1 (hall e he)
  refine ⟨v, hv, Binding.valueOf_eq_some.1 ?_⟩
  rw [← Binding.valueOf_eliminated h.atoms h.order h.self h.nodup e he, Binding.valueOf_var, hv]

end Acyclic

end Eliminations

/-! ### Simplified transitions -/

/-- The eliminations have no cycles, and no inscription of the transition mentions an eliminated variable. -/
structure Transition.Cleared (tr : Transition) (eliminated : Eliminations) : Prop where
  acyclic : eliminated.Acyclic
  lacks : ∀ e ∈ eliminated, ∀ i, tr.Bears i → i.Lacks e.1

section Cleared

variable {input output input' output' : Arcs} {guards guards' : List Guard} {eliminated : Eliminations}

theorem Transition.Cleared.of_guards (h : Transition.Cleared ⟨input, output, guards⟩ eliminated)
    (hfrom : ∀ g ∈ guards', g ∈ guards ∨ g.flip ∈ guards) : Transition.Cleared ⟨input, output, guards'⟩ eliminated :=
  ⟨h.acyclic, fun e he i hi => h.lacks e he i (hi.of_guards hfrom)⟩

/-- The equation by which a variable is eliminated mentions no variable that was eliminated before. -/
theorem Transition.Cleared.eliminate {x : Variable} {r : Inscription}
    (h : Transition.Cleared ⟨input, output, ⟨.var x, r⟩ :: guards⟩ eliminated) (hr : r.IsAtom) (hx : r ≠ .var x)
    (hinput : Arcs.substitute input x r = .ok input') (houtput : Arcs.substitute output x r = .ok output')
    (hguards : guards.mapM (·.substitute x r) = .ok guards') :
    Transition.Cleared ⟨input', output', guards'⟩ (eliminated ++ [(x, r)]) := by
  have hhead : ∀ e ∈ eliminated, (Inscription.var x).Lacks e.1 ∧ r.Lacks e.1 := fun e he =>
    ⟨h.lacks e he _ (.inr ⟨_, List.mem_cons_self, .inl rfl⟩), h.lacks e he _ (.inr ⟨_, List.mem_cons_self, .inr rfl⟩)⟩
  refine ⟨h.acyclic.concat hr hx fun e he => ?_, fun e he i' hi' => ?_⟩
  · exact ⟨(Inscription.lacks_var.1 (hhead e he).1).symm, hr.lacks_iff.1 (hhead e he).2⟩
  · have harcs : ∀ dir, Arcs.substitute (Transition.arcs ⟨input, output, guards⟩ dir) x r =
        .ok (Transition.arcs ⟨input', output', guards'⟩ dir) := fun dir => by cases dir <;> assumption
    obtain ⟨i, hi, hsubst⟩ := Transition.Bears.of_substitute harcs hguards hi'
    rcases List.mem_append.1 he with he | he
    · refine .substitute hsubst (hhead e he).2 fun _ => h.lacks e he i ?_
      exact hi.of_guards fun g hg => .inl (List.mem_cons_of_mem _ hg)
    · obtain rfl := List.mem_singleton.1 he
      exact .substitute hsubst (hr.lacks_iff.2 hx) fun hne => absurd rfl hne

theorem Transition.cleared_of_simplify {t : TransitionName} {tr tr' : Transition}
    (h : tr.simplify t = .ok (tr', eliminated)) : tr'.Cleared eliminated := by
  have hI : Propagation.Invariant fun input output guards eliminated =>
      Transition.Cleared ⟨input, output, guards⟩ eliminated := by
    refine ⟨fun h _ hfrom => h.of_guards hfrom, fun h => h.of_guards fun g hg => ?_, Transition.Cleared.eliminate⟩
    exact .inl (List.mem_cons_of_mem _ hg)
  exact hI.simplify ⟨.nil, fun e he => absurd he List.not_mem_nil⟩ h

end Cleared

/-! ### Simplified nets -/

section Nets

variable {net : Net} {s : Simplified} {t : TransitionName} {tr : Transition}

/-- Simplification, once or until nothing changes, eliminates each variable of a transition at most once and for good: no
inscription of the simplified transition mentions it.  A variable is replaced by a constant, or by a variable that is
eliminated later or not at all.  So a binding can be restored if and only if it binds those variables that replace others
and are not eliminated; the restored binding then agrees with it on all variables that are not eliminated, and gives each
of the others the value that what replaced it has under the restored binding. -/
theorem Simplified.restore_solves (hs : net.simplify = .ok s ∨ net.simplifyFully = .ok s)
    (ht : net.transition? t = some tr) :
    ∃ tr', s.net.transition? t = some tr' ∧ ((s.eliminatedOf t).map Prod.fst).Nodup ∧
      (∀ x ∈ (s.eliminatedOf t).map Prod.fst, ∀ i, tr'.Bears i → i.Lacks x) ∧
      (∀ before x r after, s.eliminatedOf t = before ++ (x, r) :: after → (∃ v, r = .const v) ∨
        ∃ y, r = .var y ∧ (y ∈ after.map Prod.fst ∨ y ∉ (s.eliminatedOf t).map Prod.fst)) ∧
      ∀ b, ((∃ b', s.restore t b = .ok b') ↔
          ∀ x y, (x, .var y) ∈ s.eliminatedOf t → y ∉ (s.eliminatedOf t).map Prod.fst → b.contains y = true) ∧
        ∀ b', s.restore t b = .ok b' →
          (∀ x, x ∉ (s.eliminatedOf t).map Prod.fst → b'.get? x = b.get? x) ∧
          ∀ e ∈ s.eliminatedOf t, ∃ v, b'.get? e.1 = some v ∧ e.2.evaluate b' = .ok v := by
  rw [Net.simplifyFully_eq, or_self] at hs
  obtain ⟨tr', ht', hsimplify⟩ := (Net.simplify_eq_ok hs).2 t tr ht
  obtain ⟨hacyclic, hlacks⟩ := Transition.cleared_of_simplify hsimplify
  refine ⟨tr', ht', hacyclic.nodup, fun x hx i hi => ?_, fun before x r after heq => ?_, fun b => ⟨?_, fun b' hb => ?_⟩⟩
  · obtain ⟨e, he, rfl⟩ := List.mem_map.1 hx
    exact hlacks e he i hi
  · rw [heq] at hacyclic ⊢
    exact hacyclic.replacement_cases
  · constructor
    · rintro ⟨b', hb⟩
      exact (hacyclic.restore_eq_ok_iff_bound.1 hb).2
    · exact fun hb => ⟨_, hacyclic.restore_eq_ok_iff_bound.2 ⟨rfl, hb⟩⟩
  · exact hacyclic.solves_of_restore hb

/-- One of the variables is no identifier, two are only equated with each other, and a string looks like a variable. -/
theorem Simplified.restore_solves_chain :
    let x : Inscription := .var "x"
    let three : Inscription := .const (.int 3)
    let guards : List Guard := [⟨.var "y", x⟩, ⟨x, .var "a b"⟩, ⟨.var "u", .var "v"⟩, ⟨three, .var "z"⟩]
    let text : Inscription := .expr (.ofText "\"y\" + w")
    let tr : Transition :=
      ⟨.ofList [("p", [.var "y", .var "a b"])], .ofList [("q", [.expr (.ofText "y + z"), text])], guards⟩
    let net : Net := ⟨.ofList ["p", "q"], .ofList [("t", tr)]⟩
    let tr' : Transition := ⟨.ofList [("p", [x, x])], .ofList [("q", [.expr (.ofText "(x + 3)"), text])], []⟩
    let s : Simplified := ⟨⟨.ofList ["p", "q"], .ofList [("t", tr')]⟩,
      .ofList [("t", [("y", x), ("a b", x), ("u", .var "v"), ("z", three)])]⟩
    net.simplifyFully = .ok s ∧ text.Lacks "y" ∧
      (∀ b, (∃ b', s.restore "t" b = .ok b') ↔ b.contains "x" = true ∧ b.contains "v" = true) ∧
      ∀ b b', s.restore "t" b = .ok b' → b'.get? "w" = b.get? "w" ∧ b'.get? "a b" = b'.get? "x" := by
  intro x three guards text tr net tr' s
  have hs : net.simplifyFully = .ok s := by decide +kernel
  have ht : net.transition? "t" = some tr := by decide +kernel
  have heliminated : s.eliminatedOf "t" = [("y", x), ("a b", x), ("u", .var "v"), ("z", three)] := by decide +kernel
  have htransition : s.net.transition? "t" = some tr' := by decide +kernel
  have htext : (tr'.arcs .output).get? "q" = some [.expr (.ofText "(x + 3)"), text] := by decide +kernel
  obtain ⟨tr₁, ht', -, hlacks, -, hrestore⟩ := restore_solves (.inr hs) ht
  rw [htransition] at ht'
  cases ht'
  rw [heliminated] at hlacks hrestore
  refine ⟨hs, hlacks "y" (by decide) text (.inl ⟨.output, "q", _, htext, by simp⟩), fun b => ?_, fun b b' hb => ?_⟩
  · rw [(hrestore b).1]
    constructor
    · exact fun h => ⟨h "y" "x" (by simp [x]) (by decide), h "u" "v" (by simp) (by decide)⟩
    · rintro ⟨hx, hv⟩ x' y hxy -
      simp only [List.mem_cons, Prod.mk.injEq, x, three, Inscription.var.injEq, List.not_mem_nil] at hxy
      rcases hxy with ⟨-, rfl⟩ | ⟨-, rfl⟩ | ⟨-, rfl⟩ | ⟨-, hxy⟩ | hxy
      · exact hx
      · exact hx
      · exact hv
      · cases hxy
      · exact hxy.elim
  · obtain ⟨hkept, hvalues⟩ := (hrestore b).2 b' hb
    obtain ⟨v, hv, hvalue⟩ := hvalues ("a b", x) (by simp)
    exact ⟨hkept "w" (by decide), hv.trans (Binding.value_eq_ok.1 hvalue).symm⟩

end Nets

end TokenNet
