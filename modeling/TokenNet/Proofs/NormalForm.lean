import TokenNet.Proofs.RestoredFiring

/-!
# Simplified nets are simplified

A guard is eliminable if simplification makes an end of it: it equates two variables, or a variable and a constant.
Replacing a variable by a variable makes no guard that equates two variables out of another one, and replacing one by a
constant makes no eliminable guard, so a simplified transition has none, `Transition.isSimple_of_simplify`.  Such a
transition is simplified to itself, `Transition.IsSimple.simplify_eq`, and so the first pass over a net is the last one
that changes anything: `Net.simplifyFully_eq_simplify`.
-/

namespace TokenNet

/-! ### Eliminable guards -/

namespace Guard

/-- Two variables are equated. -/
def EquatesVars (g : Guard) : Prop := ∃ x y, g = ⟨.var x, .var y⟩

/-- Two variables are equated, or a variable and a constant. -/
def IsEliminable (g : Guard) : Prop := g.EquatesVars ∨ ∃ e, Propagation.assignment? g = some e

variable {g g' : Guard} {x y : Variable} {v : Value}

/-- What is a variable after a substitution was a variable before. -/
private theorem exists_var_of_substitute {i : Inscription} {r : Inscription} {z : Variable}
    (h : i.substitute x r = .ok (.var z)) : ∃ z', i = .var z' := by
  rcases Inscription.eq_var_of_substitute h with ⟨rfl, -⟩ | ⟨rfl, -⟩
  · exact ⟨x, rfl⟩
  · exact ⟨z, rfl⟩

/-- What is a constant after a substitution was a constant or a variable before. -/
private theorem exists_const_of_substitute {i r : Inscription} {w : Value} (h : i.substitute x r = .ok (.const w)) :
    i = .const w ∨ ∃ z, i = .var z := by
  cases i with
  | var z => exact .inr ⟨z, rfl⟩
  | const u =>
    cases h
    exact .inl rfl
  | expr f =>
    obtain ⟨f', -, heq⟩ := Inscription.substitute_expr_eq_ok.1 h
    cases heq

theorem EquatesVars.of_substitute {r : Inscription} (h : g.substitute x r = .ok g') (hg : g'.EquatesVars) :
    g.EquatesVars := by
  obtain ⟨a, b, rfl⟩ := hg
  obtain ⟨hleft, hright⟩ := substitute_eq_ok.1 h
  obtain ⟨a', ha⟩ := exists_var_of_substitute hleft
  obtain ⟨b', hb⟩ := exists_var_of_substitute hright
  exact ⟨a', b', by rw [← ha, ← hb]⟩

theorem assignment?_eq_some_iff {e : Variable × Value} : Propagation.assignment? g = some e ↔
    g = ⟨.var e.1, .const e.2⟩ ∨ g = ⟨.const e.2, .var e.1⟩ := by
  constructor
  · intro h
    rcases Propagation.assignment?_eq_some h with rfl | hflip
    · exact .inl rfl
    · exact .inr (congrArg Guard.flip hflip)
  · rintro (rfl | rfl) <;> rfl

/-- Where a constant replaces a variable, an eliminable guard comes from an eliminable one. -/
theorem IsEliminable.of_substitute (h : g.substitute x (.const v) = .ok g') (hg : g'.IsEliminable) : g.IsEliminable := by
  -- a variable is left as it was, and the constant beside it was there, or was a variable
  have hvar : ∀ {i : Inscription} {z : Variable}, i.substitute x (.const v) = .ok (.var z) → i = .var z := by
    intro i z hi
    rcases Inscription.eq_var_of_substitute hi with ⟨-, hr⟩ | ⟨hi, -⟩
    · cases hr
    · exact hi
  rcases hg with hg | ⟨⟨z, w⟩, hg⟩
  · exact .inl (hg.of_substitute h)
  · obtain ⟨hleft, hright⟩ := substitute_eq_ok.1 h
    obtain ⟨l, r⟩ := g
    rcases assignment?_eq_some_iff.1 hg with rfl | rfl
    · obtain rfl : l = .var z := hvar hleft
      rcases exists_const_of_substitute hright with hr | ⟨z', hr⟩
      · exact .inr ⟨(z, w), assignment?_eq_some_iff.2 (.inl (congrArg (Guard.mk _) hr))⟩
      · exact .inl ⟨z, z', congrArg (Guard.mk _) hr⟩
    · obtain rfl : r = .var z := hvar hright
      rcases exists_const_of_substitute hleft with hl | ⟨z', hl⟩
      · exact .inr ⟨(z, w), assignment?_eq_some_iff.2 (.inr (congrArg (Guard.mk · _) hl))⟩
      · exact .inl ⟨z', z, congrArg (Guard.mk · _) hl⟩

end Guard

/-! ### What is left to eliminate -/

namespace Propagation

variable {w w' : Propagation}

/-- None of the guards that stay equates two variables. -/
def KeepsApart (w : Propagation) : Prop := ∀ g ∈ w.examined, ¬ g.EquatesVars

/-- Examining a guard takes one off the pending ones, and keeps it only if it does not equate two variables. -/
theorem KeepsApart.examine (h : w.KeepsApart) (hw : w.examine = .ok w') :
    w'.KeepsApart ∧ w'.pending.length = w.pending.length - 1 := by
  rcases examine_cases hw with ⟨hpending, rfl⟩ | ⟨x, y, rest, hpending, hxy⟩ | ⟨g, rest, hpending, hg, rfl⟩
  · exact ⟨h, by rw [hpending]; rfl⟩
  · rw [hpending]
    rcases hxy with ⟨-, rfl⟩ | ⟨-, hw⟩
    · exact ⟨h, rfl⟩
    · obtain ⟨-, -, hexamined, hrest, -⟩ := eliminate_eq_ok hw
      refine ⟨fun g' hg' hequates => ?_, length_of_mapM hrest⟩
      obtain ⟨g, hg, hsubst⟩ := (mem_of_mapM hexamined).1 hg'
      exact h g hg (hequates.of_substitute hsubst)
  · rw [hpending]
    refine ⟨fun g' hg' => ?_, rfl⟩
    rcases List.mem_append.1 hg' with hg' | hg'
    · exact h g' hg'
    · obtain rfl := List.mem_singleton.1 hg'
      rintro ⟨x, y, rfl⟩
      exact hg x y rfl

/-- After all guards have been examined none is pending, and none that is left equates two variables. -/
theorem KeepsApart.propagateEqualities (h : w.KeepsApart) (hw : w.propagateEqualities = .ok w') :
    w'.KeepsApart ∧ w'.pending = [] := by
  -- one round for each guard that was pending in the beginning
  have hrounds : ∀ (l : List Guard) {w : Propagation}, w.KeepsApart →
      l.foldlM (fun (w : Propagation) _ => w.examine) w = .ok w' →
      w'.KeepsApart ∧ w'.pending.length = w.pending.length - l.length := by
    intro l
    induction l with
    | nil =>
      intro w h hw
      cases hw
      exact ⟨h, rfl⟩
    | cons g l ih =>
      intro w h hw
      rw [List.foldlM_cons] at hw
      obtain ⟨w₁, hw₁, hw⟩ := bind_eq_ok.1 hw
      obtain ⟨h₁, hlen₁⟩ := h.examine hw₁
      obtain ⟨h', hlen'⟩ := ih h₁ hw
      exact ⟨h', by rw [hlen', hlen₁, List.length_cons]; omega⟩
  obtain ⟨h', hlen⟩ := hrounds w.pending h hw
  rw [Nat.sub_self] at hlen
  exact ⟨h', List.length_eq_zero_iff.1 hlen⟩

/-- A guard that does not equate two variables stays. -/
theorem examine_of_not_equatesVars {g : Guard} {rest : List Guard} (hpending : w.pending = g :: rest)
    (hg : ¬ g.EquatesVars) : w.examine = .ok { w with examined := w.examined ++ [g], pending := rest } := by
  unfold Propagation.examine
  rw [hpending]
  split
  · rename_i hnil
    cases hnil
  · rename_i x y rest' hcons
    cases hcons
    exact absurd ⟨x, y, rfl⟩ hg
  · rename_i g' rest' _ hcons
    cases hcons
    rfl

/-- The guards that are left when the constants have been collected assign none. -/
theorem assignment?_of_collectConstants {t : TransitionName} {gs rest : List Guard} {c c' : FinMap Variable Value}
    (h : collectConstants t gs c = .ok (c', rest)) : ∀ g ∈ rest, assignment? g = none := by
  induction gs generalizing c rest with
  | nil =>
    cases h
    exact fun g hg => absurd hg List.not_mem_nil
  | cons g gs ih =>
    unfold collectConstants at h
    cases hg : assignment? g with
    | none =>
      rw [hg] at h
      obtain ⟨⟨c₁, rest₁⟩, h₁, heq⟩ := bind_eq_ok.1 h
      cases heq
      exact List.forall_mem_cons.2 ⟨hg, ih h₁⟩
    | some e =>
      rw [hg] at h
      dsimp only at h
      cases hx : c.get? e.1 with
      | none =>
        rw [hx] at h
        exact ih h
      | some first =>
        rw [hx] at h
        dsimp only at h
        by_cases hfirst : first = e.2
        · rw [if_pos hfirst] at h
          exact ih h
        · rw [if_neg hfirst] at h
          cases h

/-- Where no guard can be eliminated, replacing variables by constants does not change that. -/
private theorem not_isEliminable_of_foldlM {entries : List (Variable × Value)}
    (h : (∀ g ∈ w.examined, ¬ g.IsEliminable) ∧ w.pending = [])
    (hw : entries.foldlM (fun (w : Propagation) e => w.eliminate e.1 (.const e.2)) w = .ok w') :
    (∀ g ∈ w'.examined, ¬ g.IsEliminable) ∧ w'.pending = [] := by
  refine foldlM_invariant (P := fun w : Propagation => (∀ g ∈ w.examined, ¬ g.IsEliminable) ∧ w.pending = []) hw h ?_
  rintro w₁ ⟨x, v⟩ w₂ ⟨hguards, hpending⟩ hw₂
  obtain ⟨-, -, hexamined, hpending', -⟩ := eliminate_eq_ok hw₂
  refine ⟨fun g' hg' heliminable => ?_, ?_⟩
  · obtain ⟨g, hg, hsubst⟩ := (mem_of_mapM hexamined).1 hg'
    exact hguards g hg (heliminable.of_substitute hsubst)
  · rw [hpending, List.mapM_nil] at hpending'
    exact (Except.ok.inj hpending').symm

/-- Where no guard equates two variables, all guards are examined and stay. -/
theorem propagateEqualities_eq_self {w : Propagation} (h : ∀ g ∈ w.pending, ¬ g.EquatesVars) :
    w.propagateEqualities = .ok { w with examined := w.examined ++ w.pending, pending := [] } := by
  have hrounds : ∀ (l : List Guard) {w : Propagation}, w.pending = l → (∀ g ∈ l, ¬ g.EquatesVars) →
      l.foldlM (fun (w : Propagation) _ => w.examine) w =
        (.ok { w with examined := w.examined ++ l, pending := [] } : Except EvaluationError Propagation) := by
    intro l
    induction l with
    | nil =>
      rintro ⟨input, output, examined, pending, eliminated⟩ rfl -
      simp [pure, Except.pure]
    | cons g l ih =>
      intro w hpending h
      obtain ⟨hg, hl⟩ := List.forall_mem_cons.1 h
      rw [List.foldlM_cons, examine_of_not_equatesVars hpending hg]
      refine (ih rfl hl).trans ?_
      rw [List.append_assoc, List.singleton_append]
  exact hrounds w.pending rfl h

/-- Where no guard assigns a constant, none is collected, and all guards are left. -/
theorem collectConstants_eq_self {t : TransitionName} {gs : List Guard} (h : ∀ g ∈ gs, assignment? g = none) :
    collectConstants t gs ∅ = .ok (∅, gs) := by
  induction gs with
  | nil => rfl
  | cons g gs ih =>
    obtain ⟨hg, hgs⟩ := List.forall_mem_cons.1 h
    unfold collectConstants
    rw [hg]
    dsimp only
    rw [ih hgs]
    rfl

end Propagation

/-! ### Simplified transitions -/

namespace Transition

/-- No guard equates two variables, or a variable and a constant. -/
def IsSimple (tr : Transition) : Prop := ∀ g ∈ tr.guards, ¬ g.IsEliminable

variable {tr tr' : Transition} {t : TransitionName} {eliminated : Eliminations}

/-- No guard of a simplified transition can be eliminated. -/
theorem isSimple_of_simplify (h : tr.simplify t = .ok (tr', eliminated)) : tr'.IsSimple := by
  obtain ⟨w, w', hw, hw', rfl, -⟩ := Transition.simplify_eq_ok h
  have hstart : (Propagation.ofTransition tr).KeepsApart := fun g hg => absurd hg List.not_mem_nil
  obtain ⟨happart, hpending⟩ := hstart.propagateEqualities hw
  obtain ⟨constants, guards, hcollect, hw'⟩ := Propagation.propagateConstants_eq_ok hw'
  obtain ⟨-, hrest, -⟩ := Propagation.collectConstants_eq_ok hcollect
  rw [hpending, List.append_nil] at hrest
  have hguards : ∀ g ∈ guards, ¬ g.IsEliminable := by
    rintro g hg (hequates | ⟨e, he⟩)
    · exact happart g (hrest g hg) hequates
    · rw [Propagation.assignment?_of_collectConstants hcollect g hg] at he
      cases he
  obtain ⟨hsimple, hpending'⟩ := Propagation.not_isEliminable_of_foldlM (w := { w with examined := guards, pending := [] })
    ⟨hguards, rfl⟩ hw'
  intro g hg
  change g ∈ w'.examined ++ w'.pending at hg
  rw [hpending', List.append_nil] at hg
  exact hsimple g hg

/-- Where there is nothing to eliminate, simplification changes nothing. -/
theorem IsSimple.simplify_eq (h : tr.IsSimple) : tr.simplify t = .ok (tr, []) := by
  have hequalities : (Propagation.ofTransition tr).propagateEqualities = .ok ⟨tr.input, tr.output, tr.guards, [], []⟩ :=
    Propagation.propagateEqualities_eq_self fun g hg hequates => h g hg (.inl hequates)
  have hcollect : Propagation.collectConstants t (tr.guards ++ []) ∅ = .ok (∅, tr.guards) := by
    rw [List.append_nil]
    refine Propagation.collectConstants_eq_self fun g hg => ?_
    cases hassign : Propagation.assignment? g with
    | none => rfl
    | some e => exact absurd (.inr ⟨e, hassign⟩) (h g hg)
  unfold Transition.simplify Propagation.propagateConstants
  rw [hequalities]
  change (do let x ← Except.mapError Error.constantConflict (Propagation.collectConstants t (tr.guards ++ []) ∅); _) >>= _ = _
  rw [hcollect]
  change Except.ok ((⟨tr.input, tr.output, tr.guards ++ []⟩ : Transition), ([] : Eliminations)) = _
  rw [List.append_nil]

end Transition

/-! ### Simplified nets -/

section Nets

variable {net : Net} {s : Simplified}

/-- Simplifying a simplified net succeeds, leaves it as it is, and eliminates nothing. -/
theorem Net.simplify_simplified (h : net.simplify = .ok s) :
    s.net.simplify = .ok ⟨s.net, s.net.transitions.map fun _ => []⟩ := by
  obtain ⟨hnames, htransitions⟩ := Net.simplify_eq_ok h
  have hsimple : ∀ t tr', s.net.transitions.get? t = some tr' → tr'.IsSimple := by
    intro t tr' ht'
    obtain ⟨tr, ht⟩ : ∃ tr, net.transition? t = some tr := by
      have hname := hnames t
      rw [show s.net.transition? t = some tr' from ht'] at hname
      exact Option.isSome_iff_exists.1 hname.symm
    exact Transition.isSimple_of_simplify (Net.simplify_transition h ht ht')
  have htraverse : s.net.transitions.traverse Transition.simplify =
      .ok (s.net.transitions.map fun tr => (tr, ([] : Eliminations))) := by
    refine FinMap.traverse_eq_ok.2 ⟨fun t => ?_, fun t tr ht => ⟨(tr, []), (hsimple t tr ht).simplify_eq, ?_⟩⟩
    · rw [FinMap.get?_map, Option.isSome_map]
    · rw [FinMap.get?_map, ht, Option.map_some]
  have hmap : ∀ {W : Type} (f : Transition × Eliminations → W),
      (s.net.transitions.map fun tr => (tr, ([] : Eliminations))).map f = s.net.transitions.map fun tr => f (tr, []) := by
    intro W f
    refine FinMap.ext_get? fun t => ?_
    simp only [FinMap.get?_map, Option.map_map, Function.comp_def]
  unfold Net.simplify
  rw [htraverse]
  change Except.ok (Simplified.mk ⟨s.net.places, FinMap.map Prod.fst _⟩ (FinMap.map Prod.snd _)) = _
  rw [hmap, hmap]
  have hself : (s.net.transitions.map fun tr => tr) = s.net.transitions :=
    FinMap.ext_get? fun t => by rw [FinMap.get?_map, Option.map_id']
  rw [hself]

/-- Repeating the simplification of a simplified net stops at once, however often it may repeat. -/
theorem Simplified.repeatSimplify_eq_self (h : net.simplify = .ok s) (n : Nat) : repeatSimplify n s = .ok s := by
  cases n with
  | zero => rfl
  | succ n =>
    unfold repeatSimplify
    rw [Net.simplify_simplified h]
    exact if_pos rfl

/-- One pass reaches the end: a net that was simplified once is simplified to itself and nothing is eliminated then, so
the repetition stops at once, however often it may repeat, and simplifying fully is simplifying, with the same net, the
same eliminated variables, or the same error. -/
theorem Net.simplifyFully_eq_simplify (net : Net) : net.simplifyFully = net.simplify ∧
    ∀ s, net.simplify = .ok s →
      (∃ s', s.net.simplify = .ok s' ∧ s'.net = s.net ∧ ∀ t, s'.eliminatedOf t = []) ∧
        ∀ n, Simplified.repeatSimplify n s = .ok s := by
  refine ⟨?_, fun s h => ⟨⟨_, Net.simplify_simplified h, rfl, fun t => ?_⟩, Simplified.repeatSimplify_eq_self h⟩⟩
  · unfold Net.simplifyFully
    cases h : net.simplify with
    | error e => rfl
    | ok s => exact Simplified.repeatSimplify_eq_self h _
  · change ((s.net.transitions.map fun _ => ([] : Eliminations)).get? t).getD [] = []
    rw [FinMap.get?_map]
    cases s.net.transitions.get? t <;> rfl

/-- A chain and a cycle of equal variables that end in a constant, and a guard that is examined before they are. -/
theorem Net.simplifyFully_eq_simplify_cycle :
    let a : Inscription := .var "a"
    let b : Inscription := .var "b"
    let c : Inscription := .var "c"
    let two : Inscription := .const (.int 2)
    let guards : List Guard := [⟨.expr (.ofText "a + b"), c⟩, ⟨a, b⟩, ⟨b, c⟩, ⟨c, a⟩, ⟨two, c⟩, ⟨a, two⟩]
    let net : Net := ⟨.ofList ["p", "q"], .ofList [("t", ⟨.ofList [("p", [a, b])], .ofList [("q", [c])], guards⟩)]⟩
    let tr : Transition := ⟨.ofList [("p", [two, two])], .ofList [("q", [two])], [⟨.expr (.ofText "(2 + 2)"), two⟩]⟩
    let s : Simplified := ⟨⟨.ofList ["p", "q"], .ofList [("t", tr)]⟩, .ofList [("t", [("a", b), ("b", c), ("c", two)])]⟩
    net.simplify = .ok s ∧ net.simplifyFully = .ok s ∧
      (∃ s', s.net.simplify = .ok s' ∧ s'.net = s.net ∧ ∀ t, s'.eliminatedOf t = []) ∧
        ∀ n, Simplified.repeatSimplify n s = .ok s := by
  intro a b c two guards net tr s
  have hs : net.simplify = .ok s := by decide +kernel
  obtain ⟨hfully, hagain⟩ := Net.simplifyFully_eq_simplify net
  exact ⟨hs, hfully.trans hs, hagain s hs⟩

end Nets

end TokenNet
