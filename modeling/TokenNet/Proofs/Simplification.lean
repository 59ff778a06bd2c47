import TokenNet.Proofs.Propagation

/-!
# What simplification keeps

`Traces tr input output guards eliminated` relates what a propagation has made of a transition so far to the transition:
its arcs denote the same tokens, and one of its guards is false if and only if a guard of the transition is, when the
values of the eliminated variables are put back, `Binding.undoAll`.

Propagation drops guards, turns them around and eliminates variables, and does nothing else: `Propagation.Invariant` names
what these steps keep, and `Propagation.Invariant.simplify` says that simplification keeps it as well.  The traces are such
an invariant, `Transition.traces_of_simplify`.

Only false guards are compared, since a guard that is an error may become one that holds, with the same text on both
sides.  The other way round, guards that hold are held to the end, and every eliminated variable has the value of what
replaced it.
-/

namespace TokenNet

open Inscription

/-- The binding with the values of all eliminated variables put back, the last one first. -/
def Binding.undoAll (eliminated : Eliminations) (b : Binding) : Binding :=
  eliminated.foldr (fun e b => Binding.undo e.1 e.2 b) b

theorem Binding.undoAll_append (eliminated : Eliminations) (x : Variable) (r : Inscription) (b : Binding) :
    Binding.undoAll (eliminated ++ [(x, r)]) b = Binding.undoAll eliminated (Binding.undo x r b) := by
  rw [Binding.undoAll, List.foldr_append]
  rfl

/-! ### Replacements -/

namespace Inscription

variable {r : Inscription} {x : Variable} {b : Binding}

/-- No expression; only variables and constants replace variables. -/
def IsAtom (r : Inscription) : Prop := ∀ f, r ≠ .expr f

theorem IsAtom.exists_toExpr (hr : r.IsAtom) (hn : r.Named) : ∃ e, r.toExpr = .ok e := by
  cases r with
  | var y => exact ⟨.var y, if_pos (hn y rfl)⟩
  | const v => exact ⟨.lit v, rfl⟩
  | expr f => exact absurd rfl (hr f)

/-- An atom does not depend on the values of other variables. -/
theorem IsAtom.evaluate_undo (hr : r.IsAtom) (hx : r ≠ .var x) (r' : Inscription) (b : Binding) :
    r.evaluate (Binding.undo x r' b) = r.evaluate b := by
  cases r with
  | var y =>
    have hy : y ≠ x := fun h => hx (by rw [h])
    refine Binding.value_congr ?_
    rw [Binding.get?_undo, if_neg hy]
  | const v => rfl
  | expr f => exact absurd rfl (hr f)

theorem undo_eq_self {v : Value} (hx : b.get? x = some v) (hr : r.evaluate b = .ok v) : Binding.undo x r b = b := by
  refine FinMap.ext_get? fun y => ?_
  rw [Binding.get?_undo, hr]
  by_cases hy : y = x
  · rw [if_pos hy, hy, hx]
    rfl
  · rw [if_neg hy]

end Inscription

/-! ### Traces -/

/-- What the guards, the arcs and the eliminated variables have to do with the transition that they come from. -/
structure Traces (tr : Transition) (input output : Arcs) (guards : List Guard) (eliminated : Eliminations) : Prop where
  named_input : input.Named
  named_output : output.Named
  named_guards : ∀ g ∈ guards, g.Named
  taken : input.ComesFrom (Binding.undoAll eliminated) tr.input
  made : output.ComesFrom (Binding.undoAll eliminated) tr.output
  mentions : ∀ z, input.Mentions z →
    ∃ x, tr.input.Mentions x ∧ ∀ b : Binding, b.get? z = (Binding.undoAll eliminated b).get? x
  plain : tr.input.Plain → input.Plain
  false_iff : ∀ b, (∃ g ∈ guards, g.holds b = .ok false) ↔
    ∃ g ∈ tr.guards, g.holds (Binding.undoAll eliminated b) = .ok false
  held : ∀ b, (∀ g ∈ tr.guards, g.holds b = .ok true) →
    (∀ g ∈ guards, g.Held b) ∧ ∀ e ∈ eliminated, ∃ v, b.get? e.1 = some v ∧ e.2.evaluate b = .ok v
  gone : ∀ e ∈ eliminated, ∀ g ∈ guards, g.left ≠ .var e.1 ∧ g.right ≠ .var e.1
  order : eliminated.Pairwise fun e e' => e'.2 ≠ .var e.1
  self : ∀ e ∈ eliminated, e.2 ≠ .var e.1
  atoms : ∀ e ∈ eliminated, e.2.IsAtom

/-- The variables of the arcs and guards of a transition are identifiers. -/
structure Transition.Named (tr : Transition) : Prop where
  input : tr.input.Named
  output : tr.output.Named
  guards : ∀ g ∈ tr.guards, g.Named

instance (tr : Transition) : Decidable tr.Named :=
  decidable_of_iff (tr.input.Named ∧ tr.output.Named ∧ ∀ g ∈ tr.guards, g.Named)
    ⟨fun ⟨hi, ho, hg⟩ => ⟨hi, ho, hg⟩, fun h => ⟨h.input, h.output, h.guards⟩⟩

namespace Traces

variable {tr : Transition} {input output input' output' : Arcs} {guards guards' : List Guard} {eliminated : Eliminations}

theorem ofTransition (h : tr.Named) : Traces tr tr.input tr.output tr.guards [] where
  named_input := h.input
  named_output := h.output
  named_guards := h.guards
  taken := ⟨fun _ => rfl, fun p l l' hl hl' b => by rw [hl] at hl'; cases hl'; exact .refl _⟩
  made := ⟨fun _ => rfl, fun p l l' hl hl' b => by rw [hl] at hl'; cases hl'; exact .refl _⟩
  mentions z hz := ⟨z, hz, fun _ => rfl⟩
  plain := id
  false_iff _ := Iff.rfl
  held b hb := ⟨fun g hg => Guard.held_of_holds (h.guards g hg) (hb g hg), fun e he => absurd he List.not_mem_nil⟩
  gone e he := absurd he List.not_mem_nil
  order := .nil
  self e he := absurd he List.not_mem_nil
  atoms e he := absurd he List.not_mem_nil

/-- The guards may be reordered, turned around, and repeated. -/
theorem congr (h : Traces tr input output guards eliminated) (hto : ∀ g ∈ guards, g ∈ guards' ∨ g.flip ∈ guards')
    (hfrom : ∀ g ∈ guards', g ∈ guards ∨ g.flip ∈ guards) : Traces tr input output guards' eliminated := by
  have hnamed : ∀ g ∈ guards', g.Named := by
    intro g hg
    rcases hfrom g hg with hg | hg
    · exact h.named_guards g hg
    · exact (h.named_guards g.flip hg).flip
  refine { h with named_guards := hnamed, false_iff := fun b => ?_, held := fun b hb => ?_, gone := fun e he g hg => ?_ }
  · rw [← h.false_iff]
    constructor
    · rintro ⟨g, hg, hfalse⟩
      rcases hfrom g hg with hg' | hg'
      · exact ⟨g, hg', hfalse⟩
      · exact ⟨g.flip, hg', (Guard.holds_flip_eq_false (hnamed g hg)).2 hfalse⟩
    · rintro ⟨g, hg, hfalse⟩
      rcases hto g hg with hg' | hg'
      · exact ⟨g, hg', hfalse⟩
      · exact ⟨g.flip, hg', (Guard.holds_flip_eq_false (h.named_guards g hg)).2 hfalse⟩
  · obtain ⟨hheld, hvalues⟩ := h.held b hb
    refine ⟨fun g hg => ?_, hvalues⟩
    rcases hfrom g hg with hg | hg
    · exact hheld g hg
    · exact (hheld g.flip hg).flip
  · rcases hfrom g hg with hg | hg
    · exact h.gone e he g hg
    · exact (h.gone e he g.flip hg).symm

/-- An equation between a variable and itself may be dropped. -/
theorem drop {x : Variable} (h : Traces tr input output (⟨.var x, .var x⟩ :: guards) eliminated) :
    Traces tr input output guards eliminated := by
  refine { h with
    named_guards := fun g hg => h.named_guards g (List.mem_cons_of_mem _ hg)
    false_iff := fun b => ?_
    held := fun b hb => ⟨fun g hg => (h.held b hb).1 g (List.mem_cons_of_mem _ hg), (h.held b hb).2⟩
    gone := fun e he g hg => h.gone e he g (List.mem_cons_of_mem _ hg) }
  rw [← h.false_iff]
  constructor
  · rintro ⟨g, hg, hfalse⟩
    exact ⟨g, List.mem_cons_of_mem _ hg, hfalse⟩
  · rintro ⟨g, hg, hfalse⟩
    rcases List.mem_cons.1 hg with rfl | hg
    · have htrue : (Guard.mk (.var x) (.var x)).holds b = .ok true := if_pos rfl
      rw [htrue] at hfalse
      cases hfalse
    · exact ⟨g, hg, hfalse⟩

/-- The guard whose variable is eliminated says that the replacement has its value. -/
theorem value_of_held {x : Variable} {r : Inscription} (hr : r.IsAtom) (hx : r ≠ .var x)
    (hn : (Guard.mk (.var x) r).Named) {b : Binding} (h : (Guard.mk (.var x) r).Held b) :
    ∃ v, b.get? x = some v ∧ r.evaluate b = .ok v := by
  rcases h with ⟨v, hv, hw⟩ | hexpr
  · exact ⟨v, Binding.value_eq_ok.1 hv, hw⟩
  · have hleft : (Inscription.var x).toExpr = .ok (.var x) := if_pos (hn.1 x rfl)
    have hright : r.toExpr = .ok (.var x) := hexpr.symm.trans hleft
    cases r with
    | var y =>
      have hy : (Inscription.var y).toExpr = .ok (.var y) := if_pos (hn.2 y rfl)
      rw [hy] at hright
      cases hright
      exact absurd rfl hx
    | const v => cases hright
    | expr f => exact absurd rfl (hr f)

section Elimination

variable {x : Variable} {r : Inscription} {b : Binding}

/-- A guard is false after the elimination if and only if one was before; the equation itself cannot be, since its
variable gets the value of the replacement. -/
private theorem false_iff_of_eliminate (hnamed : ∀ g ∈ Guard.mk (.var x) r :: guards, g.Named) (hr : r.IsAtom)
    (hx : r ≠ .var x) {er : Expr} (her : r.toExpr = .ok er) (hguards : guards.mapM (·.substitute x r) = .ok guards') :
    (∃ g' ∈ guards', g'.holds b = .ok false) ↔
      ∃ g ∈ Guard.mk (.var x) r :: guards, g.holds (Binding.undo x r b) = .ok false := by
  obtain ⟨hhead, hnamed⟩ := List.forall_mem_cons.1 hnamed
  constructor
  · rintro ⟨g', hg', hfalse⟩
    obtain ⟨g, hg, hsubst⟩ := (mem_of_mapM hguards).1 hg'
    exact ⟨g, List.mem_cons_of_mem _ hg, (Guard.holds_substitute_eq_false (hnamed g hg) hhead.2 her hsubst).1 hfalse⟩
  · rintro ⟨g, hg, hfalse⟩
    rcases List.mem_cons.1 hg with rfl | hg
    · obtain ⟨v, w, hv, hw, hne⟩ := (Guard.holds_eq_false_iff hhead).1 hfalse
      rw [hr.evaluate_undo hx r b] at hw
      have hvalue := (alike_value_undo x r b w).1 hw
      have hv' : Binding.value (Binding.undo x r b) x = .ok v := hv
      rw [hvalue] at hv'
      cases hv'
      exact absurd rfl hne
    · obtain ⟨g', hsubst⟩ := exists_of_mapM hguards hg
      exact ⟨g', (mem_of_mapM hguards).2 ⟨g, hg, hsubst⟩,
        (Guard.holds_substitute_eq_false (hnamed g hg) hhead.2 her hsubst).2 hfalse⟩

/-- A variable that did not stand alone in a guard does not after the elimination, nor does the eliminated one. -/
private theorem gone_of_eliminate {z : Variable} (hx : r ≠ .var x) (hz : z = x ∨ r ≠ .var z) {i i' : Inscription}
    (hi : i.substitute x r = .ok i') (hgone : z ≠ x → i ≠ .var z) : i' ≠ .var z := by
  rintro rfl
  rcases eq_var_of_substitute hi with ⟨-, hr⟩ | ⟨hi, hne⟩
  · rcases hz with rfl | hz
    · exact hx hr
    · exact hz hr
  · exact hgone hne hi

/-- Eliminating a variable by an equation for it keeps the traces. -/
theorem eliminate (h : Traces tr input output (⟨.var x, r⟩ :: guards) eliminated) (hr : r.IsAtom) (hx : r ≠ .var x)
    (hinput : Arcs.substitute input x r = .ok input') (houtput : Arcs.substitute output x r = .ok output')
    (hguards : guards.mapM (·.substitute x r) = .ok guards') :
    Traces tr input' output' guards' (eliminated ++ [(x, r)]) := by
  obtain ⟨hhead, hnamed⟩ := List.forall_mem_cons.1 h.named_guards
  have hrn : r.Named := hhead.2
  obtain ⟨er, her⟩ := hr.exists_toExpr hrn
  have hundo : Binding.undoAll (eliminated ++ [(x, r)]) = fun b => Binding.undoAll eliminated (Binding.undo x r b) :=
    funext fun b => Binding.undoAll_append eliminated x r b
  have hgone : ∀ e ∈ eliminated, r ≠ .var e.1 := fun e he => (h.gone e he _ List.mem_cons_self).2
  exact {
    named_input := h.named_input.substitute hrn hinput
    named_output := h.named_output.substitute hrn houtput
    named_guards := fun g' hg' => by
      obtain ⟨g, hg, hsubst⟩ := (mem_of_mapM hguards).1 hg'
      exact (hnamed g hg).substitute hrn hsubst
    taken := by
      rw [hundo]
      exact h.taken.substitute h.named_input hrn her hinput
    made := by
      rw [hundo]
      exact h.made.substitute h.named_output hrn her houtput
    mentions := fun z hz => by
      obtain ⟨y, hy, hget⟩ := hz.of_substitute hinput
      obtain ⟨x₀, hx₀, hget₀⟩ := h.mentions y hy
      refine ⟨x₀, hx₀, fun b => ?_⟩
      rw [hundo, hget b, hget₀]
    plain := fun hplain => (h.plain hplain).substitute hr hinput
    false_iff := fun b => by
      rw [hundo, ← h.false_iff]
      exact false_iff_of_eliminate h.named_guards hr hx her hguards
    held := fun b hb => by
      obtain ⟨hheld, hvalues⟩ := h.held b hb
      obtain ⟨v, hv, hw⟩ := value_of_held hr hx hhead (hheld _ List.mem_cons_self)
      refine ⟨fun g' hg' => ?_, List.forall_mem_append.2 ⟨hvalues, List.forall_mem_singleton.2 ⟨v, hv, hw⟩⟩⟩
      obtain ⟨g, hg, hsubst⟩ := (mem_of_mapM hguards).1 hg'
      exact (hheld g (List.mem_cons_of_mem _ hg)).substitute (hnamed g hg) hrn her hsubst (undo_eq_self hv hw)
    gone := fun e he g' hg' => by
      obtain ⟨g, hg, hsubst⟩ := (mem_of_mapM hguards).1 hg'
      obtain ⟨hleft, hright⟩ := Guard.substitute_eq_ok.1 hsubst
      rcases List.mem_append.1 he with he | he
      · have hg := h.gone e he g (List.mem_cons_of_mem _ hg)
        exact ⟨gone_of_eliminate hx (.inr (hgone e he)) hleft fun _ => hg.1,
          gone_of_eliminate hx (.inr (hgone e he)) hright fun _ => hg.2⟩
      · obtain rfl := List.mem_singleton.1 he
        exact ⟨gone_of_eliminate hx (.inl rfl) hleft (absurd rfl), gone_of_eliminate hx (.inl rfl) hright (absurd rfl)⟩
    order := List.pairwise_append.2 ⟨h.order, List.pairwise_singleton _ _, fun e he e' he' => by
      obtain rfl := List.mem_singleton.1 he'
      exact hgone e he⟩
    self := List.forall_mem_append.2 ⟨h.self, List.forall_mem_singleton.2 hx⟩
    atoms := List.forall_mem_append.2 ⟨h.atoms, List.forall_mem_singleton.2 hr⟩ }

end Elimination

end Traces

/-! ### The steps of a propagation -/

namespace Propagation

variable {I : Arcs → Arcs → List Guard → Eliminations → Prop} {tr : Transition} {w w' : Propagation}

/-- What is known of the arcs and the guards of a transition and of the eliminated variables is kept when a guard is
repeated, moved or turned around, when a guard that equates a variable with itself is dropped, and when a variable is
eliminated by an equation for it. -/
structure Invariant (I : Arcs → Arcs → List Guard → Eliminations → Prop) : Prop where
  congr : ∀ {input output : Arcs} {guards guards' : List Guard} {eliminated : Eliminations},
    I input output guards eliminated → (∀ g ∈ guards, g ∈ guards' ∨ g.flip ∈ guards') →
    (∀ g ∈ guards', g ∈ guards ∨ g.flip ∈ guards) → I input output guards' eliminated
  drop : ∀ {input output : Arcs} {guards : List Guard} {eliminated : Eliminations} {x : Variable},
    I input output (⟨.var x, .var x⟩ :: guards) eliminated → I input output guards eliminated
  eliminate : ∀ {input output input' output' : Arcs} {guards guards' : List Guard} {eliminated : Eliminations}
    {x : Variable} {r : Inscription}, I input output (⟨.var x, r⟩ :: guards) eliminated → r.IsAtom → r ≠ .var x →
    Arcs.substitute input x r = .ok input' → Arcs.substitute output x r = .ok output' →
    guards.mapM (·.substitute x r) = .ok guards' → I input' output' guards' (eliminated ++ [(x, r)])

/-- What is known of a propagation. -/
def Satisfies (w : Propagation) (I : Arcs → Arcs → List Guard → Eliminations → Prop) : Prop :=
  I w.input w.output (w.examined ++ w.pending) w.eliminated

theorem eliminate_eq_ok {x : Variable} {r : Inscription} (h : w.eliminate x r = .ok w') :
    Arcs.substitute w.input x r = .ok w'.input ∧ Arcs.substitute w.output x r = .ok w'.output ∧
      w.examined.mapM (·.substitute x r) = .ok w'.examined ∧ w.pending.mapM (·.substitute x r) = .ok w'.pending ∧
      w'.eliminated = w.eliminated ++ [(x, r)] := by
  obtain ⟨input, hinput, h⟩ := bind_eq_ok.1 h
  obtain ⟨output, houtput, h⟩ := bind_eq_ok.1 h
  obtain ⟨examined, hexamined, h⟩ := bind_eq_ok.1 h
  obtain ⟨pending, hpending, h⟩ := bind_eq_ok.1 h
  cases h
  exact ⟨hinput, houtput, hexamined, hpending, rfl⟩

/-- Examining a guard does nothing if none is left, drops the guard if it equates a variable with itself, eliminates a
variable if it equates two, and else keeps it. -/
theorem examine_cases (hw : w.examine = .ok w') :
    (w.pending = [] ∧ w' = w) ∨
    (∃ x y rest, w.pending = ⟨.var x, .var y⟩ :: rest ∧
      (((orient x y).1 = (orient x y).2 ∧ w' = { w with pending := rest }) ∨
        ((orient x y).1 ≠ (orient x y).2 ∧
          eliminate { w with pending := rest } (orient x y).1 (.var (orient x y).2) = .ok w'))) ∨
    ∃ g rest, w.pending = g :: rest ∧ (∀ x y, g ≠ ⟨.var x, .var y⟩) ∧
      w' = { w with examined := w.examined ++ [g], pending := rest } := by
  unfold Propagation.examine at hw
  split at hw
  · rename_i hpending
    cases hw
    exact .inl ⟨hpending, rfl⟩
  · rename_i x y rest hpending
    refine .inr (.inl ⟨x, y, rest, hpending, ?_⟩)
    dsimp only at hw
    split at hw
    · rename_i hxy
      cases hw
      exact .inl ⟨hxy, rfl⟩
    · rename_i hxy
      exact .inr ⟨hxy, hw⟩
  · rename_i g rest hnot hpending
    cases hw
    exact .inr (.inr ⟨g, rest, hpending, hnot, rfl⟩)

theorem propagateConstants_eq_ok {t : TransitionName} (hw : w.propagateConstants t = .ok w') : ∃ constants guards,
    collectConstants t (w.examined ++ w.pending) ∅ = .ok (constants, guards) ∧
      constants.entries.foldlM (fun (w : Propagation) e => w.eliminate e.1 (.const e.2))
        { w with examined := guards, pending := [] } = .ok w' := by
  obtain ⟨⟨constants, guards⟩, hcollect, hw⟩ := bind_eq_ok.1 hw
  exact ⟨constants, guards, mapError_eq_ok.1 hcollect, mapError_eq_ok.1 hw⟩

theorem mapM_append_eq_ok {α β ε : Type} {f : α → Except ε β} {l l' : List α} {r r' : List β}
    (h : l.mapM f = .ok r) (h' : l'.mapM f = .ok r') : (l ++ l').mapM f = .ok (r ++ r') := by
  rw [List.mapM_append]
  exact bind_eq_ok.2 ⟨r, h, bind_eq_ok.2 ⟨r', h', rfl⟩⟩

/-- The variables of an equation are left in their order or exchanged. -/
private theorem orient_cases (x y : Variable) : orient x y = (x, y) ∨ orient x y = (y, x) := by
  unfold orient
  split
  · exact .inr rfl
  · exact .inl rfl

/-- Examining a guard drops it, keeps it, or eliminates a variable by it. -/
theorem Invariant.examine (hI : Invariant I) (h : w.Satisfies I) (hw : w.examine = .ok w') : w'.Satisfies I := by
  have hfront : ∀ {g g' : Guard} {rest : List Guard}, w.pending = g :: rest → g' = g ∨ g' = g.flip →
      I w.input w.output (g' :: (w.examined ++ rest)) w.eliminated := by
    intro g g' rest hpending hg'
    have hmem : ∀ g₁, g₁ ∈ w.examined ++ w.pending ↔ g₁ ∈ g :: (w.examined ++ rest) := by
      intro g₁
      rw [hpending]
      exact List.perm_middle.mem_iff
    refine hI.congr h (fun g₁ hg₁ => ?_) fun g₁ hg₁ => ?_
    · rcases List.mem_cons.1 ((hmem g₁).1 hg₁) with rfl | hg₁
      · rcases hg' with rfl | rfl
        · exact .inl List.mem_cons_self
        · exact .inr List.mem_cons_self
      · exact .inl (List.mem_cons_of_mem g' hg₁)
    · rcases List.mem_cons.1 hg₁ with rfl | hg₁
      · rcases hg' with rfl | rfl
        · exact .inl ((hmem g₁).2 List.mem_cons_self)
        · exact .inr ((hmem g).2 List.mem_cons_self)
      · exact .inl ((hmem g₁).2 (List.mem_cons_of_mem g hg₁))
  rcases examine_cases hw with ⟨-, rfl⟩ | ⟨x, y, rest, hpending, hxy⟩ | ⟨g, rest, hpending, -, rfl⟩
  · exact h
  · have hhead : I w.input w.output (⟨.var (orient x y).1, .var (orient x y).2⟩ :: (w.examined ++ rest)) w.eliminated := by
      refine hfront hpending ?_
      rcases orient_cases x y with horient | horient
      · exact .inl (by rw [horient])
      · exact .inr (by rw [horient]; rfl)
    rcases hxy with ⟨heq, rfl⟩ | ⟨hne, hw⟩
    · rw [heq] at hhead
      exact hI.drop hhead
    · obtain ⟨hinput, houtput, hexamined, hpending', heliminated⟩ := eliminate_eq_ok hw
      unfold Satisfies
      rw [heliminated]
      exact hI.eliminate hhead (fun f => by nofun) (fun heq => hne (Inscription.var.inj heq).symm) hinput houtput
        (mapM_append_eq_ok hexamined hpending')
  · refine hI.congr h (fun g' hg' => .inl ?_) fun g' hg' => .inl ?_
    · rw [hpending] at hg'
      simpa using hg'
    · rw [hpending]
      simpa using hg'

theorem Invariant.propagateEqualities (hI : Invariant I) (h : w.Satisfies I) (hw : w.propagateEqualities = .ok w') :
    w'.Satisfies I :=
  foldlM_invariant (P := fun w : Propagation => w.Satisfies I) hw h fun _ _ _ h hw => hI.examine h hw

/-! ### Constants -/

/-- The equation between a variable and a constant. -/
def assigns (e : Variable × Value) : Guard := ⟨.var e.1, .const e.2⟩

theorem assignment?_eq_some {g : Guard} {x : Variable} {v : Value} (h : assignment? g = some (x, v)) :
    g = assigns (x, v) ∨ g.flip = assigns (x, v) := by
  unfold assignment? at h
  split at h
  · cases h
    exact .inl rfl
  · cases h
    exact .inr rfl
  · cases h

/-- The constants `c'` are the constants `c` and those of the guards that are taken out; the other guards are left. -/
structure Collects (gs rest : List Guard) (c c' : FinMap Variable Value) : Prop where
  taken : ∀ g ∈ gs, g ∈ rest ∨ ∃ e ∈ c'.entries, assignment? g = some e
  left : ∀ g ∈ rest, g ∈ gs
  entries : ∀ e ∈ c'.entries, e ∈ c.entries ∨ ∃ g ∈ gs, assignment? g = some e
  kept : ∀ e ∈ c.entries, e ∈ c'.entries

variable {gs rest : List Guard} {g : Guard} {c c₁ c' : FinMap Variable Value}

/-- A guard that assigns nothing is left. -/
private theorem Collects.cons_left (h : Collects gs rest c c') : Collects (g :: gs) (g :: rest) c c' where
  taken := List.forall_mem_cons.2
    ⟨.inl List.mem_cons_self, fun g' hg' => (h.taken g' hg').imp_left (List.mem_cons_of_mem g)⟩
  left := List.forall_mem_cons.2 ⟨List.mem_cons_self, fun g' hg' => List.mem_cons_of_mem g (h.left g' hg')⟩
  entries e he := (h.entries e he).imp_right fun ⟨g', hg', he⟩ => ⟨g', List.mem_cons_of_mem g hg', he⟩
  kept := h.kept

/-- A guard that assigns `e` is taken out, and the others are collected from where `e` has been put to the constants. -/
private theorem Collects.cons_taken {e : Variable × Value} (hg : assignment? g = some e)
    (hc₁ : ∀ d, d ∈ c₁.entries ↔ d = e ∨ d ∈ c.entries) (h : Collects gs rest c₁ c') :
    Collects (g :: gs) rest c c' where
  taken := List.forall_mem_cons.2 ⟨.inr ⟨e, h.kept e ((hc₁ e).2 (.inl rfl)), hg⟩, h.taken⟩
  left g' hg' := List.mem_cons_of_mem g (h.left g' hg')
  entries d hd := by
    rcases h.entries d hd with hd | ⟨g', hg', hd⟩
    · rcases (hc₁ d).1 hd with rfl | hd
      · exact .inr ⟨g, List.mem_cons_self, hg⟩
      · exact .inl hd
    · exact .inr ⟨g', List.mem_cons_of_mem g hg', hd⟩
  kept d hd := h.kept d ((hc₁ d).2 (.inr hd))

theorem collectConstants_eq_ok {t : TransitionName} (h : collectConstants t gs c = .ok (c', rest)) :
    Collects gs rest c c' := by
  induction gs generalizing c rest with
  | nil =>
    cases h
    exact ⟨fun g hg => absurd hg List.not_mem_nil, fun g hg => absurd hg List.not_mem_nil, fun e he => .inl he,
      fun e => id⟩
  | cons g gs ih =>
    unfold collectConstants at h
    cases hg : assignment? g with
    | none =>
      rw [hg] at h
      obtain ⟨⟨c₁, rest₁⟩, h₁, heq⟩ := bind_eq_ok.1 h
      cases heq
      exact (ih h₁).cons_left
    | some e =>
      obtain ⟨x, v⟩ := e
      rw [hg] at h
      dsimp only at h
      cases hx : c.get? x with
      | none =>
        rw [hx] at h
        exact (ih h).cons_taken hg fun d => FinMap.mem_entries_insert hx v
      | some first =>
        rw [hx] at h
        dsimp only at h
        by_cases hfirst : first = v
        · rw [if_pos hfirst] at h
          subst hfirst
          refine (ih h).cons_taken hg fun d => ⟨.inr, ?_⟩
          rintro (rfl | hd)
          · exact FinMap.mem_entries_iff.2 hx
          · exact hd
        · rw [if_neg hfirst] at h
          cases h

/-- Replacing other variables leaves an assignment as it is. -/
private theorem mapM_substitute_assigns {x : Variable} {r : Inscription} {entries : List (Variable × Value)}
    (h : ∀ e ∈ entries, e.1 ≠ x) :
    (entries.map assigns).mapM (·.substitute x r) = (.ok (entries.map assigns) : Except EvaluationError (List Guard)) := by
  induction entries with
  | nil => rfl
  | cons e entries ih =>
    have hhead : (assigns e).substitute x r = .ok (assigns e) := by
      refine Guard.substitute_eq_ok.2 ⟨?_, rfl⟩
      exact congrArg Except.ok (if_neg (h e List.mem_cons_self))
    refine mapM_cons_eq_ok.2 ⟨assigns e, entries.map assigns, hhead, ih fun e' he' => ?_, rfl⟩
    exact h e' (List.mem_cons_of_mem e he')

/-- Eliminating the assigned variables one after the other; the assignments of the others still count as guards. -/
private theorem Invariant.foldlM_eliminate (hI : Invariant I) {entries : List (Variable × Value)}
    (hkeys : (entries.map Prod.fst).Nodup) (hpending : w.pending = [])
    (h : I w.input w.output (entries.map assigns ++ w.examined) w.eliminated)
    (hw : entries.foldlM (fun (w : Propagation) e => w.eliminate e.1 (.const e.2)) w = .ok w') : w'.Satisfies I := by
  induction entries generalizing w with
  | nil =>
    cases hw
    unfold Satisfies
    rw [hpending, List.append_nil]
    exact h
  | cons e entries ih =>
    obtain ⟨hnot, hkeys'⟩ := List.nodup_cons.1 hkeys
    rw [List.foldlM_cons] at hw
    obtain ⟨w₁, hw₁, hw⟩ := bind_eq_ok.1 hw
    obtain ⟨hinput, houtput, hexamined, hpending', heliminated⟩ := eliminate_eq_ok hw₁
    have hothers : ∀ e' ∈ entries, e'.1 ≠ e.1 := fun e' he' heq => hnot (List.mem_map.2 ⟨e', he', heq⟩)
    refine ih hkeys' ?_ ?_ hw
    · rw [hpending, List.mapM_nil] at hpending'
      exact (Except.ok.inj hpending').symm
    · rw [heliminated]
      refine hI.eliminate h (fun f => by nofun) (by nofun) hinput houtput ?_
      exact mapM_append_eq_ok (mapM_substitute_assigns hothers) hexamined

theorem Invariant.propagateConstants (hI : Invariant I) {t : TransitionName} (h : w.Satisfies I)
    (hw : w.propagateConstants t = .ok w') : w'.Satisfies I := by
  obtain ⟨constants, rest, hcollect, hw⟩ := propagateConstants_eq_ok hw
  obtain ⟨hguards, hrest, hentries, -⟩ := collectConstants_eq_ok hcollect
  refine hI.foldlM_eliminate (w := { w with examined := rest, pending := [] }) constants.nodup_keys rfl
    (hI.congr h (fun g hg => ?_) fun g hg => ?_) hw
  · rcases hguards g hg with hg | ⟨e, he, hassign⟩
    · exact .inl (List.mem_append_right _ hg)
    · rcases assignment?_eq_some hassign with rfl | hflip
      · exact .inl (List.mem_append_left _ (List.mem_map.2 ⟨e, he, rfl⟩))
      · exact .inr (List.mem_append_left _ (List.mem_map.2 ⟨e, he, hflip.symm⟩))
  · rcases List.mem_append.1 hg with hg | hg
    · obtain ⟨e, he, rfl⟩ := List.mem_map.1 hg
      rcases hentries e he with he | ⟨g', hg', hassign⟩
      · cases he
      · rcases assignment?_eq_some hassign with rfl | hflip
        · exact .inl hg'
        · refine .inr ?_
          rw [← hflip]
          exact hg'
    · exact .inl (hrest g hg)

end Propagation

theorem Transition.simplify_eq_ok {t : TransitionName} {tr tr' : Transition} {eliminated : Eliminations}
    (h : tr.simplify t = .ok (tr', eliminated)) : ∃ w w', (Propagation.ofTransition tr).propagateEqualities = .ok w ∧
      w.propagateConstants t = .ok w' ∧ tr' = w'.toTransition ∧ eliminated = w'.eliminated := by
  obtain ⟨w, hw, h⟩ := bind_eq_ok.1 h
  obtain ⟨w', hw', h⟩ := bind_eq_ok.1 h
  cases h
  exact ⟨w, w', mapError_eq_ok.1 hw, hw', rfl, rfl⟩

/-- What the steps of a propagation keep holds of a simplified transition if it holds of the transition. -/
theorem Propagation.Invariant.simplify {I : Arcs → Arcs → List Guard → Eliminations → Prop} (hI : Invariant I)
    {t : TransitionName} {tr tr' : Transition} {eliminated : Eliminations} (h : I tr.input tr.output tr.guards [])
    (hs : tr.simplify t = .ok (tr', eliminated)) : I tr'.input tr'.output tr'.guards eliminated := by
  obtain ⟨w, w', hw, hw', rfl, rfl⟩ := Transition.simplify_eq_ok hs
  have hstart : (ofTransition tr).Satisfies I := h
  exact hI.propagateConstants (hI.propagateEqualities hstart hw) hw'

/-- A simplified transition and the variables that were eliminated trace the transition they come from. -/
theorem Transition.traces_of_simplify {t : TransitionName} {tr tr' : Transition} {eliminated : Eliminations}
    (hn : tr.Named) (h : tr.simplify t = .ok (tr', eliminated)) :
    Traces tr tr'.input tr'.output tr'.guards eliminated := by
  have hI : Propagation.Invariant (Traces tr) := ⟨Traces.congr, Traces.drop, Traces.eliminate⟩
  exact hI.simplify (Traces.ofTransition hn) h

end TokenNet
