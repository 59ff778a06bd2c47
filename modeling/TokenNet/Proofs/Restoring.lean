import TokenNet.Proofs.Simplification

/-!
# Restoring bindings

A binding of a simplified transition stands for the binding of the input variables that comes out when the eliminated
variables get their values back, `Binding.original`.  Where the guards of both transitions settle all covered bindings,
the enabled bindings of the simplified transition stand for those of the transition, one each:
`Traces.enables_original`, `Traces.original_injective`, `Traces.exists_original`.
-/

namespace TokenNet

open Inscription

/-! ### Putting values back -/

theorem Binding.insert_eq_undo {x : Variable} {r : Inscription} {b : Binding} {v : Value} (hv : r.evaluate b = .ok v) :
    b.insert x v = Binding.undo x r b := by
  change b.alter x (fun _ => some v) = Binding.undo x r b
  rw [Binding.undo, hv]
  rfl

namespace Eliminations

/-- The binding, extended by the values of the eliminated variables; the last elimination is undone first. -/
def restore (eliminated : Eliminations) (b : Binding) : Except EvaluationError Binding :=
  eliminated.reverse.foldlM (fun b e => return b.insert e.1 (← e.2.evaluate b)) b

theorem restore_append (eliminated eliminated' : Eliminations) (b : Binding) :
    restore (eliminated ++ eliminated') b = restore eliminated' b >>= restore eliminated := by
  unfold restore
  rw [List.reverse_append, List.foldlM_append]

theorem restore_singleton_eq_ok {x : Variable} {r : Inscription} {b b' : Binding} :
    restore [(x, r)] b = .ok b' ↔ ∃ v, r.evaluate b = .ok v ∧ b.insert x v = b' := by
  constructor
  · intro h
    obtain ⟨b₁, hb₁, heq⟩ := bind_eq_ok.1 h
    obtain ⟨v, hv, heq₁⟩ := bind_eq_ok.1 hb₁
    cases heq
    cases heq₁
    exact ⟨v, hv, rfl⟩
  · rintro ⟨v, hv, rfl⟩
    exact bind_eq_ok.2 ⟨b.insert x v, bind_eq_ok.2 ⟨v, hv, rfl⟩, rfl⟩

/-- Restoring gives the eliminated variables the values of what replaced them, if these can be found in the end. -/
theorem restore_eq_undoAll {eliminated : Eliminations} {b : Binding} (hatoms : ∀ e ∈ eliminated, e.2.IsAtom)
    (horder : eliminated.Pairwise fun e e' => e'.2 ≠ .var e.1) (hself : ∀ e ∈ eliminated, e.2 ≠ .var e.1)
    (hvalues : ∀ e ∈ eliminated, ∃ v, e.2.evaluate (Binding.undoAll eliminated b) = .ok v) :
    restore eliminated b = .ok (Binding.undoAll eliminated b) := by
  induction eliminated with
  | nil => rfl
  | cons e eliminated ih =>
    obtain ⟨hfirst, horder'⟩ := List.pairwise_cons.1 horder
    -- what replaced a variable that was eliminated later has the same value without the first variable
    have hrest := ih (fun e' he' => hatoms e' (List.mem_cons_of_mem e he')) horder'
      (fun e' he' => hself e' (List.mem_cons_of_mem e he')) fun e' he' => by
        obtain ⟨v, hv⟩ := hvalues e' (List.mem_cons_of_mem e he')
        have hatom := hatoms e' (List.mem_cons_of_mem e he')
        exact ⟨v, (hatom.evaluate_undo (hfirst e' he') e.2 _).symm.trans hv⟩
    obtain ⟨v, hv⟩ := hvalues e List.mem_cons_self
    have hv' : e.2.evaluate (Binding.undoAll eliminated b) = .ok v :=
      ((hatoms e List.mem_cons_self).evaluate_undo (hself e List.mem_cons_self) e.2 _).symm.trans hv
    have happend := restore_append [e] eliminated b
    rw [List.singleton_append, hrest] at happend
    exact happend.trans (restore_singleton_eq_ok.2 ⟨v, hv', Binding.insert_eq_undo hv'⟩)

end Eliminations

/-! ### Parts of bindings -/

namespace Binding

variable {b c : Binding} {vars : List Variable}

theorem part_below (vars : List Variable) (b : Binding) : (b.part vars).Below b := by
  intro x v hx
  rw [get?_part] at hx
  by_cases hmem : x ∈ vars
  · rwa [if_pos hmem] at hx
  · rw [if_neg hmem] at hx
    cases hx

theorem undo_mono (h : b.Below c) (x : Variable) (r : Inscription) :
    (Binding.undo x r b).Below (Binding.undo x r c) := by
  intro y v hy
  rw [get?_undo] at hy ⊢
  by_cases hyx : y = x
  · rw [if_pos hyx] at hy ⊢
    cases hr : r.evaluate b with
    | error e =>
      rw [hr] at hy
      cases hy
    | ok w =>
      rw [hr] at hy
      rw [Inscription.evaluate_mono h hr]
      exact hy
  · rw [if_neg hyx] at hy ⊢
    exact h y v hy

theorem undoAll_mono (h : b.Below c) (eliminated : Eliminations) :
    (undoAll eliminated b).Below (undoAll eliminated c) := by
  induction eliminated with
  | nil => exact h
  | cons e eliminated ih => exact undo_mono ih e.1 e.2

/-- Putting back values that are there already changes nothing. -/
theorem undoAll_eq_self {eliminated : Eliminations}
    (h : ∀ e ∈ eliminated, ∃ v, b.get? e.1 = some v ∧ e.2.evaluate b = .ok v) : undoAll eliminated b = b := by
  induction eliminated with
  | nil => rfl
  | cons e eliminated ih =>
    obtain ⟨v, hv, hw⟩ := h e List.mem_cons_self
    change Binding.undo e.1 e.2 (undoAll eliminated b) = b
    rw [ih fun e' he' => h e' (List.mem_cons_of_mem e he'), undo_eq_self hv hw]

/-- What a binding of a simplified transition stands for. -/
def original (tr : Transition) (eliminated : Eliminations) (b : Binding) : Binding :=
  (undoAll eliminated b).part tr.inputVariables

end Binding

/-! ### Covered bindings -/

section Covers

variable {tr : Transition} {m : Marking} {b c : Binding}

theorem Inscription.mem_variableList {l : List Inscription} {x : Variable} : x ∈ Inscription.variableList l ↔ .var x ∈ l := by
  unfold Inscription.variableList
  rw [List.mem_filterMap]
  constructor
  · rintro ⟨i, hi, hx⟩
    cases i with
    | var y =>
      cases hx
      exact hi
    | const v => cases hx
    | expr f => cases hx
  · exact fun h => ⟨.var x, h, rfl⟩

theorem Transition.mem_inputVariables_iff {x : Variable} : x ∈ tr.inputVariables ↔ tr.input.Mentions x := by
  rw [Transition.mem_inputVariables]
  exact exists_congr fun p => exists_congr fun l => and_congr_right fun _ => Inscription.mem_variableList

theorem Transition.Covers.contains (h : tr.Covers m b) {x : Variable} (hx : x ∈ tr.inputVariables) :
    b.contains x = true := by
  obtain ⟨p, l, hl, hmem⟩ := Transition.mem_inputVariables_iff.1 hx
  obtain ⟨taken, available, htaken, -⟩ := h p l hl
  obtain ⟨vs, hvs, -⟩ := tokens_eq_ok htaken
  obtain ⟨v, hv⟩ := exists_of_mapM hvs hmem
  rw [FinMap.contains, Binding.value_eq_ok.1 hv]
  rfl

theorem Inscription.tokens_mono {l : List Inscription} (h : b.Below c) {taken : Bag Value}
    (hb : Inscription.tokens b l = .ok taken) : Inscription.tokens c l = .ok taken := by
  obtain ⟨vs, hvs, heq⟩ := bind_eq_ok.1 hb
  refine bind_eq_ok.2 ⟨vs, ?_, heq⟩
  clear heq hb
  induction l generalizing vs with
  | nil => exact hvs
  | cons i l ih =>
    obtain ⟨v, ws, hv, hws, rfl⟩ := mapM_cons_eq_ok.1 hvs
    exact mapM_cons_eq_ok.2 ⟨v, ws, evaluate_mono h hv, ih ws hws, rfl⟩

/-- Only the input variables matter to what is covered, if there are no expressions on the input arcs. -/
theorem Transition.Covers.part (hplain : tr.input.Plain) (h : tr.Covers m b) : tr.Covers m (b.part tr.inputVariables) := by
  intro p l hl
  obtain ⟨taken, available, htaken, hm, hsub⟩ := h p l hl
  refine ⟨taken, available, ?_, hm, hsub⟩
  have hmem : ∀ i ∈ l, i.evaluate (b.part tr.inputVariables) = i.evaluate b := by
    intro i hi
    cases i with
    | var x =>
      refine Binding.value_congr ?_
      rw [Binding.get?_part, if_pos (Transition.mem_inputVariables_iff.2 ⟨p, l, hl, hi⟩)]
    | const v => rfl
    | expr f => exact absurd hi (hplain p l hl f)
  unfold Inscription.tokens at htaken ⊢
  rwa [mapM_congr hmem]

/-- Arcs that come from others cover the same bindings, when the eliminated values are put back. -/
theorem Arcs.ComesFrom.covers_iff {tr' : Transition} {undo : Binding → Binding}
    (h : tr'.input.ComesFrom undo tr.input) : tr'.Covers m b ↔ tr.Covers m (undo b) := by
  have hexists : ∀ {a a' : Arcs} {p : Place} {l : List Inscription}, a.contains p = a'.contains p →
      a'.get? p = some l → ∃ l', a.get? p = some l' := by
    intro a a' p l hp hl
    refine Option.isSome_iff_exists.1 ?_
    unfold FinMap.contains at hp
    rw [hp, hl]
    rfl
  constructor
  · intro hcovers p l hl
    obtain ⟨l', hl'⟩ := hexists (h.places p) hl
    obtain ⟨taken, available, htaken, hm, hsub⟩ := hcovers p l' hl'
    exact ⟨taken, available, (h.tokens p l' l hl' hl b taken).1 htaken, hm, hsub⟩
  · intro hcovers p l' hl'
    obtain ⟨l, hl⟩ := hexists (h.places p).symm hl'
    obtain ⟨taken, available, htaken, hm, hsub⟩ := hcovers p l hl
    exact ⟨taken, available, (h.tokens p l' l hl' hl b taken).2 htaken, hm, hsub⟩

/-- Where the guards settle all covered bindings, those are enabled under which no guard is false. -/
theorem Transition.Settled.enables_iff (h : tr.Settled m) :
    tr.Enables m b ↔ b.Binds tr.inputVariables ∧ tr.Covers m b ∧ ∀ g ∈ tr.guards, g.holds b ≠ .ok false := by
  constructor
  · rintro ⟨hbinds, hcovers, hholds⟩
    refine ⟨hbinds, hcovers, fun g hg hfalse => ?_⟩
    rw [hholds g hg] at hfalse
    cases hfalse
  · rintro ⟨hbinds, hcovers, hnot⟩
    rcases h b hbinds hcovers with hholds | ⟨g, hg, hfalse⟩
    · exact ⟨hbinds, hcovers, hholds⟩
    · exact absurd hfalse (hnot g hg)

end Covers

/-! ### Enabled bindings before and after -/

section Original

variable {tr tr' : Transition} {eliminated : Eliminations} {m : Marking} {B B₁ B₂ : Binding}

namespace Traces

variable (h : Traces tr tr'.input tr'.output tr'.guards eliminated) (hn : tr.Named) (hplain : tr.input.Plain)

include h hn hplain

/-- What an enabled binding stands for is enabled. -/
theorem enables_original (hsettled : tr.Settled m) (hB : tr'.Enables m B) : tr.Enables m (B.original tr eliminated) := by
  have hcovers : tr.Covers m (B.undoAll eliminated) := h.taken.covers_iff.1 hB.covers
  refine hsettled.enables_iff.2 ⟨Binding.binds_part fun x hx => hcovers.contains hx, hcovers.part hplain, ?_⟩
  intro g hg hfalse
  have hfalse' := Guard.holds_eq_false_mono (hn.guards g hg) (Binding.part_below _ _) hfalse
  obtain ⟨g', hg', hfalse''⟩ := (h.false_iff B).2 ⟨g, hg, hfalse'⟩
  rw [hB.holds g' hg'] at hfalse''
  cases hfalse''

/-- All eliminated variables of an enabled binding can be given their values. -/
theorem restore_eq_ok (hsettled : tr.Settled m) (hB : tr'.Enables m B) :
    Eliminations.restore eliminated B = .ok (B.undoAll eliminated) := by
  have horiginal := h.enables_original hn hplain hsettled hB
  obtain ⟨-, hvalues⟩ := h.held _ horiginal.holds
  refine Eliminations.restore_eq_undoAll h.atoms h.order h.self fun e he => ?_
  obtain ⟨v, -, hv⟩ := hvalues e he
  exact ⟨v, evaluate_mono (Binding.part_below _ _) hv⟩

omit hn hplain

/-- Different enabled bindings stand for different ones. -/
theorem original_injective (hB₁ : tr'.Enables m B₁) (hB₂ : tr'.Enables m B₂)
    (heq : B₁.original tr eliminated = B₂.original tr eliminated) : B₁ = B₂ := by
  refine FinMap.ext_get? fun z => ?_
  by_cases hz : z ∈ tr'.inputVariables
  · obtain ⟨x, hx, hget⟩ := h.mentions z (Transition.mem_inputVariables_iff.1 hz)
    have hpart : ∀ b : Binding, (b.original tr eliminated).get? x = b.get? z := by
      intro b
      rw [Binding.original, Binding.get?_part, if_pos (Transition.mem_inputVariables_iff.2 hx), hget]
    rw [← hpart, heq, hpart]
  · rw [hB₁.binds.get?_eq_none hz, hB₂.binds.get?_eq_none hz]

include hplain

/-- Every enabled binding is stood for, by its part at the variables that are left. -/
theorem exists_original (hsettled' : tr'.Settled m) (hB : tr.Enables m B) :
    tr'.Enables m (B.part tr'.inputVariables) ∧ (B.part tr'.inputVariables).original tr eliminated = B := by
  obtain ⟨hheld, hvalues⟩ := h.held B hB.holds
  have hself : B.undoAll eliminated = B := Binding.undoAll_eq_self hvalues
  have hcovers : tr'.Covers m B := by
    rw [h.taken.covers_iff, hself]
    exact hB.covers
  have henables : tr'.Enables m (B.part tr'.inputVariables) := by
    refine hsettled'.enables_iff.2 ⟨Binding.binds_part fun x hx => hcovers.contains hx,
      hcovers.part (h.plain hplain), fun g hg hfalse => ?_⟩
    have hnamed := h.named_guards g hg
    exact (hheld g hg).not_false hnamed (Guard.holds_eq_false_mono hnamed (Binding.part_below _ _) hfalse)
  refine ⟨henables, FinMap.ext_get? fun x => ?_⟩
  rw [Binding.original, Binding.get?_part]
  by_cases hx : x ∈ tr.inputVariables
  · have hbound := (h.taken.covers_iff.1 henables.covers).contains hx
    obtain ⟨v, hv⟩ := Option.isSome_iff_exists.1 hbound
    have hbelow := Binding.undoAll_mono (Binding.part_below tr'.inputVariables B) eliminated x v hv
    rw [hself] at hbelow
    rw [if_pos hx, hv, hbelow]
  · rw [if_neg hx, hB.binds.get?_eq_none hx]

end Traces

end Original

end TokenNet
