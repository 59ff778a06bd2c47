import TokenNet.Proofs.Enabling.Bindings
import TokenNet.Proofs.Substitution
import TokenNet.Simplified

/-!
# Guards and arcs under substitution

A substituted guard is false where the guard is false with the value put back, `Guard.holds_substitute_eq_false`, and a
guard that is held stays so when a variable is replaced by what has its value, `Guard.Held.substitute`.  Substituted arcs
denote the tokens that the arcs denote with the value put back: `Arcs.ComesFrom.substitute`.
-/

namespace TokenNet

/-! ### Guards -/

namespace Guard

/-- The variables on both sides are identifiers. -/
def Named (g : Guard) : Prop := g.left.Named ∧ g.right.Named

instance (g : Guard) : Decidable g.Named := inferInstanceAs (Decidable (g.left.Named ∧ g.right.Named))

/-- Both sides have the same value, or they are the same tree. -/
def Held (g : Guard) (b : Binding) : Prop :=
  (∃ v, g.left.evaluate b = .ok v ∧ g.right.evaluate b = .ok v) ∨ g.left.toExpr = g.right.toExpr

def flip (g : Guard) : Guard := ⟨g.right, g.left⟩

variable {g g' : Guard} {b c : Binding} {x : Variable} {r : Inscription}

/-- A guard is false if and only if its sides have different values. -/
theorem holds_eq_false_iff (hg : g.Named) : g.holds b = .ok false ↔
    ∃ v w, g.left.evaluate b = .ok v ∧ g.right.evaluate b = .ok w ∧ v ≠ w := by
  have hvalues : (do
      let v ← g.left.evaluate b
      let w ← g.right.evaluate b
      return decide (v = w) : Except EvaluationError Bool) = .ok false ↔
      ∃ v w, g.left.evaluate b = .ok v ∧ g.right.evaluate b = .ok w ∧ v ≠ w := by
    rw [bind_eq_ok]
    constructor
    · rintro ⟨v, hv, h⟩
      obtain ⟨w, hw, h⟩ := bind_eq_ok.1 h
      exact ⟨v, w, hv, hw, by simpa [pure, Except.pure] using h⟩
    · rintro ⟨v, w, hv, hw, hne⟩
      exact ⟨v, hv, bind_eq_ok.2 ⟨w, hw, by simp [pure, Except.pure, hne]⟩⟩
  unfold holds
  by_cases htext : g.left.text = g.right.text
  · rw [if_pos htext]
    constructor
    · intro h
      cases h
    · rintro ⟨v, w, hv, hw, hne⟩
      -- sides with the same text cannot have different values
      rw [Inscription.evaluate_eq hg.1, Inscription.toExpr_congr hg.1 hg.2 htext, ← Inscription.evaluate_eq hg.2, hw] at hv
      cases hv
      exact absurd rfl hne
  · rw [if_neg htext]
    exact hvalues

theorem held_of_holds (hg : g.Named) (h : g.holds b = .ok true) : g.Held b := by
  unfold holds at h
  by_cases htext : g.left.text = g.right.text
  · exact .inr (Inscription.toExpr_congr hg.1 hg.2 htext)
  · rw [if_neg htext] at h
    obtain ⟨v, hv, h⟩ := bind_eq_ok.1 h
    obtain ⟨w, hw, h⟩ := bind_eq_ok.1 h
    have hvw : v = w := by simpa [pure, Except.pure] using h
    exact .inl ⟨v, hv, by rw [hw, hvw]⟩

theorem Held.not_false (hg : g.Named) (h : g.Held b) : g.holds b ≠ .ok false := by
  intro hfalse
  obtain ⟨v, w, hv, hw, hne⟩ := (holds_eq_false_iff hg).1 hfalse
  rcases h with ⟨u, hu, hu'⟩ | hexpr
  · rw [hv] at hu
    rw [hw] at hu'
    cases hu
    cases hu'
    exact hne rfl
  · rw [Inscription.evaluate_eq hg.1, hexpr, ← Inscription.evaluate_eq hg.2, hw] at hv
    cases hv
    exact hne rfl

theorem holds_eq_false_mono (hg : g.Named) (hbc : b.Below c) (h : g.holds b = .ok false) : g.holds c = .ok false := by
  obtain ⟨v, w, hv, hw, hne⟩ := (holds_eq_false_iff hg).1 h
  exact (holds_eq_false_iff hg).2 ⟨v, w, Inscription.evaluate_mono hbc hv, Inscription.evaluate_mono hbc hw, hne⟩

theorem Named.flip (hg : g.Named) : g.flip.Named := ⟨hg.2, hg.1⟩

theorem holds_flip_eq_false (hg : g.Named) : g.flip.holds b = .ok false ↔ g.holds b = .ok false := by
  rw [holds_eq_false_iff hg, holds_eq_false_iff hg.flip]
  constructor
  · rintro ⟨v, w, hv, hw, hne⟩
    exact ⟨w, v, hw, hv, hne.symm⟩
  · rintro ⟨v, w, hv, hw, hne⟩
    exact ⟨w, v, hw, hv, hne.symm⟩

theorem Held.flip (h : g.Held b) : g.flip.Held b := by
  rcases h with ⟨v, hv, hw⟩ | hexpr
  · exact .inl ⟨v, hw, hv⟩
  · exact .inr hexpr.symm

theorem substitute_eq_ok : g.substitute x r = .ok g' ↔
    g.left.substitute x r = .ok g'.left ∧ g.right.substitute x r = .ok g'.right := by
  unfold substitute
  rw [bind_eq_ok]
  constructor
  · rintro ⟨l, hl, h⟩
    obtain ⟨r', hr, h⟩ := bind_eq_ok.1 h
    cases h
    exact ⟨hl, hr⟩
  · rintro ⟨hl, hr⟩
    exact ⟨g'.left, hl, bind_eq_ok.2 ⟨g'.right, hr, rfl⟩⟩

theorem Named.substitute (hg : g.Named) (hr : r.Named) (h : g.substitute x r = .ok g') : g'.Named := by
  obtain ⟨hleft, hright⟩ := substitute_eq_ok.1 h
  exact ⟨hg.1.substitute hr hleft, hg.2.substitute hr hright⟩

/-- A substituted guard is false where the guard is false with the value put back. -/
theorem holds_substitute_eq_false (hg : g.Named) (hr : r.Named) {er : Expr} (her : r.toExpr = .ok er)
    (h : g.substitute x r = .ok g') : g'.holds b = .ok false ↔ g.holds (Binding.undo x r b) = .ok false := by
  obtain ⟨hleft, hright⟩ := substitute_eq_ok.1 h
  have hg' := hg.substitute hr h
  have hl := Inscription.evaluate_substitute hg.1 hg'.1 hr her hleft b
  have hw := Inscription.evaluate_substitute hg.2 hg'.2 hr her hright b
  rw [holds_eq_false_iff hg, holds_eq_false_iff hg']
  refine exists_congr fun v => exists_congr fun w => ?_
  rw [hl v, hw w]

/-- A guard that is held stays so when a variable is replaced by what has its value. -/
theorem Held.substitute (hg : g.Named) (hr : r.Named) {er : Expr} (her : r.toExpr = .ok er)
    (h : g.substitute x r = .ok g') (hheld : g.Held b) (hundo : Binding.undo x r b = b) : g'.Held b := by
  obtain ⟨hleft, hright⟩ := substitute_eq_ok.1 h
  have hg' := hg.substitute hr h
  rcases hheld with ⟨v, hv, hw⟩ | hexpr
  · have hl := Inscription.evaluate_substitute hg.1 hg'.1 hr her hleft b
    have hr' := Inscription.evaluate_substitute hg.2 hg'.2 hr her hright b
    rw [hundo] at hl hr'
    exact .inl ⟨v, (hl v).2 hv, (hr' v).2 hw⟩
  · obtain ⟨e, he, he'⟩ := Inscription.toExpr_substitute hg.1 her hleft
    obtain ⟨e₂, he₂, he₂'⟩ := Inscription.toExpr_substitute hg.2 her hright
    rw [he, he₂] at hexpr
    cases hexpr
    exact .inr (he'.trans he₂'.symm)

end Guard

/-! ### Arcs -/

namespace Inscription

variable {i r : Inscription} {x : Variable}

/-- Where an atom replaces a variable, no expression comes out that was not there. -/
theorem not_mem_of_substitute_eq_expr {f : Formula} {l : List Inscription} (hr : ∀ f, r ≠ .expr f) (hl : NoExpr l)
    (h : i.substitute x r = .ok (.expr f)) : i ∉ l := by
  obtain ⟨f', rfl, -⟩ := eq_expr_of_substitute hr h
  exact hl f'

end Inscription

namespace Arcs

/-- A variable stands alone on an arc. -/
def Mentions (arcs : Arcs) (x : Variable) : Prop := ∃ p l, arcs.get? p = some l ∧ .var x ∈ l

/-- The arcs have the same places, and denote the same tokens if `undo` is applied to the binding first. -/
structure ComesFrom (undo : Binding → Binding) (arcs original : Arcs) : Prop where
  places : ∀ p, arcs.contains p = original.contains p
  tokens : ∀ p l l', arcs.get? p = some l → original.get? p = some l' →
    ∀ b, Alike (Inscription.tokens b l) (Inscription.tokens (undo b) l')

def Named (arcs : Arcs) : Prop := ∀ p l, arcs.get? p = some l → ∀ i ∈ l, i.Named

instance (arcs : Arcs) : Decidable arcs.Named :=
  decidable_of_iff (∀ e ∈ arcs.entries, ∀ i ∈ e.2, i.Named) 
    (FinMap.forall_mem_entries (P := fun _ (l : List Inscription) => ∀ i ∈ l, i.Named))

/-- There are no expressions on the arcs. -/
def Plain (arcs : Arcs) : Prop := ∀ p l, arcs.get? p = some l → Inscription.NoExpr l

variable {arcs arcs' original : Arcs} {undo : Binding → Binding} {x : Variable} {r : Inscription}

theorem get?_substitute (h : Arcs.substitute arcs x r = .ok arcs') (p : Place) :
    (arcs'.get? p = none ∧ arcs.get? p = none) ∨
      ∃ l l', arcs.get? p = some l ∧ arcs'.get? p = some l' ∧ l.mapM (·.substitute x r) = .ok l' := by
  obtain ⟨hkeys, hentries⟩ := FinMap.traverse_eq_ok.1 h
  cases hl : arcs.get? p with
  | none =>
    have hnone := hkeys p
    rw [hl] at hnone
    exact .inl ⟨by simpa using hnone, rfl⟩
  | some l =>
    obtain ⟨l', hl', hget⟩ := hentries p l hl
    exact .inr ⟨l, l', rfl, hget, hl'⟩

/-- Where an atom replaces a variable, arcs without expressions stay so. -/
theorem Plain.substitute (ha : arcs.Plain) (hr : ∀ f, r ≠ .expr f) (h : Arcs.substitute arcs x r = .ok arcs') :
    arcs'.Plain := by
  intro p l' hl' f hf
  rcases get?_substitute h p with ⟨hnone, -⟩ | ⟨l, l'', hl, hl'', hmap⟩
  · rw [hnone] at hl'
    cases hl'
  · rw [hl''] at hl'
    cases hl'
    obtain ⟨i, hi, hsubst⟩ := (mem_of_mapM hmap).1 hf
    exact absurd hi (Inscription.not_mem_of_substitute_eq_expr hr (ha p l hl) hsubst)

theorem Named.substitute (ha : arcs.Named) (hr : r.Named) (h : Arcs.substitute arcs x r = .ok arcs') : arcs'.Named := by
  intro p l' hl' i' hi'
  rcases get?_substitute h p with ⟨hnone, -⟩ | ⟨l, l'', hl, hl'', hmap⟩
  · rw [hnone] at hl'
    cases hl'
  · rw [hl''] at hl'
    cases hl'
    obtain ⟨i, hi, hsubst⟩ := (mem_of_mapM hmap).1 hi'
    exact (ha p l hl i hi).substitute hr hsubst

theorem ComesFrom.substitute (ha : arcs.Named) (hr : r.Named) {er : Expr} (her : r.toExpr = .ok er)
    (h : arcs.ComesFrom undo original) (hsubst : Arcs.substitute arcs x r = .ok arcs') :
    arcs'.ComesFrom (fun b => undo (Binding.undo x r b)) original := by
  refine ⟨fun p => ?_, fun p l' l₀ hl' hl₀ b => ?_⟩
  · rw [← h.places]
    unfold FinMap.contains
    rcases get?_substitute hsubst p with ⟨hnone, hnone'⟩ | ⟨l, l', hl, hl', -⟩
    · rw [hnone, hnone']
    · rw [hl, hl']
      rfl
  · rcases get?_substitute hsubst p with ⟨hnone, -⟩ | ⟨l, l'', hl, hl'', hmap⟩
    · rw [hnone] at hl'
      cases hl'
    · rw [hl''] at hl'
      cases hl'
      have halike : Alike (Inscription.tokens b l') (Inscription.tokens (Binding.undo x r b) l) := by
        have hvalues : Alike (l'.mapM (Inscription.evaluate b)) (l.mapM (Inscription.evaluate (Binding.undo x r b))) := by
          intro vs
          refine mapM_of_mapM hmap fun i hi i' hi' => ?_
          have hi₀ := ha p l hl i hi
          exact Inscription.evaluate_substitute hi₀ (hi₀.substitute hr hi') hr her hi' b
        exact hvalues.bind fun vs => .refl _
      exact halike.trans (h.tokens p l l₀ hl hl₀ _)

/-- A variable that a substitution leaves on an arc stood there before, or took the place of the replaced one. -/
theorem Mentions.of_substitute (h : Arcs.substitute arcs x r = .ok arcs') {z : Variable} (hz : arcs'.Mentions z) :
    ∃ y, arcs.Mentions y ∧ ∀ b : Binding, b.get? z = (Binding.undo x r b).get? y := by
  obtain ⟨p, l', hl', hmem⟩ := hz
  rcases get?_substitute h p with ⟨hnone, -⟩ | ⟨l, l'', hl, hl'', hmap⟩
  · rw [hnone] at hl'
    cases hl'
  · rw [hl''] at hl'
    cases hl'
    obtain ⟨i, hi, hsubst⟩ := (mem_of_mapM hmap).1 hmem
    rcases Inscription.eq_var_of_substitute hsubst with ⟨rfl, rfl⟩ | ⟨rfl, hne⟩
    · refine ⟨x, ⟨p, l, hl, hi⟩, fun b => ?_⟩
      rw [Binding.get?_undo, if_pos rfl]
      cases hb : b.get? z with
      | none => simp [Inscription.evaluate, Binding.value, hb, Except.toOption]
      | some v => simp [Inscription.evaluate, Binding.value, hb, Except.toOption]
    · refine ⟨z, ⟨p, l, hl, hi⟩, fun b => ?_⟩
      rw [Binding.get?_undo, if_neg hne]

end Arcs

end TokenNet
