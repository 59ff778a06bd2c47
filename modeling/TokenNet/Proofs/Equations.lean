import TokenNet.Proofs.SimplifiedNets

/-!
# The equations among the guards

A guard that equates a variable with a variable or a constant is an equation.  Simplification solves the equations of a
transition: whatever values variables and constants are given, they satisfy the equations if and only if they satisfy those
that are left and every eliminated variable has the value of what replaced it, `Solves.satisfied_iff`.

So the restored bindings satisfy the equations.  But not every binding can be restored.  A variable may be equated with
others that are on no input arc either, and then nothing tells its value: `Session.Reaches.restore_iff_determined` says that a
binding can be restored if and only if this does not happen, `Transition.Determined`.
-/

namespace TokenNet

open Diagram Store

/-! ### Satisfied equations -/

section Satisfied

variable {γ : Type} {φ : Inscription → γ} {g g' : Guard} {i i' r : Inscription} {x : Variable}

/-- Both sides are variables or constants. -/
def Guard.IsAtomic (g : Guard) : Prop := g.left.IsAtom ∧ g.right.IsAtom

/-- An equation between a variable and a variable or a constant. -/
def Guard.IsEquation (g : Guard) : Prop := g.IsAtomic ∧ ∃ x, g.left = .var x ∨ g.right = .var x

/-- The values of both sides are the same, if they are variables or constants. -/
def Guard.Satisfied (φ : Inscription → γ) (g : Guard) : Prop := g.IsAtomic → φ g.left = φ g.right

theorem Inscription.isAtom_var (x : Variable) : (Inscription.var x).IsAtom := fun _ h => by cases h

theorem Inscription.isAtom_const (v : Value) : (Inscription.const v).IsAtom := fun _ h => by cases h

theorem Guard.satisfied_flip : g.flip.Satisfied φ ↔ g.Satisfied φ :=
  ⟨fun h hg => (h ⟨hg.2, hg.1⟩).symm, fun h hg => (h ⟨hg.2, hg.1⟩).symm⟩

theorem Transition.value_eq_of_guard {tr : Transition} {i j : Inscription} (hsat : ∀ g ∈ tr.guards, g.Satisfied φ)
    (hi : i.IsAtom) (hj : j.IsAtom) (hg : ⟨i, j⟩ ∈ tr.guards ∨ ⟨j, i⟩ ∈ tr.guards) : φ i = φ j := by
  rcases hg with hg | hg
  · exact hsat ⟨i, j⟩ hg ⟨hi, hj⟩
  · exact (hsat ⟨j, i⟩ hg ⟨hj, hi⟩).symm

/-- Where an atom replaces a variable, atoms become atoms, and nothing else does. -/
theorem Inscription.isAtom_substitute (hr : r.IsAtom) (h : i.substitute x r = .ok i') : i'.IsAtom ↔ i.IsAtom := by
  cases i with
  | var y =>
    have hi' : (if y = x then r else var y) = i' := Except.ok.inj h
    by_cases hy : y = x
    · rw [if_pos hy] at hi'
      rw [← hi']
      exact ⟨fun _ => isAtom_var y, fun _ => hr⟩
    · rw [if_neg hy] at hi'
      rw [← hi']
  | const v =>
    cases h
    exact Iff.rfl
  | expr f =>
    obtain ⟨f', -, hi'⟩ := bind_eq_ok.1 h
    cases hi'
    exact ⟨fun hatom => absurd rfl (hatom f'), fun hatom => absurd rfl (hatom f)⟩

/-- A variable may be replaced by what has its value. -/
theorem Inscription.value_substitute (hx : φ (.var x) = φ r) (hi : i.IsAtom) (h : i.substitute x r = .ok i') :
    φ i' = φ i := by
  cases i with
  | var y =>
    have hi' : (if y = x then r else var y) = i' := Except.ok.inj h
    by_cases hy : y = x
    · rw [if_pos hy] at hi'
      rw [← hi', hy, hx]
    · rw [if_neg hy] at hi'
      rw [← hi']
  | const v =>
    cases h
    rfl
  | expr f => exact absurd rfl (hi f)

theorem Guard.satisfied_substitute (hr : r.IsAtom) (hx : φ (.var x) = φ r) (h : g.substitute x r = .ok g') :
    g'.Satisfied φ ↔ g.Satisfied φ := by
  obtain ⟨hleft, hright⟩ := Guard.substitute_eq_ok.1 h
  have hatomic : g'.IsAtomic ↔ g.IsAtomic :=
    and_congr (Inscription.isAtom_substitute hr hleft) (Inscription.isAtom_substitute hr hright)
  constructor
  · intro hsat hg
    have heq := hsat (hatomic.2 hg)
    rwa [Inscription.value_substitute hx hg.1 hleft, Inscription.value_substitute hx hg.2 hright] at heq
  · intro hsat hg'
    have hg := hatomic.1 hg'
    rw [Inscription.value_substitute hx hg.1 hleft, Inscription.value_substitute hx hg.2 hright]
    exact hsat hg

/-- A guard holds if both sides have the same value. -/
theorem Guard.holds_of_evaluate {b : Binding} {v : Value} (hleft : g.left.evaluate b = .ok v)
    (hright : g.right.evaluate b = .ok v) : g.holds b = .ok true := by
  unfold holds
  by_cases htext : g.left.text = g.right.text
  · exact if_pos htext
  · rw [if_neg htext, hleft, hright]
    exact congrArg Except.ok (decide_eq_true rfl)

end Satisfied

/-! ### Solving the equations -/

/-- A variable that has not been eliminated yet comes to the eliminated ones. -/
theorem Eliminations.nodup_concat {eliminated : Eliminations} {x : Variable} {r : Inscription}
    (h : (eliminated.map Prod.fst).Nodup) (hx : ∀ e ∈ eliminated, e.1 ≠ x) :
    ((eliminated ++ [(x, r)]).map Prod.fst).Nodup := by
  rw [List.map_append, List.map_singleton]
  refine List.nodup_append.2 ⟨h, List.pairwise_singleton _ x, fun y hy z hz => ?_⟩
  obtain ⟨e, he, rfl⟩ := List.mem_map.1 hy
  rw [List.mem_singleton.1 hz]
  exact hx e he

/-- The equations of the transition are solved by the eliminations, up to those among the guards that are left. -/
structure Solves (tr : Transition) (input output : Arcs) (guards : List Guard) (eliminated : Eliminations) : Prop extends
    Traces tr input output guards eliminated where
  satisfied_iff : ∀ {γ : Type} (φ : Inscription → γ), (∀ g ∈ tr.guards, g.Satisfied φ) ↔
    (∀ g ∈ guards, g.Satisfied φ) ∧ ∀ e ∈ eliminated, φ (.var e.1) = φ e.2
  sources : ∀ {γ : Type} (φ : Inscription → γ), (∀ g ∈ tr.guards, g.Satisfied φ) → ∀ z, input.Mentions z →
    ∃ x, tr.input.Mentions x ∧ φ (.var z) = φ (.var x)
  nodup : (eliminated.map Prod.fst).Nodup

namespace Solves

variable {tr : Transition} {input output input' output' : Arcs} {guards guards' : List Guard} {eliminated : Eliminations}

theorem ofTransition (h : tr.Named) : Solves tr tr.input tr.output tr.guards [] where
  toTraces := Traces.ofTransition h
  satisfied_iff φ := by simp
  sources φ _ z hz := ⟨z, hz, rfl⟩
  nodup := List.nodup_nil

theorem congr (h : Solves tr input output guards eliminated) (hto : ∀ g ∈ guards, g ∈ guards' ∨ g.flip ∈ guards')
    (hfrom : ∀ g ∈ guards', g ∈ guards ∨ g.flip ∈ guards) : Solves tr input output guards' eliminated := by
  refine { h with toTraces := h.toTraces.congr hto hfrom, satisfied_iff := fun φ => ?_ }
  rw [h.satisfied_iff]
  refine and_congr_left fun _ => ⟨fun hsat g hg => ?_, fun hsat g hg => ?_⟩
  · rcases hfrom g hg with hg | hg
    · exact hsat g hg
    · exact Guard.satisfied_flip.1 (hsat g.flip hg)
  · rcases hto g hg with hg | hg
    · exact hsat g hg
    · exact Guard.satisfied_flip.1 (hsat g.flip hg)

theorem drop {x : Variable} (h : Solves tr input output (⟨.var x, .var x⟩ :: guards) eliminated) :
    Solves tr input output guards eliminated := by
  refine { h with toTraces := h.toTraces.drop, satisfied_iff := fun φ => ?_ }
  have htrivial : Guard.Satisfied φ ⟨.var x, .var x⟩ := fun _ => rfl
  rw [h.satisfied_iff, List.forall_mem_cons]
  exact and_congr_left fun _ => and_iff_right htrivial

/-- Eliminating a variable by an equation for it keeps the solutions: under the equation, the other guards are satisfied
before if and only if they are afterwards. -/
theorem eliminate {x : Variable} {r : Inscription} (h : Solves tr input output (⟨.var x, r⟩ :: guards) eliminated)
    (hr : r.IsAtom) (hx : r ≠ .var x) (hinput : Arcs.substitute input x r = .ok input')
    (houtput : Arcs.substitute output x r = .ok output') (hguards : guards.mapM (·.substitute x r) = .ok guards') :
    Solves tr input' output' guards' (eliminated ++ [(x, r)]) where
  toTraces := h.toTraces.eliminate hr hx hinput houtput hguards
  satisfied_iff φ := by
    have hhead : Guard.Satisfied φ ⟨.var x, r⟩ ↔ φ (.var x) = φ r := ⟨fun hsat => hsat ⟨Inscription.isAtom_var x, hr⟩, fun heq _ => heq⟩
    -- under the equation, replacing the variable changes no value
    have hothers : φ (.var x) = φ r → ((∀ g' ∈ guards', g'.Satisfied φ) ↔ ∀ g ∈ guards, g.Satisfied φ) := by
      intro hxr
      constructor
      · intro hsat g hg
        obtain ⟨g', hsubst⟩ := exists_of_mapM hguards hg
        exact (Guard.satisfied_substitute hr hxr hsubst).1 (hsat g' ((mem_of_mapM hguards).2 ⟨g, hg, hsubst⟩))
      · intro hsat g' hg'
        obtain ⟨g, hg, hsubst⟩ := (mem_of_mapM hguards).1 hg'
        exact (Guard.satisfied_substitute hr hxr hsubst).2 (hsat g hg)
    rw [h.satisfied_iff, List.forall_mem_cons, hhead, List.forall_mem_append, List.forall_mem_singleton]
    constructor
    · rintro ⟨⟨hxr, hsat⟩, heliminated⟩
      exact ⟨(hothers hxr).2 hsat, heliminated, hxr⟩
    · rintro ⟨hsat, heliminated, hxr⟩
      exact ⟨⟨hxr, (hothers hxr).1 hsat⟩, heliminated⟩
  sources φ hsat z hz := by
    have hxr : φ (.var x) = φ r := ((h.satisfied_iff φ).1 hsat).1 _ List.mem_cons_self ⟨Inscription.isAtom_var x, hr⟩
    obtain ⟨y, hy, hzy⟩ : ∃ y, input.Mentions y ∧ φ (.var z) = φ (.var y) := by
      obtain ⟨p, l', hl', hmem⟩ := hz
      rcases Arcs.get?_substitute hinput p with ⟨hnone, -⟩ | ⟨l, l'', hl, hl'', hmap⟩
      · rw [hnone] at hl'
        cases hl'
      · rw [hl''] at hl'
        cases hl'
        obtain ⟨i, hi, hsubst⟩ := (mem_of_mapM hmap).1 hmem
        rcases Inscription.eq_var_of_substitute hsubst with ⟨rfl, rfl⟩ | ⟨rfl, -⟩
        · exact ⟨x, ⟨p, l, hl, hi⟩, hxr.symm⟩
        · exact ⟨z, ⟨p, l, hl, hi⟩, rfl⟩
    obtain ⟨x₀, hx₀, hyx⟩ := h.sources φ hsat y hy
    exact ⟨x₀, hx₀, hzy.trans hyx⟩
  nodup := Eliminations.nodup_concat h.nodup fun e he heq => (h.gone e he _ List.mem_cons_self).1 (by rw [heq])

end Solves

theorem Transition.solves_of_simplify {t : TransitionName} {tr tr' : Transition} {eliminated : Eliminations}
    (hn : tr.Named) (h : tr.simplify t = .ok (tr', eliminated)) :
    Solves tr tr'.input tr'.output tr'.guards eliminated := by
  have hI : Propagation.Invariant (Solves tr) := ⟨Solves.congr, Solves.drop, Solves.eliminate⟩
  exact hI.simplify (Solves.ofTransition hn) h

/-! ### Values -/

/-- The value of an inscription under a binding, if it has one. -/
def Binding.valueOf (b : Binding) (i : Inscription) : Option Value := (i.evaluate b).toOption

section Values

variable {b b' : Binding} {eliminated : Eliminations} {i : Inscription} {x : Variable}

theorem Binding.valueOf_eq_some {v : Value} : b.valueOf i = some v ↔ i.evaluate b = .ok v := by
  unfold valueOf
  cases i.evaluate b with
  | error e => simp [Except.toOption]
  | ok w => simp [Except.toOption]

theorem Binding.valueOf_var : b.valueOf (.var x) = b.get? x := by
  refine Option.ext fun v => ?_
  rw [valueOf_eq_some]
  exact Binding.value_eq_ok

/-- Putting values back does not change the value of a variable that was not eliminated. -/
theorem Binding.get?_undoAll (hx : ∀ e ∈ eliminated, e.1 ≠ x) : (undoAll eliminated b).get? x = b.get? x := by
  induction eliminated with
  | nil => rfl
  | cons e eliminated ih =>
    obtain ⟨hne, hx'⟩ := List.forall_mem_cons.1 hx
    change (undo e.1 e.2 (undoAll eliminated b)).get? x = b.get? x
    rw [get?_undo, if_neg hne.symm, ih hx']

theorem Binding.valueOf_undoAll (hi : i.IsAtom) (hgone : ∀ e ∈ eliminated, i ≠ .var e.1) :
    (undoAll eliminated b).valueOf i = b.valueOf i := by
  cases i with
  | var x =>
    rw [valueOf_var, valueOf_var]
    exact get?_undoAll fun e he heq => hgone e he (by rw [heq])
  | const v => rfl
  | expr f => exact absurd rfl (hi f)

/-- A property of the bound variables that goes from what replaced a variable to the variable is kept. -/
theorem Binding.forall_contains_undoAll {D : Variable → Prop} (hatoms : ∀ e ∈ eliminated, e.2.IsAtom)
    (hb : ∀ x, b.contains x = true → D x) (hD : ∀ e ∈ eliminated, (∀ y, e.2 = .var y → D y) → D e.1) :
    ∀ x, (undoAll eliminated b).contains x = true → D x := by
  induction eliminated with
  | nil => exact hb
  | cons e eliminated ih =>
    obtain ⟨hatom, hatoms'⟩ := List.forall_mem_cons.1 hatoms
    obtain ⟨hfirst, hrest⟩ := List.forall_mem_cons.1 hD
    have ih' := ih hatoms' hrest
    intro x hx
    change ((undo e.1 e.2 (undoAll eliminated b)).get? x).isSome = true at hx
    rw [get?_undo] at hx
    by_cases hxe : x = e.1
    · rw [if_pos hxe] at hx
      rw [hxe]
      refine hfirst fun y hy => ih' y ?_
      rw [hy] at hx
      unfold FinMap.contains
      rw [← valueOf_var]
      exact hx
    · rw [if_neg hxe] at hx
      exact ih' x hx

/-- Every eliminated variable gets the value of what replaced it. -/
theorem Binding.valueOf_eliminated (hatoms : ∀ e ∈ eliminated, e.2.IsAtom)
    (horder : eliminated.Pairwise fun e e' => e'.2 ≠ .var e.1) (hself : ∀ e ∈ eliminated, e.2 ≠ .var e.1)
    (hnodup : (eliminated.map Prod.fst).Nodup) :
    ∀ e ∈ eliminated, (undoAll eliminated b).valueOf (.var e.1) = (undoAll eliminated b).valueOf e.2 := by
  induction eliminated with
  | nil => exact fun e he => absurd he List.not_mem_nil
  | cons e eliminated ih =>
    obtain ⟨hatom, hatoms'⟩ := List.forall_mem_cons.1 hatoms
    obtain ⟨hlater, horder'⟩ := List.pairwise_cons.1 horder
    obtain ⟨hne, hself'⟩ := List.forall_mem_cons.1 hself
    obtain ⟨hnot, hnodup'⟩ := List.nodup_cons.1 hnodup
    have hundo : undoAll (e :: eliminated) b = undo e.1 e.2 (undoAll eliminated b) := rfl
    refine List.forall_mem_cons.2 ⟨?_, fun e' he' => ?_⟩
    · rw [hundo, valueOf_var, get?_undo, if_pos rfl, valueOf, hatom.evaluate_undo hne]
    · have hfirst : e'.1 ≠ e.1 := fun heq => hnot (List.mem_map.2 ⟨e', he', heq⟩)
      have hrest := ih hatoms' horder' hself' hnodup' e' he'
      rw [hundo, valueOf_var, get?_undo, if_neg hfirst, ← valueOf_var, hrest]
      exact congrArg Except.toOption ((hatoms' e' he').evaluate_undo (hlater e' he') e.2 _).symm

/-- A binding is restored if every eliminated variable gets a value. -/
theorem Eliminations.restore_eq_ok_iff (hatoms : ∀ e ∈ eliminated, e.2.IsAtom)
    (horder : eliminated.Pairwise fun e e' => e'.2 ≠ .var e.1) (hself : ∀ e ∈ eliminated, e.2 ≠ .var e.1)
    (hnodup : (eliminated.map Prod.fst).Nodup) : Eliminations.restore eliminated b = .ok b' ↔
      b' = b.undoAll eliminated ∧ ∀ e ∈ eliminated, (b.undoAll eliminated).contains e.1 = true := by
  constructor
  · intro h
    clear hatoms horder hself hnodup
    induction eliminated generalizing b' with
    | nil =>
      cases h
      exact ⟨rfl, fun e he => absurd he List.not_mem_nil⟩
    | cons e eliminated ih =>
      have happend := restore_append [e] eliminated b
      rw [List.singleton_append, h] at happend
      obtain ⟨b₁, hb₁, hlast⟩ := bind_eq_ok.1 happend.symm
      obtain ⟨rfl, hcontains⟩ := ih hb₁
      obtain ⟨v, hv, hinsert⟩ := restore_singleton_eq_ok.1 hlast
      refine ⟨hinsert.symm.trans (Binding.insert_eq_undo hv), fun e' he' => ?_⟩
      change ((Binding.undo e.1 e.2 (b.undoAll eliminated)).get? e'.1).isSome = true
      rw [Binding.get?_undo]
      by_cases hfirst : e'.1 = e.1
      · rw [if_pos hfirst, hv]
        rfl
      · rw [if_neg hfirst]
        exact hcontains e' ((List.mem_cons.1 he').resolve_left fun heq => hfirst (by rw [heq]))
  · rintro ⟨rfl, hcontains⟩
    refine restore_eq_undoAll hatoms horder hself fun e he => ?_
    obtain ⟨v, hv⟩ := Option.isSome_iff_exists.1 (hcontains e he)
    refine ⟨v, Binding.valueOf_eq_some.1 ?_⟩
    rw [← Binding.valueOf_eliminated hatoms horder hself hnodup e he, Binding.valueOf_var]
    exact hv

end Values

/-! ### Determined variables -/

/-- The value of the variable is determined by the tokens, by a constant, or by a variable that a guard equates with it. -/
inductive Transition.Determined (tr : Transition) : Variable → Prop where
  | input (x : Variable) (hx : x ∈ tr.inputVariables) : Determined tr x
  | const (x : Variable) (v : Value) (hg : ⟨.var x, .const v⟩ ∈ tr.guards ∨ ⟨.const v, .var x⟩ ∈ tr.guards) :
      Determined tr x
  | equal (x y : Variable) (hg : ⟨.var x, .var y⟩ ∈ tr.guards ∨ ⟨.var y, .var x⟩ ∈ tr.guards) (hy : Determined tr y) :
      Determined tr x

/-- Variables for which `D` does not hold stand for themselves; the others and the constants are not told apart. -/
noncomputable def Inscription.undetermined (D : Variable → Prop) : Inscription → Option Variable
  | .var x => open scoped Classical in if D x then none else some x
  | _ => none

/-- Whether the value of a variable or a constant is determined. -/
def Transition.determination (tr : Transition) : Inscription → Prop
  | .var x => tr.Determined x
  | _ => True

section Determined

variable {tr : Transition} {D : Variable → Prop} {x y : Variable} {i : Inscription}

theorem Inscription.undetermined_eq_none (h : ∀ x, i = .var x → D x) : i.undetermined D = none := by
  cases i with
  | var x => exact if_pos (h x rfl)
  | const v => rfl
  | expr f => rfl

theorem Inscription.eq_var_of_undetermined (hx : ¬ D x) (h : (Inscription.var x).undetermined D = i.undetermined D) :
    i = .var x := by
  have hself : (Inscription.var x).undetermined D = some x := if_neg hx
  rw [hself] at h
  cases i with
  | var y =>
    by_cases hy : D y
    · rw [undetermined_eq_none fun z hz => by cases hz; exact hy] at h
      cases h
    · have hother : (Inscription.var y).undetermined D = some y := if_neg hy
      rw [hother] at h
      cases h
      rfl
  | const v => cases h
  | expr f => cases h

/-- Of two equal variables, both are determined or none is. -/
theorem Transition.satisfied_determination : ∀ g ∈ tr.guards, g.Satisfied tr.determination := by
  rintro ⟨l, r⟩ hg ⟨hl, hr⟩
  cases l with
  | var x =>
    cases r with
    | var y => exact propext ⟨.equal _ _ (.inr hg), .equal _ _ (.inl hg)⟩
    | const v => exact propext ⟨fun _ => trivial, fun _ => .const _ _ (.inl hg)⟩
    | expr f => exact absurd rfl (hr f)
  | const v =>
    cases r with
    | var y => exact propext ⟨fun _ => .const _ _ (.inr hg), fun _ => trivial⟩
    | const w => rfl
    | expr f => exact absurd rfl (hr f)
  | expr f => exact absurd rfl (hl f)

/-- Equations between different variables have determined sides if all of them are. -/
theorem Transition.satisfied_undetermined
    (h : ∀ x y, ⟨.var x, .var y⟩ ∈ tr.guards → x ≠ y → tr.Determined x) :
    ∀ g ∈ tr.guards, g.Satisfied (Inscription.undetermined tr.Determined) := by
  have hdetermined : ∀ {x y : Variable}, ⟨.var x, .var y⟩ ∈ tr.guards → x ≠ y → tr.Determined x ∧ tr.Determined y :=
    fun hg hxy => ⟨h _ _ hg hxy, .equal _ _ (.inr hg) (h _ _ hg hxy)⟩
  rintro ⟨l, r⟩ hg ⟨hl, hr⟩
  by_cases hlr : l = r
  · exact congrArg _ hlr
  · have hnone : l.undetermined tr.Determined = none ∧ r.undetermined tr.Determined = none := by
      cases l with
      | var x =>
        cases r with
        | var y =>
          have hxy := hdetermined hg fun heq => hlr (by rw [heq])
          exact ⟨if_pos hxy.1, if_pos hxy.2⟩
        | const v => exact ⟨if_pos (.const _ _ (.inl hg)), rfl⟩
        | expr f => exact absurd rfl (hr f)
      | const v =>
        cases r with
        | var y => exact ⟨rfl, if_pos (.const _ _ (.inr hg))⟩
        | const w => exact ⟨rfl, rfl⟩
        | expr f => exact absurd rfl (hr f)
      | expr f => exact absurd rfl (hl f)
    exact hnone.1.trans hnone.2.symm

end Determined

/-! ### Restored bindings -/

theorem Inscription.IsAtom.eq_of_toExpr {i j : Inscription} (hi : i.IsAtom) (hj : j.IsAtom) (hni : i.Named)
    (hnj : j.Named) (h : i.toExpr = j.toExpr) : i = j := by
  have hvar : ∀ {x : Variable}, (Inscription.var x).Named → (Inscription.var x).toExpr = .ok (.var x) :=
    fun hn => if_pos (hn _ rfl)
  cases i with
  | var x =>
    rw [hvar hni] at h
    cases j with
    | var y =>
      rw [hvar hnj] at h
      cases h
      rfl
    | const w => cases h
    | expr f => exact absurd rfl (hj f)
  | const v =>
    cases j with
    | var y =>
      rw [hvar hnj] at h
      cases h
    | const w =>
      cases h
      rfl
    | expr f => exact absurd rfl (hj f)
  | expr f => exact absurd rfl (hi f)

namespace Solves

section Restored

variable {tr tr' : Transition} {eliminated : Eliminations} {m : Marking} {B b : Binding} {x : Variable}

variable (h : Solves tr tr'.input tr'.output tr'.guards eliminated) (hB : tr'.Enables m B)

include h hB

/-- The sides of an equation that is left are the same, or they have the same value. -/
theorem sides_of_enables {g : Guard} (hg : g ∈ tr'.guards) (hatomic : g.IsAtomic) : g.left = g.right ∨
    ∃ v, (B.undoAll eliminated).valueOf g.left = some v ∧ (B.undoAll eliminated).valueOf g.right = some v := by
  have hnamed := h.named_guards g hg
  rcases Guard.held_of_holds hnamed (hB.holds g hg) with ⟨v, hleft, hright⟩ | hexpr
  · refine .inr ⟨v, ?_, ?_⟩
    · rw [Binding.valueOf_undoAll hatomic.1 fun e he => (h.gone e he g hg).1]
      exact Binding.valueOf_eq_some.2 hleft
    · rw [Binding.valueOf_undoAll hatomic.2 fun e he => (h.gone e he g hg).2]
      exact Binding.valueOf_eq_some.2 hright
  · exact .inl (hatomic.1.eq_of_toExpr hatomic.2 hnamed.1 hnamed.2 hexpr)

omit hB in
theorem valueOf_eliminated : ∀ e ∈ eliminated,
    (B.undoAll eliminated).valueOf (.var e.1) = (B.undoAll eliminated).valueOf e.2 :=
  Binding.valueOf_eliminated h.atoms h.order h.self h.nodup

/-- The values that are put back satisfy the equations of the transition, as far as there are values. -/
theorem satisfied_valueOf : ∀ g ∈ tr.guards, g.Satisfied (B.undoAll eliminated).valueOf := by
  refine (h.satisfied_iff _).2 ⟨fun g hg hatomic => ?_, h.valueOf_eliminated⟩
  rcases h.sides_of_enables hB hg hatomic with heq | ⟨v, hleft, hright⟩
  · rw [heq]
  · rw [hleft, hright]

theorem contains_of_determined (hx : tr.Determined x) : (B.undoAll eliminated).contains x = true := by
  have hsat := h.satisfied_valueOf hB
  unfold FinMap.contains
  induction hx with
  | input x hx => exact (h.taken.covers_iff.1 hB.covers).contains hx
  | const x v hg =>
    have hvalue := Transition.value_eq_of_guard hsat (Inscription.isAtom_var x) (Inscription.isAtom_const v) hg
    rw [← Binding.valueOf_var, hvalue]
    rfl
  | equal x y hg _ ih =>
    have hvalue := Transition.value_eq_of_guard hsat (Inscription.isAtom_var x) (Inscription.isAtom_var y) hg
    rwa [← Binding.valueOf_var, hvalue, Binding.valueOf_var]

/-- Only determined variables have values. -/
theorem determined_of_contains (hx : (B.undoAll eliminated).contains x = true) : tr.Determined x := by
  obtain ⟨-, heliminated⟩ := (h.satisfied_iff tr.determination).1 tr.satisfied_determination
  have hbound : ∀ z, B.contains z = true → tr.Determined z := by
    intro z hz
    obtain ⟨x₀, hx₀, heq⟩ := h.sources tr.determination tr.satisfied_determination z
      (Transition.mem_inputVariables_iff.1 ((hB.binds z).1 hz))
    exact heq.mpr (.input _ (Transition.mem_inputVariables_iff.2 hx₀))
  refine Binding.forall_contains_undoAll h.atoms hbound (fun e he hvar => (heliminated e he).mpr ?_) x hx
  cases hr : e.2 with
  | var y => exact hvar y hr
  | const v => trivial
  | expr f => trivial

/-- Where every eliminated variable has a value, so have the variables that are equated with others. -/
theorem contains_of_equation (hall : ∀ e ∈ eliminated, (B.undoAll eliminated).contains e.1 = true) {y : Variable}
    (hg : ⟨.var x, .var y⟩ ∈ tr.guards) (hxy : x ≠ y) : (B.undoAll eliminated).contains x = true := by
  have hbound : ∀ {i : Inscription} {v : Value}, (B.undoAll eliminated).valueOf i = some v →
      i.undetermined (fun z => (B.undoAll eliminated).contains z = true) = none := by
    intro i v hv
    refine Inscription.undetermined_eq_none fun z hz => ?_
    rw [hz, Binding.valueOf_var] at hv
    rw [FinMap.contains, hv]
    rfl
  -- where variables without values stand for themselves, no equation between two of them is satisfied
  have hsat : ∀ g ∈ tr.guards,
      g.Satisfied (Inscription.undetermined fun z => (B.undoAll eliminated).contains z = true) := by
    refine (h.satisfied_iff _).2 ⟨fun g hg hatomic => ?_, fun e he => ?_⟩
    · rcases h.sides_of_enables hB hg hatomic with heq | ⟨v, hleft, hright⟩
      · rw [heq]
      · exact (hbound hleft).trans (hbound hright).symm
    · obtain ⟨v, hv⟩ := Option.isSome_iff_exists.1 (hall e he)
      rw [← Binding.valueOf_var] at hv
      exact (hbound hv).trans (hbound ((h.valueOf_eliminated e he).symm.trans hv)).symm
  by_contra hx
  have heq := Inscription.eq_var_of_undetermined hx
    (Transition.value_eq_of_guard hsat (Inscription.isAtom_var x) (Inscription.isAtom_var y) (.inl hg))
  exact hxy (Inscription.var.inj heq).symm

/-- An enabled binding can be restored if and only if the equations between variables determine these. -/
theorem restore_eq_ok_iff : (∃ b, Eliminations.restore eliminated B = .ok b) ↔
    ∀ x y, ⟨.var x, .var y⟩ ∈ tr.guards → x ≠ y → tr.Determined x := by
  constructor
  · rintro ⟨b, hb⟩ x y hg hxy
    obtain ⟨-, hall⟩ := (Eliminations.restore_eq_ok_iff h.atoms h.order h.self h.nodup).1 hb
    exact h.determined_of_contains hB (h.contains_of_equation hB hall hg hxy)
  · intro hdetermined
    refine ⟨_, (Eliminations.restore_eq_ok_iff h.atoms h.order h.self h.nodup).2 ⟨rfl, fun e he => ?_⟩⟩
    refine h.contains_of_determined hB ?_
    by_contra hnot
    -- an undetermined variable could only have been replaced by itself
    have hsat := Transition.satisfied_undetermined hdetermined
    exact h.self e he (Inscription.eq_var_of_undetermined hnot (((h.satisfied_iff _).1 hsat).2 e he))

/-- Under a restored binding, the equations of the transition hold. -/
theorem holds_of_restore (hb : Eliminations.restore eliminated B = .ok b) :
    ∀ g ∈ tr.guards, g.IsEquation → g.holds b = .ok true := by
  obtain ⟨rfl, hall⟩ := (Eliminations.restore_eq_ok_iff h.atoms h.order h.self h.nodup).1 hb
  rintro ⟨l, r⟩ hg ⟨hatomic, z, hz⟩
  by_cases hlr : l = r
  · exact if_pos (congrArg Inscription.text hlr)
  · have hvalues : (B.undoAll eliminated).valueOf l = (B.undoAll eliminated).valueOf r :=
      h.satisfied_valueOf hB _ hg hatomic
    obtain ⟨v, hv⟩ : ∃ v, (B.undoAll eliminated).valueOf l = some v := by
      cases l with
      | var x =>
        cases r with
        | var y =>
          have hcontains := h.contains_of_equation hB hall hg fun heq => hlr (by rw [heq])
          rw [Binding.valueOf_var]
          exact Option.isSome_iff_exists.1 hcontains
        | const w => exact ⟨w, hvalues⟩
        | expr f => exact absurd rfl (hatomic.2 f)
      | const w => exact ⟨w, rfl⟩
      | expr f => exact absurd rfl (hatomic.1 f)
    exact Guard.holds_of_evaluate (Binding.valueOf_eq_some.1 hv) (Binding.valueOf_eq_some.1 (hvalues.symm.trans hv))

end Restored

end Solves

/-! ### Nets -/

section Nets

variable {s s' : Session} {net : Net} {simplified : Simplified} {t : TransitionName} {tr tr' : Transition} {m : Marking}
  {d : BindingDiagram} {B : Binding}

/-- The equations of every transition are solved by the eliminations of its simplified transition. -/
theorem Net.HasIdentifiers.solves (hn : net.HasIdentifiers) (h : net.simplify = .ok simplified)
    (ht : net.transition? t = some tr) (ht' : simplified.net.transition? t = some tr') :
    Solves tr tr'.input tr'.output tr'.guards (simplified.eliminatedOf t) :=
  Transition.solves_of_simplify (hn t tr ht) (Net.simplify_transition h ht ht')

/-- However a session was used: an enabled binding of a simplified transition can be restored if and only if the value of
every variable is determined that a guard of the transition equates with another one, and the guards that equate a
variable with a variable or a constant hold under the restored binding. -/
theorem Session.Reaches.restore_iff_determined (hn : net.HasIdentifiers) (hsimplify : net.simplify = .ok simplified)
    (hs : Reaches {} s) (h : (simplified.net.enabledBindings t m).run.run s = (.ok d, s')) (hB : B ∈ bindings d) :
    ∃ tr, net.transition? t = some tr ∧
      ((∃ b, simplified.restore t B = .ok b) ↔
        ∀ x y, ⟨.var x, .var y⟩ ∈ tr.guards → x ≠ y → tr.Determined x) ∧
      ∀ b, simplified.restore t B = .ok b → ∀ g ∈ tr.guards, g.IsEquation → g.holds b = .ok true := by
  obtain ⟨tr', ht', -, hmem⟩ := hs.mem_bindings h
  obtain ⟨hnames, -⟩ := Net.simplify_eq_ok hsimplify
  obtain ⟨tr, ht⟩ : ∃ tr, net.transition? t = some tr := by
    refine Option.isSome_iff_exists.1 ?_
    rw [← hnames, ht']
    rfl
  have hsolves := hn.solves hsimplify ht ht'
  have henabled := (hmem B).1 hB
  exact ⟨tr, ht, hsolves.restore_eq_ok_iff henabled, fun b hb => hsolves.holds_of_restore henabled hb⟩

theorem Session.Reaches.restore_iff_determined_chain :
    let a : Inscription := .var "a"
    let x : Inscription := .var "x"
    let y : Inscription := .var "y"
    let three : Inscription := .const (.int 3)
    let tr : Transition := ⟨.ofList [("p", [a])], .ofList [("p", [x])], [⟨x, y⟩, ⟨y, a⟩, ⟨three, .var "z"⟩]⟩
    let net : Net := ⟨.ofList ["p"], .ofList [("t", tr)]⟩
    let simplified : Simplified := ⟨⟨.ofList ["p"], .ofList [("t", ⟨.ofList [("p", [a])], .ofList [("p", [a])], []⟩)]⟩,
      .ofList [("t", [("x", y), ("y", a), ("z", three)])]⟩
    let m : Marking := ⟨.ofList [("p", .ofList [.int 1])]⟩
    let B : Binding := .ofList [("a", .int 1)]
    let b : Binding := .ofList [("a", .int 1), ("x", .int 1), ("y", .int 1), ("z", .int 3)]
    net.simplify = .ok simplified ∧ ∃ d s', (simplified.net.enabledBindings "t" m).run.run {} = (.ok d, s') ∧
      B ∈ bindings d ∧ simplified.restore "t" B = .ok b ∧ tr.Determined "x" ∧
      ∀ g ∈ tr.guards, g.IsEquation → g.holds b = .ok true := by
  intro a x y three tr net simplified m B b
  have hn : net.HasIdentifiers := by decide +kernel
  have hsimplify : net.simplify = .ok simplified := by decide +kernel
  have hfound : ((simplified.net.enabledBindings "t" m).run.run {}).1.map bindings = .ok [B] := by decide +kernel
  have hb : simplified.restore "t" B = .ok b := by decide +kernel
  rcases hrun : (simplified.net.enabledBindings "t" m).run.run {} with ⟨e | d, s'⟩
  · rw [hrun] at hfound
    cases hfound
  · rw [hrun] at hfound
    have hB : B ∈ bindings d := by
      have hbindings : bindings d = [B] := Except.ok.inj hfound
      rw [hbindings]
      exact List.mem_singleton_self B
    obtain ⟨tr₀, ht, hiff, hholds⟩ := restore_iff_determined hn hsimplify (.refl {}) hrun hB
    have htr : net.transition? "t" = some tr := by decide +kernel
    rw [htr] at ht
    cases ht
    have hdetermined := hiff.1 ⟨b, hb⟩ "x" "y" List.mem_cons_self (by decide)
    exact ⟨hsimplify, d, s', rfl, hB, hb, hdetermined, hholds b hb⟩

/-- Nothing determines two variables that are only equated with each other, so the guard between them is lost. -/
theorem Session.exists_binding_not_restored :
    let a : Inscription := .var "a"
    let x : Inscription := .var "x"
    let y : Inscription := .var "y"
    let tr : Transition := ⟨.ofList [("p", [a])], ∅, [⟨x, y⟩]⟩
    let net : Net := ⟨.ofList ["p"], .ofList [("t", tr)]⟩
    let simplified : Simplified := ⟨⟨.ofList ["p"], .ofList [("t", ⟨.ofList [("p", [a])], ∅, []⟩)]⟩,
      .ofList [("t", [("x", y)])]⟩
    let m : Marking := ⟨.ofList [("p", .ofList [.int 1])]⟩
    let B : Binding := .ofList [("a", .int 1)]
    Net.build ["p"] [⟨"t", [⟨"p", .input, [a]⟩], [⟨x, y⟩]⟩] = .ok net ∧ net.HasIdentifiers ∧
      net.simplify = .ok simplified ∧
      ((simplified.net.enabledBindings "t" m).run.run {}).1.map bindings = .ok [B] ∧
      simplified.restore "t" B = .error (.unbound "y") := by
  intro a x y tr net simplified m B
  exact ⟨by decide +kernel, by decide +kernel, by decide +kernel, by decide +kernel, by decide +kernel⟩

end Nets

end TokenNet
