import Mathlib.Data.Set.Card
import TokenNet.Key.Weight
import TokenNet.Proofs.Evaluation
import TokenNet.Proofs.Results

/-!
# The variable order of a transition

The order of the variables, told by the guards: `KeyOrder.totalWeight` is the weight that the guards give a variable, and
`KeyOrder.DeclaredBefore` the order of the declarations.  While the guards are read one after the other, the declared
variables and their weights are those that the guards read so far account for, `Weighing.Collects`; the sort then keeps
the order of the declarations where weights are equal: `KeyOrder.ofGuards_outcome`.
-/

namespace TokenNet

/-! ### What guards refer to -/

namespace Inscription

variable {i : Inscription} {vs : FinSet Variable} {e : EvaluationError}

/-- The inscription is the variable, or a formula that mentions it. -/
def refersTo (x : Variable) : Inscription → Bool
  | var y => y = x
  | const _ => false
  | expr f => (Expr.parse f.text).toOption.any (Expr.mentions x)

/-- The inscription is a formula whose text is no expression, and why. -/
def Unreadable (i : Inscription) (e : EvaluationError) : Prop := ∃ f, i = .expr f ∧ Expr.parse f.text = .error e

theorem contains_eq_refersTo (h : i.vars = .ok vs) (x : Variable) : vs.contains x = i.refersTo x := by
  cases i with
  | var y =>
    cases h
    rw [Bool.eq_iff_iff, FinSet.contains_ofList, List.mem_singleton, refersTo, decide_eq_true_iff, eq_comm]
  | const v =>
    cases h
    rfl
  | expr f =>
    obtain ⟨e, he, rfl⟩ := Formula.reading_of_vars h
    rw [f.reading_eq] at he
    simp [refersTo, he, Expr.contains_vars, Except.toOption]

theorem vars_eq_error_iff : i.vars = .error e ↔ i.Unreadable e := by
  cases i with
  | var y | const v => simp [vars, Unreadable]
  | expr f =>
    simp only [vars, Formula.vars, Unreadable, expr.injEq, exists_eq_left', ← f.reading_eq]
    rw [bind_eq_error]
    simp [pure, Except.pure]

end Inscription

namespace Guard

variable {g : Guard} {vs : FinSet Variable} {e : EvaluationError}

def refersTo (g : Guard) (x : Variable) : Bool := g.left.refersTo x || g.right.refersTo x

/-- Why the guard cannot be read; the left side is read first. -/
def Unreadable (g : Guard) (e : EvaluationError) : Prop :=
  g.left.Unreadable e ∨ (∀ e', ¬ g.left.Unreadable e') ∧ g.right.Unreadable e

/-- The number of the variables that the guard refers to. -/
noncomputable def degree (g : Guard) : Nat := {x | g.refersTo x = true}.ncard

/-- What the guard adds to the weight of a variable. -/
noncomputable def share (g : Guard) (x : Variable) : Nat :=
  if g.refersTo x = true then min (Nat.pow 2 g.degree) 0x8000000000000000 else 0

theorem mem_keys_iff (h : g.vars = .ok vs) (x : Variable) : x ∈ vs.keys ↔ g.refersTo x = true := by
  obtain ⟨l, r, hl, hr, hvs⟩ := contains_vars h
  rw [← FinMap.contains_iff_mem_keys, hvs x, Inscription.contains_eq_refersTo hl, Inscription.contains_eq_refersTo hr,
    refersTo, Bool.or_eq_true]

theorem vars_eq_error_iff : g.vars = .error e ↔ g.Unreadable e := by
  have hleft : (∃ l, g.left.vars = .ok l) ↔ ∀ e', ¬ g.left.Unreadable e' := by
    simp only [exists_eq_ok_iff, ne_eq, Inscription.vars_eq_error_iff]
  have hright : ∀ l, (do return FinSet.union l (← g.right.vars)) = Except.error e ↔ g.right.Unreadable e := by
    intro l
    rw [bind_eq_error, Inscription.vars_eq_error_iff]
    simp [pure, Except.pure]
  unfold Guard.vars Unreadable
  rw [bind_eq_error, Inscription.vars_eq_error_iff, ← hleft, ← exists_and_right]
  simp only [hright]

theorem exists_vars_iff : (∃ vs, g.vars = .ok vs) ↔ ∀ e, ¬ g.Unreadable e := by
  simp only [exists_eq_ok_iff, ne_eq, vars_eq_error_iff]

theorem degree_eq (h : g.vars = .ok vs) : g.degree = vs.keys.length := by
  have hcoe : {x | g.refersTo x = true} = (vs.keys.toFinset : Set Variable) := by
    ext x
    simp [← mem_keys_iff h]
  have hnodup : vs.keys.Nodup := vs.nodup_keys
  rw [degree, hcoe, Set.ncard_coe_finset, List.toFinset_card_of_nodup hnodup]

end Guard

namespace KeyOrder

variable {inputs : List Variable} {guards before : List Guard} {g : Guard} {vs : FinSet Variable} {x y : Variable}
  {w : Weighing}

theorem penalty_eq (n : Nat) : penalty n = min (Nat.pow 2 n) 0x8000000000000000 := by
  have hmax : 0x8000000000000000 = Nat.pow 2 63 := rfl
  unfold penalty
  rw [hmax]
  rcases Nat.le_total n 63 with h | h
  · have hpow : Nat.pow 2 n ≤ Nat.pow 2 63 := Nat.pow_le_pow_right Nat.two_pos h
    rw [Nat.min_eq_left h, Nat.min_eq_left hpow]
  · have hpow : Nat.pow 2 63 ≤ Nat.pow 2 n := Nat.pow_le_pow_right Nat.two_pos h
    rw [Nat.min_eq_right h, Nat.min_eq_right hpow]

/-- What the guards add to the weight of a variable, up to the largest weight. -/
noncomputable def totalWeight (guards : List Guard) (x : Variable) : Nat :=
  min (guards.foldl (fun n g => n + g.share x) 0) 0xffffffffffffffff

theorem totalWeight_append (guards : List Guard) (g : Guard) (x : Variable) :
    totalWeight (guards ++ [g]) x = min (totalWeight guards x + g.share x) maxWeight := by
  unfold totalWeight maxWeight
  rw [List.foldl_append]
  simp only [List.foldl_cons, List.foldl_nil]
  omega

/-- One variable is declared before the other.  The inputs come first, in their order; behind them, where both positions
are the end of the list, come the other variables by the first guard that refers to them, and those of one guard by name. -/
def DeclaredBefore (inputs : List Variable) (guards : List Guard) (x y : Variable) : Prop :=
  inputs.idxOf x < inputs.idxOf y ∨ inputs.idxOf x = inputs.idxOf y ∧
    (guards.findIdx (·.refersTo x) < guards.findIdx (·.refersTo y) ∨
      guards.findIdx (·.refersTo x) = guards.findIdx (·.refersTo y) ∧ compare x y = .lt)

/-- Another guard changes nothing for the variables that are declared already. -/
theorem DeclaredBefore.append (h : DeclaredBefore inputs guards x y)
    (hy : y ∈ inputs ∨ ∃ g ∈ guards, g.refersTo y = true) (g : Guard) : DeclaredBefore inputs (guards ++ [g]) x y := by
  rcases h with hinput | ⟨hinput, h⟩
  · exact .inl hinput
  · refine .inr ⟨hinput, ?_⟩
    rw [List.findIdx_append, List.findIdx_append]
    rcases h with hguard | ⟨hguard, hname⟩
    · left
      have hle : guards.findIdx (·.refersTo y) ≤ guards.length := List.findIdx_le_length
      rw [if_pos (by omega)]
      split <;> omega
    · right
      rcases hy with hy | hy
      · obtain rfl : y = x := (List.idxOf_inj hy).1 hinput.symm
        simp at hname
      · have hlt : guards.findIdx (·.refersTo y) < guards.length := List.findIdx_lt_length.2 hy
        rw [if_pos hlt, if_pos (hguard ▸ hlt)]
        exact ⟨hguard, hname⟩

/-! ### One guard -/

namespace Weighing

theorem declared_foldl_add {l : List Variable} (hl : l.Nodup) (n : Nat) (w : Weighing) :
    (l.foldl (add n) w).declared = w.declared ++ l.filter fun x => !w.declared.contains x := by
  induction l generalizing w with
  | nil => simp
  | cons y l ih =>
    obtain ⟨hy, hl⟩ := List.nodup_cons.1 hl
    rw [List.foldl_cons, ih hl]
    by_cases h : w.declared.contains y = true
    · have hadd : (w.add n y).declared = w.declared := if_pos h
      rw [hadd, List.filter_cons_of_neg (by simpa using h)]
    · have hadd : (w.add n y).declared = w.declared ++ [y] := if_neg h
      have hrest : l.filter (fun x => !(w.declared ++ [y]).contains x) = l.filter fun x => !w.declared.contains x := by
        refine List.filter_congr fun x hx => ?_
        have hne : x ≠ y := fun heq => hy (heq ▸ hx)
        simp [hne]
      rw [hadd, hrest, List.filter_cons_of_pos (by simpa using h), List.append_assoc, List.singleton_append]

theorem weight_add (n : Nat) (w : Weighing) (x y : Variable) :
    (w.add n y).weight x = if x = y then min (w.weight x + n) maxWeight else w.weight x := by
  unfold add weight
  by_cases h : x = y
  · subst h
    simp [FinMap.get?_insert_self]
  · simp [FinMap.get?_insert_of_ne _ h, h]

theorem weight_foldl_add {l : List Variable} (hl : l.Nodup) (n : Nat) (w : Weighing) (x : Variable) :
    (l.foldl (add n) w).weight x = if x ∈ l then min (w.weight x + n) maxWeight else w.weight x := by
  induction l generalizing w with
  | nil => simp
  | cons y l ih =>
    obtain ⟨hy, hl⟩ := List.nodup_cons.1 hl
    rw [List.foldl_cons, ih hl, weight_add]
    by_cases h : x = y
    · subst h
      simp [hy]
    · simp [h]

/-- The declared variables and their weights are those that the guards account for. -/
structure Collects (inputs : List Variable) (seen : List Guard) (w : Weighing) : Prop where
  mem : ∀ x, x ∈ w.declared ↔ x ∈ inputs ∨ ∃ g ∈ seen, g.refersTo x = true
  nodup : w.declared.Nodup
  declared : w.declared.Pairwise (DeclaredBefore inputs seen)
  weight : ∀ x, w.weight x = totalWeight seen x

theorem collects_inputs (h : inputs.Nodup) : Collects inputs [] ⟨inputs, ∅⟩ where
  mem x := by simp
  nodup := h
  declared := by
    refine List.pairwise_iff_getElem.2 fun i j hi hj hij => .inl ?_
    rwa [h.idxOf_getElem, h.idxOf_getElem]
  weight x := rfl

theorem Collects.unseen (h : Collects inputs guards w) (hx : x ∉ w.declared) :
    inputs.idxOf x = inputs.length ∧ guards.findIdx (·.refersTo x) = guards.length := by
  rw [h.mem, not_or] at hx
  refine ⟨List.idxOf_eq_length hx.1, List.findIdx_eq_length_of_false fun g hg => ?_⟩
  exact Bool.eq_false_iff.2 fun hgx => hx.2 ⟨g, hg, hgx⟩

/-- Variables that are new with a guard are declared after all others. -/
theorem Collects.declaredBefore (h : Collects inputs guards w) (hx : x ∈ w.declared) (hy : y ∉ w.declared) (g : Guard) :
    DeclaredBefore inputs (guards ++ [g]) x y := by
  obtain ⟨hinput, hguard⟩ := h.unseen hy
  unfold DeclaredBefore
  rw [hinput, List.findIdx_append, List.findIdx_append, hguard, if_neg (Nat.lt_irrefl _)]
  by_cases hxi : x ∈ inputs
  · exact .inl (List.idxOf_lt_length_iff.2 hxi)
  · have hxg := List.findIdx_lt_length.2 (((h.mem x).1 hx).resolve_left hxi)
    refine .inr ⟨List.idxOf_eq_length hxi, .inl ?_⟩
    rw [if_pos hxg]
    omega

/-- Among themselves, these are declared by name. -/
theorem Collects.declaredBefore_of_lt (h : Collects inputs guards w) (hx : x ∉ w.declared) (hy : y ∉ w.declared)
    (hgx : g.refersTo x = true) (hgy : g.refersTo y = true) (hlt : compare x y = .lt) :
    DeclaredBefore inputs (guards ++ [g]) x y := by
  obtain ⟨hxi, hxg⟩ := h.unseen hx
  obtain ⟨hyi, hyg⟩ := h.unseen hy
  refine .inr ⟨hxi.trans hyi.symm, .inr ⟨?_, hlt⟩⟩
  simp [List.findIdx_append, List.findIdx_cons, hxg, hyg, hgx, hgy]

theorem Collects.addGuard (h : Collects inputs guards w) (hg : g.vars = .ok vs) :
    Collects inputs (guards ++ [g]) (w.addGuard vs) := by
  have hnodup : vs.keys.Nodup := vs.nodup_keys
  have hsorted : vs.keys.Pairwise fun x y => compare x y = .lt := List.pairwise_map.2 vs.sorted
  have hdeclared : (w.addGuard vs).declared = w.declared ++ vs.keys.filter fun x => !w.declared.contains x :=
    declared_foldl_add hnodup _ w
  have hnew : ∀ x, x ∈ vs.keys.filter (fun x => !w.declared.contains x) ↔ g.refersTo x = true ∧ x ∉ w.declared := by
    intro x
    simp [List.mem_filter, Guard.mem_keys_iff hg]
  refine ⟨fun x => ?_, ?_, ?_, fun x => ?_⟩
  · have hone : (∃ g' ∈ guards ++ [g], g'.refersTo x = true) ↔
        (∃ g' ∈ guards, g'.refersTo x = true) ∨ g.refersTo x = true := by simp [or_and_right, exists_or]
    rw [hdeclared, List.mem_append, hnew, hone, ← or_assoc, ← h.mem]
    by_cases hx : x ∈ w.declared <;> simp [hx]
  · rw [hdeclared]
    refine List.nodup_append.2 ⟨h.nodup, hnodup.filter _, fun x hx y hy heq => ?_⟩
    exact ((hnew y).1 hy).2 (heq ▸ hx)
  · rw [hdeclared]
    refine List.pairwise_append.2 ⟨h.declared.imp_of_mem fun {x y} hx hy hxy => ?_, ?_, fun x hx y hy => ?_⟩
    · exact hxy.append ((h.mem y).1 hy) g
    · refine (hsorted.filter _).imp_of_mem fun hx hy hlt => ?_
      obtain ⟨hgx, hx⟩ := (hnew _).1 hx
      obtain ⟨hgy, hy⟩ := (hnew _).1 hy
      exact h.declaredBefore_of_lt hx hy hgx hgy hlt
    · exact h.declaredBefore hx ((hnew y).1 hy).2 g
  · unfold Weighing.addGuard
    rw [weight_foldl_add hnodup, totalWeight_append, ← h.weight, Guard.share, Guard.degree_eq hg, penalty_eq]
    by_cases hx : x ∈ vs.keys
    · rw [if_pos hx, if_pos ((Guard.mem_keys_iff hg x).1 hx)]
    · rw [if_neg hx, if_neg (mt (Guard.mem_keys_iff hg x).2 hx), h.weight]
      unfold totalWeight maxWeight
      omega

/-! ### All guards -/

theorem Collects.foldl {vars : List (FinSet Variable)} (h : Collects inputs before w)
    (hvars : guards.mapM Guard.vars = .ok vars) : Collects inputs (before ++ guards) (vars.foldl Weighing.addGuard w) := by
  induction guards generalizing before w vars with
  | nil =>
    cases hvars
    rwa [List.append_nil]
  | cons g guards ih =>
    obtain ⟨vs, vars, hg, hguards, rfl⟩ := mapM_cons_eq_ok.1 hvars
    rw [List.append_cons, List.foldl_cons]
    exact ih (h.addGuard hg) hguards

end Weighing

theorem ofGuards_eq_error_iff {e : EvaluationError} :
    ofGuards inputs guards = .error e ↔ ∃ before g after, guards = before ++ g :: after ∧
      (∀ g' ∈ before, ∀ e', ¬ g'.Unreadable e') ∧ g.Unreadable e := by
  have herror : ofGuards inputs guards = .error e ↔ guards.mapM Guard.vars = .error e := map_eq_error
  simp only [herror, mapM_eq_error, Guard.exists_vars_iff, Guard.vars_eq_error_iff]

/-- If all guards can be read, the order has the inputs and the variables of the guards, each once, by increasing weight,
and variables of one weight in the order of their declarations.  Otherwise the first guard that cannot be read says why. -/
theorem ofGuards_outcome (h : inputs.Nodup) :
    ((∀ g ∈ guards, ∀ e, ¬ g.Unreadable e) → ∃ o, ofGuards inputs guards = .ok o ∧ o.sequence.Nodup ∧
      (∀ x, x ∈ o.sequence ↔ x ∈ inputs ∨ ∃ g ∈ guards, g.refersTo x = true) ∧
      o.sequence.Pairwise fun x y => totalWeight guards x < totalWeight guards y ∨
        totalWeight guards x = totalWeight guards y ∧ DeclaredBefore inputs guards x y) ∧
    ∀ e, ofGuards inputs guards = .error e ↔ ∃ before g after, guards = before ++ g :: after ∧
      (∀ g' ∈ before, ∀ e', ¬ g'.Unreadable e') ∧ g.Unreadable e := by
  refine ⟨fun hguards => ?_, fun e => ofGuards_eq_error_iff⟩
  obtain ⟨vars, hvars⟩ := exists_mapM fun g hg => Guard.exists_vars_iff.2 (hguards g hg)
  have hcollects : Weighing.Collects inputs guards (vars.foldl Weighing.addGuard ⟨inputs, ∅⟩) :=
    (Weighing.collects_inputs h).foldl hvars
  generalize hw : vars.foldl Weighing.addGuard ⟨inputs, ∅⟩ = w at hcollects
  have hok : ofGuards inputs guards = .ok w.order := by
    rw [ofGuards, hvars, ← hw]
    rfl
  have hsequence : w.order.sequence = sortOn w.weight w.declared := sortOnce_eq_sortOn _ _
  refine ⟨w.order, hok, ?_⟩
  rw [hsequence]
  refine ⟨(sortOn_perm _ _).nodup_iff.2 hcollects.nodup, fun x => mem_sortOn.trans (hcollects.mem x), ?_⟩
  refine (pairwise_sortOn_stable w.weight hcollects.declared).imp fun {x y} hxy => ?_
  rwa [hcollects.weight, hcollects.weight, Std.compare_eq_lt, Std.LawfulEqCmp.compare_eq_iff_eq] at hxy

/-- Variables of three guards, two of which are no inputs; and two more guards, the first of which is reported. -/
theorem ofGuards_outcome_three :
    let inputs : List Variable := ["a", "b", "c", "f"]
    let guards : List Guard := [⟨.expr "a + b + c", .const (.int 3)⟩, ⟨.var "c", .expr "d * 2"⟩, ⟨.var "e", .const (.int 1)⟩]
    let failing : Guard := ⟨.var "a", .expr "a +"⟩
    (∃ o, ofGuards inputs guards = .ok o ∧ o.sequence = ["f", "e", "d", "a", "b", "c"] ∧
      o.sequence.Pairwise fun x y => totalWeight guards x < totalWeight guards y ∨
        totalWeight guards x = totalWeight guards y ∧ DeclaredBefore inputs guards x y) ∧
    ∃ e, failing.Unreadable e ∧ ofGuards inputs (guards ++ [failing, ⟨.expr "b +", .var "b"⟩]) = .error e := by
  intro inputs guards failing
  have hinputs : inputs.Nodup := by decide
  have hvars : ∀ g ∈ guards, g.vars.toOption.isSome = true := by decide +kernel
  have hreadable : ∀ g ∈ guards, ∀ e, ¬ g.Unreadable e := by
    intro g hg e he
    have hnone := hvars g hg
    rw [Guard.vars_eq_error_iff.2 he] at hnone
    cases hnone
  have hsequence : (ofGuards inputs guards).map sequence = .ok ["f", "e", "d", "a", "b", "c"] := by decide +kernel
  have hfailing : failing.vars.toOption.isSome = false := by decide +kernel
  obtain ⟨o, ho, -, -, hsorted⟩ := (@ofGuards_outcome inputs guards hinputs).1 hreadable
  rw [ho] at hsequence
  refine ⟨⟨o, ho, Except.ok.inj hsequence, hsorted⟩, ?_⟩
  cases he : failing.vars with
  | ok vs => simp [he, Except.toOption] at hfailing
  | error e =>
    have hunreadable : failing.Unreadable e := Guard.vars_eq_error_iff.1 he
    exact ⟨e, hunreadable, ((ofGuards_outcome hinputs).2 e).2 ⟨guards, failing, _, rfl, hreadable, hunreadable⟩⟩

end KeyOrder

end TokenNet
