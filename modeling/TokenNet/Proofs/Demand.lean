import TokenNet.Bag.Lemmas
import TokenNet.Demand
import TokenNet.Firing
import TokenNet.Proofs.Evaluation
import TokenNet.Proofs.Results

/-!
# What a transition demands

Taking the constants of an arc out of the tokens of its place leaves the tokens from which its variables have to take
their values: `exists_tokens_iff`.  So a binding covers an arc if and only if it fits what is left, `Binding.Fits`, and
no binding covers an arc on which a constant is missing, `not_covers_of_missing`.
-/

namespace TokenNet

/-- A bag contains the values that it counts. -/
theorem Bag.contains_iff {b : Bag Value} {v : Value} : b.contains v = true ↔ 0 < b.count v := by
  unfold Bag.contains FinMap.contains Bag.count
  cases h : b.counts.get? v with
  | none => simp
  | some n =>
    have hn := b.pos (v, n) (FinMap.mem_entries_iff.2 h)
    simpa using hn

namespace Inscription

/-- The constants among the inscriptions of an arc. -/
def constants (l : List Inscription) : List Value :=
  l.filterMap fun | .const v => some v | _ => none

/-- The variables among the inscriptions of an arc, as often as they occur. -/
def variableList (l : List Inscription) : List Variable :=
  l.filterMap fun | .var x => some x | _ => none

@[simp]
theorem constants_nil : constants [] = [] := rfl

@[simp]
theorem constants_cons_const (v : Value) (l : List Inscription) : constants (.const v :: l) = v :: constants l := rfl

@[simp]
theorem constants_cons_var (x : Variable) (l : List Inscription) : constants (.var x :: l) = constants l := rfl

@[simp]
theorem constants_cons_expr (f : Formula) (l : List Inscription) : constants (.expr f :: l) = constants l := rfl

@[simp]
theorem variableList_nil : variableList [] = [] := rfl

@[simp]
theorem variableList_cons_const (v : Value) (l : List Inscription) : variableList (.const v :: l) = variableList l := rfl

@[simp]
theorem variableList_cons_var (x : Variable) (l : List Inscription) : variableList (.var x :: l) = x :: variableList l := rfl

@[simp]
theorem variableList_cons_expr (f : Formula) (l : List Inscription) : variableList (.expr f :: l) = variableList l := rfl

/-- No inscription is an expression. -/
def NoExpr (l : List Inscription) : Prop := ∀ f, .expr f ∉ l

end Inscription

open Inscription

/-! ### Taking the constants -/

/-- A token that is taken out is one less in the bag, and one more among the constants. -/
private theorem count_erase_add {tokens : Bag Value} {c : Value} (hc : tokens.contains c = true) (l : List Value)
    (v : Value) : tokens.count v + l.count v = (tokens.erase c 1).count v + (c :: l).count v := by
  have hpos := Bag.contains_iff.1 hc
  by_cases hvc : v = c
  · subst hvc
    rw [Bag.count_erase_self, List.count_cons_self]
    omega
  · rw [Bag.count_erase_of_ne _ hvc, List.count_cons_of_ne (Ne.symm hvc)]

private theorem takeConstants_cons_var (p : Place) (t : TransitionName) (x : Variable) (l : List Inscription)
    (tokens : Bag Value) : Demand.takeConstants p t (.var x :: l) tokens =
      (Demand.takeConstants p t l tokens).map fun r => r.map fun r => (x :: r.1, r.2) := by
  rw [Demand.takeConstants]
  cases Demand.takeConstants p t l tokens <;> rfl

theorem Demand.takeConstants_some {p : Place} {t : TransitionName} {l : List Inscription} {tokens left : Bag Value}
    {vars : List Variable} (h : Demand.takeConstants p t l tokens = .ok (some (vars, left))) :
    vars = variableList l ∧ NoExpr l ∧ ∀ v, tokens.count v = left.count v + (constants l).count v := by
  induction l generalizing tokens left vars with
  | nil =>
    cases h
    exact ⟨rfl, fun f => List.not_mem_nil, fun v => by simp⟩
  | cons i l ih =>
    cases i with
    | const c =>
      unfold takeConstants at h
      split at h
      · rename_i hc
        obtain ⟨hvars, hexpr, hcount⟩ := ih h
        refine ⟨hvars, fun f hf => hexpr f (by simpa using hf), fun v => ?_⟩
        have hv := hcount v
        have hc := count_erase_add hc (constants l) v
        rw [constants_cons_const]
        omega
      · cases h
    | var x =>
      rw [takeConstants_cons_var] at h
      obtain ⟨r, hrest, hr⟩ := map_eq_ok.1 h
      obtain ⟨r, rfl, heq⟩ := Option.map_eq_some_iff.1 hr
      cases heq
      obtain ⟨hvars, hexpr, hcount⟩ := ih hrest
      exact ⟨by rw [hvars, variableList_cons_var], fun f hf => hexpr f (by simpa using hf), hcount⟩
    | expr f =>
      unfold takeConstants at h
      cases h

theorem Demand.takeConstants_none {p : Place} {t : TransitionName} {l : List Inscription} {tokens : Bag Value}
    (h : Demand.takeConstants p t l tokens = .ok none) : ∃ v, tokens.count v < (constants l).count v := by
  induction l generalizing tokens with
  | nil => cases h
  | cons i l ih =>
    cases i with
    | const c =>
      unfold takeConstants at h
      split at h
      · rename_i hc
        obtain ⟨v, hv⟩ := ih h
        have hc := count_erase_add hc (constants l) v
        refine ⟨v, ?_⟩
        rw [constants_cons_const]
        omega
      · rename_i hc
        refine ⟨c, ?_⟩
        have hzero : tokens.count c = 0 := by
          have := mt Bag.contains_iff.2 hc
          omega
        rw [hzero, constants_cons_const, List.count_cons_self]
        omega
    | var x =>
      rw [takeConstants_cons_var] at h
      obtain ⟨r, hrest, hr⟩ := map_eq_ok.1 h
      rw [Option.map_eq_none_iff.1 hr] at hrest
      exact ih hrest
    | expr f =>
      unfold takeConstants at h
      cases h

theorem Demand.exists_takeConstants {p : Place} {t : TransitionName} {l : List Inscription} (hl : NoExpr l)
    (tokens : Bag Value) : ∃ r, Demand.takeConstants p t l tokens = .ok r := by
  induction l generalizing tokens with
  | nil => exact ⟨_, rfl⟩
  | cons i l ih =>
    have ih' := ih fun f hf => hl f (List.mem_cons_of_mem i hf)
    cases i with
    | const v =>
      unfold takeConstants
      split
      · exact ih' _
      · exact ⟨none, rfl⟩
    | var x =>
      obtain ⟨r, hr⟩ := ih' tokens
      refine ⟨r.map fun r => (x :: r.1, r.2), ?_⟩
      rw [takeConstants_cons_var, hr]
      rfl
    | expr f => exact absurd List.mem_cons_self (hl f)

/-! ### The tokens of an arc -/

/-- The binding gives every variable a value, and the tokens contain each value as often as variables have it. -/
def Binding.Fits (B : Binding) (vars : List Variable) (tokens : Bag Value) : Prop :=
  (∀ x ∈ vars, B.contains x = true) ∧ ∀ v, vars.countP (fun x => B.get? x = some v) ≤ tokens.count v

namespace Inscription

/-- The tokens of an arc are counted by the values of its inscriptions. -/
theorem tokens_eq_ok {B : Binding} {l : List Inscription} {taken : Bag Value} (h : tokens B l = .ok taken) :
    ∃ vs, l.mapM (evaluate B) = .ok vs ∧ ∀ v, taken.count v = vs.count v := by
  unfold tokens at h
  cases hl : l.mapM (evaluate B) with
  | error e =>
    rw [hl] at h
    cases h
  | ok vs =>
    rw [hl] at h
    cases h
    exact ⟨vs, rfl, Bag.count_ofList vs⟩

/-- The values of an arc include its constants. -/
theorem count_constants_le {B : Binding} {l : List Inscription} {vs : List Value} (h : l.mapM (evaluate B) = .ok vs)
    (v : Value) : (constants l).count v ≤ vs.count v := by
  induction l generalizing vs with
  | nil => simp
  | cons i l ih =>
    obtain ⟨w, ws, hw, hws, rfl⟩ := mapM_cons_eq_ok.1 h
    have hrest := ih hws
    have hcons : ws.count v ≤ (w :: ws).count v := List.count_le_count_cons
    cases i with
    | const c =>
      cases hw
      rw [constants_cons_const, List.count_cons, List.count_cons]
      omega
    | var x => exact Nat.le_trans hrest hcons
    | expr f => exact Nat.le_trans hrest hcons

/-- Without expressions on the arc, its values are the constants and the values of the variables. -/
theorem count_values {B : Binding} {l : List Inscription} {vs : List Value} (hl : NoExpr l)
    (h : l.mapM (evaluate B) = .ok vs) : (∀ x ∈ variableList l, B.contains x = true) ∧
      ∀ v, vs.count v = (constants l).count v + (variableList l).countP (fun x => B.get? x = some v) := by
  induction l generalizing vs with
  | nil =>
    cases h
    exact ⟨fun x => by simp, fun v => by simp⟩
  | cons i l ih =>
    obtain ⟨w, ws, hw, hws, rfl⟩ := mapM_cons_eq_ok.1 h
    obtain ⟨hbound, hcount⟩ := ih (fun f hf => hl f (List.mem_cons_of_mem i hf)) hws
    cases i with
    | const c =>
      cases hw
      refine ⟨hbound, fun v => ?_⟩
      rw [constants_cons_const, variableList_cons_const, List.count_cons, List.count_cons, hcount]
      omega
    | var x =>
      have hx : B.get? x = some w := Binding.value_eq_ok.1 hw
      refine ⟨fun y hy => ?_, fun v => ?_⟩
      · rw [variableList_cons_var, List.mem_cons] at hy
        rcases hy with rfl | hy
        · simp [FinMap.contains, hx]
        · exact hbound y hy
      · rw [constants_cons_var, variableList_cons_var, List.count_cons, List.countP_cons, hcount, hx]
        simp
        omega
    | expr f => exact absurd List.mem_cons_self (hl f)

theorem exists_values {B : Binding} {l : List Inscription} (hl : NoExpr l)
    (hb : ∀ x ∈ variableList l, B.contains x = true) : ∃ vs, l.mapM (evaluate B) = .ok vs := by
  induction l with
  | nil => exact ⟨[], rfl⟩
  | cons i l ih =>
    have hl' : NoExpr l := fun f hf => hl f (List.mem_cons_of_mem i hf)
    cases i with
    | const c =>
      obtain ⟨ws, hws⟩ := ih hl' hb
      exact ⟨c :: ws, mapM_cons_eq_ok.2 ⟨c, ws, rfl, hws, rfl⟩⟩
    | var x =>
      obtain ⟨ws, hws⟩ := ih hl' fun y hy => hb y (by rw [variableList_cons_var]; exact List.mem_cons_of_mem x hy)
      have hx := hb x (by rw [variableList_cons_var]; exact List.mem_cons_self)
      obtain ⟨w, hw⟩ := Option.isSome_iff_exists.1 hx
      have hvalue : (Inscription.var x).evaluate B = .ok w := Binding.value_eq_ok.2 hw
      exact ⟨w :: ws, mapM_cons_eq_ok.2 ⟨w, ws, hvalue, hws, rfl⟩⟩
    | expr f => exact absurd List.mem_cons_self (hl f)

/-- The tokens of an arc are its constants and the values of its variables. -/
theorem exists_tokens {B : Binding} {l : List Inscription} (hl : NoExpr l)
    (hb : ∀ x ∈ variableList l, B.contains x = true) : ∃ taken, tokens B l = .ok taken ∧
      ∀ v, taken.count v = (constants l).count v + (variableList l).countP fun x => B.get? x = some v := by
  obtain ⟨vs, hvs⟩ := exists_values hl hb
  refine ⟨Bag.ofList vs, ?_, fun v => ?_⟩
  · unfold tokens
    rw [hvs]
    rfl
  · rw [Bag.count_ofList, (count_values hl hvs).2]

/-- A binding covers an arc if its variables fit the tokens that the constants leave. -/
theorem exists_tokens_iff {B : Binding} {l : List Inscription} {available left : Bag Value} (hl : NoExpr l)
    (hleft : ∀ v, available.count v = left.count v + (constants l).count v) :
    (∃ taken, tokens B l = .ok taken ∧ taken.isSubset available = true) ↔ B.Fits (variableList l) left := by
  constructor
  · rintro ⟨taken, htaken, hsub⟩
    obtain ⟨vs, hvs, htcount⟩ := tokens_eq_ok htaken
    obtain ⟨hbound, hcount⟩ := count_values hl hvs
    refine ⟨hbound, fun v => ?_⟩
    have hle := Bag.isSubset_iff.1 hsub v
    rw [htcount, hcount, hleft] at hle
    omega
  · rintro ⟨hbound, hfits⟩
    obtain ⟨taken, htaken, hcount⟩ := exists_tokens hl hbound
    refine ⟨taken, htaken, Bag.isSubset_iff.2 fun v => ?_⟩
    have hv := hfits v
    rw [hcount, hleft]
    omega

/-- No binding covers an arc if one of its constants is missing. -/
theorem not_covers_of_missing {B : Binding} {l : List Inscription} {available taken : Bag Value} {v : Value}
    (hv : available.count v < (constants l).count v) (h : tokens B l = .ok taken) :
    taken.isSubset available = false := by
  obtain ⟨vs, hvs, hcount⟩ := tokens_eq_ok h
  have hle := count_constants_le hvs v
  cases hsub : taken.isSubset available with
  | false => rfl
  | true =>
    have := Bag.isSubset_iff.1 hsub v
    rw [hcount] at this
    omega

end Inscription

/-! ### The demand at a marking -/

theorem Marking.get?_modify (m : Marking) (p q : Place) (f : Bag Value → Bag Value) :
    (m.modify p f).get? q = if q = p then (m.get? p).map f else m.get? q := by
  have h := FinMap.get?_alter m.places p (Option.map f) q
  unfold Marking.get? Marking.modify
  by_cases hq : q = p
  · simpa [hq] using h
  · simpa [hq] using h

/-- The arc at the first place: its constants are not there, or they are taken out and the other arcs follow. -/
private theorem extend_cons_eq_ok {t : TransitionName} {p : Place} {inscriptions : List Inscription}
    {l : List (Place × List Inscription)} {d : Demand} {r : Option Demand}
    (h : Demand.extend t ((p, inscriptions) :: l) d = .ok r) : ∃ available, d.marking.get? p = some available ∧
      (r = none ∧ (∃ v, available.count v < (constants inscriptions).count v) ∨
      ∃ left, NoExpr inscriptions ∧ (∀ v, available.count v = left.count v + (constants inscriptions).count v) ∧
        Demand.extend t l { d with
          marking := d.marking.modify p fun _ => left
          input := if (variableList inscriptions).isEmpty then d.input else d.input.insert p (variableList inscriptions) } =
        .ok r) := by
  unfold Demand.extend at h
  cases havailable : d.marking.get? p with
  | none =>
    rw [havailable] at h
    cases h
  | some available =>
    rw [havailable] at h
    refine ⟨available, rfl, ?_⟩
    cases htake : Demand.takeConstants p t inscriptions available with
    | error e =>
      simp only [htake] at h
      cases h
    | ok taken =>
      simp only [htake] at h
      cases taken with
      | none =>
        cases h
        exact .inl ⟨rfl, Demand.takeConstants_none htake⟩
      | some taken =>
        obtain ⟨vars, left⟩ := taken
        obtain ⟨rfl, hexpr, hcount⟩ := Demand.takeConstants_some htake
        exact .inr ⟨left, hexpr, hcount, h⟩

/-- What is left of the tokens of an arc, and which variables are to be taken from there. -/
private theorem extend_some {t : TransitionName} {l : List (Place × List Inscription)} {d d' : Demand}
    (hl : l.Pairwise fun a b => compare a.1 b.1 = .lt) (h : Demand.extend t l d = .ok (some d')) :
    (∀ p, p ∉ l.map Prod.fst → d'.marking.get? p = d.marking.get? p ∧ d'.input.get? p = d.input.get? p) ∧
    ∀ p inscriptions, (p, inscriptions) ∈ l → NoExpr inscriptions ∧
      (∃ available left, d.marking.get? p = some available ∧ d'.marking.get? p = some left ∧
        ∀ v, available.count v = left.count v + (constants inscriptions).count v) ∧
      d'.input.get? p = if (variableList inscriptions).isEmpty then d.input.get? p else some (variableList inscriptions) := by
  induction l generalizing d with
  | nil =>
    cases h
    exact ⟨fun p _ => ⟨rfl, rfl⟩, fun p inscriptions hp => absurd hp List.not_mem_nil⟩
  | cons e l ih =>
    obtain ⟨p, inscriptions⟩ := e
    obtain ⟨hp, hl'⟩ := List.pairwise_cons.1 hl
    have hnot := FinMap.not_mem_keys_of_lt hp
    obtain ⟨available, havailable, ⟨hnone, -⟩ | ⟨left, hexpr, hcount, h⟩⟩ := extend_cons_eq_ok h
    · cases hnone
    obtain ⟨hother, harc⟩ := ih hl' h
    have hself := hother p hnot
    simp only [Marking.get?_modify, if_true, havailable] at hself
    have hinput : ∀ q, q ≠ p → (if (variableList inscriptions).isEmpty then d.input else
        d.input.insert p (variableList inscriptions)).get? q = d.input.get? q := by
      intro q hq
      split
      · rfl
      · exact FinMap.get?_insert_of_ne _ hq _
    refine ⟨fun q hq => ?_, fun q inscriptions' hq => ?_⟩
    · rw [List.map_cons, List.mem_cons, not_or] at hq
      obtain ⟨hm, hi⟩ := hother q hq.2
      rw [hm, hi, Marking.get?_modify, if_neg hq.1, hinput q hq.1]
      exact ⟨rfl, rfl⟩
    · rcases List.mem_cons.1 hq with heq | hq
      · cases heq
        refine ⟨hexpr, ⟨available, left, havailable, hself.1, hcount⟩, ?_⟩
        rw [hself.2]
        split
        · rfl
        · exact FinMap.get?_insert_self _ _ _
      · have hqp : q ≠ p := fun heq => hnot (heq ▸ List.mem_map.2 ⟨(q, inscriptions'), hq, rfl⟩)
        have hqarc := harc q inscriptions' hq
        simp only [Marking.get?_modify, if_neg hqp, hinput q hqp] at hqarc
        exact hqarc

private theorem extend_none {t : TransitionName} {l : List (Place × List Inscription)} {d : Demand}
    (hl : l.Pairwise fun a b => compare a.1 b.1 = .lt) (h : Demand.extend t l d = .ok none) :
    ∃ p inscriptions available v, (p, inscriptions) ∈ l ∧ d.marking.get? p = some available ∧
      available.count v < (constants inscriptions).count v := by
  induction l generalizing d with
  | nil => cases h
  | cons e l ih =>
    obtain ⟨p, inscriptions⟩ := e
    obtain ⟨hp, hl'⟩ := List.pairwise_cons.1 hl
    obtain ⟨available, havailable, ⟨-, v, hv⟩ | ⟨left, -, -, h⟩⟩ := extend_cons_eq_ok h
    · exact ⟨p, inscriptions, available, v, List.mem_cons_self, havailable, hv⟩
    · obtain ⟨q, inscriptions', available', v, hq, hqm, hv⟩ := ih hl' h
      have hqp : q ≠ p := by
        rintro rfl
        simpa using hp _ hq
      simp only [Marking.get?_modify, if_neg hqp] at hqm
      exact ⟨q, inscriptions', available', v, List.mem_cons_of_mem _ hq, hqm, hv⟩

/-- If there are no expressions on the arcs, and the marking has their places, then the demand can be told. -/
theorem Demand.exists_extend {t : TransitionName} {l : List (Place × List Inscription)} {d : Demand}
    (hl : ∀ e ∈ l, NoExpr e.2) (hm : ∀ e ∈ l, (d.marking.get? e.1).isSome = true) :
    ∃ r, Demand.extend t l d = .ok r := by
  induction l generalizing d with
  | nil => exact ⟨some d, rfl⟩
  | cons e l ih =>
    obtain ⟨p, inscriptions⟩ := e
    obtain ⟨available, havailable⟩ := Option.isSome_iff_exists.1 (hm (p, inscriptions) List.mem_cons_self)
    obtain ⟨taken, htaken⟩ :=
      Demand.exists_takeConstants (p := p) (t := t) (hl (p, inscriptions) List.mem_cons_self) available
    have havailable' : d.marking.get? p = some available := havailable
    unfold extend
    rw [havailable']
    simp only [htaken]
    cases taken with
    | none => exact ⟨none, rfl⟩
    | some taken =>
      obtain ⟨vars, left⟩ := taken
      refine ih (fun e he => hl e (List.mem_cons_of_mem _ he)) fun e he => ?_
      have hsome := hm e (List.mem_cons_of_mem _ he)
      rw [Marking.get?_modify]
      by_cases hp : e.1 = p
      · rw [if_pos hp, havailable']
        rfl
      · rw [if_neg hp]
        exact hsome

/-- The demand of a transition at a marking. -/
structure Demand.IsFor (d : Demand) (tr : Transition) (m : Marking) : Prop where
  arc : ∀ p l, tr.input.get? p = some l → NoExpr l ∧ ∃ available left, m.get? p = some available ∧
    d.marking.get? p = some left ∧ ∀ v, available.count v = left.count v + (constants l).count v
  input_iff : ∀ p vars, d.input.get? p = some vars ↔ vars ≠ [] ∧ ∃ l, tr.input.get? p = some l ∧ variableList l = vars
  other : ∀ p, tr.input.get? p = none → d.marking.get? p = m.get? p

/-- Every input place holds the tokens that its arc denotes under the binding. -/
def Transition.Covers (tr : Transition) (m : Marking) (B : Binding) : Prop :=
  ∀ p l, tr.input.get? p = some l → ∃ taken available, Inscription.tokens B l = .ok taken ∧
    m.get? p = some available ∧ taken.isSubset available = true

theorem Net.transition_eq_ok {net : Net} {t : TransitionName} {tr : Transition} :
    net.transition t = .ok tr ↔ net.transition? t = some tr := by
  unfold Net.transition
  cases net.transition? t <;> simp

theorem Net.demand_some {net : Net} {t : TransitionName} {tr : Transition} {m : Marking} {d : Demand}
    (ht : net.transition? t = some tr) (h : net.demand t m = .ok (some d)) : d.IsFor tr m := by
  unfold Net.demand at h
  rw [Net.transition_eq_ok.2 ht] at h
  obtain ⟨hother, harc⟩ := extend_some tr.input.sorted h
  have hnone : ∀ p, tr.input.get? p = none → p ∉ tr.input.entries.map Prod.fst := by
    intro p hp hmem
    obtain ⟨e, he, rfl⟩ := List.mem_map.1 hmem
    rw [FinMap.mem_entries_iff.1 he] at hp
    cases hp
  refine ⟨fun p l hl => ?_, fun p vars => ?_, fun p hp => (hother p (hnone p hp)).1⟩
  · obtain ⟨hexpr, hleft, -⟩ := harc p l (FinMap.mem_entries_iff.2 hl)
    exact ⟨hexpr, hleft⟩
  · cases hl : tr.input.get? p with
    | none =>
      rw [(hother p (hnone p hl)).2]
      simp
    | some l =>
      obtain ⟨-, -, hinput⟩ := harc p l (FinMap.mem_entries_iff.2 hl)
      rw [hinput]
      by_cases hvars : variableList l = []
      · simp only [hvars, List.isEmpty_nil, if_true, FinMap.get?_empty]
        constructor
        · intro h
          cases h
        · rintro ⟨hne, l', hl', hl''⟩
          cases hl'
          exact absurd (hl''.symm.trans hvars) hne
      · have hemp : (variableList l).isEmpty = false := by simpa using hvars
        simp only [hemp, Bool.false_eq_true, if_false, Option.some.injEq]
        constructor
        · rintro rfl
          exact ⟨hvars, l, rfl, rfl⟩
        · rintro ⟨-, l', rfl, rfl⟩
          rfl

/-- A marking without a demand does not have all constants of an arc. -/
theorem Net.exists_missing_of_demand {net : Net} {t : TransitionName} {tr : Transition} {m : Marking}
    (ht : net.transition? t = some tr) (h : net.demand t m = .ok none) :
    ∃ p l available v, tr.input.get? p = some l ∧ m.get? p = some available ∧
      available.count v < (constants l).count v := by
  unfold Net.demand at h
  rw [Net.transition_eq_ok.2 ht] at h
  obtain ⟨p, l, available, v, hl, hm, hv⟩ := extend_none tr.input.sorted h
  exact ⟨p, l, available, v, FinMap.mem_entries_iff.1 hl, hm, hv⟩

/-- A marking without a demand covers no binding. -/
theorem Net.demand_none {net : Net} {t : TransitionName} {tr : Transition} {m : Marking}
    (ht : net.transition? t = some tr) (h : net.demand t m = .ok none) (B : Binding) : ¬ tr.Covers m B := by
  obtain ⟨p, l, available, v, hl, hm, hv⟩ := Net.exists_missing_of_demand ht h
  intro hcovers
  obtain ⟨taken, available', htaken, hm', hsub⟩ := hcovers p l hl
  obtain rfl : available = available' := Option.some.inj (hm.symm.trans hm')
  rw [not_covers_of_missing hv htaken] at hsub
  cases hsub

/-- A binding covers the arcs if and only if it fits the demand. -/
theorem Demand.IsFor.covers_iff {d : Demand} {tr : Transition} {m : Marking} (h : d.IsFor tr m) {B : Binding} :
    tr.Covers m B ↔ ∀ p vars, d.input.get? p = some vars → B.Fits vars ((d.marking.get? p).getD ∅) := by
  constructor
  · intro hcovers p vars hvars
    obtain ⟨-, l, hl, rfl⟩ := (h.input_iff p vars).1 hvars
    obtain ⟨hexpr, available, left, hm, hleft, hcount⟩ := h.arc p l hl
    obtain ⟨taken, available', htaken, hm', hsub⟩ := hcovers p l hl
    obtain rfl : available = available' := Option.some.inj (hm.symm.trans hm')
    rw [hleft]
    exact (exists_tokens_iff hexpr hcount).1 ⟨taken, htaken, hsub⟩
  · intro hfits p l hl
    obtain ⟨hexpr, available, left, hm, hleft, hcount⟩ := h.arc p l hl
    have hfit : B.Fits (variableList l) left := by
      by_cases hvars : variableList l = []
      · rw [hvars]
        exact ⟨fun x hx => absurd hx List.not_mem_nil, fun v => by simp⟩
      · have := hfits p (variableList l) ((h.input_iff p _).2 ⟨hvars, l, hl, rfl⟩)
        rwa [hleft] at this
    obtain ⟨taken, htaken, hsub⟩ := (exists_tokens_iff hexpr hcount).2 hfit
    exact ⟨taken, available, htaken, hm, hsub⟩

end TokenNet
