import TokenNet.Proofs.Demand
import TokenNet.Proofs.WellFormed

/-!
# Constants are taken first

A demand splits what the input arcs of a transition take: the constants are taken out of the marking, and the variables
are left.  Both parts together are the arcs again, for the tokens of the places, `Demand.IsFor.get?_eq_sum`, and for the
values that an arc takes under a binding, `Demand.IsFor.isSubset_iff`.  A demand exists if the marking has the constants of
every arc, each as often as it stands there: `Net.demand_outcome`.
-/

namespace TokenNet

open Inscription

variable {net : Net} {tr : Transition} {t : TransitionName} {m : Marking} {d : Demand} {p : Place} {l : List Inscription}
  {B : Binding}

/-! ### Arcs of variables -/

theorem Inscription.constants_map_var (vars : List Variable) : constants (vars.map .var) = [] := by
  induction vars with
  | nil => rfl
  | cons x vars ih => rw [List.map_cons, constants_cons_var, ih]

theorem Inscription.variableList_map_var (vars : List Variable) : variableList (vars.map .var) = vars := by
  induction vars with
  | nil => rfl
  | cons x vars ih => rw [List.map_cons, variableList_cons_var, ih]

theorem Inscription.noExpr_map_var (vars : List Variable) : NoExpr (vars.map .var) := by
  intro f hf
  obtain ⟨x, -, hx⟩ := List.mem_map.1 hf
  cases hx

/-! ### Both parts of the demand -/

/-- What is left of a place and the constants of its arc are the tokens that were there. -/
theorem Demand.IsFor.get?_eq_sum (h : d.IsFor tr m) (p : Place) : m.get? p =
    (d.marking.get? p).map fun left => left.sum (Bag.ofList (constants ((tr.input.get? p).getD []))) := by
  cases hl : tr.input.get? p with
  | none =>
    have hsum : ∀ left : Bag Value, left.sum (Bag.ofList []) = left := fun left =>
      Bag.ext_count fun v => by simp [Bag.count_sum, Bag.count_ofList]
    rw [h.other p hl, Option.getD_none, constants_nil]
    simp [hsum]
  | some l =>
    obtain ⟨-, available, left, hm, hleft, hcount⟩ := h.arc p l hl
    rw [hm, hleft, Option.map_some, Option.getD_some]
    refine congrArg some (Bag.ext_count fun v => ?_)
    rw [Bag.count_sum, Bag.count_ofList, hcount]

theorem Demand.IsFor.isOver {places : FinSet Place} (h : d.IsFor tr m) (hm : m.IsOver places) :
    d.marking.IsOver places := by
  refine Marking.isOver_iff.2 fun p => ?_
  rw [← Marking.isOver_iff.1 hm p, h.get?_eq_sum p, Option.isSome_map]

theorem Demand.IsFor.isSubset_constants (h : d.IsFor tr m) (hl : tr.input.get? p = some l) :
    (Bag.ofList (constants l)).isSubset ((m.get? p).getD ∅) = true := by
  obtain ⟨-, available, left, hm, -, hcount⟩ := h.arc p l hl
  refine Bag.isSubset_iff.2 fun v => ?_
  rw [hm, Option.getD_some, Bag.count_ofList, hcount]
  omega

/-- The values that an arc takes are there if and only if those of its variables are left. -/
theorem Demand.IsFor.isSubset_iff (h : d.IsFor tr m) (hl : tr.input.get? p = some l)
    (hB : ∀ x ∈ variableList l, B.contains x = true) : ∃ taken needed, tokens B l = .ok taken ∧
      tokens B ((variableList l).map .var) = .ok needed ∧
      (taken.isSubset ((m.get? p).getD ∅) = true ↔ needed.isSubset ((d.marking.get? p).getD ∅) = true) := by
  obtain ⟨hexpr, available, left, hm, hleft, hcount⟩ := h.arc p l hl
  obtain ⟨taken, htaken, htcount⟩ := exists_tokens hexpr hB
  obtain ⟨needed, hneeded, hncount⟩ :=
    exists_tokens (l := (variableList l).map .var) (noExpr_map_var _) (by rwa [variableList_map_var])
  rw [constants_map_var, variableList_map_var] at hncount
  refine ⟨taken, needed, htaken, hneeded, ?_⟩
  rw [hm, hleft, Option.getD_some, Option.getD_some, Bag.isSubset_iff, Bag.isSubset_iff]
  refine forall_congr' fun v => ?_
  have hnone : ([] : List Value).count v = 0 := List.count_nil
  rw [htcount, hncount, hcount, hnone]
  omega

/-! ### The demand of a built net -/

/-- There is a demand if and only if the marking has the constants of every input arc.  Then the constants are taken out of
it, the demand lists the variables of each arc that has any, and under every binding of the variables, the marking has what
an arc takes if and only if what is left has the values of its variables. -/
theorem Net.demand_outcome {places : List Place} {decls : List TransitionDeclaration}
    (hnet : Net.build places decls = .ok net) (ht : net.transition? t = some tr) (hm : m.IsOver net.places) :
    ∃ d?, net.demand t m = .ok d? ∧
      (d?.isSome = true ↔
        ∀ p l, tr.input.get? p = some l → (Bag.ofList (constants l)).isSubset ((m.get? p).getD ∅) = true) ∧
      ∀ d, d? = some d → d.marking.IsOver net.places ∧
        (∀ p, m.get? p =
          (d.marking.get? p).map fun left => left.sum (Bag.ofList (constants ((tr.input.get? p).getD [])))) ∧
        (∀ p, tr.input.get? p = none → d.marking.get? p = m.get? p) ∧
        (∀ p vars, d.input.get? p = some vars ↔ vars ≠ [] ∧ ∃ l, tr.input.get? p = some l ∧ variableList l = vars) ∧
        ∀ B : Binding, (∀ p l, tr.input.get? p = some l → ∀ x ∈ variableList l, B.contains x = true) →
          ∀ p l, tr.input.get? p = some l → ∃ taken needed, tokens B l = .ok taken ∧
            tokens B ((variableList l).map .var) = .ok needed ∧
            (taken.isSubset ((m.get? p).getD ∅) = true ↔ needed.isSubset ((d.marking.get? p).getD ∅) = true) := by
  obtain ⟨d?, hd⟩ := Net.exists_demand hnet ht fun p hp => hm.isSome (FinMap.contains_iff_mem_keys.2 hp)
  refine ⟨d?, hd, ?_, ?_⟩
  · cases d? with
    | none =>
      obtain ⟨p, l, available, v, hl, hp, hv⟩ := Net.exists_missing_of_demand ht hd
      refine ⟨fun h => absurd h Bool.false_ne_true, fun h => ?_⟩
      have hle := Bag.isSubset_iff.1 (h p l hl) v
      rw [hp, Option.getD_some, Bag.count_ofList] at hle
      omega
    | some d => exact iff_of_true rfl fun p l hl => (Net.demand_some ht hd).isSubset_constants hl
  · rintro d rfl
    have h : d.IsFor tr m := Net.demand_some ht hd
    exact ⟨h.isOver hm, h.get?_eq_sum, h.other, h.input_iff, fun B hB p l hl => h.isSubset_iff hl (hB p l hl)⟩

/-- Two places, one with a constant that stands twice on its arc and a variable that may take its value, too. -/
theorem Net.demand_outcome_twice :
    let one : Inscription := .const (.int 1)
    let tr : Transition := ⟨.ofList [("p", [one, .var "x", one]), ("q", [.const (.str "a")])], ∅, []⟩
    let net : Net := ⟨.ofList ["p", "q"], .ofList [("t", tr)]⟩
    let m : List Value → Marking := fun tokens => ⟨.ofList [("p", .ofList tokens), ("q", .ofList [.str "a"])]⟩
    (∃ d, net.demand "t" (m [.int 1, .int 1, .int 1, .int 2]) = .ok (some d) ∧ d.input.get? "p" = some ["x"] ∧
      d.input.get? "q" = none ∧ d.marking.get? "p" = some (.ofList [.int 1, .int 2]) ∧
      ∀ v : Value, ∃ taken needed, tokens (.ofList [("x", v)]) [one, .var "x", one] = .ok taken ∧
        tokens (.ofList [("x", v)]) [.var "x"] = .ok needed ∧
        (taken.isSubset (.ofList [.int 1, .int 1, .int 1, .int 2]) = true ↔
          needed.isSubset (.ofList [.int 1, .int 2]) = true)) ∧
    net.demand "t" (m [.int 1, .int 2, .int 3]) = .ok none := by
  intro one tr net m
  have hnet : Net.build ["p", "q"]
      [⟨"t", [⟨"p", .input, [one, .var "x", one]⟩, ⟨"q", .input, [.const (.str "a")]⟩], []⟩] = .ok net := by decide +kernel
  have ht : net.transition? "t" = some tr := by decide +kernel
  have hp : tr.input.get? "p" = some [one, .var "x", one] := by decide +kernel
  have hvariables : ∀ p l, tr.input.get? p = some l → ∀ x ∈ variableList l, x = "x" :=
    FinMap.forall_mem_entries.1 (by decide +kernel)
  obtain ⟨d?, hd, -, hsplit⟩ := Net.demand_outcome hnet ht
    (show (m [.int 1, .int 1, .int 1, .int 2]).IsOver net.places by decide +kernel)
  obtain ⟨few?, hfew, hsome, -⟩ := Net.demand_outcome hnet ht
    (show (m [.int 1, .int 2, .int 3]).IsOver net.places by decide +kernel)
  have hdemand : net.demand "t" (m [.int 1, .int 1, .int 1, .int 2]) =
      .ok (some ⟨.ofList [("p", ["x"])], ⟨.ofList [("p", .ofList [.int 1, .int 2]), ("q", ∅)]⟩⟩) := by decide +kernel
  obtain rfl := Except.ok.inj (hd.symm.trans hdemand)
  obtain ⟨-, -, -, -, hvalues⟩ := hsplit _ rfl
  refine ⟨⟨_, hdemand, by decide +kernel, by decide +kernel, by decide +kernel, fun v => ?_⟩, ?_⟩
  · refine hvalues (.ofList [("x", v)]) (fun p l hl x hx => ?_) "p" _ hp
    have hvalue : (FinMap.ofList [("x", v)]).get? "x" = some v := (FinMap.get?_ofList_eq_some (by simp)).2 (by simp)
    rw [hvariables p l hl x hx, FinMap.contains, hvalue]
    rfl
  · cases few? with
    | none => exact hfew
    | some d => exact absurd (hsome.1 rfl "p" _ hp) (by decide +kernel)

end TokenNet
