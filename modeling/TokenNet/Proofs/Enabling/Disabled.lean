import TokenNet.Proofs.Declaration
import TokenNet.Proofs.SessionCalls

/-!
# Transitions without the tokens that they take

If no binding takes tokens that are there, then nothing is enabled, and the result should be the empty set.  It is so as
long as no guard fails that is asked nevertheless.  The guards without variables are asked before any place is joined, and
the others about the bindings of the places that guards can constrain, before the remaining places are joined:
`Demand.Decides`.  Where one of them fails, its failure is the result: `Session.Reaches.enabledBindings_of_disabled`.
-/

namespace TokenNet

open Diagram Store Enabling

/-! ### Guards that decide -/

/-- Asked one after the other, until one of them is false, none of the guards fails. -/
def Guard.Decide (B : Binding) : List Guard → Prop
  | [] => True
  | g :: rest => ∃ keep, g.holds B = .ok keep ∧ (keep = true → Guard.Decide B rest)

/-- Whether a guard has no variables. -/
def Guard.isClosed (g : Guard) : Bool := g.vars.toOption.any (·.isEmpty)

/-- The guards decide where they are asked: those without variables, and then the others on all bindings that fit the
places which guards can constrain. -/
def Demand.Decides (d : Demand) (guards : List Guard) : Prop :=
  Guard.Decide ∅ (guards.filter Guard.isClosed) ∧ ∀ asked, openGuards guards = .ok (some asked) →
    ∀ B : Binding, B.Binds ((d.input.entries.filter fun e => !isDeferred d asked e).flatMap Prod.snd) →
      d.Fits (d.input.entries.filter fun e => !isDeferred d asked e) B → Guard.Decide B (asked.map Prod.fst)

/-- One of the guards fails with the error. -/
def Guard.Fails (guards : List Guard) (e : Error) : Prop :=
  ∃ g ∈ guards, ∃ B err, g.holds B = .error err ∧ e = .evaluation err

/-! ### How a computation ends -/

/-- The computation succeeds if and only if `C` holds, and fails as one of the guards does. -/
structure Outcome {α : Type} (x : SessionM α) (s : Session) (guards : List Guard) (C : Prop) : Prop where
  succeeds_iff : (∃ a, (x.run.run s).1 = .ok a) ↔ C
  error : ∀ e, (x.run.run s).1 = .error e → Guard.Fails guards e

section Outcome

variable {α β : Type} {x : SessionM α} {f : α → SessionM β} {s : Session} {guards : List Guard} {C D : Prop}

theorem outcome_of_ok {a : α} (h : (x.run.run s).1 = .ok a) (hC : C) : Outcome x s guards C := by
  refine ⟨⟨fun _ => hC, fun _ => ⟨a, h⟩⟩, fun e he => ?_⟩
  rw [h] at he
  cases he

theorem outcome_of_error {e : Error} (h : (x.run.run s).1 = .error e) (he : Guard.Fails guards e) (hC : ¬ C) :
    Outcome x s guards C := by
  refine ⟨⟨fun ⟨a, ha⟩ => ?_, fun hC' => absurd hC' hC⟩, fun e' he' => ?_⟩
  · rw [h] at ha
    cases ha
  · rw [h] at he'
    cases he'
    exact he

theorem Outcome.bind {P : α → Session → Prop} (hx : Outcome x s guards C) (hkept : Keeps x s P)
    (hf : ∀ a s', s.Grows s' → s'.Sound → P a s' → Outcome (f a) s' guards D) : Outcome (x >>= f) s guards (C ∧ D) := by
  have hbind := run_bind_state x f s
  rcases hrun : x.run.run s with ⟨e | a, s'⟩
  · rw [hrun] at hbind
    have hfails : Guard.Fails guards e := hx.error e (by rw [hrun])
    refine outcome_of_error (e := e) (by rw [hbind]) hfails fun hCD => ?_
    obtain ⟨a, ha⟩ := hx.succeeds_iff.2 hCD.1
    rw [hrun] at ha
    cases ha
  · rw [hrun] at hbind
    have hC : C := hx.succeeds_iff.1 ⟨a, by rw [hrun]⟩
    have hrest : Outcome (f a) s' guards D := by
      have hgrows := hkept.grows
      have hsound := hkept.sound
      have hP := hkept.result a (by rw [hrun])
      rw [hrun] at hgrows hsound hP
      exact hf a s' hgrows hsound hP
    refine ⟨?_, ?_⟩
    · rw [hbind, hrest.succeeds_iff]
      exact (and_iff_right hC).symm
    · rw [hbind]
      exact hrest.error

theorem Outcome.bind_of_ok {a : α} {u : Session} (h : x.run.run s = (.ok a, u)) (hf : Outcome (f a) u guards C) :
    Outcome (x >>= f) s guards C := by
  have hbind := run_bind_state x f s
  rw [h] at hbind
  refine ⟨?_, ?_⟩
  · rw [hbind]
    exact hf.succeeds_iff
  · rw [hbind]
    exact hf.error

theorem Outcome.bind_of_error {e : Error} {u : Session} (h : x.run.run s = (.error e, u)) (he : Guard.Fails guards e)
    (hC : ¬ C) : Outcome (x >>= f) s guards C := by
  have hbind := run_bind_state x f s
  rw [h] at hbind
  exact outcome_of_error (by rw [hbind]) he hC

/-- A computation on the store always succeeds. -/
theorem outcome_lift (y : StoreM Key Value α) : Outcome (liftM y : SessionM α) s guards True :=
  outcome_of_ok rfl trivial

theorem Outcome.congr (h : Outcome x s guards C) (hCD : C ↔ D) : Outcome x s guards D :=
  ⟨h.succeeds_iff.trans hCD, h.error⟩

theorem Outcome.of_subset {fewer : List Guard} (h : Outcome x s fewer C) (hsub : ∀ g ∈ fewer, g ∈ guards) :
    Outcome x s guards C := by
  refine ⟨h.succeeds_iff, fun e he => ?_⟩
  obtain ⟨g, hg, hfails⟩ := h.error e he
  exact ⟨g, hsub g hg, hfails⟩

end Outcome

/-! ### Asking the guards -/

section Asking

variable {guards : List Guard}

/-- Guards that can be read: without variables they are asked, in their order, and none of the others is. -/
theorem openGuards_cases (hv : ∀ g ∈ guards, ∃ vars, g.vars = .ok vars) :
    (∃ r, openGuards guards = .ok r ∧ Guard.Decide ∅ (guards.filter Guard.isClosed)) ∨
      ∃ g ∈ guards, ∃ e, g.holds ∅ = .error e ∧ openGuards guards = .error e ∧
        ¬ Guard.Decide ∅ (guards.filter Guard.isClosed) := by
  induction guards with
  | nil => exact .inl ⟨some [], rfl, trivial⟩
  | cons g rest ih =>
    have ih' := ih fun g' hg' => hv g' (List.mem_cons_of_mem g hg')
    obtain ⟨vars, hvars⟩ := hv g List.mem_cons_self
    have hclosed : g.isClosed = vars.isEmpty := by
      unfold Guard.isClosed
      rw [hvars]
      rfl
    rw [openGuards_cons hvars]
    by_cases hempty : vars.isEmpty = true
    · rw [if_pos hempty, List.filter_cons_of_pos (by rw [hclosed, hempty])]
      cases hg : g.holds ∅ with
      | error e =>
        refine .inr ⟨g, List.mem_cons_self, e, hg, rfl, ?_⟩
        rintro ⟨keep, hkeep, -⟩
        rw [hg] at hkeep
        cases hkeep
      | ok keep =>
        cases keep with
        | false => exact .inl ⟨none, rfl, false, hg, nofun⟩
        | true =>
          rcases ih' with ⟨r, hr, hdecide⟩ | ⟨g', hg', e, he, hrest, hnot⟩
          · exact .inl ⟨r, hr, true, hg, fun _ => hdecide⟩
          · refine .inr ⟨g', List.mem_cons_of_mem g hg', e, he, hrest, ?_⟩
            rintro ⟨keep, hkeep, hdecide⟩
            rw [hg] at hkeep
            cases hkeep
            exact hnot (hdecide rfl)
    · rw [if_neg hempty, List.filter_cons_of_neg (by rw [hclosed]; exact hempty)]
      rcases ih' with ⟨r, hr, hdecide⟩ | ⟨g', hg', e, he, hrest, hnot⟩
      · exact .inl ⟨_, by rw [hr]; rfl, hdecide⟩
      · exact .inr ⟨g', List.mem_cons_of_mem g hg', e, he, by rw [hrest]; rfl, hnot⟩

variable {s : Session} {o : KeyOrder} {X : List Variable} {P : Binding → Prop} {d : BindingDiagram}

/-- A filter fails as the guard does under a binding of the diagram. -/
theorem exists_of_applyGuard_error {g : Guard} {vars : FinSet Variable} (hv : g.vars = .ok vars) (hs : s.Sound)
    (hd : s.Has d) (h : Describes o X P d) {e : Error} (he : ((applyGuard o g vars d).run.run s).1 = .error e) :
    ∃ B err, B.Binds X ∧ P B ∧ g.holds B = .error err ∧ e = .evaluation err := by
  obtain ⟨hsift, -, -⟩ := (ensures_filter (sortOn id (vars.keys.map o.key))
    (fun path => g.holds (Binding.ofPath path)) hs hd).2.2
  have hrun : ((applyGuard o g vars d).run.run s).1 = (((Diagram.filter (sortOn id (vars.keys.map o.key))
      (fun path => g.holds (Binding.ofPath path)) d).run s).1.result).mapError .evaluation := rfl
  rw [hrun] at he
  cases hf : ((Diagram.filter (sortOn id (vars.keys.map o.key))
      (fun path => g.holds (Binding.ofPath path)) d).run s).1.result with
  | ok d' =>
    rw [hf] at he
    cases he
  | error err =>
    rw [hf] at he hsift
    cases he
    obtain ⟨before, l, after, hmaps, -, hl⟩ := sift_eq_error_iff.1 hsift.symm
    -- the guard fails on a map of the diagram, and so under its binding
    have hmem : l ∈ d.maps := by
      rw [hmaps]
      exact List.mem_append_right before List.mem_cons_self
    obtain ⟨m, hm, rfl⟩ := (hs.normal hd).mem_maps_iff.1 hmem
    obtain ⟨hkeys, hP⟩ := (h m).1 hm
    rw [holds_restrict hv hkeys] at hl
    exact ⟨_, err, hkeys.binds_ofPath, hP, hl, rfl⟩

/-- A filter succeeds if the guard has a verdict on all bindings of the diagram. -/
theorem outcome_applyGuard {g : Guard} {vars : FinSet Variable} (hv : g.vars = .ok vars) (hs : s.Sound) (hd : s.Has d)
    (h : Describes o X P d) :
    Outcome (applyGuard o g vars d) s [g] (∀ B : Binding, B.Binds X → P B → ∃ keep, g.holds B = .ok keep) := by
  cases hr : ((applyGuard o g vars d).run.run s).1 with
  | ok d' => exact outcome_of_ok hr ((keeps_applyGuard hv hs hd h).result d' hr).2.2
  | error e =>
    obtain ⟨B, err, hB, hP, herr, rfl⟩ := exists_of_applyGuard_error hv hs hd h hr
    refine outcome_of_error hr ⟨g, List.mem_cons_self, B, err, herr, rfl⟩ fun hall => ?_
    obtain ⟨keep, hkeep⟩ := hall B hB hP
    rw [herr] at hkeep
    cases hkeep

theorem outcome_applyGuard_unless {g : Guard} {vars : FinSet Variable} (hv : g.vars = .ok vars) (hs : s.Sound)
    (hd : s.Has d) (h : Describes o X P d) :
    Outcome (if d.isEmptySet then return d else applyGuard o g vars d) s [g]
      (∀ B : Binding, B.Binds X → P B → ∃ keep, g.holds B = .ok keep) := by
  by_cases hempty : d.isEmptySet = true
  · rw [if_pos hempty]
    obtain rfl := hd.isEmptySet_iff.1 hempty
    exact outcome_of_ok rfl fun B hB hP => absurd hP (h.not_of_emptySet B hB)
  · rw [if_neg hempty]
    exact outcome_applyGuard hv hs hd h

/-- The filters succeed if the guards decide on all bindings of the diagram. -/
theorem outcome_applyGuards {asked : List (Guard × FinSet Variable)} (hv : ∀ e ∈ asked, e.1.vars = .ok e.2)
    (hs : s.Sound) (hd : s.Has d) (h : Describes o X P d) :
    Outcome (asked.foldlM (fun r (g, vars) => if r.isEmptySet then return r else applyGuard o g vars r) d) s
      (asked.map Prod.fst) (∀ B : Binding, B.Binds X → P B → Guard.Decide B (asked.map Prod.fst)) := by
  induction asked generalizing s d P with
  | nil => exact outcome_of_ok rfl fun _ _ _ => trivial
  | cons e asked ih =>
    obtain ⟨g, vars⟩ := e
    have hg := hv (g, vars) List.mem_cons_self
    have hfirst := (outcome_applyGuard_unless hg hs hd h).of_subset fun g' hg' =>
      List.mem_cons.2 (.inl (List.mem_singleton.1 hg') : g' = g ∨ g' ∈ asked.map Prod.fst)
    rw [List.foldlM_cons]
    refine (hfirst.bind (keeps_applyGuard_unless hg hs hd h) fun d₁ s₁ _ hs₁ ⟨hd₁, hdesc, _⟩ =>
      (ih (fun e he => hv e (List.mem_cons_of_mem _ he)) hs₁ hd₁ hdesc).of_subset fun g' hg' =>
        List.mem_cons_of_mem g hg').congr ?_
    constructor
    · rintro ⟨hdecided, hrest⟩ B hB hP
      obtain ⟨keep, hkeep⟩ := hdecided B hB hP
      refine ⟨keep, hkeep, ?_⟩
      rintro rfl
      exact hrest B hB ⟨hP, hkeep⟩
    · intro hall
      refine ⟨fun B hB hP => ?_, fun B hB ⟨hP, hholds⟩ => ?_⟩
      · obtain ⟨keep, hkeep, -⟩ := hall B hB hP
        exact ⟨keep, hkeep⟩
      · obtain ⟨keep, hkeep, hrest⟩ := hall B hB hP
        obtain rfl : true = keep := Except.ok.inj (hholds.symm.trans hkeep)
        exact hrest rfl

/-- The deferred places are joined without asking a guard. -/
theorem outcome_joinDeferred (deferred : List BindingDiagram) (r : BindingDiagram) :
    Outcome (deferred.foldlM (fun r c => (liftM (Diagram.join r c) : SessionM BindingDiagram)) r) s guards True := by
  induction deferred generalizing r s with
  | nil => exact outcome_of_ok rfl trivial
  | cons c deferred ih =>
    rw [List.foldlM_cons]
    exact Outcome.bind_of_ok rfl (ih _)

end Asking

/-! ### The search -/

section Search

variable {t : TransitionName} {net : Net} {tr : Transition} {m : Marking} {s : Session}

/-- There is a place where variables are to be taken from, but no token is left. -/
def Demand.isStarved (d : Demand) : Bool := d.input.keys.any fun p => ((d.marking.get? p).getD ∅).isEmpty

/-- Where the places are joined and the open guards are asked, the search succeeds if the guards decide on what fits the
places that are not deferred. -/
theorem outcome_search {guards : List Guard} {o : KeyOrder} {d : Demand} {asked : List (Guard × FinSet Variable)} (hs : s.Sound)
    (hv : ∀ e ∈ asked, e.1 ∈ guards ∧ e.1.vars = .ok e.2) :
    Outcome (do
        let (joined, deferred) ← joinPlaces o d asked
        let filtered ← asked.foldlM
          (fun r (g, vars) => if r.isEmptySet then return r else applyGuard o g vars r) joined
        deferred.foldlM (fun r c => Diagram.join r c) filtered : SessionM BindingDiagram) s guards
      (∀ B : Binding, B.Binds ((d.input.entries.filter fun e => !isDeferred d asked e).flatMap Prod.snd) →
        d.Fits (d.input.entries.filter fun e => !isDeferred d asked e) B → Guard.Decide B (asked.map Prod.fst)) := by
  have hvars : ∀ e ∈ asked, e.1.vars = .ok e.2 := fun e he => (hv e he).2
  have hsub : ∀ g ∈ asked.map Prod.fst, g ∈ guards := by
    intro g hg
    obtain ⟨e, he, rfl⟩ := List.mem_map.1 hg
    exact (hv e he).1
  refine ((outcome_lift _).bind (keeps_lift (ensures_joinPlaces o d asked hs)) fun r s₁ _ hs₁ ⟨hr, hdesc, _⟩ => ?_).congr
    (iff_of_eq (true_and _))
  have hasked := (outcome_applyGuards hvars hs₁ hr hdesc).of_subset hsub
  exact (hasked.bind (keeps_applyGuards hvars hs₁ hr hdesc) fun d₁ s₂ _ _ _ => outcome_joinDeferred _ _).congr
    (iff_of_eq (and_true _))

/-- The search for the enabled bindings succeeds if the guards decide where they are asked, and they are not asked if a
constant or the tokens for the variables of some place are missing. -/
theorem Net.outcome_enabledBindings {d? : Option Demand} (hs : s.Sound) (ht : net.transition? t = some tr)
    (hv : ∀ g ∈ tr.guards, ∃ vars, g.vars = .ok vars) (hdemand : net.demand t m = .ok d?) :
    Outcome (net.enabledBindings t m) s tr.guards
      (∀ d, d? = some d → d.isStarved = false → d.Decides tr.guards) := by
  unfold Net.enabledBindings
  refine Outcome.bind_of_ok (a := d?) (u := s) (by rw [hdemand]; rfl) ?_
  cases d? with
  | none => exact outcome_of_ok rfl nofun
  | some d =>
    refine Outcome.congr (C := d.isStarved = false → d.Decides tr.guards) ?_ (by simp)
    change Outcome (if d.isStarved = true then _ else _) _ _ _
    by_cases hempty : d.isStarved = true
    · rw [if_pos hempty]
      exact outcome_of_ok rfl fun h => absurd (hempty.symm.trans h) nofun
    · have hfed : d.isStarved = false := by simpa using hempty
      rw [if_neg hempty]
      refine Outcome.congr (C := d.Decides tr.guards) ?_ (by simp [hfed])
      refine Outcome.bind_of_ok (a := tr) (u := s) (by rw [Net.transition_eq_ok.2 ht]; rfl) ?_
      -- the guards without variables come before the places
      rcases openGuards_cases hv with ⟨r, hopen, hdecide⟩ | ⟨g, hg, e, he, hopen, hnot⟩
      · refine Outcome.bind_of_ok (a := r) (u := s) (by rw [hopen]; rfl) ?_
        cases r with
        | none =>
          refine outcome_of_ok rfl ⟨hdecide, fun asked hasked => ?_⟩
          rw [hopen] at hasked
          cases hasked
        | some asked =>
          obtain ⟨hasked, -⟩ := openGuards_some hopen
          obtain ⟨o, ho⟩ : ∃ o, KeyOrder.ofGuards tr.inputVariables tr.guards = .ok o := by
            obtain ⟨vars, hvars⟩ := exists_mapM hv
            unfold KeyOrder.ofGuards
            rw [hvars]
            exact ⟨_, rfl⟩
          refine Outcome.bind_of_ok (a := o) (u := s) (by rw [ho]; rfl) ?_
          refine (outcome_search hs hasked).congr ?_
          constructor
          · intro hall
            refine ⟨hdecide, fun asked' hasked' => ?_⟩
            rw [hopen] at hasked'
            cases hasked'
            exact hall
          · intro hdecides
            exact hdecides.2 asked hopen
      · refine Outcome.bind_of_error (e := .evaluation e) (u := s) (by rw [hopen]; rfl) ⟨g, hg, ∅, e, he, rfl⟩ ?_
        exact fun hdecides => hnot hdecides.1

end Search

/-! ### Nothing but the empty set -/

section Disabled

variable {s : Session} {net : Net} {t : TransitionName} {tr : Transition} {m : Marking}

/-- However a session was used: a transition whose tokens are not there has the empty set of enabled bindings if and only
if its guards decide where they are asked, and the failure of a guard is the result otherwise. -/
theorem Session.Reaches.enabledBindings_of_disabled {places : List Place} {decls : List TransitionDeclaration}
    (hs : Reaches {} s) (hnet : Net.build places decls = .ok net) (ht : net.transition? t = some tr)
    (hv : ∀ g ∈ tr.guards, ∃ vars, g.vars = .ok vars)
    (hm : ∀ p ∈ net.places.keys, (m.get? p).isSome = true)
    (hdisabled : ∀ B : Binding, B.Binds tr.inputVariables → ¬ tr.Covers m B) :
    (((net.enabledBindings t m).run.run s).1 = .ok .emptySet ↔
      ∀ d, net.demand t m = .ok (some d) → d.isStarved = false → d.Decides tr.guards) ∧
    (((net.enabledBindings t m).run.run s).1 ≠ .ok .emptySet →
      ∃ e, ((net.enabledBindings t m).run.run s).1 = .error e ∧ Guard.Fails tr.guards e) := by
  obtain ⟨d?, hdemand⟩ := Net.exists_demand hnet ht hm
  have houtcome := Net.outcome_enabledBindings hs.sound ht hv hdemand
  have hkept := net.keeps_enabledBindings t m hs.sound
  -- where the search succeeds it finds what is enabled, which is nothing
  have hempty : ∀ d, ((net.enabledBindings t m).run.run s).1 = .ok d → d = .emptySet := by
    intro d hd
    obtain ⟨hhas, tr', o, ht', hlists⟩ := hkept.result d hd
    obtain rfl : tr = tr' := Option.some.inj (ht.symm.trans ht')
    have hnone : d.isEmptySet = true :=
      (hlists.isEmptySet_iff hkept.sound hhas).2 fun B hB => hdisabled B hB.binds hB.covers
    exact hhas.isEmptySet_iff.1 hnone
  refine ⟨?_, fun hne => ?_⟩
  · rw [hdemand]
    simp only [Except.ok.injEq]
    rw [← houtcome.succeeds_iff]
    constructor
    · exact fun h => ⟨.emptySet, h⟩
    · rintro ⟨d, hd⟩
      rw [hd, hempty d hd]
  · cases hr : ((net.enabledBindings t m).run.run s).1 with
    | error e => exact ⟨e, rfl, houtcome.error e hr⟩
    | ok d => exact absurd (hr.trans (congrArg Except.ok (hempty d hr))) hne

/-- The net of the transition alone, without its guards. -/
def Transition.unguarded (tr : Transition) (t : TransitionName) : Net :=
  ⟨∅, FinMap.insert ∅ t { tr with guards := [] }⟩

/-- If nothing would be enabled without the guards, then the tokens are not there. -/
theorem Transition.not_covers_of_unguarded
    (h : (((tr.unguarded t).enabledBindings t m).run.run {}).1.map bindings = .ok []) (B : Binding)
    (hB : B.Binds tr.inputVariables) : ¬ tr.Covers m B := by
  intro hcovers
  rcases hrun : ((tr.unguarded t).enabledBindings t m).run.run {} with ⟨e | d, s'⟩
  · rw [hrun] at h
    cases h
  · rw [hrun] at h
    obtain ⟨tr', ht', -, hmem⟩ := Session.Reaches.mem_bindings (.refl {}) hrun
    have ht : (tr.unguarded t).transition? t = some { tr with guards := [] } := FinMap.get?_insert_self _ _ _
    obtain rfl := Option.some.inj (ht.symm.trans ht')
    have hnil : bindings d = [] := Except.ok.inj h
    have henabled : B ∈ bindings d := (hmem B).2 ⟨hB, hcovers, fun g hg => absurd hg List.not_mem_nil⟩
    rw [hnil] at henabled
    cases henabled

theorem Session.Reaches.enabledBindings_of_disabled_pair :
    let x : Inscription := .var "x"
    let guards : List Guard := [⟨.expr (.ofText "6 / x"), .const (.int 3)⟩]
    let tr : Transition := ⟨.ofList [("p", [x, x])], ∅, guards⟩
    let net : Net := ⟨.ofList ["p"], .ofList [("t", tr)]⟩
    let m : Marking := ⟨.ofList [("p", .ofList [.int 0, .int 2])]⟩
    Net.build ["p"] [⟨"t", [⟨"p", .input, [x, x]⟩], guards⟩] = .ok net ∧
      (∀ B : Binding, B.Binds tr.inputVariables → ¬ tr.Covers m B) ∧
      ((net.enabledBindings "t" m).run.run {}).1 = .ok .emptySet ∧
      ∀ d, net.demand "t" m = .ok (some d) → d.isStarved = false → d.Decides tr.guards := by
  intro x guards tr net m
  have hbuild : Net.build ["p"] [⟨"t", [⟨"p", .input, [x, x]⟩], guards⟩] = .ok net := by decide +kernel
  have hv : ∀ g ∈ tr.guards, ∃ vars, g.vars = .ok vars := by
    intro g hg
    obtain rfl := List.mem_singleton.1 hg
    exact ⟨.ofList ["x"], by decide +kernel⟩
  have hm : ∀ p ∈ net.places.keys, (m.get? p).isSome = true := by decide +kernel
  have ht : net.transition? "t" = some tr := by decide +kernel
  have hdisabled : ∀ B : Binding, B.Binds tr.inputVariables → ¬ tr.Covers m B :=
    Transition.not_covers_of_unguarded (t := "t") (by decide +kernel)
  have hfound : ((net.enabledBindings "t" m).run.run {}).1.toOption.isSome = true := by decide +kernel
  obtain ⟨hiff, herror⟩ := enabledBindings_of_disabled (.refl {}) hbuild ht hv hm hdisabled
  have hempty : ((net.enabledBindings "t" m).run.run {}).1 = .ok .emptySet := by
    by_contra hne
    obtain ⟨e, he, -⟩ := herror hne
    rw [he] at hfound
    cases hfound
  exact ⟨hbuild, hdisabled, hempty, hiff.1 hempty⟩

/-- A guard without variables is asked although the two tokens that the arc takes are not there. -/
theorem Session.enabledBindings_error_of_disabled :
    let x : Inscription := .var "x"
    let guards : List Guard := [⟨.expr (.ofText "1 / 0"), .const (.int 1)⟩]
    let tr : Transition := ⟨.ofList [("p", [x, x])], ∅, guards⟩
    let net : Net := ⟨.ofList ["p"], .ofList [("t", tr)]⟩
    let m : Marking := ⟨.ofList [("p", .ofList [.int 1, .int 2])]⟩
    Net.build ["p"] [⟨"t", [⟨"p", .input, [x, x]⟩], guards⟩] = .ok net ∧
      (∀ g ∈ tr.guards, ∃ vars, g.vars = .ok vars) ∧ net.marking [("p", .ofList [.int 1, .int 2])] = .ok m ∧
      (∀ B : Binding, B.Binds tr.inputVariables → ¬ tr.Covers m B) ∧
      ((net.enabledBindings "t" m).run.run {}).1 = .error (.evaluation .divisionByZero) := by
  intro x guards tr net m
  have hv : ∀ g ∈ tr.guards, ∃ vars, g.vars = .ok vars := by
    intro g hg
    obtain rfl := List.mem_singleton.1 hg
    exact ⟨∅, by decide +kernel⟩
  have hdisabled : ∀ B : Binding, B.Binds tr.inputVariables → ¬ tr.Covers m B :=
    Transition.not_covers_of_unguarded (t := "t") (by decide +kernel)
  have herror : ((net.enabledBindings "t" m).run.run {}).1.map bindings = .error (.evaluation .divisionByZero) := by
    decide +kernel
  exact ⟨by decide +kernel, hv, by decide +kernel, hdisabled, map_eq_error.1 herror⟩

end Disabled

end TokenNet
