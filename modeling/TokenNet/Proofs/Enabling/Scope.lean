import TokenNet.Proofs.Eliminations
import TokenNet.Proofs.Enabling.Disabled
import TokenNet.Proofs.SimplificationFailures

/-!
# Variables that are not bound

An evaluation can only miss a variable that occurs and that the binding does not bind: `Guard.returns_holds`.  The search
for enabled bindings asks a guard about bindings of all variables on the input arcs that it has, whichever places are
deferred, so the only variables it ever misses are those of a guard that are on no input arc:
`Session.Reaches.scope_of_unbound`.
-/

namespace TokenNet

open Diagram Store Enabling

/-! ### Operators -/

/-- The error is not that of an unbound variable. -/
def EvaluationError.IsBound (e : EvaluationError) : Prop := ∀ x, e ≠ .unbound x

theorem Value.returns_ofExact (z : Int) : Returns (Value.ofExact z) (fun _ => True) EvaluationError.IsBound := by
  unfold Value.ofExact
  split
  · exact .of_ok trivial
  · exact .of_error nofun

theorem UnaryOp.returns_apply (op : UnaryOp) (v : Value) :
    Returns (op.apply v) (fun _ => True) EvaluationError.IsBound := by
  unfold UnaryOp.apply
  split
  · exact Value.returns_ofExact _
  · exact .of_ok trivial
  · exact .of_error nofun

theorem BinaryOp.returns_condition (op : BinaryOp) (v : Value) :
    Returns (op.condition v) (fun _ => True) EvaluationError.IsBound := by
  unfold BinaryOp.condition
  split
  · exact .of_ok trivial
  · exact .of_error nofun

theorem BinaryOp.returns_apply (op : BinaryOp) (v w : Value) :
    Returns (op.apply v w) (fun _ => True) EvaluationError.IsBound := by
  have hzero : ∀ {n : Int64} {x : Except EvaluationError Value}, Returns x (fun _ => True) EvaluationError.IsBound →
      Returns (if n = 0 then .error .divisionByZero else x) (fun _ => True) EvaluationError.IsBound := by
    intro n x hx
    split
    · exact .of_error nofun
    · exact hx
  unfold BinaryOp.apply
  split
  all_goals first
    | exact .of_ok trivial
    | exact Value.returns_ofExact _
    | exact hzero (Value.returns_ofExact _)
    | exact hzero ((Value.returns_ofExact _).bind fun _ _ => Value.returns_ofExact _)
    | exact .of_error nofun

/-! ### Evaluations -/

/-- If the error is that of an unbound variable, then the variable occurs, and the binding does not bind it. -/
def EvaluationError.Misses (B : Binding) (Occurs : Variable → Prop) (e : EvaluationError) : Prop :=
  ∀ x, e = .unbound x → Occurs x ∧ B.get? x = none

section Evaluation

variable {B : Binding}

theorem EvaluationError.IsBound.misses {e : EvaluationError} (h : e.IsBound) (Occurs : Variable → Prop) :
    e.Misses B Occurs := fun x hx => absurd hx (h x)

theorem EvaluationError.Misses.imp {e : EvaluationError} {Occurs Occurs' : Variable → Prop} (h : e.Misses B Occurs)
    (hoccurs : ∀ x, Occurs x → Occurs' x) : e.Misses B Occurs' := fun x hx => ⟨hoccurs x (h x hx).1, (h x hx).2⟩

theorem Binding.returns_value (B : Binding) (x : Variable) :
    Returns (B.value x) (fun _ => True) (EvaluationError.Misses B (· = x)) := by
  unfold Binding.value
  cases h : B.get? x with
  | some v => exact .of_ok trivial
  | none =>
    apply Returns.of_error
    intro y hy
    cases hy
    exact ⟨rfl, h⟩

theorem Expr.returns_evaluate (B : Binding) (e : Expr) :
    Returns (e.evaluate B) (fun _ => True) (EvaluationError.Misses B fun x => e.mentions x = true) := by
  induction e with
  | lit v => exact .of_ok trivial
  | var y =>
    refine (B.returns_value y).imp (fun _ => id) fun e he => he.imp fun x hx => ?_
    simp [mentions, hx]
  | unary op e ih =>
    rw [evaluate]
    exact ih.bind fun v _ => (op.returns_apply v).imp (fun _ => id) fun e he => he.misses _
  | binary op l r ihl ihr =>
    have hl : Returns (l.evaluate B) (fun _ => True)
        (EvaluationError.Misses B fun x => (binary op l r).mentions x = true) :=
      ihl.imp (fun _ => id) fun e he => he.imp fun x hx => by simp [mentions, hx]
    have hr : Returns (r.evaluate B) (fun _ => True)
        (EvaluationError.Misses B fun x => (binary op l r).mentions x = true) :=
      ihr.imp (fun _ => id) fun e he => he.imp fun x hx => by simp [mentions, hx]
    have hcondition : ∀ (op' : BinaryOp) (v : Value), Returns (op'.condition v) (fun _ => True)
        (EvaluationError.Misses B fun x => (binary op l r).mentions x = true) :=
      fun op' v => (op'.returns_condition v).imp (fun _ => id) fun e he => he.misses _
    rw [evaluate]
    refine hl.bind fun v _ => ?_
    split
    · refine (hcondition _ v).bind fun b _ => ?_
      cases b with
      | true => exact hr.bind fun w _ => (hcondition _ w).bind fun _ _ => .of_ok trivial
      | false => exact .of_ok trivial
    · refine (hcondition _ v).bind fun b _ => ?_
      cases b with
      | true => exact .of_ok trivial
      | false => exact hr.bind fun w _ => (hcondition _ w).bind fun _ _ => .of_ok trivial
    · exact hr.bind fun w _ => (BinaryOp.returns_apply _ v w).imp (fun _ => id) fun e he => he.misses _

theorem Inscription.returns_evaluate {i : Inscription} {vs : FinSet Variable} (hv : i.vars = .ok vs) (B : Binding) :
    Returns (i.evaluate B) (fun _ => True) (EvaluationError.Misses B fun x => vs.contains x = true) := by
  cases i with
  | var y =>
    cases hv
    refine (B.returns_value y).imp (fun _ => id) fun e he => he.imp fun x hx => ?_
    exact (FinSet.contains_ofList [y] x).2 (by simp [hx])
  | const v => exact .of_ok trivial
  | expr f =>
    obtain ⟨e, hread, rfl⟩ := Formula.reading_of_vars hv
    change Returns (f.reading >>= fun e => e.evaluate B) _ _
    rw [hread]
    refine (e.returns_evaluate B).imp (fun _ => id) fun err herr => herr.imp fun x hx => ?_
    rwa [Expr.contains_vars]

/-- A guard misses only variables that it has and that are not bound. -/
theorem Guard.returns_holds {g : Guard} {vs : FinSet Variable} (hv : g.vars = .ok vs) (B : Binding) :
    Returns (g.holds B) (fun _ => True) (EvaluationError.Misses B fun x => vs.contains x = true) := by
  obtain ⟨l, r, hl, hr, hvs⟩ := Guard.contains_vars hv
  have hleft := (Inscription.returns_evaluate hl B).imp (fun _ => id) fun e he => he.imp fun x hx => (hvs x).2 (.inl hx)
  have hright := (Inscription.returns_evaluate hr B).imp (fun _ => id) fun e he => he.imp fun x hx => (hvs x).2 (.inr hx)
  unfold Guard.holds
  split
  · exact .of_ok trivial
  · exact hleft.bind fun _ _ => hright.bind fun _ _ => .of_ok trivial

end Evaluation

/-! ### Reading the guards -/

/-- Variables of guards are told without a binding. -/
theorem Guard.returns_vars (g : Guard) : Returns g.vars (fun vs => g.vars = .ok vs) EvaluationError.IsBound := by
  have hside : ∀ i : Inscription, Returns i.vars (fun _ => True) EvaluationError.IsBound := by
    intro i
    cases i with
    | var x => exact .of_ok trivial
    | const v => exact .of_ok trivial
    | expr f =>
      refine Returns.bind (P := fun _ => True) ⟨fun _ _ => trivial, fun e he => ?_⟩ fun _ _ => .of_ok trivial
      rw [f.reading_eq] at he
      obtain ⟨failure, rfl⟩ := Expr.exists_of_parse_eq_error he
      exact nofun
  have hall : Returns g.vars (fun _ => True) EvaluationError.IsBound :=
    (hside g.left).bind fun _ _ => (hside g.right).bind fun _ _ => .of_ok trivial
  exact hall.eq

theorem KeyOrder.returns_ofGuards (vars : List Variable) (guards : List Guard) :
    Returns (KeyOrder.ofGuards vars guards) (fun _ => True) EvaluationError.IsBound := by
  unfold KeyOrder.ofGuards
  exact (returns_mapM fun g _ => g.returns_vars.error).bind fun _ _ => .of_ok trivial

/-- A guard that is asked before the places are joined has no variables. -/
theorem Enabling.returns_openGuards (guards : List Guard) :
    Returns (openGuards guards) (fun _ => True) EvaluationError.IsBound := by
  induction guards with
  | nil => exact .of_ok trivial
  | cons g rest ih =>
    unfold openGuards
    refine g.returns_vars.bind fun vars hv => ?_
    split
    · rename_i hempty
      have hclosed : Returns (g.holds ∅) (fun _ => True) EvaluationError.IsBound := by
        refine (Guard.returns_holds hv ∅).imp (fun _ => id) fun e he x hx => ?_
        have hmem : vars.contains x = true := (he x hx).1
        rw [FinSet.contains_of_isEmpty hempty x] at hmem
        cases hmem
      refine hclosed.bind fun keep _ => ?_
      cases keep with
      | true => exact ih
      | false => exact .of_ok trivial
    · exact ih.bind fun _ _ => .of_ok trivial

/-! ### The search for enabled bindings -/

/-- Whatever error ends the computation satisfies `E`. -/
def FailsAs {α : Type} (x : SessionM α) (s : Session) (E : Error → Prop) : Prop := ∀ e, (x.run.run s).1 = .error e → E e

/-- If the error is that of an unbound variable, then `L` holds of the variable. -/
def Error.Concerns (L : Variable → Prop) (e : Error) : Prop := ∀ x, e = .evaluation (.unbound x) → L x

/-- The variable occurs in a guard and on no input arc. -/
structure Transition.IsLoose (tr : Transition) (x : Variable) : Prop where
  guard : ∃ g ∈ tr.guards, ∃ vs, g.vars = .ok vs ∧ vs.contains x = true
  input : x ∉ tr.inputVariables

section Search

variable {α β : Type} {x : SessionM α} {f : α → SessionM β} {s : Session} {E : Error → Prop} {L : Variable → Prop}

theorem FailsAs.bind {P : α → Session → Prop} (hx : FailsAs x s E) (hkept : Keeps x s P)
    (hf : ∀ a s', s'.Sound → P a s' → FailsAs (f a) s' E) : FailsAs (x >>= f) s E := by
  intro e he
  cases hrun : (x.run.run s).1 with
  | error e' =>
    rw [run_bind_of_error hrun] at he
    cases he
    exact hx e hrun
  | ok a =>
    rw [run_bind_of_ok hrun] at he
    exact hf a _ hkept.sound (hkept.result a hrun) e he

theorem failsAs_pure (a : α) : FailsAs (pure a) s E := fun _ he => by cases he

theorem failsAs_lift (y : StoreM Key Value α) : FailsAs (liftM y) s E := fun _ he => by cases he

theorem failsAs_ofStructural (r : Except StructuralError α) : FailsAs (SessionM.ofStructural r) s (Error.Concerns L) := by
  intro e he x hx
  cases r <;> cases he
  cases hx

theorem failsAs_ofEvaluation {r : Except EvaluationError α} {P : α → Prop} (h : Returns r P EvaluationError.IsBound) :
    FailsAs (SessionM.ofEvaluation r) s (Error.Concerns L) := by
  intro e he x hx
  cases r <;> cases he
  cases hx
  exact absurd rfl (h.error _ rfl x)

section Guards

variable {o : KeyOrder} {X : List Variable} {P : Binding → Prop} {d : BindingDiagram}

/-- A filter on bindings of the variables `X` misses at most the other variables of the guard. -/
theorem failsAs_applyGuard {g : Guard} {vars : FinSet Variable} (hv : g.vars = .ok vars) (hs : s.Sound) (hd : s.Has d)
    (h : Describes o X P d) (hL : ∀ x, vars.contains x = true → x ∉ X → L x) :
    FailsAs (applyGuard o g vars d) s (Error.Concerns L) := by
  intro e he x hx
  obtain ⟨B, err, hB, -, herr, rfl⟩ := exists_of_applyGuard_error hv hs hd h he
  cases hx
  obtain ⟨hvar, hnone⟩ := (Guard.returns_holds hv B).error _ herr x rfl
  apply hL x hvar
  intro hmem
  have hbound := (hB x).2 hmem
  simp [FinMap.contains, hnone] at hbound

theorem failsAs_applyGuard_unless {g : Guard} {vars : FinSet Variable} (hv : g.vars = .ok vars) (hs : s.Sound)
    (hd : s.Has d) (h : Describes o X P d) (hL : ∀ x, vars.contains x = true → x ∉ X → L x) :
    FailsAs (if d.isEmptySet then return d else applyGuard o g vars d) s (Error.Concerns L) := by
  by_cases hempty : d.isEmptySet = true
  · rw [if_pos hempty]
    exact failsAs_pure d
  · rw [if_neg hempty]
    exact failsAs_applyGuard hv hs hd h hL

theorem failsAs_applyGuards {asked : List (Guard × FinSet Variable)} (hv : ∀ e ∈ asked, e.1.vars = .ok e.2) (hs : s.Sound)
    (hd : s.Has d) (h : Describes o X P d) (hL : ∀ e ∈ asked, ∀ x, e.2.contains x = true → x ∉ X → L x) :
    FailsAs (asked.foldlM (fun r (g, vars) => if r.isEmptySet then return r else applyGuard o g vars r) d) s
      (Error.Concerns L) := by
  induction asked generalizing s d P with
  | nil => exact failsAs_pure d
  | cons e asked ih =>
    obtain ⟨g, vars⟩ := e
    have hg := hv (g, vars) List.mem_cons_self
    have hfirst := failsAs_applyGuard_unless hg hs hd h (hL (g, vars) List.mem_cons_self)
    rw [List.foldlM_cons]
    refine hfirst.bind (keeps_applyGuard_unless hg hs hd h) fun d₁ s₁ hs₁ ⟨hd₁, hdesc, _⟩ => ?_
    exact ih (fun e he => hv e (List.mem_cons_of_mem _ he)) hs₁ hd₁ hdesc fun e he => hL e (List.mem_cons_of_mem _ he)

theorem failsAs_joinDeferred (deferred : List BindingDiagram) (r : BindingDiagram) :
    FailsAs (deferred.foldlM (fun r c => (liftM (Diagram.join r c) : SessionM BindingDiagram)) r) s E := by
  have houtcome : Outcome _ s [] True := outcome_joinDeferred deferred r
  obtain ⟨d, hd⟩ := houtcome.succeeds_iff.2 trivial
  intro e he
  rw [hd] at he
  cases he

end Guards

/-- A place that is not deferred binds its variables before a guard is asked, and no guard has those of the others. -/
theorem Enabling.not_mem_inputVariables {tr : Transition} {m : Marking} {d : Demand}
    {asked : List (Guard × FinSet Variable)} (h : d.IsFor tr m) {g : Guard × FinSet Variable} (hg : g ∈ asked)
    {x : Variable} (hx : g.2.contains x = true)
    (hnot : x ∉ (d.input.entries.filter fun e => !isDeferred d asked e).flatMap Prod.snd) : x ∉ tr.inputVariables := by
  intro hmem
  obtain ⟨e, he, hxe⟩ := List.mem_flatMap.1 (h.mem_flatMap_variables.2 hmem)
  by_cases hdeferred : isDeferred d asked e = true
  · rw [not_contains_of_isDeferred hdeferred hxe hg] at hx
    cases hx
  · apply hnot
    exact List.mem_flatMap.2 ⟨e, List.mem_filter.2 ⟨he, by simpa using hdeferred⟩, hxe⟩

/-- The search misses at most variables of a guard that are on no input arc. -/
theorem Net.failsAs_enabledBindings (net : Net) (t : TransitionName) (m : Marking) (hs : s.Sound) :
    FailsAs (net.enabledBindings t m) s
      (Error.Concerns fun x => ∃ tr, net.transition? t = some tr ∧ tr.IsLoose x) := by
  unfold Net.enabledBindings
  refine (failsAs_ofStructural _).bind
    (keeps_ofStructural (P := fun d? _ => net.demand t m = .ok d?) hs fun d? hd? => hd?) fun d? s₁ hs₁ hdemand => ?_
  cases d? with
  | none => exact failsAs_pure _
  | some d =>
    dsimp only
    split
    · exact failsAs_pure _
    refine (failsAs_ofStructural _).bind
      (keeps_ofStructural (P := fun tr _ => net.transition? t = some tr) hs₁ fun tr htr => Net.transition_eq_ok.1 htr)
      fun tr s₂ hs₂ ht => ?_
    have hfor := Net.demand_some ht hdemand
    refine (failsAs_ofEvaluation (returns_openGuards tr.guards)).bind
      (keeps_ofEvaluation (P := fun g? _ => openGuards tr.guards = .ok g?) hs₂ fun g? hg? => hg?) fun g? s₃ hs₃ hopen => ?_
    cases g? with
    | none => exact failsAs_pure _
    | some asked =>
      obtain ⟨hv, -⟩ := openGuards_some hopen
      have hvars : ∀ e ∈ asked, e.1.vars = .ok e.2 := fun e he => (hv e he).2
      refine (failsAs_ofEvaluation (KeyOrder.returns_ofGuards tr.inputVariables tr.guards)).bind
        (keeps_ofEvaluation (P := fun _ _ => True) hs₃ fun _ _ => trivial) fun o s₄ hs₄ _ => ?_
      -- the guards are asked about bindings of the variables at the places that are not deferred
      refine (failsAs_lift _).bind (keeps_lift (ensures_joinPlaces o d asked hs₄)) fun r s₅ hs₅ ⟨hr, hdesc, _⟩ => ?_
      refine (failsAs_applyGuards hvars hs₅ hr hdesc fun e he x hx hnot => ?_).bind
        (keeps_applyGuards hvars hs₅ hr hdesc) fun _ _ _ _ => failsAs_joinDeferred _ _
      exact ⟨tr, ht, ⟨e.1, (hv e he).1, e.2, (hv e he).2, hx⟩, not_mem_inputVariables hfor he hx hnot⟩

end Search

/-! ### Nets that have been built -/

/-- If a search for enabled bindings misses a variable, then a guard of the transition has it, and no inscription of an
input arc does.  So it misses none if all variables of guards are on input arcs. -/
theorem Session.Reaches.scope_of_unbound {s : Session} (hs : Reaches {} s) {places : List Place}
    {decls : List TransitionDeclaration} {net : Net} (hnet : Net.build places decls = .ok net) (t : TransitionName)
    (m : Marking) :
    (∀ x, ((net.enabledBindings t m).run.run s).1 = .error (.evaluation (.unbound x)) →
      ∃ tr, net.transition? t = some tr ∧ (∃ g ∈ tr.guards, ∃ vs, g.vars = .ok vs ∧ vs.contains x = true) ∧
        ∀ p l, tr.input.get? p = some l → ∀ i ∈ l, i.Lacks x) ∧
    ((∀ tr, net.transition? t = some tr → ∀ g ∈ tr.guards, ∀ vs, g.vars = .ok vs →
        ∀ x, vs.contains x = true → tr.input.Mentions x) →
      ∀ x, ((net.enabledBindings t m).run.run s).1 ≠ .error (.evaluation (.unbound x))) := by
  have hloose : ∀ x, ((net.enabledBindings t m).run.run s).1 = .error (.evaluation (.unbound x)) →
      ∃ tr, net.transition? t = some tr ∧ tr.IsLoose x :=
    fun x hx => net.failsAs_enabledBindings t m hs.sound _ hx x rfl
  constructor
  · intro x hx
    obtain ⟨tr, ht, hguard, hinput⟩ := hloose x hx
    refine ⟨tr, ht, hguard, fun p l hl i hi => ?_⟩
    cases i with
    | var y =>
      apply Inscription.lacks_var.2
      rintro rfl
      exact hinput (Transition.mem_inputVariables_iff.2 ⟨p, l, hl, hi⟩)
    | const v => exact Inscription.lacks_const v x
    | expr f => exact absurd hi (Net.plain_of_build hnet t tr ht p l hl f)
  · intro hguards x hx
    obtain ⟨tr, ht, ⟨g, hg, vs, hvs, hcontains⟩, hinput⟩ := hloose x hx
    exact hinput (Transition.mem_inputVariables_iff.2 (hguards tr ht g hg vs hvs x hcontains))

/-- The place of `y` is deferred in both transitions; a guard of the first one has a variable `z` that is on no arc. -/
theorem Session.Reaches.scope_of_unbound_deferred :
    let x : Inscription := .var "x"
    let y : Inscription := .var "y"
    let arcs : List ArcDeclaration := [⟨"p", .input, [x, x]⟩, ⟨"q", .input, [y]⟩]
    let sum : Guard := ⟨.const (.int 3), .expr (.ofText "x + z")⟩
    let double : Guard := ⟨.const (.int 4), .expr (.ofText "x + x")⟩
    let input : Arcs := .ofList [("p", [x, x]), ("q", [y])]
    let net : Net := ⟨.ofList ["p", "q"], .ofList [("t", ⟨input, ∅, [sum]⟩), ("u", ⟨input, ∅, [double]⟩)]⟩
    let m : Marking := ⟨.ofList [("p", .ofList [.int 2, .int 2]), ("q", .ofList [.int 5])]⟩
    Net.build ["p", "q"] [⟨"t", arcs, [sum]⟩, ⟨"u", arcs, [double]⟩] = .ok net ∧
      ((net.enabledBindings "t" m).run.run {}).1 = .error (.evaluation (.unbound "z")) ∧
      (∃ tr, net.transition? "t" = some tr ∧ (∃ g ∈ tr.guards, ∃ vs, g.vars = .ok vs ∧ vs.contains "z" = true) ∧
        ∀ p l, tr.input.get? p = some l → ∀ i ∈ l, i.Lacks "z") ∧
      ∀ z, ((net.enabledBindings "u" m).run.run {}).1 ≠ .error (.evaluation (.unbound z)) := by
  intro x y arcs sum double input net m
  have hbuild : Net.build ["p", "q"] [⟨"t", arcs, [sum]⟩, ⟨"u", arcs, [double]⟩] = .ok net := by decide +kernel
  have hmissed : ((net.enabledBindings "t" m).run.run {}).1.map bindings = .error (.evaluation (.unbound "z")) := by
    decide +kernel
  have herror := map_eq_error.1 hmissed
  have hguards : ∀ tr, net.transition? "u" = some tr → ∀ g ∈ tr.guards, ∀ vs, g.vars = .ok vs →
      ∀ z, vs.contains z = true → tr.input.Mentions z := by
    intro tr htr g hg vs hvs z hz
    have ht : net.transition? "u" = some ⟨input, ∅, [double]⟩ := by decide +kernel
    obtain rfl := Option.some.inj (ht.symm.trans htr)
    obtain rfl := List.mem_singleton.1 hg
    have hdouble : double.vars = .ok (.ofList ["x"]) := by decide +kernel
    obtain rfl := Except.ok.inj (hdouble.symm.trans hvs)
    obtain rfl := List.mem_singleton.1 ((FinSet.contains_ofList ["x"] z).1 hz)
    exact ⟨"p", [x, x], by decide +kernel, by decide⟩
  exact ⟨hbuild, herror, (Session.Reaches.scope_of_unbound (.refl {}) hbuild "t" m).1 "z" herror,
    (Session.Reaches.scope_of_unbound (.refl {}) hbuild "u" m).2 hguards⟩

end TokenNet
