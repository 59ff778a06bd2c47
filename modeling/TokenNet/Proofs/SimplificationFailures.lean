import TokenNet.Proofs.Eliminations
import TokenNet.Proofs.Failures

/-!
# How simplification fails

Simplification fails for one of two reasons, `Transition.simplify_eq_error`: a formula of the net cannot be read, or guards
give a variable different constants.  Whatever it writes itself can be read again, since it writes a variable into an
expression only in the place of an identifier, and then the variable is an identifier, too: `Propagation.orient_writable`.
If it does not fail, the net keeps its shape, `Net.simplify_failures`.

Guards conflict after variables have been replaced by others.  All of the guards that were used for that hold under a
binding under which the original guards hold, so there is no such binding, `Transition.Conflicts.not_holds`: the transition
is dead, `Net.HasIdentifiers.dead_of_constantConflict`.
-/

namespace TokenNet

/-! ### Writing into formulas -/

section Writing

variable {f' : Formula} {i r : Inscription} {x : Variable} {e : EvaluationError}

/-- An error of the reader names the text. -/
theorem Expr.exists_of_parse_eq_error {text : String} (h : Expr.parse text = .error e) :
    ∃ failure, e = .unreadable text failure := by
  unfold Expr.parse at h
  split at h <;> cases h <;> exact ⟨_, rfl⟩

/-- The inscription can be written wherever the variable is written in an expression. -/
def Inscription.Writable (r : Inscription) (x : Variable) : Prop := Expr.isIdentifier x = true → ∃ er, r.toExpr = .ok er

theorem Inscription.writable_const (v : Value) (x : Variable) : (const v).Writable x := fun _ => ⟨.lit v, rfl⟩

/-- A substitution in a formula fails only because the formula cannot be read: the variables of formulas are
identifiers. -/
theorem Formula.returns_substitute (f : Formula) (hr : r.Writable x) :
    Returns (f.substitute x r) (fun _ => True) fun e => f.reading = .error e := by
  refine Returns.bind (P := fun ef => f.reading = .ok ef) ⟨fun _ => id, fun _ => id⟩ fun ef hf => ?_
  split
  · rename_i hx
    have hid : ef.HasIdentifiers := Inscription.hasIdentifiers_of_toExpr (i := .expr f) hf
    obtain ⟨er, her⟩ := hr (hid x hx)
    rw [her]
    exact .of_ok trivial
  · exact .of_ok trivial

theorem Inscription.returns_substitute (i : Inscription) (hr : r.Writable x) :
    Returns (i.substitute x r) (fun _ => True) fun e => ∃ f, i = .expr f ∧ f.reading = .error e := by
  cases i with
  | var y => exact .of_ok trivial
  | const v => exact .of_ok trivial
  | expr f =>
    exact ((f.returns_substitute hr).imp (fun _ => id) fun e he => ⟨f, rfl, he⟩).bind fun _ _ => .of_ok trivial

/-- What a substitution leaves as a formula, or writes, can be read. -/
theorem Inscription.reading_of_substitute_eq_expr (hr : r.IsAtom) (h : i.substitute x r = .ok (.expr f')) :
    ∃ ef, f'.reading = .ok ef := by
  obtain ⟨f, rfl, hf⟩ := eq_expr_of_substitute hr h
  obtain ⟨ef, hef, ⟨-, er, -, hwritten⟩ | ⟨-, rfl⟩⟩ := reading_of_substitute hf
  · exact ⟨ef.substitute x er, hwritten⟩
  · exact ⟨ef, hef⟩

theorem Guard.returns_substitute (g : Guard) (hr : r.Writable x) : Returns (g.substitute x r) (fun _ => True)
    fun e => ∃ f, (.expr f = g.left ∨ .expr f = g.right) ∧ f.reading = .error e := by
  refine ((Inscription.returns_substitute g.left hr).imp (fun _ => id) ?_).bind fun _ _ =>
    ((Inscription.returns_substitute g.right hr).imp (fun _ => id) ?_).bind fun _ _ => .of_ok trivial
  · exact fun e ⟨f, hf, he⟩ => ⟨f, .inl hf.symm, he⟩
  · exact fun e ⟨f, hf, he⟩ => ⟨f, .inr hf.symm, he⟩

end Writing

/-! ### Unreadable formulas -/

/-- Why a formula of the transition cannot be read. -/
def Transition.Unreadable (tr : Transition) (e : EvaluationError) : Prop :=
  ∃ f, tr.Bears (.expr f) ∧ f.reading = .error e

theorem Transition.Unreadable.of_guards {input output : Arcs} {guards guards' : List Guard} {e : EvaluationError}
    (h : Transition.Unreadable ⟨input, output, guards'⟩ e) (hsub : guards' ⊆ guards) :
    Transition.Unreadable ⟨input, output, guards⟩ e := by
  obtain ⟨f, hf, he⟩ := h
  exact ⟨f, hf.of_guards fun g hg => .inl (hsub hg), he⟩

theorem Arcs.returns_substitute {arcs : Arcs} {x : Variable} {r : Inscription} (hr : r.Writable x) :
    Returns (Arcs.substitute arcs x r) (fun arcs' => Arcs.substitute arcs x r = .ok arcs')
      fun e => ∃ p l f, arcs.get? p = some l ∧ .expr f ∈ l ∧ f.reading = .error e := by
  refine FinMap.returns_traverse fun p l hl e he => ?_
  have hlist := returns_mapM (l := l) (g := (·.substitute x r))
    (E := fun e => ∃ f, .expr f ∈ l ∧ f.reading = .error e) fun i hi e he => by
      obtain ⟨f, rfl, hf⟩ := (Inscription.returns_substitute i hr).error e he
      exact ⟨f, hi, hf⟩
  obtain ⟨f, hf, herror⟩ := hlist.error e he
  exact ⟨p, l, f, hl, hf, herror⟩

namespace Propagation

variable {x : Variable} {r : Inscription} {t : TransitionName}

/-- Of two equal variables, one that can be written is replaced only by one that can be written. -/
theorem orient_writable (x y : Variable) : (Inscription.var (orient x y).2).Writable (orient x y).1 := by
  intro hx
  refine ⟨.var (orient x y).2, if_pos ?_⟩
  unfold orient at hx ⊢
  split at hx
  · rename_i hcond
    rw [if_pos hcond]
    exact (Bool.and_eq_true_iff.1 hcond).1
  · rename_i hcond
    rw [if_neg hcond]
    by_contra hy
    exact hcond (Bool.and_eq_true_iff.2 ⟨hx, by simpa using hy⟩)

/-- An elimination fails because of a formula that cannot be read, and leaves none. -/
theorem returns_eliminate (w : Propagation) (hatom : r.IsAtom) (hr : r.Writable x) : Returns (w.eliminate x r)
    (fun w' => ∀ e, ¬ w'.toTransition.Unreadable e) w.toTransition.Unreadable := by
  have harcs : ∀ dir, Returns (Arcs.substitute (w.toTransition.arcs dir) x r) (fun _ => True)
      w.toTransition.Unreadable := by
    refine fun dir => (Arcs.returns_substitute hr).imp (fun _ _ => trivial) ?_
    rintro e ⟨p, l, f, hl, hf, he⟩
    exact ⟨f, .inl ⟨dir, p, l, hl, hf⟩, he⟩
  have hguards : ∀ {gs : List Guard}, gs ⊆ w.examined ++ w.pending →
      Returns (gs.mapM (·.substitute x r)) (fun _ => True) w.toTransition.Unreadable := by
    refine fun hsub => (returns_mapM fun g hg e he => ?_).imp (fun _ _ => trivial) fun _ => id
    obtain ⟨f, hside, herror⟩ := (g.returns_substitute hr).error e he
    exact ⟨f, .inr ⟨g, hsub hg, hside⟩, herror⟩
  have hall : Returns (w.eliminate x r) (fun _ => True) w.toTransition.Unreadable :=
    (harcs .input).bind fun _ _ => (harcs .output).bind fun _ _ =>
      (hguards (List.subset_append_left _ _)).bind fun _ _ =>
        (hguards (List.subset_append_right _ _)).bind fun _ _ => .of_ok trivial
  refine ⟨fun w' hw' e he => ?_, hall.error⟩
  obtain ⟨hinput, houtput, hexamined, hpending, -⟩ := eliminate_eq_ok hw'
  obtain ⟨f', hf', herror⟩ := he
  have harcs' : ∀ dir, Arcs.substitute (w.toTransition.arcs dir) x r = .ok (w'.toTransition.arcs dir) :=
    fun dir => by cases dir <;> assumption
  obtain ⟨i, -, hsubst⟩ := Transition.Bears.of_substitute harcs' (mapM_append_eq_ok hexamined hpending) hf'
  obtain ⟨ef, hread⟩ := Inscription.reading_of_substitute_eq_expr hatom hsubst
  rw [herror] at hread
  cases hread

/-- Examining a guard fails because of a formula that cannot be read, and adds none. -/
theorem returns_examine (w : Propagation) : Returns w.examine
    (fun w' => ∀ e, w'.toTransition.Unreadable e → w.toTransition.Unreadable e) w.toTransition.Unreadable := by
  have hrest : ∀ {g : Guard} {rest : List Guard}, w.pending = g :: rest → ∀ e,
      Transition.Unreadable ⟨w.input, w.output, w.examined ++ rest⟩ e → w.toTransition.Unreadable e := by
    intro g rest hpending e he
    refine he.of_guards ?_
    rw [hpending]
    exact ((List.sublist_cons_self g rest).append_left w.examined).subset
  unfold Propagation.examine
  split
  · exact .of_ok fun e => id
  · rename_i x y rest hpending
    dsimp only
    split
    · exact .of_ok (hrest hpending)
    · refine (returns_eliminate _ (Inscription.isAtom_var _) (orient_writable x y)).imp (fun w' hw' e he => ?_)
        (hrest hpending)
      exact absurd he (hw' e)
  · rename_i g rest _ hpending
    refine .of_ok fun e he => ?_
    unfold toTransition
    rw [hpending, List.append_cons]
    exact he

theorem returns_propagateEqualities (tr : Transition) : Returns (ofTransition tr).propagateEqualities
    (fun w => ∀ e, w.toTransition.Unreadable e → tr.Unreadable e) tr.Unreadable :=
  returns_foldlM (fun _ => id) fun _ _ w hw =>
    (returns_examine w).imp (fun _ hw' e he => hw e (hw' e he)) hw

/-- Constants are propagated unless guards give a variable different ones, or a formula cannot be read. -/
theorem returns_propagateConstants (w : Propagation) (t : TransitionName) : Returns (w.propagateConstants t)
    (fun _ => True) fun e =>
      (∃ c, e = .constantConflict c ∧ collectConstants t (w.examined ++ w.pending) ∅ = .error c) ∨
        ∃ e', e = .evaluation e' ∧ w.toTransition.Unreadable e' := by
  have hcollected : Returns (collectConstants t (w.examined ++ w.pending) ∅)
      (fun r => collectConstants t (w.examined ++ w.pending) ∅ = .ok r)
      fun c => collectConstants t (w.examined ++ w.pending) ∅ = .error c := ⟨fun _ => id, fun _ => id⟩
  refine (hcollected.mapError fun c hc => .inl ⟨c, rfl, hc⟩).bind fun ⟨constants, guards⟩ hcollect => ?_
  obtain ⟨-, hsub, -, -⟩ := collectConstants_eq_ok hcollect
  have hfold : Returns (constants.entries.foldlM (fun (w : Propagation) e => w.eliminate e.1 (.const e.2))
      { w with examined := guards, pending := [] })
      (fun w' => ∀ e, w'.toTransition.Unreadable e → w.toTransition.Unreadable e) w.toTransition.Unreadable := by
    refine returns_foldlM (fun e he => he.of_guards ?_) fun d _ w' hw' => ?_
    · rw [List.append_nil]
      exact hsub
    · exact (returns_eliminate w' (Inscription.isAtom_const d.2) (Inscription.writable_const d.2 d.1)).imp
        (fun w'' hw'' e he => absurd he (hw'' e)) hw'
  exact (hfold.imp (fun _ _ => trivial) fun _ => id).mapError fun e he => .inr ⟨e, rfl, he⟩

/-- A conflict names a variable and two different constants.  A guard assigns the second one, and either another guard
assigns the first one, or it was known before. -/
theorem collectConstants_eq_error {gs : List Guard} {constants : FinMap Variable Value} {c : ConstantConflict}
    (h : collectConstants t gs constants = .error c) : c.transition = t ∧ c.first ≠ c.second ∧
      (∃ g ∈ gs, assignment? g = some (c.name, c.second)) ∧
      (constants.get? c.name = some c.first ∨ ∃ g ∈ gs, assignment? g = some (c.name, c.first)) := by
  have hlater : ∀ {g : Guard} {gs : List Guard} {d : Variable × Value}, (∃ g' ∈ gs, assignment? g' = some d) →
      ∃ g' ∈ g :: gs, assignment? g' = some d := fun ⟨g', hg', hd⟩ => ⟨g', List.mem_cons_of_mem _ hg', hd⟩
  fun_induction collectConstants t gs constants with
  | case1 constants => cases h
  | case2 g gs constants hg ih =>
    cases hrest : collectConstants t gs constants with
    | ok r =>
      rw [hrest] at h
      cases h
    | error c' =>
      rw [hrest] at h
      cases h
      obtain ⟨ht, hne, hsecond, hfirst⟩ := ih hrest
      exact ⟨ht, hne, hlater hsecond, hfirst.imp_right hlater⟩
  | case3 g gs constants x v hg hx ih =>
    obtain ⟨ht, hne, hsecond, hfirst⟩ := ih h
    refine ⟨ht, hne, hlater hsecond, ?_⟩
    rcases hfirst with hfirst | hfirst
    · by_cases hname : c.name = x
      · rw [hname, FinMap.get?_insert_self] at hfirst
        cases hfirst
        exact .inr ⟨g, List.mem_cons_self, by rw [hg, hname]⟩
      · rw [FinMap.get?_insert_of_ne constants hname] at hfirst
        exact .inl hfirst
    · exact .inr (hlater hfirst)
  | case4 g gs constants x v hx hg ih =>
    obtain ⟨ht, hne, hsecond, hfirst⟩ := ih h
    exact ⟨ht, hne, hlater hsecond, hfirst.imp_right hlater⟩
  | case5 g gs constants x v hg first hx hne =>
    cases h
    exact ⟨rfl, hne, ⟨g, List.mem_cons_self, hg⟩, .inl hx⟩

end Propagation

/-! ### Transitions -/

section Transitions

variable {tr tr' : Transition} {t : TransitionName} {c : ConstantConflict} {x : Variable} {v : Value} {b : Binding}

/-- The guards give a variable different constants, after variables have been replaced by others. -/
def Transition.Conflicts (tr : Transition) (t : TransitionName) (c : ConstantConflict) : Prop :=
  ∃ w, (Propagation.ofTransition tr).propagateEqualities = .ok w ∧
    Propagation.collectConstants t (w.examined ++ w.pending) ∅ = .error c

/-- The simplification of a transition fails because of a conflict, or because a formula cannot be read. -/
theorem Transition.simplify_eq_error {e : Error} (h : tr.simplify t = .error e) :
    (∃ c, e = .constantConflict c ∧ tr.Conflicts t c) ∨ ∃ e', e = .evaluation e' ∧ tr.Unreadable e' := by
  have hequalities : Returns (Propagation.ofTransition tr).propagateEqualities
      (fun w => (Propagation.ofTransition tr).propagateEqualities = .ok w ∧
        ∀ e, w.toTransition.Unreadable e → tr.Unreadable e) tr.Unreadable :=
    have hpropagated := Propagation.returns_propagateEqualities tr
    ⟨fun w hw => ⟨hw, hpropagated.ok w hw⟩, hpropagated.error⟩
  have hall : Returns (tr.simplify t) (fun _ => True) fun e =>
      (∃ c, e = .constantConflict c ∧ tr.Conflicts t c) ∨ ∃ e', e = .evaluation e' ∧ tr.Unreadable e' := by
    refine (hequalities.mapError fun e he => .inr ⟨e, rfl, he⟩).bind fun w ⟨hw, hfrom⟩ => ?_
    refine Returns.bind (P := fun _ => True) ?_ fun _ _ => .of_ok trivial
    refine (Propagation.returns_propagateConstants w t).imp (fun _ _ => trivial) fun e he => ?_
    rcases he with ⟨c, rfl, hc⟩ | ⟨e', rfl, he'⟩
    · exact .inl ⟨c, rfl, w, hw, hc⟩
    · exact .inr ⟨e', rfl, hfrom e' he'⟩
  exact hall.error e h

/-- Arcs keep their number of inscriptions. -/
theorem Transition.length_of_simplify {eliminated : Eliminations} (h : tr.simplify t = .ok (tr', eliminated))
    (dir : Direction) (p : Place) : ((tr'.arcs dir).get? p).map List.length = ((tr.arcs dir).get? p).map List.length := by
  have hsubst : ∀ {arcs arcs' : Arcs} {x : Variable} {r : Inscription}, Arcs.substitute arcs x r = .ok arcs' →
      (arcs'.get? p).map List.length = (arcs.get? p).map List.length := by
    intro arcs arcs' x r hsubst
    rcases Arcs.get?_substitute hsubst p with ⟨hnone', hnone⟩ | ⟨l, l', hl, hl', hmap⟩
    · rw [hnone, hnone']
    · rw [hl, hl', Option.map_some, Option.map_some, length_of_mapM hmap]
  have hI : Propagation.Invariant fun input output _ _ =>
      (input.get? p).map List.length = (tr.input.get? p).map List.length ∧
        (output.get? p).map List.length = (tr.output.get? p).map List.length := by
    refine ⟨fun h _ _ => h, id, fun ⟨hin, hout⟩ _ _ hinput houtput _ => ?_⟩
    exact ⟨(hsubst hinput).trans hin, (hsubst houtput).trans hout⟩
  obtain ⟨hin, hout⟩ := hI.simplify ⟨rfl, rfl⟩ h
  cases dir with
  | input => exact hin
  | output => exact hout

/-- A guard that assigns a constant and is held gives the variable that value. -/
theorem Guard.get?_of_assignment {g : Guard} (hn : g.Named) (h : g.Held b)
    (hassign : Propagation.assignment? g = some (x, v)) : b.get? x = some v := by
  have hvalue : (Propagation.assigns (x, v)).Named → (Propagation.assigns (x, v)).Held b → b.get? x = some v := by
    intro hn h
    obtain ⟨w, hw, hv⟩ := Traces.value_of_held (Inscription.isAtom_const v) (by nofun) hn h
    cases hv
    exact hw
  rcases Propagation.assignment?_eq_some hassign with rfl | hflip
  · exact hvalue hn h
  · rw [← hflip] at hvalue
    exact hvalue hn.flip h.flip

/-- Where the guards conflict, they do not hold under any binding: the equations by which variables have been replaced
would hold as well. -/
theorem Transition.Conflicts.not_holds (hn : tr.Named) (h : tr.Conflicts t c) (b : Binding) :
    ¬ ∀ g ∈ tr.guards, g.holds b = .ok true := by
  intro hb
  obtain ⟨w, hw, hcollect⟩ := h
  have hI : Propagation.Invariant (Traces tr) := ⟨Traces.congr, Traces.drop, Traces.eliminate⟩
  have htraces : Traces tr w.input w.output (w.examined ++ w.pending) w.eliminated :=
    hI.propagateEqualities (w := Propagation.ofTransition tr) (Traces.ofTransition hn) hw
  obtain ⟨hheld, -⟩ := htraces.held b hb
  have hvalue : ∀ {v : Value},
      (∃ g ∈ w.examined ++ w.pending, Propagation.assignment? g = some (c.name, v)) → b.get? c.name = some v := by
    rintro v ⟨g, hg, hassign⟩
    exact Guard.get?_of_assignment (htraces.named_guards g hg) (hheld g hg) hassign
  obtain ⟨-, hne, hsecond, hfirst | hfirst⟩ := Propagation.collectConstants_eq_error hcollect
  · cases hfirst
  · exact hne (Option.some.inj ((hvalue hfirst).symm.trans (hvalue hsecond)))

end Transitions

/-! ### Nets -/

section Nets

variable {net : Net} {c : ConstantConflict}

/-- The simplification of a built net, once or until nothing changes, fails only because guards give a variable different
constants, or because of a formula of the net whose text cannot be read.  So it does not fail for other reasons than a
conflict if all formulas of the net can be read, whatever the names of variables are and whatever is written into the
formulas.  If it succeeds, the net has the same places, transitions and arcs, with as many inscriptions on each arc, and no
expressions on input arcs. -/
theorem Net.simplify_failures {places : List Place} {decls : List TransitionDeclaration}
    {result : Except Error Simplified} (hbuild : Net.build places decls = .ok net)
    (hresult : result = net.simplify ∨ result = net.simplifyFully) :
    (∀ e, result = .error e → (∃ c, e = .constantConflict c) ∨ ∃ t tr f failure,
      net.transition? t = some tr ∧ tr.Bears (.expr f) ∧ e = .evaluation (.unreadable f.text failure) ∧
        Expr.parse f.text = .error (.unreadable f.text failure)) ∧
    ((∀ t tr f, net.transition? t = some tr → tr.Bears (.expr f) → ∃ a, Expr.parse f.text = .ok a) →
      (∃ s, result = .ok s) ∨ ∃ c, result = .error (.constantConflict c)) ∧
    ∀ s, result = .ok s → s.net.places = net.places ∧ s.net.transitions.keys = net.transitions.keys ∧
      ∀ t tr, net.transition? t = some tr → ∃ tr', s.net.transition? t = some tr' ∧ tr'.input.Plain ∧
        ∀ dir p, ((tr'.arcs dir).get? p).map List.length = ((tr.arcs dir).get? p).map List.length := by
  rw [Net.simplifyFully_eq, or_self] at hresult
  subst hresult
  have hfails : ∀ e, net.simplify = .error e → (∃ c, e = .constantConflict c) ∨ ∃ t tr f failure,
      net.transition? t = some tr ∧ tr.Bears (.expr f) ∧ e = .evaluation (.unreadable f.text failure) ∧
        Expr.parse f.text = .error (.unreadable f.text failure) := by
    intro e he
    obtain ⟨t, tr, ht, htr⟩ := Net.exists_of_simplify_eq_error he
    rcases Transition.simplify_eq_error htr with ⟨c, rfl, -⟩ | ⟨e', rfl, f, hf, hread⟩
    · exact .inl ⟨c, rfl⟩
    · rw [f.reading_eq] at hread
      obtain ⟨failure, rfl⟩ := Expr.exists_of_parse_eq_error hread
      exact .inr ⟨t, tr, f, failure, ht, hf, rfl, hread⟩
  refine ⟨hfails, fun hreadable => ?_, fun s hs => ?_⟩
  · cases hs : net.simplify with
    | ok s => exact .inl ⟨s, rfl⟩
    | error e =>
      rcases hfails e hs with ⟨c, rfl⟩ | ⟨t, tr, f, failure, ht, hf, -, hread⟩
      · exact .inr ⟨c, rfl⟩
      · obtain ⟨a, ha⟩ := hreadable t tr f ht hf
        rw [hread] at ha
        cases ha
  · refine ⟨Net.places_of_simplify hs, Net.names_of_simplify hs, fun t tr ht => ?_⟩
    obtain ⟨tr', ht', hsimplify⟩ := (Net.simplify_eq_ok hs).2 t tr ht
    have hplain := ((Net.wellFormed_of_build hbuild).simplify hs t tr' ht').plain
    exact ⟨tr', ht', hplain, Transition.length_of_simplify hsimplify⟩

/-- One of the variables is no identifier, and the least number, a string with a quotation mark and a variable are written
into the same formula, one after the other; the formula of the second net breaks off. -/
theorem Net.simplify_failures_successive :
    let x : Inscription := .var "x"
    let y : Inscription := .var "y"
    let least : Inscription := .const (.int Int64.minValue)
    let quoted : Inscription := .const (.str "\"\\")
    let guards : List Guard := [⟨x, .var "a b"⟩, ⟨y, x⟩, ⟨least, .var "n"⟩, ⟨.var "s", quoted⟩]
    let formula : Inscription := .expr (.ofText "n < 1 && s < y")
    let tr : Transition := ⟨.ofList [("p", [.var "a b", .var "n"])], .ofList [("q", [formula, y])], guards⟩
    let net : Net := ⟨.ofList ["p", "q"], .ofList [("t", tr)]⟩
    let text := "((-9223372036854775808 < 1) && (\"\\\"\\\\\" < x))"
    let tr' : Transition := ⟨.ofList [("p", [x, least])], .ofList [("q", [.expr (.ofText text), x])], []⟩
    let s : Simplified := ⟨⟨.ofList ["p", "q"], .ofList [("t", tr')]⟩,
      .ofList [("t", [("a b", x), ("y", x), ("n", least), ("s", quoted)])]⟩
    let broken : Net := ⟨.ofList ["p"], .ofList [("t", ⟨∅, .ofList [("p", [.expr (.ofText "x +")])], [⟨x, y⟩]⟩)]⟩
    let arcs : List ArcDeclaration := [⟨"q", .output, [formula, y]⟩, ⟨"p", .input, [.var "a b", .var "n"]⟩]
    Net.build ["p", "q"] [⟨"t", arcs, guards⟩] = .ok net ∧ net.simplifyFully = .ok s ∧
      s.net.transitions.keys = net.transitions.keys ∧ tr'.input.Plain ∧
      (∀ dir p, ((tr'.arcs dir).get? p).map List.length = ((tr.arcs dir).get? p).map List.length) ∧
      Net.build ["p"] [⟨"t", [⟨"p", .output, [.expr (.ofText "x +")]⟩], [⟨x, y⟩]⟩] = .ok broken ∧
      broken.simplify = .error (.evaluation (.unreadable "x +" (.leftOver "+"))) ∧
      ∃ t tr f, broken.transition? t = some tr ∧ tr.Bears (.expr f) ∧ f.text = "x +" := by
  intro x y least quoted guards formula tr net text tr' s broken arcs
  have hbuild : Net.build ["p", "q"] [⟨"t", arcs, guards⟩] = .ok net := by decide +kernel
  have hs : net.simplifyFully = .ok s := by decide +kernel
  have ht : net.transition? "t" = some tr := by decide +kernel
  have hnew : s.net.transition? "t" = some tr' := by decide +kernel
  have hbroken : Net.build ["p"] [⟨"t", [⟨"p", .output, [.expr (.ofText "x +")]⟩], [⟨x, y⟩]⟩] = .ok broken := by
    decide +kernel
  have he : broken.simplify = .error (.evaluation (.unreadable "x +" (.leftOver "+"))) := by decide +kernel
  obtain ⟨-, hnames, hall⟩ := (simplify_failures hbuild (.inr rfl)).2.2 s hs
  obtain ⟨tr₁, ht₁, hplain, hlength⟩ := hall "t" tr ht
  rw [hnew] at ht₁
  cases ht₁
  refine ⟨hbuild, hs, hnames, hplain, hlength, hbroken, he, ?_⟩
  rcases (simplify_failures hbroken (.inl rfl)).1 _ he with ⟨c, hc⟩ | ⟨t, tr₂, f, failure, ht₂, hf, herror, -⟩
  · cases hc
  · refine ⟨t, tr₂, f, ht₂, hf, ?_⟩
    have hunreadable := Error.evaluation.inj herror
    exact (EvaluationError.unreadable.inj hunreadable).1.symm

/-- A net whose guards give a variable different constants, where variables that are equated count as one, is not
simplified; and the transition that the error names is never enabled.  Under no binding do all of its guards hold, so
however a session was used and whatever the marking is, if the search for its enabled bindings succeeds, it finds none. -/
theorem Net.HasIdentifiers.dead_of_constantConflict (hn : net.HasIdentifiers)
    (h : net.simplify = .error (.constantConflict c) ∨ net.simplifyFully = .error (.constantConflict c)) :
    ∃ tr, net.transition? c.transition = some tr ∧ (∀ b, ¬ ∀ g ∈ tr.guards, g.holds b = .ok true) ∧
      ∀ s s' m d, Session.Reaches {} s → (net.enabledBindings c.transition m).run.run s = (.ok d, s') →
        d = .emptySet := by
  rw [Net.simplifyFully_eq, or_self] at h
  obtain ⟨t, tr, ht, htr⟩ := Net.exists_of_simplify_eq_error h
  obtain ⟨c', hc, hconflict⟩ | ⟨e', he, -⟩ := Transition.simplify_eq_error htr
  · cases hc
    obtain ⟨w, -, hcollect⟩ := id hconflict
    obtain ⟨rfl, -⟩ := Propagation.collectConstants_eq_error hcollect
    have hdead := hconflict.not_holds (hn c.transition tr ht)
    refine ⟨tr, ht, hdead, fun s s' m d hs hrun => ?_⟩
    obtain ⟨tr₁, ht₁, hempty⟩ := hs.eq_emptySet_iff hrun
    rw [ht] at ht₁
    cases ht₁
    exact hempty.2 fun B hB => hdead B hB.holds
  · cases he

/-- Two variables are equated with a third one, and then there are two constants for it. -/
theorem Net.HasIdentifiers.dead_of_constantConflict_renamed :
    let a : Inscription := .var "a"
    let b : Inscription := .var "b"
    let c : Inscription := .var "c"
    let guards : List Guard := [⟨a, .const (.int 3)⟩, ⟨a, c⟩, ⟨.const (.int 5), b⟩, ⟨b, c⟩]
    let tr : Transition := ⟨.ofList [("p", [a, b, c])], ∅, guards⟩
    let net : Net := ⟨.ofList ["p"], .ofList [("t", tr)]⟩
    let m : Marking := ⟨.ofList [("p", .ofList [.int 3, .int 3, .int 5, .int 5])]⟩
    Net.build ["p"] [⟨"t", [⟨"p", .input, [a, b, c]⟩], guards⟩] = .ok net ∧
      net.simplifyFully = .error (.constantConflict ⟨"t", "c", .int 3, .int 5⟩) ∧
      (∀ B, ¬ ∀ g ∈ guards, g.holds B = .ok true) ∧ ∃ s, (net.enabledBindings "t" m).run.run {} = (.ok .emptySet, s) := by
  intro a b c guards tr net m
  have hbuild : Net.build ["p"] [⟨"t", [⟨"p", .input, [a, b, c]⟩], guards⟩] = .ok net := by decide +kernel
  have hn : net.HasIdentifiers := by decide +kernel
  have he : net.simplifyFully = .error (.constantConflict ⟨"t", "c", .int 3, .int 5⟩) := by decide +kernel
  have htr : net.transition? "t" = some tr := by decide +kernel
  have hfound : ((net.enabledBindings "t" m).run.run {}).1.toOption.isSome = true := by decide +kernel
  obtain ⟨tr₁, ht, hdead, hempty⟩ := dead_of_constantConflict hn (.inr he)
  rw [htr] at ht
  cases ht
  rcases hrun : (net.enabledBindings "t" m).run.run {} with ⟨e | d, s⟩
  · rw [hrun] at hfound
    cases hfound
  · obtain rfl := hempty {} s m d (.refl {}) hrun
    exact ⟨hbuild, he, hdead, s, rfl⟩

end Nets

end TokenNet
