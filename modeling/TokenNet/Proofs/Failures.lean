import TokenNet.Proofs.Iterations
import TokenNet.Proofs.WellFormed

/-!
# How computations fail

`Returns x P E` says that the computation `x` returns what satisfies `P`, or fails with an error that satisfies `E`;
`Yields x P E` says it of a computation in any session.

At a marking over the places of a well-formed net, no structural error is left: computations fail because an expression
cannot be evaluated, `Error.IsEvaluation`, and iterations also because too many markings have been found,
`Limits.Stops`.  So the checks of a build are enough for all markings that the net attains, however it is simplified:
`Net.Attains.no_structural_error`.
-/

namespace TokenNet

/-! ### Computations that may fail -/

/-- The computation returns what satisfies `P`, or fails with an error that satisfies `E`. -/
structure Returns {ε α : Type} (x : Except ε α) (P : α → Prop) (E : ε → Prop) : Prop where
  ok : ∀ a, x = .ok a → P a
  error : ∀ e, x = .error e → E e

section Returns

variable {α β γ ε ε' : Type} {x : Except ε α} {f : α → Except ε β} {P P' : α → Prop} {Q : β → Prop} {E E' : ε → Prop}

theorem Returns.of_ok {a : α} (h : P a) : Returns (.ok a : Except ε α) P E :=
  ⟨fun b hb => by cases hb; exact h, nofun⟩

theorem Returns.of_error {e : ε} (h : E e) : Returns (.error e : Except ε α) P E :=
  ⟨nofun, fun e' he => by cases he; exact h⟩

/-- What the computation returns may be kept in mind instead of what is known of it. -/
theorem Returns.eq (h : Returns x P E) : Returns x (fun a => x = .ok a) E := ⟨fun _ ha => ha, h.error⟩

theorem Returns.imp (h : Returns x P E) (hP : ∀ a, P a → P' a) (hE : ∀ e, E e → E' e) : Returns x P' E' :=
  ⟨fun a ha => hP a (h.ok a ha), fun e he => hE e (h.error e he)⟩

theorem Returns.bind (h : Returns x P E) (hf : ∀ a, P a → Returns (f a) Q E) : Returns (x >>= f) Q E := by
  cases x with
  | ok a => exact hf a (h.ok a rfl)
  | error e => exact .of_error (h.error e rfl)

theorem Returns.mapError {φ : ε → ε'} {E' : ε' → Prop} (h : Returns x P E) (hE : ∀ e, E e → E' (φ e)) :
    Returns (x.mapError φ) P E' := by
  cases x with
  | ok a => exact .of_ok (h.ok a rfl)
  | error e => exact .of_error (hE e (h.error e rfl))

theorem returns_mapError {φ : ε → ε'} {E : ε' → Prop} (h : ∀ e, E (φ e)) : Returns (x.mapError φ) (fun a => x = .ok a) E :=
  Returns.mapError (E := fun _ => True) ⟨fun _ => id, fun _ _ => trivial⟩ fun e _ => h e

/-- An error of a list is an error at one of its elements. -/
theorem returns_mapM {l : List γ} {g : γ → Except ε β} (h : ∀ c ∈ l, ∀ e, g c = .error e → E e) :
    Returns (l.mapM g) (fun r => l.mapM g = .ok r) E := by
  have hall : Returns (l.mapM g) (fun _ => True) E := by
    induction l with
    | nil => exact .of_ok trivial
    | cons c l ih =>
      rw [List.mapM_cons]
      refine Returns.bind (P := fun _ => True) ⟨fun _ _ => trivial, h c List.mem_cons_self⟩ fun b _ => ?_
      exact (ih fun c' hc' => h c' (List.mem_cons_of_mem c hc')).bind fun r _ => .of_ok trivial
  exact hall.eq

/-- What every step of a fold keeps is returned, unless a step fails. -/
theorem returns_foldlM {g : β → γ → Except ε β} {l : List γ} {b : β} (hb : Q b)
    (hg : ∀ c ∈ l, ∀ b, Q b → Returns (g b c) Q E) : Returns (l.foldlM g b) Q E := by
  induction l generalizing b with
  | nil => exact .of_ok hb
  | cons c l ih =>
    rw [List.foldlM_cons]
    exact (hg c List.mem_cons_self b hb).bind fun b' hb' => ih hb' fun c' hc' => hg c' (List.mem_cons_of_mem c hc')

/-- An error of a traversal is an error at one of the entries. -/
theorem FinMap.returns_traverse {K V W : Type} [Ord K] [Std.TransOrd K] [Std.LawfulEqOrd K] {φ : K → V → Except ε W}
    {m : FinMap K V} (h : ∀ k v, m.get? k = some v → ∀ e, φ k v = .error e → E e) :
    Returns (m.traverse φ) (fun r => m.traverse φ = .ok r) E := by
  have hentries : ∀ {l : List (K × V)} {e : ε}, (∀ d ∈ l, ∀ e, φ d.1 d.2 = .error e → E e) →
      traverseEntries φ l = .error e → E e := by
    intro l e hl he
    induction l with
    | nil => cases he
    | cons d l ih =>
      obtain ⟨hd, hl⟩ := List.forall_mem_cons.1 hl
      unfold traverseEntries at he
      split at he
      · rename_i e' he'
        cases he
        exact hd e he'
      · split at he
        · rename_i e' he'
          cases he
          exact ih hl he'
        · cases he
  refine ⟨fun _ => id, fun e he => ?_⟩
  unfold traverse at he
  split at he
  · rename_i e' he'
    cases he
    exact hentries (fun d hd => h d.1 d.2 (mem_entries_iff.1 hd)) he'
  · cases he

end Returns

/-! ### Computations in a session -/

/-- In whatever session, the computation returns what satisfies `P`, or fails with an error that satisfies `E`. -/
def Yields {α : Type} (x : SessionM α) (P : α → Prop) (E : Error → Prop) : Prop := ∀ s, Returns (x.run.run s).1 P E

section Yields

variable {α β γ : Type} {x : SessionM α} {f : α → SessionM β} {P P' : α → Prop} {Q : β → Prop} {E E' : Error → Prop}

theorem yields_pure {a : α} (h : P a) : Yields (pure a) P E := fun _ => .of_ok h

theorem yields_throw {e : Error} (h : E e) : Yields (throw e) P E := fun _ => .of_error h

theorem yields_ofExcept {r : Except Error α} (h : Returns r P E) : Yields (SessionM.ofExcept r) P E := fun _ => h

theorem yields_ofStructural {r : Except StructuralError α} (h : ∀ e, r = .error e → E (.structural e)) :
    Yields (SessionM.ofStructural r) (fun a => r = .ok a) E := by
  cases r with
  | ok a => exact fun _ => .of_ok rfl
  | error e => exact fun _ => .of_error (h e rfl)

theorem yields_lift (y : StoreM Key Value α) : Yields (liftM y) (fun _ => True) E := fun s => .of_ok (a := (y.run s).1) trivial

theorem Yields.imp (h : Yields x P E) (hP : ∀ a, P a → P' a) (hE : ∀ e, E e → E' e) : Yields x P' E' :=
  fun s => (h s).imp hP hE

theorem Yields.bind (h : Yields x P E) (hf : ∀ a, P a → Yields (f a) Q E) : Yields (x >>= f) Q E := by
  intro s
  cases hrun : (x.run.run s).1 with
  | error e =>
    rw [run_bind_of_error hrun]
    exact .of_error ((h s).error e hrun)
  | ok a =>
    rw [run_bind_of_ok hrun]
    exact hf a ((h s).ok a hrun) _

theorem yields_foldlM {g : β → γ → SessionM β} {l : List γ} {b : β} (hb : Q b)
    (hg : ∀ c ∈ l, ∀ b, Q b → Yields (g b c) Q E) : Yields (l.foldlM g b) Q E := by
  induction l generalizing b with
  | nil => exact yields_pure hb
  | cons c l ih =>
    rw [List.foldlM_cons]
    exact (hg c List.mem_cons_self b hb).bind fun b' hb' => ih hb' fun c' hc' => hg c' (List.mem_cons_of_mem c hc')

end Yields

/-! ### Errors -/

/-- An expression cannot be read, written into or evaluated. -/
def Error.IsEvaluation (e : Error) : Prop := ∃ e', e = .evaluation e'

theorem Error.IsEvaluation.not_structural {e : Error} (h : e.IsEvaluation) (e' : StructuralError) : e ≠ .structural e' := by
  rintro rfl
  obtain ⟨e'', h⟩ := h
  cases h

/-- An iteration stops at such an error, or because too many markings have been found. -/
def Limits.Stops (limits : Limits) (e : Error) : Prop := e.IsEvaluation ∨ limits.states ≠ none ∧ e = .cancelled .states

/-- Why an exploration fails: guards assign different constants, or one of the iterations stops, or there have been too
many of them. -/
def Limits.Fails (limits : Limits) (e : Error) : Prop :=
  (∃ c, e = .constantConflict c) ∨ limits.Stops e ∨ e = .cancelled .iterations

theorem Limits.Fails.not_structural {limits : Limits} {e : Error} (h : limits.Fails e) (e' : StructuralError) :
    e ≠ .structural e' := by
  rcases h with ⟨c, rfl⟩ | (h | ⟨-, rfl⟩) | rfl
  · exact nofun
  · exact h.not_structural e'
  · exact nofun
  · exact nofun

theorem returns_evaluation {α : Type} (x : Except EvaluationError α) :
    Returns (x.mapError Error.evaluation) (fun a => x = .ok a) Error.IsEvaluation :=
  returns_mapError fun e => ⟨e, rfl⟩

theorem yields_evaluation {α : Type} (x : Except EvaluationError α) :
    Yields (SessionM.ofEvaluation x) (fun a => x = .ok a) Error.IsEvaluation := yields_ofExcept (returns_evaluation x)

/-- Guards assign different constants, or an expression cannot be written into another one. -/
def Error.IsSimplification (e : Error) : Prop := (∃ c, e = .constantConflict c) ∨ e.IsEvaluation

/-- The simplification of a net fails where that of a transition does. -/
theorem Net.exists_of_simplify_eq_error {net : Net} {e : Error} (h : net.simplify = .error e) :
    ∃ t tr, net.transition? t = some tr ∧ tr.simplify t = .error e := by
  have hparts := FinMap.returns_traverse (m := net.transitions) (φ := Transition.simplify)
    (E := fun e => ∃ t tr, net.transition? t = some tr ∧ tr.simplify t = .error e) fun t tr ht e he => ⟨t, tr, ht, he⟩
  have hall : Returns net.simplify (fun _ => True) _ := hparts.bind fun parts _ => .of_ok trivial
  exact hall.error e h

theorem returns_simplify (net : Net) :
    Returns net.simplify (fun s => net.simplify = .ok s) Error.IsSimplification := by
  have htransition : ∀ t (tr : Transition), Returns (tr.simplify t) (fun _ => True) Error.IsSimplification := by
    intro t tr
    refine ((returns_evaluation _).imp (fun _ => id) fun _ => .inr).bind fun w _ => ?_
    have hconflict : Returns ((Propagation.collectConstants t (w.examined ++ w.pending) ∅).mapError
        Error.constantConflict) (fun _ => True) Error.IsSimplification :=
      (returns_mapError fun c => .inl ⟨c, rfl⟩).imp (fun _ _ => trivial) fun _ => id
    have hconstants : Returns (w.propagateConstants t) (fun _ => True) Error.IsSimplification :=
      hconflict.bind fun _ _ => (returns_evaluation _).imp (fun _ _ => trivial) fun _ => .inr
    exact hconstants.bind fun w' _ => .of_ok trivial
  refine ⟨fun _ => id, fun e he => ?_⟩
  obtain ⟨t, tr, -, htr⟩ := Net.exists_of_simplify_eq_error he
  exact (htransition t tr).error e htr

/-! ### Markings over the places of the net -/

section Places

variable {net : Net} {t : TransitionName} {tr : Transition} {m : Marking} {b : Binding} {d : Demand}

/-- A demand is told at the places of the marking. -/
theorem Demand.IsFor.isSome (h : d.IsFor tr m) {p : Place} (hp : p ∈ d.input.keys) : (d.marking.get? p).isSome = true := by
  obtain ⟨vars, hvars⟩ := FinMap.mem_keys_iff.1 hp
  obtain ⟨-, l, hl, -⟩ := (h.input_iff p vars).1 hvars
  obtain ⟨-, available, left, -, hleft, -⟩ := h.arc p l hl
  rw [hleft]
  rfl

theorem Net.returns_fire (hwell : net.WellFormed) (ht : net.transition? t = some tr) (hm : m.IsOver net.places)
    (b : Binding) : Returns (net.fire t m b) (fun r => net.fire t m b = .ok r) Error.IsEvaluation := by
  have hfits := hwell t tr ht
  have hall : Returns (net.fire t m b) (fun _ => True) Error.IsEvaluation := by
    unfold Net.fire
    rw [Net.transition_eq_ok.2 ht]
    refine (returns_evaluation _).bind fun taken htaken => ?_
    obtain ⟨covered, hcovered⟩ := hm.exists_covers fun e => hfits.contains_of_tokens .input htaken
    rw [hcovered]
    cases covered with
    | false => exact .of_ok trivial
    | true =>
      refine (returns_evaluation _).bind fun made hmade => ?_
      obtain ⟨m', hm'⟩ := (hm.take taken.entries).exists_put fun e => hfits.contains_of_tokens .output hmade
      rw [hm']
      exact .of_ok trivial
  exact hall.eq

/-- The search for enabled bindings fails because of a guard, or because of a name that is missing. -/
theorem Net.yields_enabledBindings_of {E : Error → Prop} (hdemand : ∀ e, net.demand t m = .error e → E (.structural e))
    (htransition : ∀ e, net.transition t = .error e → E (.structural e)) (hevaluation : ∀ e, E (.evaluation e)) :
    Yields (net.enabledBindings t m) (fun _ => True) E := by
  have hguard : ∀ {α : Type} (x : Except EvaluationError α), Yields (SessionM.ofEvaluation x) (fun a => x = .ok a) E :=
    fun x => (yields_evaluation x).imp (fun _ => id) fun e ⟨e', he⟩ => he ▸ hevaluation e'
  unfold Net.enabledBindings
  refine (yields_ofStructural hdemand).bind fun d? _ => ?_
  cases d? with
  | none => exact yields_pure trivial
  | some d =>
    dsimp only
    split
    · exact yields_pure trivial
    · refine (yields_ofStructural htransition).bind fun tr _ => (hguard _).bind fun guards? _ => ?_
      cases guards? with
      | none => exact yields_pure trivial
      | some guards =>
        refine (hguard _).bind fun o _ => (yields_lift _).bind fun joined _ => ?_
        refine Yields.bind (P := fun _ => True) ?_ fun filtered _ => ?_
        · refine yields_foldlM trivial fun g _ r _ => ?_
          split
          · exact yields_pure trivial
          · exact (yields_lift _).bind fun f _ => (hguard _).imp (fun _ _ => trivial) fun _ => id
        · exact yields_foldlM trivial fun c _ r _ => yields_lift _

theorem Net.yields_enabledBindings (hwell : net.WellFormed) (ht : net.transition? t = some tr) (hm : m.IsOver net.places) :
    Yields (net.enabledBindings t m) (fun _ => True) Error.IsEvaluation := by
  obtain ⟨d?, hdemand⟩ := hwell.exists_demand ht fun p hp => hm.isSome hp
  refine Net.yields_enabledBindings_of (fun e he => ?_) (fun e he => ?_) fun e => ⟨e, rfl⟩
  · rw [hdemand] at he
    cases he
  · rw [Net.transition_eq_ok.2 ht] at he
    cases he

theorem Net.yields_successors (hwell : net.WellFormed) (ht : net.transition? t = some tr) (hm : m.IsOver net.places) :
    Yields (net.successors t m) (fun _ => True) Error.IsEvaluation := by
  refine (Net.yields_enabledBindings hwell ht hm).bind fun d _ => yields_ofExcept ?_
  unfold Net.fireAll
  rw [foldBindings_eq_foldlM]
  have hfires : Returns ((bindings d).foldlM (fun found b => return (← net.fire t m b).toList ++ found) [])
      (fun _ => True) Error.IsEvaluation :=
    returns_foldlM trivial fun b _ found _ => (Net.returns_fire hwell ht hm b).bind fun r _ => .of_ok trivial
  exact hfires.bind fun found _ => .of_ok trivial

end Places

/-! ### Exploration -/

/-- All markings of the set are over the places of the net, and firing does not lead out of it. -/
structure Net.Confines (net : Net) (T : Marking → Prop) : Prop where
  isOver : ∀ {m}, T m → m.IsOver net.places
  fire : ∀ {t m m' b}, T m → net.fire t m b = .ok (some m') → T m'

/-- Simplifying a net and firing its transitions keep the places. -/
theorem Net.confines_isOver {net : Net} {simplified : Simplified} (hsimplify : net.simplify = .ok simplified) :
    simplified.net.Confines fun m => m.IsOver net.places := by
  refine ⟨fun hm => ?_, fun hm hfire => hm.fire hfire⟩
  rwa [Net.places_of_simplify hsimplify]

/-- What has been found since the given markings had been seen: all of it is in the set, and the list of the next iteration
has just what is new, each marking once. -/
structure Found.Since (f : Found) (seen : Std.TreeSet Marking) (T : Marking → Prop) : Prop where
  within : ∀ m ∈ f.seen, T m
  kept : ∀ m ∈ seen, m ∈ f.seen
  mem_next_iff : ∀ m, m ∈ f.next ↔ m ∈ f.seen ∧ m ∉ seen
  nodup : f.next.Nodup

/-- All markings that have been seen are in the set, and so is the frontier. -/
structure Progress.Within (r : Progress) (T : Marking → Prop) : Prop where
  seen : ∀ m ∈ r.seen, T m
  frontier : ∀ m ∈ r.frontier, m ∈ r.seen

section Exploration

variable {net : Net} {limits : Limits} {T : Marking → Prop} {f : Found} {r : Progress} {seen : Std.TreeSet Marking}
  {m : Marking}

theorem Progress.mem_start {m' : Marking} : m' ∈ (start m).seen ↔ m' = m := by
  rw [start, Marking.mem_insert_iff]
  exact or_iff_left Std.TreeSet.not_mem_emptyc

theorem Progress.within_start (hm : T m) : (start m).Within T := by
  refine ⟨fun m' hm' => ?_, fun m' hm' => mem_start.2 (List.mem_singleton.1 hm')⟩
  rwa [mem_start.1 hm']

theorem Found.returns_add (hf : f.Since seen T) (hm : T m) :
    Returns (f.add limits m) (fun f' => f'.Since seen T) limits.Stops := by
  unfold Found.add
  split
  · exact .of_ok hf
  · rename_i hnew
    have hnew : m ∉ f.seen := fun hmem => hnew (Std.TreeSet.mem_iff_contains.1 hmem)
    dsimp only
    split
    · rename_i hstates
      refine .of_error (.inr ⟨fun hnone => ?_, rfl⟩)
      rw [hnone] at hstates
      cases hstates
    · refine .of_ok ⟨fun m' hm' => ?_, fun m' hm' => Marking.mem_insert_iff.2 (.inr (hf.kept m' hm')), fun m' => ?_, ?_⟩
      · rcases Marking.mem_insert_iff.1 hm' with rfl | hm'
        · exact hm
        · exact hf.within m' hm'
      · rw [List.mem_cons, hf.mem_next_iff, Marking.mem_insert_iff]
        constructor
        · rintro (rfl | ⟨hm', hold⟩)
          · exact ⟨.inl rfl, fun hold => hnew (hf.kept m' hold)⟩
          · exact ⟨.inr hm', hold⟩
        · rintro ⟨rfl | hm', hold⟩
          · exact .inl rfl
          · exact .inr ⟨hm', hold⟩
      · exact List.nodup_cons.2 ⟨fun hmem => hnew ((hf.mem_next_iff m).1 hmem).1, hf.nodup⟩

theorem Net.yields_followTransition {t : TransitionName} (hwell : net.WellFormed) (hT : net.Confines T)
    (ht : t ∈ net.transitions.keys) (hm : T m) (hf : f.Since seen T) :
    Yields (net.followTransition limits m f t) (fun f' => f'.Since seen T) limits.Stops := by
  obtain ⟨tr, ht⟩ := FinMap.mem_keys_iff.1 ht
  have henabled := Net.yields_enabledBindings hwell ht (hT.isOver hm)
  refine (henabled.imp (fun _ => id) fun e he => .inl he).bind fun d _ => yields_ofExcept ?_
  rw [foldBindings_eq_foldlM]
  refine returns_foldlM hf fun b _ f hf => ?_
  have hfire := Net.returns_fire hwell ht (hT.isOver hm) b
  refine (hfire.imp (fun _ => id) fun e he => .inl he).bind fun m? hm? => ?_
  cases m? with
  | none => exact .of_ok hf
  | some m' => exact Found.returns_add hf (hT.fire hm hm?)

/-- An iteration stays in a set that confines the net, and the new frontier has just what has been seen for the first
time, each marking once. -/
theorem Net.yields_iteration (hwell : net.WellFormed) (hT : net.Confines T) (hr : r.Within T) :
    Yields (net.iteration limits r) (fun r' => r'.Within T ∧
      (∀ m, m ∈ r'.frontier ↔ m ∈ r'.seen ∧ m ∉ r.seen) ∧ r'.frontier.Nodup) limits.Stops := by
  unfold Net.iteration
  split
  · rename_i hempty
    have hnil := List.isEmpty_iff.1 hempty
    exact yields_pure ⟨hr, by simp [hnil], by simp [hnil]⟩
  · have hfold : Yields (r.frontier.foldlM (net.followMarking limits) { seen := r.seen }) (fun f => f.Since r.seen T)
        limits.Stops := by
      refine yields_foldlM ⟨hr.seen, fun _ => id, fun m => by simp, .nil⟩ fun m hm f hf => ?_
      exact yields_foldlM hf fun t ht f hf => Net.yields_followTransition hwell hT ht (hr.seen m (hr.frontier m hm)) hf
    refine hfold.bind fun f hf => (yields_lift _).bind fun _ _ => yields_pure ?_
    have hfrontier : ∀ m, m ∈ f.next.reverse ↔ m ∈ f.seen ∧ m ∉ r.seen := fun m => by
      rw [List.mem_reverse, hf.mem_next_iff]
    exact ⟨⟨hf.within, fun m hm => ((hfrontier m).1 hm).1⟩, hfrontier, (List.reverse_perm f.next).nodup_iff.2 hf.nodup⟩

theorem Net.yields_iterations (limits : Limits) (hwell : net.WellFormed) (hT : net.Confines T) (hr : r.Within T) (k : Nat) :
    Yields (net.iterations limits r k) (fun r' => r'.Within T) limits.Stops := by
  induction k with
  | zero => exact yields_pure hr
  | succ k ih =>
    exact ih.bind fun r' hr' => (Net.yields_iteration hwell hT hr').imp (fun _ h => h.1) fun _ => id

/-- An exploration stays in a set that confines the simplified net, and fails for no other reason. -/
theorem Net.yields_explore (limits : Limits) (hwell : net.WellFormed)
    (hT : ∀ s, net.simplify = .ok s → s.net.Confines T) (hm : T m) :
    Yields (net.explore m limits) (fun found => ∀ m' ∈ found, T m') limits.Fails := by
  rw [Net.explore_eq_iterations]
  have hsimplify : Returns net.simplify (fun s => net.simplify = .ok s) limits.Fails :=
    (returns_simplify net).imp (fun _ => id) fun e he => he.imp_right fun he => .inl (.inl he)
  refine (yields_ofExcept hsimplify).bind fun s hs => ?_
  have hiterations := Net.yields_iterations limits (hwell.simplify hs) (hT s hs) (Progress.within_start hm)
    limits.iterations
  refine (hiterations.imp (fun _ => id) fun e he => .inr (.inl he)).bind fun r hr => ?_
  unfold Progress.finish
  split
  · exact yields_pure hr.seen
  · exact yields_throw (.inr (.inr rfl))

end Exploration

/-! ### Markings that a net attains -/

section Attains

variable {net net' : Net} {m : Marking}

theorem Net.Attains.confines (hwell : net.WellFormed) (h : net.SimplifiesTo net') : net'.Confines net.Attains := by
  refine ⟨fun hm => ?_, fun hm hfire => .fire hm h hfire⟩
  rw [(h.wellFormed hwell).2.1]
  exact hm.isOver hwell

/-- After a net has been built, no structural error is possible.  Let a marking be an initial one of the net, or what any
firings lead to from there, and let the net be simplified any number of times.  The marking has the places of the net and
no others.  For each transition, the demand is told, and the marking that is left has all places that the demand asks
for; and whatever the session, the enabled bindings, the successors, firing under any binding and an exploration return
a result or an error that is not structural.  What an exploration finds is attained again. -/
theorem Net.Attains.no_structural_error {places : List Place} {decls : List TransitionDeclaration}
    (hbuild : Net.build places decls = .ok net) (hnet : net.SimplifiesTo net') (hm : net.Attains m) :
    net'.places = net.places ∧ m.places.keys = net.places.keys ∧
      (∀ t ∈ net.transitions.keys,
        (∃ d?, net'.demand t m = .ok d? ∧
          ∀ d, d? = some d → ∀ p ∈ d.input.keys, (d.marking.get? p).isSome = true) ∧
        (∀ s e, ((net'.enabledBindings t m).run.run s).1 ≠ .error (.structural e)) ∧
        (∀ s e, ((net'.successors t m).run.run s).1 ≠ .error (.structural e)) ∧
        ∀ b e, net'.fire t m b ≠ .error (.structural e)) ∧
      ∀ limits s, (∀ e, ((net'.explore m limits).run.run s).1 ≠ .error (.structural e)) ∧
        ∀ found, ((net'.explore m limits).run.run s).1 = .ok found → ∀ m' ∈ found, net.Attains m' := by
  have hwell := Net.wellFormed_of_build hbuild
  obtain ⟨hwell', hplaces, hnames⟩ := hnet.wellFormed hwell
  have hover : m.IsOver net'.places := (Net.Attains.confines hwell hnet).isOver hm
  refine ⟨hplaces, hm.isOver hwell, fun t ht => ?_, fun limits s => ?_⟩
  · rw [← hnames] at ht
    obtain ⟨tr, ht⟩ := FinMap.mem_keys_iff.1 ht
    obtain ⟨d?, hdemand⟩ := hwell'.exists_demand ht fun p hp => hover.isSome hp
    refine ⟨⟨d?, hdemand, fun d hd p hp => ?_⟩, fun s e he => ?_, fun s e he => ?_, fun b e he => ?_⟩
    · rw [hd] at hdemand
      exact (Net.demand_some ht hdemand).isSome hp
    · exact ((Net.yields_enabledBindings hwell' ht hover s).error _ he).not_structural e rfl
    · exact ((Net.yields_successors hwell' ht hover s).error _ he).not_structural e rfl
    · exact ((Net.returns_fire hwell' ht hover b).error _ he).not_structural e rfl
  · have hexplore := Net.yields_explore limits hwell'
      (fun s hs => Net.Attains.confines hwell (hnet.simplify hs)) hm s
    exact ⟨fun e he => (hexplore.error _ he).not_structural e rfl, hexplore.ok⟩

/-- A net whose guard is turned into its output arc, after the simplified net has fired once. -/
theorem Net.Attains.no_structural_error_sum :
    let x : Inscription := .var "x"
    let one : Inscription := .const (.int 1)
    let arcs : List ArcDeclaration := [⟨"p", .input, [x, one]⟩, ⟨"q", .output, [.expr (.ofText "x + y")]⟩]
    let net : Net := ⟨.ofList ["p", "q"],
      .ofList [("t", ⟨.ofList [("p", [x, one])], .ofList [("q", [.expr (.ofText "x + y")])], [⟨.var "y", x⟩]⟩)]⟩
    let net' : Net := ⟨.ofList ["p", "q"],
      .ofList [("t", ⟨.ofList [("p", [x, one])], .ofList [("q", [.expr (.ofText "(x + x)")])], []⟩)]⟩
    let initial : Marking := ⟨.ofList [("p", .ofList [.int 1, .int 2, .int 3]), ("q", ∅)]⟩
    let m : Marking := ⟨.ofList [("p", .ofList [.int 3]), ("q", .ofList [.int 4])]⟩
    Net.build ["p", "q"] [⟨"t", arcs, [⟨.var "y", x⟩]⟩] = .ok net ∧ net.simplify.map (·.net) = .ok net' ∧
      net.marking [("p", .ofList [.int 1, .int 2, .int 3])] = .ok initial ∧
      net'.fire "t" initial (.ofList [("x", .int 2)]) = .ok (some m) ∧
      m.places.keys = net.places.keys ∧ (∀ b e, net'.fire "t" m b ≠ .error (.structural e)) ∧
      ∀ limits s e, ((net'.explore m limits).run.run s).1 ≠ .error (.structural e) := by
  intro x one arcs net net' initial m
  have hbuild : Net.build ["p", "q"] [⟨"t", arcs, [⟨.var "y", x⟩]⟩] = .ok net := by decide +kernel
  have hmap : net.simplify.map (·.net) = .ok net' := by decide +kernel
  have hinitial : net.marking [("p", .ofList [.int 1, .int 2, .int 3])] = .ok initial := by decide +kernel
  have hfire : net'.fire "t" initial (.ofList [("x", .int 2)]) = .ok (some m) := by decide +kernel
  have hnet : net.SimplifiesTo net' := by
    cases hs : net.simplify with
    | error e =>
      rw [hs] at hmap
      cases hmap
    | ok s =>
      rw [hs] at hmap
      have heq : s.net = net' := Except.ok.inj hmap
      exact heq ▸ .simplify .refl hs
  have hm : net.Attains m := .fire (.marking .refl hinitial) hnet hfire
  obtain ⟨-, hkeys, hcalls, hexplore⟩ := Net.Attains.no_structural_error hbuild hnet hm
  exact ⟨hbuild, hmap, hinitial, hfire, hkeys, (hcalls "t" (by decide +kernel)).2.2.2, fun limits s => (hexplore limits s).1⟩

end Attains

end TokenNet
