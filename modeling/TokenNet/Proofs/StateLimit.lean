import TokenNet.Proofs.Layers

/-!
# The limit of states

Whatever the net and the markings, the markings that an exploration has seen are reachable, there are not more of them
than the limit allows, and there is one more of them with each iteration as long as something is left to follow:
`Progress.Counted`.  An error because of a limit means that there are more reachable markings than the limit:
`Limits.Justifies`.

The initial marking is seen without a test, so a limit of zero allows as much as a limit of one.  With that exception
the limit is exact: `Session.Reaches.explore_states`.
-/

namespace TokenNet

open Store

/-- The markings that any number of steps leads to from the initial one. -/
def Net.reachable (net : Net) (initial : Marking) : Set Marking := {m | Relation.ReflTransGen net.Steps initial m}

/-! ### Computations in a sound session -/

/-- Started in the session, the computation leaves a sound session, and it returns what satisfies `P`, or fails with an
error that satisfies `E`. -/
structure Concludes {α : Type} (x : SessionM α) (s : Session) (P : α → Prop) (E : Error → Prop) : Prop where
  sound : (x.run.run s).2.Sound
  returns : Returns (x.run.run s).1 P E

section Concludes

variable {α β γ : Type} {x : SessionM α} {f : α → SessionM β} {s : Session} {P P' : α → Prop} {Q : β → Prop}
  {E E' : Error → Prop}

theorem concludes_pure {a : α} (hs : s.Sound) (h : P a) : Concludes (pure a) s P E := ⟨hs, .of_ok h⟩

theorem concludes_ofExcept {r : Except Error α} (hs : s.Sound) (h : Returns r P E) :
    Concludes (SessionM.ofExcept r) s P E := ⟨hs, h⟩

/-- The results of a computation come from what it keeps, its errors from what it yields in any session. -/
theorem Keeps.concludes {R : α → Session → Prop} (hx : Keeps x s R) (hE : Yields x P' E)
    (hP : ∀ a s', s'.Sound → R a s' → P a) : Concludes x s P E :=
  ⟨hx.sound, fun a ha => hP a _ hx.sound (hx.result a ha), (hE s).error⟩

theorem Concludes.imp (hx : Concludes x s P E) (hP : ∀ a, P a → P' a) (hE : ∀ e, E e → E' e) : Concludes x s P' E' :=
  ⟨hx.sound, hx.returns.imp hP hE⟩

theorem Concludes.bind (hx : Concludes x s P E) (hf : ∀ a s', s'.Sound → P a → Concludes (f a) s' Q E) :
    Concludes (x >>= f) s Q E := by
  obtain ⟨hs, hx⟩ := hx
  rcases hrun : x.run.run s with ⟨e | a, s'⟩
  · have hbind : (x >>= f).run.run s = (.error e, s') := by rw [run_bind_state, hrun]
    rw [hrun] at hs hx
    refine ⟨?_, ?_⟩
    · rwa [hbind]
    · rw [hbind]
      exact .of_error (hx.error e rfl)
  · have hbind : (x >>= f).run.run s = (f a).run.run s' := by rw [run_bind_state, hrun]
    rw [hrun] at hs hx
    obtain ⟨hs', hq⟩ := hf a s' hs (hx.ok a rfl)
    refine ⟨?_, ?_⟩
    · rwa [hbind]
    · rwa [hbind]

theorem concludes_foldlM {g : β → γ → SessionM β} {l : List γ} {b : β} (hs : s.Sound) (hb : Q b)
    (hg : ∀ c ∈ l, ∀ b s, s.Sound → Q b → Concludes (g b c) s Q E) : Concludes (l.foldlM g b) s Q E := by
  induction l generalizing b s with
  | nil => exact concludes_pure hs hb
  | cons c l ih =>
    rw [List.foldlM_cons]
    exact (hg c List.mem_cons_self b s hs hb).bind fun b' s' hs' hb' =>
      ih hs' hb' fun c' hc' => hg c' (List.mem_cons_of_mem c hc')

end Concludes

/-! ### Errors that are no limits -/

/-- No limit has been reached. -/
def Error.IsInner (e : Error) : Prop := ∀ l, e ≠ .cancelled l

section Inner

variable {net : Net} {t : TransitionName} {m : Marking} {b : Binding} {e : Error}

theorem Error.isInner_structural (e : StructuralError) : (Error.structural e).IsInner := fun _ h => by cases h

theorem Error.isInner_evaluation (e : EvaluationError) : (Error.evaluation e).IsInner := fun _ h => by cases h

theorem Error.IsSimplification.isInner (h : e.IsSimplification) : e.IsInner := by
  rcases h with ⟨c, rfl⟩ | ⟨e', rfl⟩
  · exact fun _ h => by cases h
  · exact Error.isInner_evaluation e'

theorem Net.yields_enabledBindings_inner (net : Net) (t : TransitionName) (m : Marking) :
    Yields (net.enabledBindings t m) (fun _ => True) Error.IsInner :=
  Net.yields_enabledBindings_of (fun e _ => Error.isInner_structural e) (fun e _ => Error.isInner_structural e)
    Error.isInner_evaluation

theorem Net.returns_fire_inner (net : Net) (t : TransitionName) (m : Marking) (b : Binding) :
    Returns (net.fire t m b) (fun r => net.fire t m b = .ok r) Error.IsInner := by
  have hstructural : ∀ {α : Type} (x : Except StructuralError α),
      Returns (x.mapError Error.structural) (fun a => x = .ok a) Error.IsInner :=
    fun x => returns_mapError Error.isInner_structural
  have hevaluation : ∀ {α : Type} (x : Except EvaluationError α),
      Returns (x.mapError Error.evaluation) (fun a => x = .ok a) Error.IsInner :=
    fun x => returns_mapError Error.isInner_evaluation
  have hall : Returns (net.fire t m b) (fun _ => True) Error.IsInner := by
    unfold Net.fire
    refine (hstructural _).bind fun tr _ => (hevaluation _).bind fun taken _ => (hstructural _).bind fun covered _ => ?_
    cases covered with
    | false => exact .of_ok trivial
    | true => exact (hevaluation _).bind fun made _ => (hstructural _).bind fun m' _ => .of_ok trivial
  exact hall.eq

end Inner

/-! ### What has been seen -/

/-- The markings are in the set, there are some, and not more than the limit allows. -/
structure Limits.Admits (limits : Limits) (T : Set Marking) (seen : Std.TreeSet Marking) : Prop where
  within : ∀ m ∈ seen, m ∈ T
  pos : 0 < seen.size
  le : ∀ n, limits.states = some n → seen.size ≤ max n 1

/-- If the error is a limit, then it is that of states, and the set has more markings than the limit allows. -/
def Limits.Justifies (limits : Limits) (T : Set Marking) (e : Error) : Prop :=
  ∀ l, e = .cancelled l → l = .states ∧ ∃ n, limits.states = some n ∧ (max n 1 : Nat) < T.encard

/-- What has been found by following some of the frontier, where so many markings had been seen before. -/
structure Found.Counted (limits : Limits) (T : Set Marking) (before : Nat) (f : Found) : Prop where
  admits : limits.Admits T f.seen
  next : ∀ m ∈ f.next, m ∈ f.seen
  size : f.seen.size = before + f.next.length

/-- What has been seen after `k` iterations: as long as something is left to follow, more than `k` markings. -/
structure Progress.Counted (limits : Limits) (T : Set Marking) (k : Nat) (r : Progress) : Prop where
  admits : limits.Admits T r.seen
  frontier : ∀ m ∈ r.frontier, m ∈ r.seen
  lt_size : r.frontier ≠ [] → k < r.seen.size

section Iterations

variable {net : Net} {limits : Limits} {T : Set Marking} {f : Found} {r : Progress} {initial m : Marking}
  {t : TransitionName} {before k : Nat} {seen : Std.TreeSet Marking} {s : Session} {e : Error}

theorem size_le_encard (h : ∀ m ∈ seen, m ∈ T) : (seen.size : ENat) ≤ T.encard := by
  rw [← encard_eq_size]
  exact Set.encard_le_encard h

theorem Error.IsInner.justifies (h : e.IsInner) : limits.Justifies T e := fun l hl => absurd hl (h l)

/-- Adding a marking keeps to the limit, or shows that there are more markings than it allows. -/
theorem Found.Counted.add (hf : f.Counted limits T before) (hm : m ∈ T) :
    Returns (f.add limits m) (fun f' => f'.Counted limits T before) (limits.Justifies T) := by
  have hwithin : ∀ m' ∈ f.seen.insert m, m' ∈ T := by
    intro m' hm'
    rcases Marking.mem_insert_iff.1 hm' with rfl | hm'
    · exact hm
    · exact hf.admits.within m' hm'
  have hpos := hf.admits.pos
  unfold Found.add
  split
  · exact .of_ok hf
  · rename_i hnew
    have hsize : (f.seen.insert m).size = f.seen.size + 1 := by
      rw [Std.TreeSet.size_insert, if_neg hnew]
    dsimp only
    cases hstates : limits.states.any (· < (f.seen.insert m).size) with
    | true =>
      obtain ⟨n, hn, hlt⟩ := (Option.any_eq_true _ _).1 hstates
      have hlt : n < f.seen.size + 1 := by simpa [hsize] using hlt
      refine .of_error fun l hl => ?_
      cases hl
      refine ⟨rfl, n, hn, lt_of_lt_of_le (Nat.cast_lt.2 ?_) (size_le_encard hwithin)⟩
      omega
    | false =>
      have hpos' : 0 < (f.seen.insert m).size := by omega
      refine .of_ok ⟨⟨hwithin, hpos', fun n hn => ?_⟩, fun m' hm' => ?_, ?_⟩
      · rw [hn] at hstates
        have hle : (f.seen.insert m).size ≤ n := by simpa using hstates
        exact hle.trans (le_max_left n 1)
      · rcases List.mem_cons.1 hm' with rfl | hm'
        · exact Marking.mem_insert_iff.2 (.inl rfl)
        · exact Marking.mem_insert_iff.2 (.inr (hf.next m' hm'))
      · rw [hsize, hf.size, List.length_cons, Nat.add_assoc]

variable (hT : ∀ {m m'}, m ∈ T → net.Steps m m' → m' ∈ T)

include hT

theorem Net.concludes_followTransition (hm : m ∈ T) (hs : s.Sound) (hf : f.Counted limits T before) :
    Concludes (net.followTransition limits m f t) s (fun f' => f'.Counted limits T before) (limits.Justifies T) := by
  have henabled : Concludes (net.enabledBindings t m) s
      (fun d => ∃ tr, net.transition? t = some tr ∧ ∀ B ∈ bindings d, tr.Enables m B) (limits.Justifies T) := by
    refine (net.keeps_enabledBindings t m hs).concludes
      ((Net.yields_enabledBindings_inner net t m).imp (fun _ => id) fun _ => Error.IsInner.justifies) ?_
    exact fun d s' hs' ⟨hd, tr, o, ht, hlists⟩ => ⟨tr, ht, fun B => (hlists.mem_bindings (hs'.normal hd)).1⟩
  refine henabled.bind fun d s' hs' ⟨tr, ht, hbindings⟩ => concludes_ofExcept hs' ?_
  rw [foldBindings_eq_foldlM]
  refine returns_foldlM hf fun B hB f hf => ?_
  have hfire : Returns (net.fire t m B) (fun r => net.fire t m B = .ok r) (limits.Justifies T) :=
    (Net.returns_fire_inner net t m B).imp (fun _ => id) fun _ => Error.IsInner.justifies
  refine hfire.bind fun m? hm? => ?_
  cases m? with
  | none => exact .of_ok hf
  | some m' => exact hf.add (hT hm ⟨t, tr, B, ht, hbindings B hB, hm?⟩)

/-- An iteration adds a new marking for each one that is left to follow. -/
theorem Net.concludes_iteration (hs : s.Sound) (hr : r.Counted limits T k) :
    Concludes (net.iteration limits r) s (fun r' => r'.Counted limits T (k + 1)) (limits.Justifies T) := by
  unfold Net.iteration
  split
  · rename_i hempty
    have hnil := List.isEmpty_iff.1 hempty
    exact concludes_pure hs ⟨hr.admits, hr.frontier, fun hne => absurd hnil hne⟩
  · rename_i hfrontier
    have hk : k < r.seen.size := hr.lt_size fun hnil => hfrontier (List.isEmpty_iff.2 hnil)
    have hfold : Concludes (r.frontier.foldlM (net.followMarking limits) { seen := r.seen }) s
        (fun f => f.Counted limits T r.seen.size) (limits.Justifies T) := by
      refine concludes_foldlM hs ⟨hr.admits, fun m hm => absurd hm List.not_mem_nil, rfl⟩ fun m hm f s hs hf => ?_
      have hmT := hr.admits.within m (hr.frontier m hm)
      exact concludes_foldlM hs hf fun t _ f s hs hf => Net.concludes_followTransition hT hmT hs hf
    refine hfold.bind fun f s₁ hs₁ hf => ?_
    have htrim : Concludes limits.trimCaches s₁ (fun _ => True) (limits.Justifies T) :=
      (keeps_trimCaches hs₁).concludes (yields_lift _) fun _ _ _ => id
    refine htrim.bind fun _ s₂ hs₂ _ => concludes_pure hs₂ ⟨hf.admits, fun m hm => ?_, fun hne => ?_⟩
    · exact hf.next m (List.mem_reverse.1 hm)
    · have hlength : 0 < f.next.length := List.length_pos_iff.2 fun hnil => hne (by rw [hnil]; rfl)
      have hsize := hf.size
      change k + 1 < f.seen.size
      omega

theorem Net.concludes_iterations (hinitial : initial ∈ T) (hs : s.Sound) (k : Nat) :
    Concludes (net.iterations limits (.start initial) k) s (fun r => r.Counted limits T k) (limits.Justifies T) := by
  induction k with
  | zero =>
    have hsize : (Progress.start initial).seen.size = 1 := by
      rw [Progress.start, Std.TreeSet.size_insert]
      rfl
    refine concludes_pure hs ⟨⟨fun m hm => ?_, by omega, fun n _ => by omega⟩, fun m hm => ?_, fun _ => by omega⟩
    · rwa [Progress.mem_start.1 hm]
    · exact Progress.mem_start.2 (List.mem_singleton.1 hm)
  | succ k ih => exact ih.bind fun r s' hs' hr => Net.concludes_iteration hT hs' hr

end Iterations

/-! ### Explorations -/

section Exploration

variable {net : Net} {simplified : Simplified} {limits : Limits} {initial m : Marking} {found : Std.TreeSet Marking}
  {s : Session}

/-- The net reaches more markings than the limit, or else than the iterations, of which there are fewer then.  Nothing stops
an exploration from outside. -/
def Net.Surpasses (net : Net) (initial : Marking) (limits : Limits) : Limit → Prop
  | .states => ∃ n, limits.states = some n ∧ (max n 1 : Nat) < (net.reachable initial).encard
  | .iterations => limits.iterations < (net.reachable initial).encard ∧
    ∀ n, limits.states = some n → limits.iterations < max n 1
  | .outside _ => False

theorem Net.concludes_explore (net : Net) (initial : Marking) (limits : Limits) (hs : s.Sound) :
    Concludes (net.explore initial limits) s (fun found => ∀ n, limits.states = some n → found.size ≤ max n 1)
      fun e => ∀ l, e = .cancelled l → ∃ simplified, net.simplify = .ok simplified ∧
        simplified.net.Surpasses initial limits l := by
  rw [Net.explore_eq_iterations]
  refine Concludes.bind (concludes_ofExcept hs ((returns_simplify net).imp (fun _ => id) ?_)) fun r s₁ hs₁ hr => ?_
  · exact fun e he l hl => absurd hl (he.isInner l)
  have hclosed : ∀ {m m'}, m ∈ r.net.reachable initial → r.net.Steps m m' → m' ∈ r.net.reachable initial :=
    fun hm hstep => Relation.ReflTransGen.tail hm hstep
  have hiterations : Concludes (r.net.iterations limits (.start initial) limits.iterations) s₁
      (fun p => p.Counted limits (r.net.reachable initial) limits.iterations)
      (limits.Justifies (r.net.reachable initial)) := Net.concludes_iterations hclosed .refl hs₁ limits.iterations
  refine Concludes.bind (hiterations.imp (fun _ => id) fun e he l hl => ?_) fun p s₂ hs₂ hp => ?_
  · obtain ⟨rfl, n, hn, hlt⟩ := he l hl
    exact ⟨r, hr, n, hn, hlt⟩
  · unfold Progress.finish
    split
    · exact concludes_pure hs₂ hp.admits.le
    · rename_i hfrontier
      have hlt : limits.iterations < p.seen.size := hp.lt_size fun hnil => hfrontier (List.isEmpty_iff.2 hnil)
      refine concludes_ofExcept (r := .error (.cancelled .iterations)) hs₂ (.of_error fun l hl => ?_)
      cases hl
      refine ⟨r, hr, lt_of_lt_of_le (Nat.cast_lt.2 hlt) (size_le_encard hp.admits.within), fun n hn => ?_⟩
      exact hlt.trans_le (hp.admits.le n hn)

/-- What an exploration finds is what is reachable. -/
theorem Net.Explored.mem_iff (h : net.Explored initial found) : m ∈ found ↔ m ∈ net.reachable initial := by
  constructor
  · exact h.reached m
  · intro hm
    induction hm with
    | refl => exact h.start
    | tail _ hstep ih => exact h.mem_of_steps ih hstep

/-- An exploration finds what the simplified net reaches. -/
theorem Net.mem_explore_iff (hs : s.Sound) (hsimplify : net.simplify = .ok simplified)
    (hrun : ((net.explore initial limits).run.run s).1 = .ok found) :
    m ∈ found ↔ m ∈ simplified.net.reachable initial := by
  obtain ⟨simplified', hsimplify', hexplored⟩ := (net.keeps_explore initial limits hs).result found hrun
  rw [hsimplify] at hsimplify'
  cases hsimplify'
  exact hexplored.mem_iff

/-- Once a built net has been simplified, its exploration fails only at an evaluation, or because of a limit. -/
theorem Net.explore_error_cases (hwell : net.WellFormed) (hsimplify : net.simplify = .ok simplified)
    (hinitial : initial.IsOver net.places) {e : Error} (he : ((net.explore initial limits).run.run s).1 = .error e) :
    e.IsEvaluation ∨ ∃ l, e = .cancelled l := by
  have hiterations := Net.yields_iterations limits (hwell.simplify hsimplify) (Net.confines_isOver hsimplify)
    (Progress.within_start hinitial) limits.iterations
  have hall : Yields (do
      let r ← simplified.net.iterations limits (.start initial) limits.iterations
      r.finish : SessionM (Std.TreeSet Marking)) (fun _ => True) fun e => e.IsEvaluation ∨ ∃ l, e = .cancelled l := by
    refine (hiterations.imp (fun _ => id) fun e he => he.imp_right fun h => ⟨_, h.2⟩).bind fun r hr => ?_
    unfold Progress.finish
    split
    · exact yields_pure trivial
    · exact yields_throw (.inr ⟨_, rfl⟩)
  rw [Net.explore_of_simplify hsimplify] at he
  exact (hall s).error e he

/-- The limit of states is exact, if a limit of zero is read as a limit of one.  Whatever the net, the marking and the
session: an exploration that ends has not found more markings than the limit; if it gives up because of the states, the
simplified net reaches more markings than the limit; and if it gives up because of the iterations, there are fewer of
them than reachable markings, and than the limit of states.

So let a built net be explored from a marking of its places, let it be simplified or not, with no fewer iterations than
the limit of states, and let no evaluation fail.  The exploration ends if and only if the number of reachable markings
does not exceed the limit, and then it has found these; otherwise it gives up because of the states. -/
theorem Session.Reaches.explore_states (hs : Reaches {} s) (net : Net) (initial : Marking) (limits : Limits) :
    (∀ found, ((net.explore initial limits).run.run s).1 = .ok found →
      ∀ n, limits.states = some n → found.size ≤ max n 1) ∧
    (((net.explore initial limits).run.run s).1 = .error (.cancelled .states) → ∃ simplified n,
      net.simplify = .ok simplified ∧ limits.states = some n ∧
        (max n 1 : Nat) < (simplified.net.reachable initial).encard) ∧
    (((net.explore initial limits).run.run s).1 = .error (.cancelled .iterations) → ∃ simplified,
      net.simplify = .ok simplified ∧ limits.iterations < (simplified.net.reachable initial).encard ∧
        ∀ n, limits.states = some n → limits.iterations < max n 1) ∧
    ∀ places decls original simplified n, Net.build places decls = .ok original → original.SimplifiesTo net →
      initial.IsOver net.places → net.simplify = .ok simplified → limits.states = some n →
      max n 1 ≤ limits.iterations → (∀ e, ((net.explore initial limits).run.run s).1 ≠ .error (.evaluation e)) →
      ((∃ found, ((net.explore initial limits).run.run s).1 = .ok found) ↔
        (simplified.net.reachable initial).encard ≤ (max n 1 : Nat)) ∧
      (∀ found, ((net.explore initial limits).run.run s).1 = .ok found →
        ∀ m, m ∈ found ↔ m ∈ simplified.net.reachable initial) ∧
      ((max n 1 : Nat) < (simplified.net.reachable initial).encard →
        ((net.explore initial limits).run.run s).1 = .error (.cancelled .states)) := by
  obtain ⟨-, hresult, hcancelled⟩ := net.concludes_explore initial limits hs.sound
  refine ⟨hresult, fun h => ?_, fun h => ?_, ?_⟩
  · obtain ⟨simplified, hsimplify, n, hn, hlt⟩ := hcancelled _ h .states rfl
    exact ⟨simplified, n, hsimplify, hn, hlt⟩
  · exact hcancelled _ h .iterations rfl
  · intro places decls original simplified n hbuild hnet hinitial hsimplify hn hiterations herror
    have hwell := (hnet.wellFormed (Net.wellFormed_of_build hbuild)).1
    have hfound : ∀ found, ((net.explore initial limits).run.run s).1 = .ok found →
        ∀ m, m ∈ found ↔ m ∈ simplified.net.reachable initial :=
      fun found hrun m => Net.mem_explore_iff hs.sound hsimplify hrun
    have hle : ∀ found, ((net.explore initial limits).run.run s).1 = .ok found →
        (simplified.net.reachable initial).encard ≤ (max n 1 : Nat) := by
      intro found hrun
      have hset : simplified.net.reachable initial = {m | m ∈ found} := Set.ext fun m => (hfound found hrun m).symm
      rw [hset, encard_eq_size]
      exact Nat.cast_le.2 (hresult found hrun n hn)
    have hlt : ∀ e, ((net.explore initial limits).run.run s).1 = .error e → e = .cancelled .states ∧
        (max n 1 : Nat) < (simplified.net.reachable initial).encard := by
      intro e he
      rcases Net.explore_error_cases hwell hsimplify hinitial he with ⟨e', rfl⟩ | ⟨l, rfl⟩
      · exact absurd he (herror e')
      · obtain ⟨simplified', hsimplify', hsurpasses⟩ := hcancelled _ he l rfl
        rw [hsimplify] at hsimplify'
        cases hsimplify'
        cases l with
        | states =>
          obtain ⟨n', hn', hlt⟩ := hsurpasses
          rw [hn] at hn'
          cases hn'
          exact ⟨rfl, hlt⟩
        | iterations => exact absurd (hsurpasses.2 n hn) (Nat.not_lt_of_le hiterations)
        | outside => exact hsurpasses.elim
    cases hrun : ((net.explore initial limits).run.run s).1 with
    | ok found =>
      refine ⟨⟨fun _ => hle found hrun, fun _ => ⟨found, rfl⟩⟩, fun found' h => hfound found' (hrun.trans h), ?_⟩
      exact fun h => absurd (hle found hrun) (not_le_of_gt h)
    | error e =>
      obtain ⟨rfl, hlt⟩ := hlt e hrun
      refine ⟨⟨fun ⟨found, h⟩ => ?_, fun h => absurd h (not_le_of_gt hlt)⟩, fun found h => ?_, fun _ => rfl⟩
      · cases h
      · cases h

/-- Two tokens, each of which is moved once: a limit of four is not exceeded, one of three is. -/
theorem Session.Reaches.explore_states_two_tokens :
    let x : Inscription := .var "x"
    let y : Inscription := .var "y"
    let arcs : List ArcDeclaration := [⟨"p", .input, [x]⟩, ⟨"q", .output, [y]⟩]
    let net : Net := ⟨.ofList ["p", "q"], .ofList [("t", ⟨.ofList [("p", [x])], .ofList [("q", [y])], [⟨x, y⟩]⟩)]⟩
    let simplified : Simplified := ⟨⟨.ofList ["p", "q"],
      .ofList [("t", ⟨.ofList [("p", [y])], .ofList [("q", [y])], []⟩)]⟩, .ofList [("t", [("x", y)])]⟩
    let initial : Marking := ⟨.ofList [("p", .ofList [.int 1, .int 2]), ("q", ∅)]⟩
    Net.build ["p", "q"] [⟨"t", arcs, [⟨x, y⟩]⟩] = .ok net ∧ net.simplify = .ok simplified ∧
      initial.IsOver net.places ∧
      (∃ found, ((net.explore initial ⟨4, some 4, 0⟩).run.run {}).1 = .ok found ∧ found.size = 4 ∧
        ∀ m, m ∈ found ↔ m ∈ simplified.net.reachable initial) ∧
      ((net.explore initial ⟨4, some 3, 0⟩).run.run {}).1 = .error (.cancelled .states) ∧
      (simplified.net.reachable initial).encard = 4 := by
  intro x y arcs net simplified initial
  have hbuild : Net.build ["p", "q"] [⟨"t", arcs, [⟨x, y⟩]⟩] = .ok net := by decide +kernel
  have hsimplify : net.simplify = .ok simplified := by decide +kernel
  have hinitial : initial.IsOver net.places := by decide +kernel
  have hsize : ((net.explore initial ⟨4, some 4, 0⟩).run.run {}).1.map (·.size) = .ok 4 := by decide +kernel
  have hthree : ((net.explore initial ⟨4, some 3, 0⟩).run.run {}).1.map (·.size) = .error (.cancelled .states) := by
    decide +kernel
  have hthree := map_eq_error.1 hthree
  obtain ⟨-, hcancelled, -⟩ := explore_states (.refl {}) net initial ⟨4, some 3, 0⟩
  obtain ⟨simplified', n, hsimplify', hn, hlt⟩ := hcancelled hthree
  rw [hsimplify] at hsimplify'
  cases hsimplify'
  cases hn
  cases hfour : ((net.explore initial ⟨4, some 4, 0⟩).run.run {}).1 with
  | error e =>
    rw [hfour] at hsize
    cases hsize
  | ok found =>
    rw [hfour] at hsize
    have herror : ∀ e, ((net.explore initial ⟨4, some 4, 0⟩).run.run {}).1 ≠ .error (.evaluation e) := by
      rw [hfour]
      exact nofun
    obtain ⟨-, -, -, hexact⟩ := explore_states (.refl {}) net initial ⟨4, some 4, 0⟩
    obtain ⟨hends, hmem, -⟩ := hexact _ _ _ _ 4 hbuild .refl hinitial hsimplify rfl (by decide) herror
    refine ⟨hbuild, hsimplify, hinitial, ⟨found, rfl, Except.ok.inj hsize, hmem found hfour⟩, hthree, ?_⟩
    exact le_antisymm (hends.1 ⟨found, hfour⟩) (Order.add_one_le_of_lt hlt)

/-- A limit of zero does not stop an exploration that finds nothing but the initial marking. -/
theorem Session.explore_one_state_of_limit_zero :
    let net : Net := ⟨.ofList ["p"], ∅⟩
    let initial : Marking := ⟨.ofList [("p", .ofList [.int 1])]⟩
    Net.build ["p"] [] = .ok net ∧ net.marking [("p", .ofList [.int 1])] = .ok initial ∧
      ∃ found, ((net.explore initial { states := some 0 }).run.run {}).1 = .ok found ∧ ¬ found.size ≤ 0 := by
  intro net initial
  have hsize : ((net.explore initial { states := some 0 }).run.run {}).1.map (·.size) = .ok 1 := by decide +kernel
  refine ⟨by decide +kernel, by decide +kernel, ?_⟩
  cases hrun : ((net.explore initial { states := some 0 }).run.run {}).1 with
  | error e =>
    rw [hrun] at hsize
    cases hsize
  | ok found =>
    rw [hrun] at hsize
    have hone : found.size = 1 := Except.ok.inj hsize
    exact ⟨found, rfl, by omega⟩

end Exploration

end TokenNet
