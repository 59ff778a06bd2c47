import TokenNet.Proofs.Declaration

/-!
# Which declarations are accepted

The faults of declarations are listed in the order in which a reader meets them: of a transition that its name was
declared before, and then of each of its arcs that the place is not declared, each expression on an input arc, and that
an arc of the same direction stands at that place before.  A build returns the first of them, and where there is none the
net of the declarations: `Net.build_eq`.

There is none exactly if the declarations are well-formed, `Net.faults_eq_nil_iff`.  Then one net `Realizes` them, and the
order in which transitions and arcs stand is not seen in it: `Net.build_outcome`.
-/

namespace TokenNet

/-! ### The first fault -/

section FirstFault

variable {α β γ ε : Type}

/-- The result, or the first fault if there is one. -/
def unlessFault (faults : List ε) (b : β) : Except ε β := faults.head?.elim (.ok b) .error

theorem unlessFault_eq_ok {faults : List ε} {b b' : β} : unlessFault faults b = .ok b' ↔ faults = [] ∧ b = b' := by
  cases faults with
  | nil => simp [unlessFault]
  | cons e faults => simp [unlessFault]

theorem unlessFault_eq_error {faults : List ε} {b : β} {e : ε} :
    unlessFault faults b = .error e ↔ faults.head? = some e := by
  cases faults with
  | nil => simp [unlessFault]
  | cons e' faults => simp [unlessFault]

/-- The faults of the elements of a list, each told from the element and those that stand before it. -/
def faultsBehind (faults : List α → α → List ε) : List α → List α → List ε
  | _, [] => []
  | before, a :: l => faults before a ++ faultsBehind faults (before ++ [a]) l

variable {faults : List α → α → List ε}

/-- A fold whose steps fail with the first fault of an element fails with the first fault of the list. -/
theorem foldlM_eq_unlessFault {g : β → α → Except ε β} {result : List α → β}
    (h : ∀ before a, g (result before) a = unlessFault (faults before a) (result (before ++ [a])))
    (before l : List α) :
    l.foldlM g (result before) = unlessFault (faultsBehind faults before l) (result (before ++ l)) := by
  induction l generalizing before with
  | nil => simp [faultsBehind, unlessFault, pure, Except.pure]
  | cons a l ih =>
    rw [List.foldlM_cons, h, faultsBehind]
    cases faults before a with
    | nil =>
      have hrest := ih (before ++ [a])
      rw [List.append_assoc, List.singleton_append] at hrest
      exact hrest
    | cons e rest => rfl

/-- Where an element has no fault exactly if it is right by itself and its key is new, a list has none exactly if all
its elements are right and their keys are new and distinct. -/
theorem faultsBehind_eq_nil_iff {P : α → Prop} {key : α → γ}
    (h : ∀ before a, faults before a = [] ↔ P a ∧ key a ∉ before.map key) (before l : List α) :
    faultsBehind faults before l = [] ↔
      (∀ a ∈ l, P a) ∧ (l.map key).Nodup ∧ ∀ a ∈ l, key a ∉ before.map key := by
  induction l generalizing before with
  | nil => simp [faultsBehind]
  | cons a l ih =>
    have hnew : (∀ b ∈ l, key b ∉ (before ++ [a]).map key) ↔
        key a ∉ l.map key ∧ ∀ b ∈ l, key b ∉ before.map key := by
      rw [List.map_append, List.map_singleton]
      constructor
      · intro hb
        refine ⟨fun ha => ?_, fun b hbl hbefore => hb b hbl (List.mem_append_left _ hbefore)⟩
        obtain ⟨b, hbl, hkey⟩ := List.mem_map.1 ha
        exact hb b hbl (List.mem_append_right _ (by simp [hkey]))
      · rintro ⟨ha, hb⟩ b hbl hmem
        rcases List.mem_append.1 hmem with hbefore | hab
        · exact hb b hbl hbefore
        · exact ha (List.mem_map.2 ⟨b, hbl, by simpa using hab⟩)
    rw [faultsBehind, List.append_eq_nil_iff, h, ih, hnew, List.map_cons, List.nodup_cons, List.forall_mem_cons,
      List.forall_mem_cons]
    constructor
    · rintro ⟨⟨hp, ha⟩, hps, hnodup, hal, hbefore⟩
      exact ⟨⟨hp, hps⟩, ⟨hal, hnodup⟩, ha, hbefore⟩
    · rintro ⟨⟨hp, hps⟩, ⟨hal, hnodup⟩, ha, hbefore⟩
      exact ⟨⟨hp, ha⟩, hps, hnodup, hal, hbefore⟩

end FirstFault

/-! ### The faults of declarations -/

/-- The texts of the expressions among inscriptions. -/
def Inscription.expressions : List Inscription → List String
  | [] => []
  | .expr f :: l => f.text :: expressions l
  | _ :: l => expressions l

/-- What distinguishes the arcs of a transition. -/
def ArcDeclaration.site (a : ArcDeclaration) : Place × Direction := (a.place, a.direction)

/-- The faults of an arc of the transition `t` that stands behind others. -/
def ArcDeclaration.faults (places : List Place) (t : TransitionName) (before : List ArcDeclaration)
    (a : ArcDeclaration) : List StructuralError :=
  (if a.place ∈ places then [] else [.unknownPlace a.place]) ++
    ((if a.direction = .input then
      (Inscription.expressions a.inscriptions).map (.expressionOnInputArc a.place t ·) else []) ++
    (if a.site ∈ before.map site then [.duplicateArc a.place t a.direction] else []))

/-- The faults of a transition that stands behind others. -/
def TransitionDeclaration.faults (places : List Place) (before : List TransitionDeclaration)
    (d : TransitionDeclaration) : List StructuralError :=
  (if d.name ∈ before.map name then [.duplicateTransition d.name] else []) ++
    faultsBehind (ArcDeclaration.faults places d.name) [] d.arcs

/-- The faults of declarations, in the order in which a reader meets them. -/
def Net.faults (places : List Place) (decls : List TransitionDeclaration) : List StructuralError :=
  faultsBehind (TransitionDeclaration.faults places) [] decls

/-! ### The net of the declarations -/

/-- The declared arcs of one direction. -/
def Arcs.ofDeclarations (dir : Direction) (arcs : List ArcDeclaration) : Arcs :=
  FinMap.ofList ((arcs.filter (·.direction = dir)).map fun a => (a.place, a.inscriptions))

def Transition.ofDeclarations (guards : List Guard) (arcs : List ArcDeclaration) : Transition :=
  ⟨Arcs.ofDeclarations .input arcs, Arcs.ofDeclarations .output arcs, guards⟩

/-- The net with all that is declared, whether or not there are faults. -/
def Net.ofDeclarations (places : List Place) (decls : List TransitionDeclaration) : Net :=
  ⟨FinSet.ofList places, FinMap.ofList (decls.map fun d => (d.name, Transition.ofDeclarations d.guards d.arcs))⟩

theorem Transition.arcs_ofDeclarations (guards : List Guard) (arcs : List ArcDeclaration) (dir : Direction) :
    (ofDeclarations guards arcs).arcs dir = Arcs.ofDeclarations dir arcs := by
  cases dir with
  | input => rfl
  | output => rfl

theorem Arcs.ofDeclarations_append_singleton (dir : Direction) (before : List ArcDeclaration) (a : ArcDeclaration) :
    ofDeclarations dir (before ++ [a]) = if a.direction = dir then
      (ofDeclarations dir before).insert a.place a.inscriptions else ofDeclarations dir before := by
  unfold ofDeclarations
  by_cases hdir : a.direction = dir
  · simp [hdir, FinMap.ofList_append_singleton]
  · simp [hdir]

theorem Arcs.contains_ofDeclarations (dir : Direction) (before : List ArcDeclaration) (p : Place) :
    (ofDeclarations dir before).contains p = true ↔ (p, dir) ∈ before.map ArcDeclaration.site := by
  rw [ofDeclarations, FinMap.contains_ofList]
  simp only [List.mem_map, List.mem_filter, ArcDeclaration.site, Prod.mk.injEq, decide_eq_true_eq]
  constructor
  · rintro ⟨e, ⟨a, ⟨ha, hdir⟩, rfl⟩, rfl⟩
    exact ⟨a, ha, rfl, hdir⟩
  · rintro ⟨a, ha, rfl, hdir⟩
    exact ⟨_, ⟨a, ⟨ha, hdir⟩, rfl⟩, rfl⟩

theorem Transition.withArc_ofDeclarations (guards : List Guard) (before : List ArcDeclaration) (a : ArcDeclaration) :
    (ofDeclarations guards before).withArc a = ofDeclarations guards (before ++ [a]) := by
  unfold withArc ofDeclarations
  rw [Arcs.ofDeclarations_append_singleton, Arcs.ofDeclarations_append_singleton]
  cases a.direction with
  | input => rfl
  | output => rfl

/-! ### A build returns the first fault -/

theorem ArcDeclaration.expression?_eq_head? (a : ArcDeclaration) :
    a.expression? = (Inscription.expressions a.inscriptions).head? := by
  unfold expression?
  induction a.inscriptions with
  | nil => rfl
  | cons i l ih =>
    cases i with
    | var x => exact ih
    | const v => exact ih
    | expr f => rfl

/-- Adding an arc fails with the first fault of the arc. -/
theorem Transition.addArc_ofDeclarations (places : List Place) (t : TransitionName) (guards : List Guard)
    (before : List ArcDeclaration) (a : ArcDeclaration) :
    (ofDeclarations guards before).addArc (FinSet.ofList places) t a =
      unlessFault (a.faults places t before) (ofDeclarations guards (before ++ [a])) := by
  have hplace := FinSet.contains_ofList places a.place
  have hsite := Arcs.contains_ofDeclarations a.direction before a.place
  rw [← ArcDeclaration.site] at hsite
  unfold addArc ArcDeclaration.faults
  rw [arcs_ofDeclarations, withArc_ofDeclarations, ArcDeclaration.expression?_eq_head?]
  by_cases hp : a.place ∈ places
  · rw [if_neg (by simp [hplace.2 hp]), if_pos hp]
    have hduplicate : (if (Arcs.ofDeclarations a.direction before).contains a.place = true then
        .error (.duplicateArc a.place t a.direction) else .ok (ofDeclarations guards (before ++ [a])) :
          Except StructuralError Transition) =
        unlessFault (if a.site ∈ before.map ArcDeclaration.site then [.duplicateArc a.place t a.direction] else [])
          (ofDeclarations guards (before ++ [a])) := by
      by_cases hs : a.site ∈ before.map ArcDeclaration.site
      · rw [if_pos (hsite.2 hs), if_pos hs]
        rfl
      · rw [if_neg fun h => hs (hsite.1 h), if_neg hs]
        rfl
    cases hdir : a.direction with
    | input =>
      rw [hdir] at hduplicate
      cases Inscription.expressions a.inscriptions with
      | nil => exact hduplicate
      | cons e rest => rfl
    | output =>
      rw [hdir] at hduplicate
      exact hduplicate
  · rw [if_pos (by simpa using fun h => hp (hplace.1 h)), if_neg hp]
    rfl

/-- Adding a transition fails with the first fault of the transition. -/
theorem Net.addTransition_ofDeclarations (places : List Place) (before : List TransitionDeclaration)
    (d : TransitionDeclaration) : (ofDeclarations places before).addTransition d =
      unlessFault (d.faults places before) (ofDeclarations places (before ++ [d])) := by
  have hname : (ofDeclarations places before).transitions.contains d.name = true ↔
      d.name ∈ before.map TransitionDeclaration.name := by
    rw [ofDeclarations, FinMap.contains_ofList, List.map_map]
    rfl
  have harcs : d.arcs.foldlM (Transition.addArc (FinSet.ofList places) d.name) ⟨∅, ∅, d.guards⟩ =
      unlessFault (faultsBehind (ArcDeclaration.faults places d.name) [] d.arcs)
        (Transition.ofDeclarations d.guards d.arcs) :=
    foldlM_eq_unlessFault (Transition.addArc_ofDeclarations places d.name d.guards) [] d.arcs
  unfold addTransition TransitionDeclaration.faults
  by_cases hd : d.name ∈ before.map TransitionDeclaration.name
  · rw [if_pos (hname.2 hd), if_pos hd]
    rfl
  · rw [if_neg fun h => hd (hname.1 h), if_neg hd]
    have hadd : ofDeclarations places (before ++ [d]) = ⟨FinSet.ofList places,
        (ofDeclarations places before).transitions.insert d.name (Transition.ofDeclarations d.guards d.arcs)⟩ := by
      unfold ofDeclarations
      rw [List.map_append, List.map_singleton, FinMap.ofList_append_singleton]
    rw [hadd]
    change ((d.arcs.foldlM (Transition.addArc (FinSet.ofList places) d.name) ⟨∅, ∅, d.guards⟩) >>= fun t => _) = _
    rw [harcs]
    cases faultsBehind (ArcDeclaration.faults places d.name) [] d.arcs with
    | nil => rfl
    | cons e rest => rfl

/-- A build returns the net of the declarations, or their first fault. -/
theorem Net.build_eq (places : List Place) (decls : List TransitionDeclaration) :
    build places decls = unlessFault (faults places decls) (ofDeclarations places decls) :=
  foldlM_eq_unlessFault (Net.addTransition_ofDeclarations places) [] decls

/-! ### Declarations without faults -/

/-- The arc is at one of the places, and no expression stands on it if it is an input arc. -/
structure ArcDeclaration.IsAdmissible (places : List Place) (a : ArcDeclaration) : Prop where
  placed : a.place ∈ places
  plain : a.direction = .input → Inscription.NoExpr a.inscriptions

/-- The arcs are admissible, and no two have the same place and the same direction. -/
structure TransitionDeclaration.IsAdmissible (places : List Place) (d : TransitionDeclaration) : Prop where
  arcs : ∀ a ∈ d.arcs, a.IsAdmissible places
  distinct : (d.arcs.map ArcDeclaration.site).Nodup

/-- The transitions are admissible, and no two have the same name. -/
structure WellDeclared (places : List Place) (decls : List TransitionDeclaration) : Prop where
  transitions : ∀ d ∈ decls, d.IsAdmissible places
  distinct : (decls.map TransitionDeclaration.name).Nodup

theorem Inscription.expressions_eq_nil_iff {l : List Inscription} : expressions l = [] ↔ NoExpr l := by
  induction l with
  | nil => simp [expressions, NoExpr]
  | cons i l ih =>
    cases i with
    | var x => simpa [expressions, NoExpr] using ih
    | const v => simpa [expressions, NoExpr] using ih
    | expr f =>
      simp only [expressions, NoExpr, List.cons_ne_nil, false_iff, not_forall, not_not]
      exact ⟨f, List.mem_cons_self⟩

theorem ArcDeclaration.faults_eq_nil_iff {places : List Place} (t : TransitionName) (before : List ArcDeclaration)
    (a : ArcDeclaration) : a.faults places t before = [] ↔ a.IsAdmissible places ∧ a.site ∉ before.map site := by
  have hexpressions : (if a.direction = .input then (Inscription.expressions a.inscriptions).map
      (StructuralError.expressionOnInputArc a.place t ·) else []) = [] ↔
        (a.direction = .input → Inscription.NoExpr a.inscriptions) := by
    rw [ite_eq_right_iff, List.map_eq_nil_iff, Inscription.expressions_eq_nil_iff]
  unfold faults
  rw [List.append_eq_nil_iff, List.append_eq_nil_iff, hexpressions, ite_eq_left_iff, ite_eq_right_iff]
  constructor
  · rintro ⟨hplace, hplain, hsite⟩
    exact ⟨⟨by simpa using hplace, hplain⟩, by simpa using hsite⟩
  · rintro ⟨⟨hplace, hplain⟩, hsite⟩
    exact ⟨by simpa using hplace, hplain, by simpa using hsite⟩

theorem TransitionDeclaration.faults_eq_nil_iff {places : List Place} (before : List TransitionDeclaration)
    (d : TransitionDeclaration) : d.faults places before = [] ↔ d.IsAdmissible places ∧ d.name ∉ before.map name := by
  unfold faults
  rw [List.append_eq_nil_iff, faultsBehind_eq_nil_iff (ArcDeclaration.faults_eq_nil_iff d.name), ite_eq_right_iff]
  constructor
  · rintro ⟨hname, harcs, hdistinct, -⟩
    exact ⟨⟨harcs, hdistinct⟩, by simpa using hname⟩
  · rintro ⟨⟨harcs, hdistinct⟩, hname⟩
    exact ⟨by simpa using hname, harcs, hdistinct, by simp⟩

/-- Well-formed declarations are those without faults. -/
theorem Net.faults_eq_nil_iff {places : List Place} {decls : List TransitionDeclaration} :
    faults places decls = [] ↔ WellDeclared places decls := by
  unfold faults
  rw [faultsBehind_eq_nil_iff TransitionDeclaration.faults_eq_nil_iff]
  constructor
  · rintro ⟨htransitions, hdistinct, -⟩
    exact ⟨htransitions, hdistinct⟩
  · rintro ⟨htransitions, hdistinct⟩
    exact ⟨htransitions, hdistinct, by simp⟩

/-! ### Nets that realize declarations -/

/-- The transition has the guards and the arcs of the declaration, and no other arcs. -/
structure Transition.Realizes (tr : Transition) (d : TransitionDeclaration) : Prop where
  arcs : ∀ p dir l, (tr.arcs dir).get? p = some l ↔ ⟨p, dir, l⟩ ∈ d.arcs
  guards : tr.guards = d.guards

/-- The net has the declared places and transitions, and no others. -/
structure Net.Realizes (net : Net) (places : List Place) (decls : List TransitionDeclaration) : Prop where
  places : ∀ p, net.places.contains p = true ↔ p ∈ places
  names : ∀ t, net.transitions.contains t = true ↔ t ∈ decls.map TransitionDeclaration.name
  transitions : ∀ d ∈ decls, ∃ tr, net.transition? d.name = some tr ∧ tr.Realizes d

theorem Transition.Realizes.unique {tr tr' : Transition} {d : TransitionDeclaration} (h : tr.Realizes d)
    (h' : tr'.Realizes d) : tr = tr' := by
  have harcs : ∀ dir, tr.arcs dir = tr'.arcs dir := fun dir =>
    FinMap.ext_get? fun p => Option.ext fun l => by rw [h.arcs, h'.arcs]
  have hinput : tr.input = tr'.input := harcs .input
  have houtput : tr.output = tr'.output := harcs .output
  have hguards : tr.guards = tr'.guards := by rw [h.guards, h'.guards]
  cases tr
  cases tr'
  simp_all

/-- Declarations are realized by at most one net. -/
theorem Net.Realizes.unique {net net' : Net} {places : List Place} {decls : List TransitionDeclaration}
    (h : net.Realizes places decls) (h' : net'.Realizes places decls) : net = net' := by
  have hplaces : net.places = net'.places := by
    refine FinMap.ext_get? fun p => Option.ext fun _ => ?_
    have hp : net.places.contains p = true ↔ net'.places.contains p = true := by rw [h.places, h'.places]
    unfold FinMap.contains at hp
    rwa [Option.isSome_iff_exists, Option.isSome_iff_exists, Unique.exists_iff, Unique.exists_iff] at hp
  have htransitions : net.transitions = net'.transitions := by
    refine FinMap.ext_get? fun t => ?_
    by_cases ht : t ∈ decls.map TransitionDeclaration.name
    · obtain ⟨d, hd, rfl⟩ := List.mem_map.1 ht
      obtain ⟨tr, htr, hd'⟩ := h.transitions d hd
      obtain ⟨tr', htr', hd''⟩ := h'.transitions d hd
      rw [transition?] at htr htr'
      rw [htr, htr', hd'.unique hd'']
    · have hnone : ∀ {net : Net}, net.Realizes places decls → net.transitions.get? t = none := by
        intro net h
        by_contra hsome
        exact ht ((h.names t).1 (Option.isSome_iff_ne_none.2 hsome))
      rw [hnone h, hnone h']
  cases net
  cases net'
  simp_all

theorem Arcs.get?_ofDeclarations {arcs : List ArcDeclaration} (h : (arcs.map ArcDeclaration.site).Nodup) {p : Place}
    {dir : Direction} {l : List Inscription} :
    (ofDeclarations dir arcs).get? p = some l ↔ ⟨p, dir, l⟩ ∈ arcs := by
  have hnodup : (((arcs.filter (·.direction = dir)).map fun a => (a.place, a.inscriptions)).map Prod.fst).Nodup := by
    rw [List.map_map]
    refine List.pairwise_map.2 (((List.pairwise_map.1 h).filter _).imp_of_mem fun {a b} ha hb hne heq => hne ?_)
    have hdir := (List.mem_filter.1 ha).2
    have hdir' := (List.mem_filter.1 hb).2
    simp only [decide_eq_true_eq] at hdir hdir'
    exact Prod.ext heq (hdir.trans hdir'.symm)
  rw [ofDeclarations, FinMap.get?_ofList_eq_some hnodup, List.mem_map]
  constructor
  · rintro ⟨⟨p', dir', l'⟩, ha, heq⟩
    obtain ⟨hmem, hdir⟩ := List.mem_filter.1 ha
    cases heq
    cases of_decide_eq_true hdir
    exact hmem
  · exact fun ha => ⟨⟨p, dir, l⟩, List.mem_filter.2 ⟨ha, by simp⟩, rfl⟩

/-- The net of well-formed declarations realizes them. -/
theorem WellDeclared.realizes {places : List Place} {decls : List TransitionDeclaration} (h : WellDeclared places decls) :
    (Net.ofDeclarations places decls).Realizes places decls where
  places := FinSet.contains_ofList places
  names t := by
    rw [Net.ofDeclarations, FinMap.contains_ofList, List.map_map]
    rfl
  transitions d hd := by
    refine ⟨Transition.ofDeclarations d.guards d.arcs, ?_, fun p dir l => ?_, rfl⟩
    · rw [Net.transition?, Net.ofDeclarations]
      refine (FinMap.get?_ofList_eq_some ?_).2 (List.mem_map.2 ⟨d, hd, rfl⟩)
      rw [List.map_map]
      exact h.distinct
    · rw [Transition.arcs_ofDeclarations, Arcs.get?_ofDeclarations (h.transitions d hd).distinct]

/-! ### The order of the declarations -/

/-- The declarations differ in the order of the arcs only. -/
structure TransitionDeclaration.Reorders (d d' : TransitionDeclaration) : Prop where
  name : d.name = d'.name
  arcs : d.arcs.Perm d'.arcs
  guards : d.guards = d'.guards

/-- The declarations differ in the order of the transitions and in that of the arcs within a transition. -/
def Reordered (decls decls' : List TransitionDeclaration) : Prop :=
  ∃ mid, decls.Perm mid ∧ List.Forall₂ TransitionDeclaration.Reorders mid decls'

variable {decls decls' : List TransitionDeclaration} {places : List Place}

theorem Reordered.names (h : Reordered decls decls') :
    (decls.map TransitionDeclaration.name).Perm (decls'.map TransitionDeclaration.name) := by
  obtain ⟨mid, hperm, hreorders⟩ := h
  have hmid : mid.map TransitionDeclaration.name = decls'.map TransitionDeclaration.name := by
    induction hreorders generalizing decls with
    | nil => rfl
    | cons hd _ ih => rw [List.map_cons, List.map_cons, hd.name, ih (.refl _)]
  rw [← hmid]
  exact hperm.map _

/-- What does not depend on the order of the arcs holds of all transitions in every order. -/
theorem Reordered.forall_iff (h : Reordered decls decls') {P : TransitionDeclaration → Prop}
    (hP : ∀ d d' : TransitionDeclaration, d.Reorders d' → (P d ↔ P d')) : (∀ d ∈ decls, P d) ↔ ∀ d ∈ decls', P d := by
  obtain ⟨mid, hperm, hreorders⟩ := h
  have hmid : (∀ d ∈ mid, P d) ↔ ∀ d ∈ decls', P d := by
    induction hreorders generalizing decls with
    | nil => simp
    | cons hd _ ih => rw [List.forall_mem_cons, List.forall_mem_cons, hP _ _ hd, ih (.refl _)]
  rw [← hmid]
  exact forall_congr' fun d => imp_congr_left hperm.mem_iff

theorem Reordered.wellDeclared_iff (h : Reordered decls decls') :
    WellDeclared places decls ↔ WellDeclared places decls' := by
  have htransitions := h.forall_iff (P := TransitionDeclaration.IsAdmissible places) fun d d' hd => by
    have hsites := (hd.arcs.map ArcDeclaration.site).nodup_iff
    have harcs : (∀ a ∈ d.arcs, a.IsAdmissible places) ↔ ∀ a ∈ d'.arcs, a.IsAdmissible places :=
      forall_congr' fun a => imp_congr_left hd.arcs.mem_iff
    exact ⟨fun h => ⟨harcs.1 h.arcs, hsites.1 h.distinct⟩, fun h => ⟨harcs.2 h.arcs, hsites.2 h.distinct⟩⟩
  have hnames := h.names.nodup_iff
  exact ⟨fun h => ⟨htransitions.1 h.transitions, hnames.1 h.distinct⟩,
    fun h => ⟨htransitions.2 h.transitions, hnames.2 h.distinct⟩⟩

theorem Reordered.realizes_iff (h : Reordered decls decls') {net : Net} :
    net.Realizes places decls ↔ net.Realizes places decls' := by
  have htransitions := h.forall_iff (P := fun d => ∃ tr, net.transition? d.name = some tr ∧ tr.Realizes d)
    fun d d' hd => by
      have htr : ∀ tr : Transition, tr.Realizes d ↔ tr.Realizes d' := by
        intro tr
        have harcs : (∀ p dir l, (tr.arcs dir).get? p = some l ↔ ⟨p, dir, l⟩ ∈ d.arcs) ↔
            ∀ p dir l, (tr.arcs dir).get? p = some l ↔ ⟨p, dir, l⟩ ∈ d'.arcs :=
          forall_congr' fun p => forall_congr' fun dir => forall_congr' fun l => iff_congr Iff.rfl hd.arcs.mem_iff
        exact ⟨fun h => ⟨harcs.1 h.arcs, h.guards.trans hd.guards⟩,
          fun h => ⟨harcs.2 h.arcs, h.guards.trans hd.guards.symm⟩⟩
      rw [hd.name]
      exact exists_congr fun tr => and_congr_right' (htr tr)
  have hnames : (∀ t, net.transitions.contains t = true ↔ t ∈ decls.map TransitionDeclaration.name) ↔
      ∀ t, net.transitions.contains t = true ↔ t ∈ decls'.map TransitionDeclaration.name :=
    forall_congr' fun t => iff_congr Iff.rfl h.names.mem_iff
  exact ⟨fun h => ⟨h.places, hnames.1 h.names, htransitions.1 h.transitions⟩,
    fun h => ⟨h.places, hnames.2 h.names, htransitions.2 h.transitions⟩⟩

/-! ### What a build accepts -/

theorem Net.build_eq_ok {net : Net} :
    build places decls = .ok net ↔ WellDeclared places decls ∧ net.Realizes places decls := by
  rw [build_eq, unlessFault_eq_ok, faults_eq_nil_iff]
  refine and_congr_right fun hwell => ⟨?_, fun hnet => hwell.realizes.unique hnet⟩
  rintro rfl
  exact hwell.realizes

/-- A build accepts exactly the well-formed declarations, and the net that it returns has what is declared and nothing
else, whatever the order of the transitions and of the arcs of each; otherwise it returns the first fault. -/
theorem Net.build_outcome (places : List Place) (decls : List TransitionDeclaration) :
    ((∃ net, build places decls = .ok net) ↔ WellDeclared places decls) ∧
      (∀ net, build places decls = .ok net ↔ WellDeclared places decls ∧ net.Realizes places decls) ∧
      (∀ decls' net, Reordered decls decls' → (build places decls' = .ok net ↔ build places decls = .ok net)) ∧
      ∀ e, build places decls = .error e ↔ (faults places decls).head? = some e := by
  refine ⟨⟨?_, fun hwell => ⟨_, build_eq_ok.2 ⟨hwell, hwell.realizes⟩⟩⟩, fun net => build_eq_ok, ?_, fun e => ?_⟩
  · rintro ⟨net, hnet⟩
    exact (build_eq_ok.1 hnet).1
  · intro decls' net hreordered
    rw [build_eq_ok, build_eq_ok, hreordered.wellDeclared_iff, hreordered.realizes_iff]
  · rw [build_eq, unlessFault_eq_error]

/-- A transition that takes a token and puts it back, with its arcs in either order; and one with three faults. -/
theorem Net.build_outcome_loop :
    let take : ArcDeclaration := ⟨"p", .input, [.var "x"]⟩
    let put : ArcDeclaration := ⟨"p", .output, [.var "x", .const (.int 1)]⟩
    let faulty : TransitionDeclaration := ⟨"u", [put, take, ⟨"q", .input, [.expr (.ofText "x")]⟩, take], []⟩
    ∃ net, build ["p"] [⟨"t", [take, put], []⟩] = .ok net ∧ build ["p"] [⟨"t", [put, take], []⟩] = .ok net ∧
      net.Realizes ["p"] [⟨"t", [take, put], []⟩] ∧
      build ["p"] [⟨"t", [take, put], []⟩, faulty] = .error (.unknownPlace "q") := by
  intro take put faulty
  have hwell : WellDeclared ["p"] [⟨"t", [take, put], []⟩] := faults_eq_nil_iff.1 (by decide)
  have hreordered : Reordered [⟨"t", [take, put], []⟩] [⟨"t", [put, take], []⟩] :=
    ⟨_, .refl _, .cons ⟨rfl, .swap put take [], rfl⟩ .nil⟩
  obtain ⟨haccepts, hreturns, horder, -⟩ := build_outcome ["p"] [⟨"t", [take, put], []⟩]
  obtain ⟨-, -, -, herror⟩ := build_outcome ["p"] [⟨"t", [take, put], []⟩, faulty]
  obtain ⟨net, hnet⟩ := haccepts.2 hwell
  exact ⟨net, hnet, (horder _ net hreordered).2 hnet, ((hreturns net).1 hnet).2, (herror _).2 rfl⟩

end TokenNet
