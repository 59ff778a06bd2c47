import Mathlib.Logic.Relation
import TokenNet.Exploration.Lemmas
import TokenNet.Proofs.Enabling.Bindings

/-!
# What an exploration finds

A step of a net fires an enabled binding.  The successors of a marking are what its steps lead to, `keeps_successors`,
and an exploration that ends finds what any number of steps leads to: `Net.Explored`, `keeps_explore`.

`Found.Grows R` says how a search changes what has been found: markings are only added, new ones are put on the list of
the next iteration, and all of them satisfy `R`.  The invariant of the iterations is that all that the markings outside
the frontier lead to has been found, `Net.Followed`.
-/

namespace TokenNet

open Store

/-- Firing an enabled binding of some transition leads from one marking to the other. -/
def Net.Steps (net : Net) (m m' : Marking) : Prop :=
  ∃ t tr B, net.transition? t = some tr ∧ tr.Enables m B ∧ net.fire t m B = .ok (some m')

/-! ### Successors -/

section Successors

variable {net : Net} {t : TransitionName} {m : Marking} {d : BindingDiagram} {s : Session}

theorem Net.fireAll_eq_ok {ms : List Marking} (h : net.fireAll t m d = .ok ms) :
    (∀ B ∈ bindings d, ∃ r, net.fire t m B = .ok r) ∧
      ∀ m', m' ∈ ms ↔ ∃ B ∈ bindings d, net.fire t m B = .ok (some m') := by
  rw [Net.fireAll_eq_mapM] at h
  cases hr : (bindings d).mapM (net.fire t m) with
  | error e =>
    rw [hr] at h
    cases h
  | ok r =>
    rw [hr] at h
    cases h
    refine ⟨fun B hB => exists_of_mapM hr hB, fun m' => ?_⟩
    rw [← mem_of_mapM hr, List.mem_filterMap]
    simp

theorem Net.exists_fireAll (h : ∀ B ∈ bindings d, ∃ r, net.fire t m B = .ok r) : ∃ ms, net.fireAll t m d = .ok ms := by
  obtain ⟨r, hr⟩ := exists_mapM h
  rw [Net.fireAll_eq_mapM, hr]
  exact ⟨_, rfl⟩

/-- The successors are the markings that enabled bindings of the transition lead to. -/
theorem Net.keeps_successors (net : Net) (t : TransitionName) (m : Marking) (hs : s.Sound) :
    Keeps (net.successors t m) s fun ms _ => ∃ tr, net.transition? t = some tr ∧ tr.Settled m ∧
      ∀ m', m' ∈ ms ↔ ∃ B, tr.Enables m B ∧ net.fire t m B = .ok (some m') := by
  unfold Net.successors
  refine (net.keeps_enabledBindings t m hs).bind fun d s' _ hs' ⟨hd, tr, o, ht, hlists⟩ => ?_
  refine keeps_ofExcept hs' fun ms hms => ⟨tr, ht, hlists.settled, fun m' => ?_⟩
  rw [(Net.fireAll_eq_ok hms).2]
  refine exists_congr fun B => and_congr_left' ?_
  exact hlists.mem_bindings (hs'.normal hd)

end Successors

/-! ### Finding markings -/

/-- From one state of a search to a later one. -/
structure Found.Grows (R : Marking → Prop) (f f' : Found) : Prop where
  seen : ∀ m ∈ f.seen, m ∈ f'.seen
  next : ∀ m ∈ f.next, m ∈ f'.next
  new : ∀ m ∈ f'.seen, m ∈ f.seen ∨ m ∈ f'.next ∧ R m
  listed : ∀ m ∈ f'.next, m ∈ f.next ∨ m ∈ f'.seen

section Found

variable {R : Marking → Prop} {f f' f'' : Found} {limits : Limits}

theorem Found.Grows.refl (R : Marking → Prop) (f : Found) : Grows R f f :=
  ⟨fun _ => id, fun _ => id, fun _ => .inl, fun _ => .inl⟩

theorem Found.Grows.trans (h : Grows R f f') (h' : Grows R f' f'') : Grows R f f'' where
  seen m hm := h'.seen m (h.seen m hm)
  next m hm := h'.next m (h.next m hm)
  new m hm := by
    rcases h'.new m hm with hm | hm
    · rcases h.new m hm with hm | ⟨hm, hR⟩
      · exact .inl hm
      · exact .inr ⟨h'.next m hm, hR⟩
    · exact .inr hm
  listed m hm := by
    rcases h'.listed m hm with hm | hm
    · rcases h.listed m hm with hm | hm
      · exact .inl hm
      · exact .inr (h'.seen m hm)
    · exact .inr hm

theorem Found.Grows.imp {R' : Marking → Prop} (h : Grows R f f') (hR : ∀ m, R m → R' m) : Grows R' f f' :=
  ⟨h.seen, h.next, fun m hm => (h.new m hm).imp_right fun ⟨hn, hm⟩ => ⟨hn, hR m hm⟩, h.listed⟩

theorem Found.grows_add {m : Marking} (h : f.add limits m = .ok f') (hm : R m) : Grows R f f' ∧ m ∈ f'.seen := by
  unfold add at h
  split at h
  · rename_i hc
    cases h
    exact ⟨.refl R f, Std.TreeSet.mem_iff_contains.2 hc⟩
  · dsimp only at h
    split at h
    · cases h
    · cases h
      refine ⟨⟨fun m' hm' => Marking.mem_insert_iff.2 (.inr hm'), fun m' hm' => List.mem_cons_of_mem m hm', ?_, ?_⟩,
        Marking.mem_insert_iff.2 (.inl rfl)⟩
      · intro m' hm'
        rcases Marking.mem_insert_iff.1 hm' with rfl | hm'
        · exact .inr ⟨List.mem_cons_self, hm⟩
        · exact .inl hm'
      · intro m' hm'
        rcases List.mem_cons.1 hm' with rfl | hm'
        · exact .inr (Marking.mem_insert_iff.2 (.inl rfl))
        · exact .inl hm'

/-- A fold of searches grows by what they find, and what each of them achieves stays. -/
theorem keeps_foldlM_found {γ : Type} {g : Found → γ → SessionM Found} {Q : γ → Found → Prop} {l : List γ}
    {f : Found} {s : Session} (hs : s.Sound) (hQ : ∀ c f f', Found.Grows R f f' → Q c f → Q c f')
    (hg : ∀ c ∈ l, ∀ f s, s.Sound → Keeps (g f c) s fun f' _ => Found.Grows R f f' ∧ Q c f') :
    Keeps (l.foldlM g f) s fun f' _ => Found.Grows R f f' ∧ ∀ c ∈ l, Q c f' := by
  induction l generalizing f s with
  | nil => exact .pure hs ⟨.refl R f, fun c hc => absurd hc List.not_mem_nil⟩
  | cons c l ih =>
    rw [List.foldlM_cons]
    refine (hg c List.mem_cons_self f s hs).bind fun f₁ s₁ _ hs₁ ⟨hgrow, hq⟩ => ?_
    refine (ih hs₁ fun c' hc' => hg c' (List.mem_cons_of_mem c hc')).imp fun f₂ s₂ _ _ ⟨hgrow', hqs⟩ => ?_
    exact ⟨hgrow.trans hgrow', List.forall_mem_cons.2 ⟨hQ c f₁ f₂ hgrow' hq, hqs⟩⟩

end Found

/-! ### One iteration -/

/-- All that firing the transition at the marking leads to has been found, and nothing went wrong there. -/
def Net.Followed (net : Net) (seen : Std.TreeSet Marking) (m : Marking) (t : TransitionName) : Prop :=
  ∃ tr, net.transition? t = some tr ∧ tr.Settled m ∧
    ∀ B, tr.Enables m B → ∃ r, net.fire t m B = .ok r ∧ ∀ m', r = some m' → m' ∈ seen

section Iteration

variable {net : Net} {limits : Limits} {m : Marking} {t : TransitionName} {s : Session}

theorem Net.Followed.mono {seen seen' : Std.TreeSet Marking} (h : net.Followed seen m t)
    (hseen : ∀ m ∈ seen, m ∈ seen') : net.Followed seen' m t := by
  obtain ⟨tr, ht, hsettled, hfires⟩ := h
  refine ⟨tr, ht, hsettled, fun B hB => ?_⟩
  obtain ⟨r, hr, hfound⟩ := hfires B hB
  exact ⟨r, hr, fun m' hm' => hseen m' (hfound m' hm')⟩

/-- Following a list of bindings, all of which are enabled. -/
theorem Net.grows_followBindings {R : Marking → Prop} {bs : List Binding} {f f' : Found}
    (hR : ∀ B ∈ bs, ∀ m', net.fire t m B = .ok (some m') → R m')
    (h : bs.foldlM (net.followBinding limits t m) f = .ok f') : Found.Grows R f f' ∧
      ∀ B ∈ bs, ∃ r, net.fire t m B = .ok r ∧ ∀ m', r = some m' → m' ∈ f'.seen := by
  induction bs generalizing f with
  | nil =>
    cases h
    exact ⟨.refl R _, fun B hB => absurd hB List.not_mem_nil⟩
  | cons B bs ih =>
    rw [List.foldlM_cons] at h
    obtain ⟨f₁, hfollow, h⟩ := bind_eq_ok.1 h
    obtain ⟨hgrow, hfound⟩ := ih (fun B' hB' => hR B' (List.mem_cons_of_mem B hB')) h
    obtain ⟨r, hfire, hadd⟩ := bind_eq_ok.1 hfollow
    cases r with
    | none =>
      cases hadd
      exact ⟨hgrow, List.forall_mem_cons.2 ⟨⟨none, hfire, fun m' hm' => by cases hm'⟩, hfound⟩⟩
    | some m' =>
      obtain ⟨hadd, hmem⟩ := Found.grows_add hadd (hR B List.mem_cons_self m' hfire)
      refine ⟨hadd.trans hgrow, List.forall_mem_cons.2 ⟨⟨some m', hfire, fun m'' hm'' => ?_⟩, hfound⟩⟩
      cases hm''
      exact hgrow.seen m' hmem

theorem Net.keeps_followTransition (hs : s.Sound) (f : Found) :
    Keeps (net.followTransition limits m f t) s fun f' _ =>
      Found.Grows (net.Steps m) f f' ∧ net.Followed f'.seen m t := by
  unfold Net.followTransition
  refine (net.keeps_enabledBindings t m hs).bind fun d s' _ hs' ⟨hd, tr, o, ht, hlists⟩ => ?_
  have hmem : ∀ B, B ∈ bindings d ↔ tr.Enables m B := fun B => hlists.mem_bindings (hs'.normal hd)
  refine keeps_ofExcept hs' fun f' hf' => ?_
  rw [foldBindings_eq_foldlM] at hf'
  obtain ⟨hgrow, hfound⟩ := Net.grows_followBindings (R := net.Steps m)
    (fun B hB m' hm' => ⟨t, tr, B, ht, (hmem B).1 hB, hm'⟩) hf'
  exact ⟨hgrow, tr, ht, hlists.settled, fun B hB => hfound B ((hmem B).2 hB)⟩

theorem Net.keeps_followMarking (hs : s.Sound) (f : Found) :
    Keeps (net.followMarking limits f m) s fun f' _ =>
      Found.Grows (net.Steps m) f f' ∧ ∀ t ∈ net.transitions.keys, net.Followed f'.seen m t :=
  keeps_foldlM_found hs (fun _ _ _ hgrow h => h.mono hgrow.seen) fun _ _ f _ hs => Net.keeps_followTransition hs f

end Iteration

/-! ### All iterations -/

/-- The markings are those that the net reaches from the initial one. -/
structure Net.Explored (net : Net) (initial : Marking) (found : Std.TreeSet Marking) : Prop where
  start : initial ∈ found
  reached : ∀ m ∈ found, Relation.ReflTransGen net.Steps initial m
  followed : ∀ m ∈ found, ∀ t ∈ net.transitions.keys, net.Followed found m t

section Exploration

variable {net : Net} {limits : Limits} {s : Session}

theorem keeps_trimCaches (hs : s.Sound) : Keeps limits.trimCaches s fun _ _ => True := by
  have hrun : (limits.trimCaches).run.run s = (.ok (), if limits.cached < s.cached then s.clearCaches else s) := rfl
  have hkept : s.Grows (if limits.cached < s.cached then s.clearCaches else s) ∧
      (if limits.cached < s.cached then s.clearCaches else s).Sound := by
    split
    · exact ⟨grows_of_nodes_eq rfl, hs.clearCaches⟩
    · exact ⟨.refl s, hs⟩
  refine ⟨?_, ?_, fun _ _ => trivial⟩
  · rw [hrun]
    exact hkept.1
  · rw [hrun]
    exact hkept.2

/-- The iterations find what the frontier leads to, if all that the other markings lead to was found before. -/
theorem Net.keeps_exploreFrom (n : Nat) {initial : Marking} {seen : Std.TreeSet Marking} {frontier : List Marking}
    (hs : s.Sound) (hinitial : initial ∈ seen) (hreached : ∀ m ∈ seen, Relation.ReflTransGen net.Steps initial m)
    (hfrontier : ∀ m ∈ frontier, m ∈ seen)
    (hfollowed : ∀ m ∈ seen, m ∈ frontier ∨ ∀ t ∈ net.transitions.keys, net.Followed seen m t) :
    Keeps (net.exploreFrom limits n seen frontier) s fun found _ => net.Explored initial found := by
  induction n generalizing seen frontier s with
  | zero =>
    cases frontier with
    | nil =>
      refine .pure hs ⟨hinitial, hreached, fun m hm => ?_⟩
      exact (hfollowed m hm).resolve_left List.not_mem_nil
    | cons m frontier => exact keeps_ofExcept (r := .error (.cancelled .iterations)) hs fun _ h => by cases h
  | succ n ih =>
    cases frontier with
    | nil =>
      refine .pure hs ⟨hinitial, hreached, fun m hm => ?_⟩
      exact (hfollowed m hm).resolve_left List.not_mem_nil
    | cons m₀ rest =>
      unfold Net.exploreFrom
      have hiteration := keeps_foldlM_found (R := fun m' => ∃ m ∈ m₀ :: rest, net.Steps m m')
        (g := net.followMarking limits) (Q := fun m f => ∀ t ∈ net.transitions.keys, net.Followed f.seen m t)
        (l := m₀ :: rest) (f := { seen := seen }) hs (fun m f f' hgrow h t ht => (h t ht).mono hgrow.seen)
        fun m hm f s hs => (Net.keeps_followMarking hs f).imp fun f' _ _ _ ⟨hgrow, h⟩ =>
          ⟨hgrow.imp fun m' hm' => ⟨m, hm, hm'⟩, h⟩
      refine hiteration.bind fun f s₁ _ hs₁ ⟨hgrow, hall⟩ => ?_
      refine (keeps_trimCaches hs₁).bind fun _ s₂ _ hs₂ _ => ?_
      refine ih hs₂ (hgrow.seen _ hinitial) (fun m hm => ?_) (fun m hm => ?_) fun m hm => ?_
      · rcases hgrow.new m hm with hm | ⟨-, m', hm', hstep⟩
        · exact hreached m hm
        · exact (hreached m' (hfrontier m' hm')).tail hstep
      · rcases hgrow.listed m (List.mem_reverse.1 hm) with hm | hm
        · cases hm
        · exact hm
      · rcases hgrow.new m hm with hm | ⟨hm, -⟩
        · rcases hfollowed m hm with hm | hm
          · exact .inr (hall m hm)
          · exact .inr fun t ht => (hm t ht).mono hgrow.seen
        · exact .inl (List.mem_reverse.2 hm)

/-- An exploration that ends has found what the simplified net reaches from the initial marking. -/
theorem Net.keeps_explore (net : Net) (initial : Marking) (limits : Limits) (hs : s.Sound) :
    Keeps (net.explore initial limits) s fun found _ =>
      ∃ simplified, net.simplify = .ok simplified ∧ simplified.net.Explored initial found := by
  unfold Net.explore
  refine (keeps_ofExcept (P := fun r _ => net.simplify = .ok r) hs fun r hr => hr).bind fun r s' _ hs' hr => ?_
  have hmem : ∀ m, m ∈ (Std.TreeSet.empty : Std.TreeSet Marking).insert initial ↔ m = initial := by
    intro m
    rw [Marking.mem_insert_iff]
    exact or_iff_left Std.TreeSet.not_mem_emptyc
  refine (Net.keeps_exploreFrom limits.iterations hs' ((hmem initial).2 rfl) (fun m hm => ?_) (fun m hm => ?_)
    fun m hm => ?_).imp fun found _ _ _ h => ⟨r, hr, h⟩
  · rw [(hmem m).1 hm]
  · rw [List.mem_singleton.1 hm]
    exact (hmem initial).2 rfl
  · rw [(hmem m).1 hm]
    exact .inl List.mem_cons_self

end Exploration

end TokenNet
