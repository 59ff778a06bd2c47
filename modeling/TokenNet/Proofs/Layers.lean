import Mathlib.Data.Set.Card
import TokenNet.Proofs.Failures
import TokenNet.Proofs.Independence
import TokenNet.Proofs.Reachability

/-!
# Layers of an exploration

A marking leads to its successors.  The distance of a marking from the initial one is the least number of these steps
that leads there, and the markings at one distance are a layer.  After `k` iterations the frontier is the layer at
distance `k`, and all markings at a distance of at most `k` have been seen: `Net.Spans`.  An iteration keeps this for the
next `k`, since what it sees first is what the frontier leads to and no shorter way does, `Net.Expands`.

So an exploration ends if and only if there are not more layers than iterations: `Session.Reaches.explore_layers`.
-/

namespace TokenNet

/-! ### Distances -/

/-- Firing some transition at the first marking has the second one among its results. -/
def Net.Leads (net : Net) (m m' : Marking) : Prop :=
  ∃ t ms, ((net.successors t m).run.run {}).1 = .ok ms ∧ m' ∈ ms

/-- The marking is reached from the initial one in so many steps. -/
inductive Net.ReachesIn (net : Net) (initial : Marking) : Nat → Marking → Prop where
  | start : ReachesIn net initial 0 initial
  | step {k : Nat} {m m' : Marking} (h : ReachesIn net initial k m) (hm : net.Leads m m') : ReachesIn net initial (k + 1) m'

/-- The least number of steps in which the marking is reached. -/
def Net.Distance (net : Net) (initial m : Marking) (k : Nat) : Prop := IsLeast {j | net.ReachesIn initial j m} k

/-- The distances at which there are markings. -/
def Net.layers (net : Net) (initial : Marking) : Set Nat := {k | ∃ m, net.Distance initial m k}

section Distances

variable {net : Net} {initial m m' : Marking} {j k n : Nat}

theorem Net.Distance.unique (h : net.Distance initial m j) (h' : net.Distance initial m k) : j = k := IsLeast.unique h h'

theorem Net.ReachesIn.exists_distance (h : net.ReachesIn initial k m) : ∃ j ≤ k, net.Distance initial m j := by
  classical
  have hexists : ∃ j, net.ReachesIn initial j m := ⟨k, h⟩
  exact ⟨Nat.find hexists, Nat.find_min' hexists h, Nat.find_spec hexists, fun j hj => Nat.find_min' hexists hj⟩

/-- On a shortest way, the marking before the last one is one step closer. -/
theorem Net.Distance.exists_prev (h : net.Distance initial m (k + 1)) :
    ∃ m₀, net.Distance initial m₀ k ∧ net.Leads m₀ m := by
  obtain ⟨hreaches, hleast⟩ := h
  cases hreaches with
  | @step _ m₀ _ h₀ hm =>
    refine ⟨m₀, ⟨h₀, fun j hj => ?_⟩, hm⟩
    have := hleast (show net.ReachesIn initial (j + 1) m from .step hj hm)
    omega

/-- Below a layer there is no gap. -/
theorem Net.mem_layers_of_le (h : k ∈ net.layers initial) (hj : j ≤ k) : j ∈ net.layers initial := by
  induction k with
  | zero => rwa [Nat.le_zero.1 hj]
  | succ k ih =>
    rcases Nat.lt_or_ge k j with hlt | hge
    · rwa [Nat.le_antisymm hj hlt]
    · obtain ⟨m, hm⟩ := h
      obtain ⟨m₀, hm₀, -⟩ := hm.exists_prev
      exact ih ⟨m₀, hm₀⟩ hge

/-- There are at most `n` layers if and only if none is at distance `n`. -/
theorem Net.encard_layers_le_iff : (net.layers initial).encard ≤ n ↔ n ∉ net.layers initial := by
  have hcard : ∀ n, ((Finset.range n : Finset Nat) : Set Nat).encard = n := by
    intro n
    rw [Set.encard_coe_eq_coe_finsetCard, Finset.card_range]
  constructor
  · intro hle hn
    have hsub : ((Finset.range (n + 1) : Finset Nat) : Set Nat) ⊆ net.layers initial := by
      intro j hj
      exact Net.mem_layers_of_le hn (Nat.le_of_lt_succ (Finset.mem_range.1 hj))
    have hlt := (Set.encard_le_encard hsub).trans hle
    rw [hcard] at hlt
    exact absurd (Nat.cast_le.1 hlt) (Nat.not_succ_le_self n)
  · intro hn
    have hsub : net.layers initial ⊆ ((Finset.range n : Finset Nat) : Set Nat) := by
      intro j hj
      rw [Finset.mem_coe, Finset.mem_range]
      by_contra hle
      exact hn (Net.mem_layers_of_le hj (Nat.le_of_not_lt hle))
    exact (Set.encard_le_encard hsub).trans (hcard n).le

theorem encard_eq_size (seen : Std.TreeSet Marking) : ({m | m ∈ seen} : Set Marking).encard = seen.size := by
  have hcoe : ({m | m ∈ seen} : Set Marking) = (seen.toList.toFinset : Set Marking) := by
    ext m
    simp
  have hnodup : seen.toList.Nodup := by
    refine (Std.TreeSet.distinct_toList (t := seen)).imp fun hne heq => hne ?_
    rw [heq]
    exact Std.ReflCmp.compare_self
  rw [hcoe, Set.encard_coe_eq_coe_finsetCard, List.toFinset_card_of_nodup hnodup, Std.TreeSet.length_toList]

/-- Markings at different distances are different, so there are at most as many distances as markings. -/
theorem Net.encard_le_size (net : Net) (initial : Marking) {seen : Std.TreeSet Marking} {S : Set Nat}
    (h : ∀ k ∈ S, ∃ m ∈ seen, net.Distance initial m k) : S.encard ≤ seen.size := by
  have : Nonempty Marking := ⟨⟨∅⟩⟩
  choose! f hf using h
  rw [← encard_eq_size]
  have hinj : Set.InjOn f S := by
    intro j hj k hk heq
    have hdistance := (hf j hj).2
    rw [heq] at hdistance
    exact hdistance.unique (hf k hk).2
  exact Set.encard_le_encard_of_injOn (fun k hk => (hf k hk).1) hinj

end Distances

/-! ### One iteration -/

/-- What has been seen after the iteration is what was seen before and what the frontier leads to; the new frontier has
what is new, each marking once. -/
structure Net.Expands (net : Net) (r r' : Progress) : Prop where
  seen : ∀ m', m' ∈ r'.seen ↔ m' ∈ r.seen ∨ ∃ m ∈ r.frontier, net.Leads m m'
  frontier : ∀ m, m ∈ r'.frontier ↔ m ∈ r'.seen ∧ m ∉ r.seen
  nodup : r'.frontier.Nodup

section Iteration

open Store

variable {net : Net} {limits : Limits} {m m' : Marking} {t : TransitionName} {f : Found} {r : Progress} {s : Session}
  {T : Marking → Prop}

/-- Where the successors of a marking can be found, they are what its steps lead to. -/
theorem Net.leads_iff_steps (h : ∀ t ∈ net.transitions.keys, ∃ ms, ((net.successors t m).run.run {}).1 = .ok ms) :
    net.Leads m m' ↔ net.Steps m m' := by
  have hmem : ∀ {t ms}, ((net.successors t m).run.run {}).1 = .ok ms → ∃ tr, net.transition? t = some tr ∧
      (m' ∈ ms ↔ ∃ B, tr.Enables m B ∧ net.fire t m B = .ok (some m')) := by
    intro t ms hms
    obtain ⟨tr, ht, -, hmem⟩ := (net.keeps_successors t m sound_empty).result ms hms
    exact ⟨tr, ht, hmem m'⟩
  constructor
  · rintro ⟨t, ms, hms, hm'⟩
    obtain ⟨tr, ht, hmem⟩ := hmem hms
    obtain ⟨B, hB, hfire⟩ := hmem.1 hm'
    exact ⟨t, tr, B, ht, hB, hfire⟩
  · rintro ⟨t, tr, B, ht, hB, hfire⟩
    obtain ⟨ms, hms⟩ := h t (FinMap.mem_keys_iff.2 ⟨tr, ht⟩)
    obtain ⟨tr', ht', hmem⟩ := hmem hms
    rw [ht] at ht'
    cases ht'
    exact ⟨t, ms, hms, hmem.2 ⟨B, hB, hfire⟩⟩

/-- Where following a transition succeeds, its successors can be found, in a new session too. -/
theorem Net.keeps_followTransition_successors (hs : s.Sound) (f : Found) :
    Keeps (net.followTransition limits m f t) s fun f' _ => Found.Grows (net.Steps m) f f' ∧
      net.Followed f'.seen m t ∧ ∃ ms, ((net.successors t m).run.run {}).1 = .ok ms := by
  have hkept : Keeps (net.followTransition limits m f t) s fun f' _ =>
      Found.Grows (net.Steps m) f f' ∧ net.Followed f'.seen m t := Net.keeps_followTransition hs f
  refine ⟨hkept.grows, hkept.sound, fun f' hf' => ?_⟩
  obtain ⟨hgrow, hfollowed⟩ := hkept.result f' hf'
  refine ⟨hgrow, hfollowed, ?_⟩
  -- the enabled bindings were found in this session, so they are found in a new one
  rcases (agree_enabledBindings net t m hs sound_empty).outcome with ⟨e, he, -⟩ | ⟨-, d, -, hd, -⟩
  · have herror : ((net.followTransition limits m f t).run.run s).1 = .error e := run_bind_of_error he
    rw [hf'] at herror
    cases herror
  · obtain ⟨ms, hms⟩ := hfollowed.exists_successors (.refl {}) (Prod.ext hd rfl)
    exact ⟨ms, by rw [hms]⟩

/-- Following a marking finds what it leads to. -/
theorem Net.keeps_followMarking_leads (hs : s.Sound) (f : Found) : Keeps (net.followMarking limits f m) s fun f' _ =>
    Found.Grows (net.Leads m) f f' ∧ ∀ m', net.Leads m m' → m' ∈ f'.seen := by
  have hfold := keeps_foldlM_found (R := net.Steps m) (g := net.followTransition limits m) (l := net.transitions.keys)
    (f := f) (Q := fun t f => net.Followed f.seen m t ∧ ∃ ms, ((net.successors t m).run.run {}).1 = .ok ms) hs
    (fun _ _ _ hgrow h => ⟨h.1.mono hgrow.seen, h.2⟩) fun _ _ f _ hs => Net.keeps_followTransition_successors hs f
  refine hfold.imp fun f' _ _ _ ⟨hgrow, hall⟩ => ?_
  have hleads : ∀ m', net.Leads m m' ↔ net.Steps m m' := fun m' => Net.leads_iff_steps fun t ht => (hall t ht).2
  refine ⟨hgrow.imp fun m' => (hleads m').2, fun m' hm' => ?_⟩
  obtain ⟨t, tr, B, ht, hB, hfire⟩ := (hleads m').1 hm'
  obtain ⟨tr', ht', -, hfires⟩ := (hall t (FinMap.mem_keys_iff.2 ⟨tr, ht⟩)).1
  rw [ht] at ht'
  cases ht'
  obtain ⟨m?, hm?, hfound⟩ := hfires B hB
  rw [hfire] at hm?
  cases hm?
  exact hfound m' rfl

theorem Net.keeps_iteration (hwell : net.WellFormed) (hT : net.Confines T) (hr : r.Within T) (hs : s.Sound) :
    Keeps (net.iteration limits r) s fun r' _ => r'.Within T ∧ net.Expands r r' := by
  have hseen : Keeps (net.iteration limits r) s fun r' _ =>
      ∀ m', m' ∈ r'.seen ↔ m' ∈ r.seen ∨ ∃ m ∈ r.frontier, net.Leads m m' := by
    unfold Net.iteration
    split
    · rename_i hempty
      exact .pure hs fun m' => by simp [List.isEmpty_iff.1 hempty]
    · have hfold := keeps_foldlM_found (R := fun m' => ∃ m ∈ r.frontier, net.Leads m m')
        (g := net.followMarking limits) (Q := fun m f => ∀ m', net.Leads m m' → m' ∈ f.seen) (l := r.frontier)
        (f := { seen := r.seen }) hs (fun m f f' hgrow h m' hm' => hgrow.seen m' (h m' hm'))
        fun m hm f s hs => (Net.keeps_followMarking_leads hs f).imp fun f' _ _ _ ⟨hgrow, h⟩ =>
          ⟨hgrow.imp fun m' hm' => ⟨m, hm, hm'⟩, h⟩
      refine hfold.bind fun f s₁ _ hs₁ ⟨hgrow, hall⟩ => (keeps_trimCaches hs₁).bind fun _ s₂ _ hs₂ _ => ?_
      refine .pure hs₂ fun m' => ⟨fun hm' => (hgrow.new m' hm').imp_right And.right, ?_⟩
      rintro (hm' | ⟨m, hm, hleads⟩)
      · exact hgrow.seen m' hm'
      · exact hall m hm m' hleads
  refine ⟨hseen.grows, hseen.sound, fun r' hr' => ?_⟩
  obtain ⟨hwithin, hnew, hnodup⟩ := (Net.yields_iteration hwell hT hr s).ok r' hr'
  exact ⟨hwithin, hseen.result r' hr', hnew, hnodup⟩

end Iteration

/-! ### All iterations -/

/-- What is known after `k` iterations. -/
structure Net.Spans (net : Net) (initial : Marking) (k : Nat) (r : Progress) : Prop where
  seen : ∀ m, m ∈ r.seen ↔ ∃ j ≤ k, net.ReachesIn initial j m
  frontier : ∀ m, m ∈ r.frontier ↔ net.Distance initial m k
  nodup : r.frontier.Nodup

section Iterations

variable {net : Net} {limits : Limits} {initial m : Marking} {r r' : Progress} {k n : Nat} {s : Session}
  {T : Marking → Prop}

theorem Net.reachesIn_zero : net.ReachesIn initial 0 m ↔ m = initial := by
  constructor
  · intro h
    cases h
    rfl
  · rintro rfl
    exact .start

theorem Net.spans_start : net.Spans initial 0 (.start initial) := by
  refine ⟨fun m => ?_, fun m => ?_, List.nodup_singleton initial⟩
  · rw [Progress.mem_start, ← net.reachesIn_zero]
    exact ⟨fun h => ⟨0, Nat.le_refl 0, h⟩, fun ⟨j, hj, h⟩ => by rwa [Nat.le_zero.1 hj] at h⟩
  · rw [Progress.start, List.mem_singleton, ← net.reachesIn_zero]
    exact ⟨fun h => ⟨h, fun j _ => Nat.zero_le j⟩, fun h => h.1⟩

/-- What the frontier leads to is one step further away, unless it was seen before. -/
theorem Net.Spans.expands (h : net.Spans initial k r) (hr : net.Expands r r') : net.Spans initial (k + 1) r' := by
  have hseen : ∀ m, m ∈ r'.seen ↔ ∃ j ≤ k + 1, net.ReachesIn initial j m := by
    intro m
    rw [hr.seen, h.seen]
    constructor
    · rintro (⟨j, hj, hm⟩ | ⟨m₀, hm₀, hleads⟩)
      · exact ⟨j, Nat.le_succ_of_le hj, hm⟩
      · exact ⟨k + 1, Nat.le_refl _, .step ((h.frontier m₀).1 hm₀).1 hleads⟩
    · rintro ⟨j, hj, hm⟩
      rcases Nat.lt_or_eq_of_le hj with hlt | rfl
      · exact .inl ⟨j, Nat.le_of_lt_succ hlt, hm⟩
      · -- the last marking before is in the frontier, or a shorter way leads there
        cases hm with
        | @step _ m₀ _ hm₀ hleads =>
          obtain ⟨i, hi, hdistance⟩ := hm₀.exists_distance
          rcases Nat.lt_or_eq_of_le hi with hlt | rfl
          · exact .inl ⟨i + 1, hlt, .step hdistance.1 hleads⟩
          · exact .inr ⟨m₀, (h.frontier m₀).2 hdistance, hleads⟩
  refine ⟨hseen, fun m => ?_, hr.nodup⟩
  rw [hr.frontier, hseen, h.seen]
  constructor
  · rintro ⟨⟨j, hj, hm⟩, hnew⟩
    have hlater : ∀ i, net.ReachesIn initial i m → k + 1 ≤ i := fun i hi =>
      Nat.lt_of_not_le fun hle => hnew ⟨i, hle, hi⟩
    rw [Nat.le_antisymm hj (hlater j hm)] at hm
    exact ⟨hm, fun i hi => hlater i hi⟩
  · rintro ⟨hm, hleast⟩
    exact ⟨⟨k + 1, Nat.le_refl _, hm⟩, fun ⟨j, hj, hm'⟩ => absurd (hleast hm') (Nat.not_le_of_lt (Nat.lt_succ_of_le hj))⟩

theorem Net.keeps_iterations (hwell : net.WellFormed) (hT : net.Confines T) (hinitial : T initial) (hs : s.Sound)
    (k : Nat) : Keeps (net.iterations limits (.start initial) k) s fun r _ => r.Within T ∧ net.Spans initial k r := by
  induction k with
  | zero => exact .pure hs ⟨Progress.within_start hinitial, Net.spans_start⟩
  | succ k ih =>
    refine ih.bind fun r s₁ _ hs₁ ⟨hwithin, hspans⟩ => (Net.keeps_iteration hwell hT hwithin hs₁).imp ?_
    exact fun r' _ _ _ ⟨hwithin', hexpands⟩ => ⟨hwithin', hspans.expands hexpands⟩

/-- An iteration that fails is the last one. -/
theorem Net.iterations_eq_error {e : Error} (h : ((net.iterations limits r k).run.run s).1 = .error e) (hn : k ≤ n) :
    ((net.iterations limits r n).run.run s).1 = .error e := by
  induction hn with
  | refl => exact h
  | step _ ih => exact run_bind_of_error ih

/-- There are more markings than iterations, as long as there is something left to follow. -/
theorem Net.Spans.lt_size (h : net.Spans initial k r) (hr : r.frontier ≠ []) : k < r.seen.size := by
  obtain ⟨m, hm⟩ := List.exists_mem_of_ne_nil r.frontier hr
  have hk : k ∈ net.layers initial := ⟨m, (h.frontier m).1 hm⟩
  have hcard : ((Finset.range (k + 1) : Finset Nat) : Set Nat).encard ≤ r.seen.size := by
    refine Net.encard_le_size net initial fun j hj => ?_
    have hj : j ≤ k := Nat.le_of_lt_succ (Finset.mem_range.1 hj)
    obtain ⟨m, hm⟩ := Net.mem_layers_of_le hk hj
    exact ⟨m, (h.seen m).2 ⟨j, hj, hm.1⟩, hm⟩
  rw [Set.encard_coe_eq_coe_finsetCard, Finset.card_range] at hcard
  exact Nat.cast_le.1 hcard

/-- If there is no frontier left, the markings that have been seen are those at any distance. -/
theorem Net.Spans.mem_seen_iff (h : net.Spans initial k r) (hr : r.frontier = []) :
    m ∈ r.seen ↔ ∃ j, net.Distance initial m j := by
  rw [h.seen]
  constructor
  · rintro ⟨j, -, hj⟩
    obtain ⟨i, -, hi⟩ := hj.exists_distance
    exact ⟨i, hi⟩
  · rintro ⟨j, hj⟩
    refine ⟨j, Nat.le_of_not_lt fun hlt => ?_, hj.1⟩
    obtain ⟨m', hm'⟩ := Net.mem_layers_of_le ⟨m, hj⟩ (Nat.le_of_lt hlt)
    have hmem := (h.frontier m').2 hm'
    rw [hr] at hmem
    cases hmem

/-- Every layer has a marking that has been seen, if there is no frontier left. -/
theorem Net.Spans.encard_layers_le_size (h : net.Spans initial k r) (hr : r.frontier = []) :
    (net.layers initial).encard ≤ r.seen.size :=
  Net.encard_le_size _ initial fun j ⟨m, hm⟩ => ⟨m, (h.mem_seen_iff hr).2 ⟨j, hm⟩, hm⟩

/-- The frontier after `k` iterations is empty if and only if there are at most `k` layers. -/
theorem Net.Spans.frontier_eq_nil_iff (h : net.Spans initial k r) :
    r.frontier = [] ↔ (net.layers initial).encard ≤ k := by
  rw [Net.encard_layers_le_iff, List.eq_nil_iff_forall_not_mem]
  constructor
  · rintro hnone ⟨m, hm⟩
    exact hnone m ((h.frontier m).2 hm)
  · exact fun hk m hm => hk ⟨m, (h.frontier m).1 hm⟩

/-- The exploration is breadth first, and the limit of iterations is exact.  Let a built net, simplified or not, be
explored without a limit of states from a marking of its places, in any session, and let no evaluation fail.  The
frontier after `k` iterations lists the markings whose distance from the initial one, by successors of the simplified
net, is `k`, each of them once; as long as there are any, more than `k` markings have been seen.  The exploration ends
if and only if there are not more layers than iterations, and then it has found all layers, and at least as many
markings as layers; otherwise it gives up because of the iterations. -/
theorem Session.Reaches.explore_layers {places : List Place} {decls : List TransitionDeclaration} {original : Net}
    {simplified : Simplified} (hbuild : Net.build places decls = .ok original) (hnet : original.SimplifiesTo net)
    (hsimplify : net.simplify = .ok simplified) (hinitial : initial.IsOver net.places) (hs : Reaches {} s)
    (hstates : limits.states = none)
    (herror : ∀ e, ((net.explore initial limits).run.run s).1 ≠ .error (.evaluation e)) :
    (∀ k ≤ limits.iterations, ∃ r, ((simplified.net.iterations limits (.start initial) k).run.run s).1 = .ok r ∧
      r.frontier.Nodup ∧ (∀ m, m ∈ r.frontier ↔ simplified.net.Distance initial m k) ∧
      (r.frontier ≠ [] → k < r.seen.size)) ∧
    ((∃ found, ((net.explore initial limits).run.run s).1 = .ok found) ↔
      (simplified.net.layers initial).encard ≤ limits.iterations) ∧
    (∀ found, ((net.explore initial limits).run.run s).1 = .ok found →
      (∀ m, m ∈ found ↔ ∃ k, simplified.net.Distance initial m k) ∧
      (simplified.net.layers initial).encard ≤ found.size) ∧
    (limits.iterations < (simplified.net.layers initial).encard →
      ((net.explore initial limits).run.run s).1 = .error (.cancelled .iterations)) := by
  have hwell := (hnet.wellFormed (Net.wellFormed_of_build hbuild)).1.simplify hsimplify
  have hT := Net.confines_isOver hsimplify
  have hexplore := Net.explore_of_simplify hsimplify initial limits
  rw [hexplore] at herror
  have hspans : ∀ k ≤ limits.iterations, ∃ r,
      ((simplified.net.iterations limits (.start initial) k).run.run s).1 = .ok r ∧
        simplified.net.Spans initial k r := by
    intro k hk
    cases hrun : ((simplified.net.iterations limits (.start initial) k).run.run s).1 with
    | ok r => exact ⟨r, rfl, ((Net.keeps_iterations hwell hT hinitial hs.sound k).result r hrun).2⟩
    | error e =>
      rcases (Net.yields_iterations limits hwell hT (Progress.within_start hinitial) k s).error e hrun with ⟨e', rfl⟩ | h
      · exact absurd (run_bind_of_error (Net.iterations_eq_error hrun hk)) (herror e')
      · exact absurd hstates h.1
  obtain ⟨r, hr, hlast⟩ := hspans limits.iterations (Nat.le_refl _)
  have hresult : ((net.explore initial limits).run.run s).1 =
      if r.frontier.isEmpty then .ok r.seen else .error (.cancelled .iterations) := by
    rw [hexplore, run_bind_of_ok hr, Progress.run_finish]
  refine ⟨fun k hk => ?_, ?_⟩
  · obtain ⟨r, hr, hspans⟩ := hspans k hk
    exact ⟨r, hr, hspans.nodup, hspans.frontier, hspans.lt_size⟩
  · rw [hresult, ← hlast.frontier_eq_nil_iff, ← not_le, ← hlast.frontier_eq_nil_iff]
    by_cases hnil : r.frontier = []
    · rw [if_pos (List.isEmpty_iff.2 hnil)]
      refine ⟨⟨fun _ => hnil, fun _ => ⟨r.seen, rfl⟩⟩, fun found hfound => ?_, fun hne => absurd hnil hne⟩
      cases hfound
      exact ⟨fun m => hlast.mem_seen_iff hnil, hlast.encard_layers_le_size hnil⟩
    · rw [if_neg (by rwa [List.isEmpty_iff])]
      have hnone : ∀ found, (Except.error (.cancelled .iterations) : Except Error (Std.TreeSet Marking)) ≠ .ok found := nofun
      exact ⟨⟨fun ⟨found, hfound⟩ => absurd hfound (hnone found), fun h => absurd h hnil⟩,
        fun found hfound => absurd hfound (hnone found), fun _ => rfl⟩

/-- Two tokens, each of which is moved once: three layers, which three iterations find and two do not. -/
theorem Session.Reaches.explore_layers_two_tokens :
    let x : Inscription := .var "x"
    let y : Inscription := .var "y"
    let arcs : List ArcDeclaration := [⟨"p", .input, [x]⟩, ⟨"q", .output, [y]⟩]
    let net : Net := ⟨.ofList ["p", "q"], .ofList [("t", ⟨.ofList [("p", [x])], .ofList [("q", [y])], [⟨x, y⟩]⟩)]⟩
    let simplified : Simplified := ⟨⟨.ofList ["p", "q"],
      .ofList [("t", ⟨.ofList [("p", [y])], .ofList [("q", [y])], []⟩)]⟩, .ofList [("t", [("x", y)])]⟩
    let initial : Marking := ⟨.ofList [("p", .ofList [.int 1, .int 2]), ("q", ∅)]⟩
    Net.build ["p", "q"] [⟨"t", arcs, [⟨x, y⟩]⟩] = .ok net ∧ net.simplify = .ok simplified ∧
      initial.IsOver net.places ∧
      (∃ found, ((net.explore initial ⟨3, none, 0⟩).run.run {}).1 = .ok found ∧ found.size = 4 ∧
        ∀ m, m ∈ found ↔ ∃ k, simplified.net.Distance initial m k) ∧
      (simplified.net.layers initial).encard ≤ 3 ∧
      ((net.explore initial ⟨2, none, 0⟩).run.run {}).1 = .error (.cancelled .iterations) ∧
      ¬ (simplified.net.layers initial).encard ≤ 2 := by
  intro x y arcs net simplified initial
  have hbuild : Net.build ["p", "q"] [⟨"t", arcs, [⟨x, y⟩]⟩] = .ok net := by decide +kernel
  have hsimplify : net.simplify = .ok simplified := by decide +kernel
  have hinitial : initial.IsOver net.places := by decide +kernel
  have hsize : ((net.explore initial ⟨3, none, 0⟩).run.run {}).1.map (·.size) = .ok 4 := by decide +kernel
  have htwo : ((net.explore initial ⟨2, none, 0⟩).run.run {}).1.map (·.size) = .error (.cancelled .iterations) := by
    decide +kernel
  have htwo := map_eq_error.1 htwo
  cases hthree : ((net.explore initial ⟨3, none, 0⟩).run.run {}).1 with
  | error e =>
    rw [hthree] at hsize
    cases hsize
  | ok found =>
    rw [hthree] at hsize
    have herror : ∀ e, ((net.explore initial ⟨3, none, 0⟩).run.run {}).1 ≠ .error (.evaluation e) := by
      rw [hthree]
      exact nofun
    have herror' : ∀ e, ((net.explore initial ⟨2, none, 0⟩).run.run {}).1 ≠ .error (.evaluation e) := by
      rw [htwo]
      exact nofun
    obtain ⟨-, hends, hfound, -⟩ := explore_layers hbuild .refl hsimplify hinitial (.refl {}) (by rfl) herror
    obtain ⟨-, hends', -⟩ := explore_layers hbuild .refl hsimplify hinitial (.refl {}) (by rfl) herror'
    refine ⟨hbuild, hsimplify, hinitial, ⟨found, rfl, Except.ok.inj hsize, (hfound found hthree).1⟩, ?_, htwo, ?_⟩
    · exact hends.1 ⟨found, hthree⟩
    · intro hle
      obtain ⟨found', hfound'⟩ := hends'.2 hle
      rw [htwo] at hfound'
      cases hfound'

end Iterations

end TokenNet
