import TokenNet.Diagram.Filter
import TokenNet.Proofs.Diagram.Building
import TokenNet.Proofs.Sift

/-!
# What a filter keeps

The filter of a diagram sifts the list of its maps, with the test asked about the chosen keys of each map:
`ensures_filter`.  It asks about some of the maps only, each at most once and in their order.

`Sifts` says this of a part of a filter, which starts below the entries chosen so far.
-/

namespace TokenNet

namespace Diagram

open Store

variable {K V ε : Type}

theorem matter_injective {i j : Nat} {c c' : List (K × V)} (h : matter i c = matter j c') : i = j ∧ c = c' := by
  simp only [matter, Prod.mk.injEq] at h
  obtain ⟨hi, hv, hk⟩ := h
  refine ⟨hi, ?_⟩
  induction c generalizing c' with
  | nil =>
    cases c' with
    | nil => rfl
    | cons e c' => simp at hk
  | cons e c ih =>
    cases c' with
    | nil => simp at hk
    | cons e' c' =>
      simp only [List.map_cons, List.cons.injEq] at hv hk
      rw [Prod.ext hk.1 hv.1, ih hv.2 hk.2]

variable [Ord K]

/-! ### The chosen entries of a map -/

section Restrict

/-- The entries of a map at the chosen keys. -/
def restrict (keys : List K) (m : List (K × V)) : List (K × V) := m.filter fun e => isChosen keys e.1

/-- The entries that the test is asked about: those chosen on the way, and those below. -/
theorem chosen_append_restrict (keys : List K) (chosen : List (K × V)) (e : K × V) (m : List (K × V)) :
    chosen ++ restrict keys (e :: m) = (if isChosen keys e.1 then chosen ++ [e] else chosen) ++ restrict keys m := by
  unfold restrict
  rw [List.filter_cons]
  split <;> simp

variable [Std.TransOrd K] {keys : List K} {chosen : List (K × V)} {k : K}

/-- The entries that are chosen on the way to a branch lie above it. -/
theorem isAbove_of_mem_chosen {v : V} {c : Diagram K V} (hc : c.IsAbove k)
    (hchosen : ∀ e ∈ chosen, compare e.1 k = .lt) :
    ∀ e ∈ (if isChosen keys k then chosen ++ [(k, v)] else chosen), c.IsAbove e.1 := by
  intro e he
  split at he
  · rcases List.mem_append.1 he with he | he
    · exact hc.of_lt (hchosen e he)
    · rw [List.mem_singleton.1 he]
      exact hc
  · exact hc.of_lt (hchosen e he)

variable [Std.LawfulEqOrd K]

/-- When a test is decided at a node, no chosen key occurs in the maps from there on. -/
theorem restrict_eq_nil (h : isDecided keys chosen k = true)
    (hchosen : ∀ e ∈ chosen, compare e.1 k = .lt) {m : List (K × V)} (hm : ∀ e ∈ m, (compare k e.1).isLE) :
    restrict keys m = [] := by
  refine List.filter_eq_nil_iff.2 fun e he => ?_
  unfold isChosen
  rw [List.any_eq_true]
  rintro ⟨a, ha, hae⟩
  obtain rfl := Std.LawfulEqCmp.eq_of_compare (of_decide_eq_true hae)
  have hlt : compare e.1 k = .lt := by
    have hdec := List.all_eq_true.1 h e.1 ha
    rw [Bool.or_eq_true, List.any_eq_true] at hdec
    rcases hdec with hdec | ⟨c, hc, hce⟩
    · cases hcmp : compare e.1 k <;> simp_all
    · rw [← Std.LawfulEqCmp.eq_of_compare (of_decide_eq_true hce)]
      exact hchosen c hc
  have := hm e he
  rw [Std.OrientedCmp.gt_of_lt hlt] at this
  cases this

/-- The keys of the maps of a node start with that of the node. -/
theorem Normal.isLE_of_mem_maps [Ord V] {i : Nat} {take : List (V × Diagram K V)} {skip : Diagram K V}
    (hd : (Diagram.node i k take skip).Normal) {m : List (K × V)} (hm : m ∈ (Diagram.node i k take skip).maps) :
    ∀ e ∈ m, (compare k e.1).isLE := by
  obtain ⟨n, hn, rfl⟩ := hd.mem_maps_iff.1 hm
  intro e he
  rcases mem_node_iff.1 hn with ⟨v, c, r, hc, hr, rfl⟩ | hn
  · have hnk := hd.branch_isAbove hc hr
    rw [FinMap.entries_insert_of_isAbove hnk] at he
    rcases List.mem_cons.1 he with rfl | he
    · simp
    · simp [hnk e he]
  · simp [hd.skip_isAbove hn e he]

end Restrict

variable [Ord V]

/-! ### Runs of the parts of a filter -/

theorem run_bind {α β : Type} (x : FilterM ε K V α) (g : α → FilterM ε K V β) (f : FilterState K V) :
    (x >>= g).run.run f = match x.run.run f with
      | (.ok a, f') => (g a).run.run f'
      | (.error e, f') => (.error e, f') := by
  have h : (x >>= g).run.run f = (match (x.run.run f).1 with
      | .ok a => (g a).run
      | .error e => pure (.error e) : StateM (FilterState K V) (Except ε β)).run (x.run.run f).2 := rfl
  rw [h]
  rcases x.run.run f with ⟨_ | a, f'⟩ <;> rfl

theorem run_judge (test : Test ε K V) (chosen : List (K × V)) (d : Diagram K V) (f : FilterState K V) :
    (judge test chosen d).run.run f =
      ((test chosen).map fun keep => if keep then d else .emptySet, { f with calls := chosen :: f.calls }) := by
  unfold judge
  rw [run_bind]
  cases h : test chosen with
  | error e => rfl
  | ok b => cases b <;> rfl

theorem run_rememberVerdict (i : Nat) (chosen : List (K × V)) (x : FilterM ε K V (Diagram K V)) (f : FilterState K V) :
    (rememberVerdict i chosen x).run.run f = match f.verdicts[matter i chosen]? with
      | some d => (.ok d, f)
      | none => match x.run.run f with
        | (.ok d, f') => (.ok d, { f' with verdicts := f'.verdicts.insert (matter i chosen) d })
        | (.error e, f') => (.error e, f') := by
  unfold rememberVerdict
  rw [run_bind]
  change (match f.verdicts[matter i chosen]? with | some d => _ | none => _ : FilterM ε K V (Diagram K V)).run.run f = _
  split
  · rfl
  · rw [run_bind]
    rcases x.run.run f with ⟨_ | d, f'⟩ <;> rfl

theorem run_liftStore {α : Type} (x : StoreM K V α) (f : FilterState K V) :
    (liftStore x : FilterM ε K V α).run.run f = (.ok (x.run f.store).1, { f with store := (x.run f.store).2 }) := rfl

/-! ### What holds of all parts of a filter -/

/-- The property is closed under the steps that a filter consists of. -/
structure FilterClosed (P : {α : Type} → FilterM ε K V α → Prop) : Prop where
  pure {α : Type} (a : α) : P (pure a : FilterM ε K V α)
  bind {α β : Type} {x : FilterM ε K V α} {g : α → FilterM ε K V β} (hx : P x) (hg : ∀ a, P (g a)) : P (x >>= g)
  judge (test : Test ε K V) (chosen : List (K × V)) (d : Diagram K V) : P (judge test chosen d)
  rememberVerdict {x : FilterM ε K V (Diagram K V)} (hx : P x) (i : Nat) (chosen : List (K × V)) :
    P (rememberVerdict i chosen x)
  mkNode (k : K) (take : List (V × Diagram K V)) (skip : Diagram K V) : P (liftStore (mkNode k take skip))

namespace FilterClosed

variable {P : {α : Type} → FilterM ε K V α → Prop}

mutual

theorem filterFrom (h : FilterClosed P) (keys : List K) (test : Test ε K V) (chosen : List (K × V))
    (d : Diagram K V) : P (Diagram.filterFrom keys test chosen d) := by
  match d with
  | .emptySet => exact h.pure emptySet
  | .emptyMap =>
    unfold Diagram.filterFrom
    exact h.rememberVerdict (h.judge test chosen emptyMap) 1 chosen
  | .node i k take skip =>
    unfold Diagram.filterFrom
    refine h.rememberVerdict ?_ i chosen
    split
    · exact h.judge test chosen _
    · refine h.bind (filterBranches h keys test chosen k take) fun take' => ?_
      exact h.bind (filterFrom h keys test chosen skip) fun skip' => h.mkNode k take' skip'

theorem filterBranches (h : FilterClosed P) (keys : List K) (test : Test ε K V) (chosen : List (K × V)) (k : K)
    (take : List (V × Diagram K V)) : P (Diagram.filterBranches keys test chosen k take) := by
  match take with
  | [] => exact h.pure []
  | (v, c) :: rest =>
    unfold Diagram.filterBranches
    refine h.bind (filterFrom h keys test _ c) fun d => ?_
    exact h.bind (filterBranches h keys test chosen k rest) fun ds => h.pure ((v, d) :: ds)

end

end FilterClosed

/-! ### Parts of a filter -/

section Sifts

/-- The remembered verdicts are right. -/
def FilterState.Right (keys : List K) (test : Test ε K V) (f : FilterState K V) : Prop :=
  ∀ i chosen d', f.verdicts[matter i chosen]? = some d' → f.store.Has d' ∧
    ∃ d, f.store.diagram? i = some d ∧ sift (fun m => test (chosen ++ restrict keys m)) d.maps = .ok d'.maps

/-- The test has been asked about some of the given entries, in their order. -/
def FilterState.Asked (l : List (List (K × V))) (f f' : FilterState K V) : Prop :=
  ∃ new, f'.calls = new ++ f.calls ∧ new.reverse.Sublist l

theorem FilterState.Asked.append_right {l r : List (List (K × V))} {f f' : FilterState K V} (h : Asked l f f') :
    Asked (l ++ r) f f' := by
  obtain ⟨new, hnew, hsub⟩ := h
  exact ⟨new, hnew, hsub.trans (List.sublist_append_left l r)⟩

theorem FilterState.Asked.trans {l r : List (List (K × V))} {f f' f'' : FilterState K V} (h : Asked l f f')
    (h' : Asked r f' f'') : Asked (l ++ r) f f'' := by
  obtain ⟨new, hnew, hsub⟩ := h
  obtain ⟨new', hnew', hsub'⟩ := h'
  refine ⟨new' ++ new, ?_, ?_⟩
  · rw [hnew', hnew, List.append_assoc]
  · rw [List.reverse_append]
    exact hsub.append hsub'

/-- The branches after a filter belong to those before, and keep some of their maps. -/
def Kept (take take' : List (V × Diagram K V)) (s : Store K V) : Prop :=
  List.Forall₂ (fun b d => d.1 = b.1 ∧ s.Has d.2 ∧ ∀ l ∈ d.2.maps, l ∈ b.2.maps) take take'

theorem Kept.pairwise {take take' : List (V × Diagram K V)} {s : Store K V} (h : Kept take take' s)
    (ht : take.Pairwise fun a b => compare a.1 b.1 = .lt) : take'.Pairwise fun a b => compare a.1 b.1 = .lt := by
  have hv : take'.map Prod.fst = take.map Prod.fst := by
    induction h with
    | nil => rfl
    | cons hb _ ih => rw [List.map_cons, List.map_cons, hb.1, ih (List.pairwise_cons.1 ht).2]
  have hp : (take.map Prod.fst).Pairwise fun a b => compare a b = .lt := List.pairwise_map.2 ht
  rw [← hv] at hp
  exact List.pairwise_map.1 hp

theorem Kept.of_mem {take take' : List (V × Diagram K V)} {s : Store K V} (h : Kept take take' s)
    {d : V × Diagram K V} (hd : d ∈ take') : s.Has d.2 ∧ ∃ b ∈ take, ∀ l ∈ d.2.maps, l ∈ b.2.maps := by
  induction h with
  | nil => cases hd
  | @cons b d' take take' hb _ ih =>
    rcases List.mem_cons.1 hd with rfl | hd
    · exact ⟨hb.2.1, b, List.mem_cons_self, hb.2.2⟩
    · obtain ⟨hs, c, hc, hl⟩ := ih hd
      exact ⟨hs, c, List.mem_cons_of_mem _ hc, hl⟩

theorem Kept.mono {take take' : List (V × Diagram K V)} {s s' : Store K V} (h : Kept take take' s) (hg : s.Grows s') :
    Kept take take' s' :=
  List.Forall₂.imp (fun _ _ ⟨hv, hd, hl⟩ => ⟨hv, hd.mono hg, hl⟩) h

variable {keys : List K} {test : Test ε K V} {chosen : List (K × V)} {f : FilterState K V}

theorem FilterState.Right.of_store (hr : f.Right keys test) {s : Store K V} (hg : f.store.Grows s) :
    ({ f with store := s } : FilterState K V).Right keys test := by
  intro i chosen d' h
  obtain ⟨hd', d, hd, hsift⟩ := hr i chosen d' h
  exact ⟨hd'.mono hg, d, hg i d hd, hsift⟩

variable [Std.TransOrd K]

/-- A part of a filter sifts the maps `ms`, which are listed again by `listing`; the entries `chosen` lie above them. -/
structure Sifts {α : Type} (keys : List K) (test : Test ε K V) (chosen : List (K × V)) (ms : List (List (K × V)))
    (listing : α → List (List (K × V))) (P : α → Store K V → Prop) (f : FilterState K V)
    (y : Except ε α × FilterState K V) : Prop where
  grows : f.store.Grows y.2.store
  sound : y.2.store.Sound
  right : y.2.Right keys test
  asked : f.Asked (ms.map fun m => chosen ++ restrict keys m) y.2
  result : y.1.map listing = sift (fun m => test (chosen ++ restrict keys m)) ms
  ensures : ∀ a, y.1 = .ok a → P a y.2.store

/-- The test, asked once about a diagram on which it is decided. -/
private theorem sifts_judge {d : Diagram K V} (hs : f.store.Sound) (hr : f.Right keys test) (hd : f.store.Has d)
    (hne : d.index ≠ 0) (hdec : ∀ m ∈ d.maps, restrict keys m = []) :
    Sifts keys test chosen d.maps maps (fun d s => s.Has d) f ((judge test chosen d).run.run f) := by
  have hnd := hs.normal hd
  obtain ⟨m, hm⟩ := hnd.exists_mem hne
  have hm' := hnd.mem_maps_iff.2 ⟨m, hm, rfl⟩
  have hcongr : sift (fun m => test (chosen ++ restrict keys m)) d.maps = sift (fun _ => test chosen) d.maps :=
    sift_congr fun m hm => by rw [hdec m hm, List.append_nil]
  rw [run_judge]
  refine ⟨.refl _, hs, hr, ⟨[chosen], rfl, ?_⟩, ?_, ?_⟩
  · rw [List.reverse_singleton, List.singleton_sublist, List.mem_map]
    exact ⟨m.entries, hm', by rw [hdec _ hm', List.append_nil]⟩
  · rw [hcongr, sift_const (List.ne_nil_of_mem hm')]
    cases test chosen with
    | error e => rfl
    | ok keep => cases keep <;> rfl
  · intro a ha
    cases htest : test chosen with
    | error e =>
      rw [htest] at ha
      cases ha
    | ok keep =>
      rw [htest] at ha
      cases ha
      cases keep with
      | true => exact hd
      | false => exact has_emptySet

/-- Two parts of a filter, one after the other, and then a step that changes nothing but the nodes and puts the maps
of the results together. -/
private theorem Sifts.seq {α β γ : Type} {ms ms' : List (List (K × V))} {listing : α → List (List (K × V))}
    {listing' : β → List (List (K × V))} {listing'' : γ → List (List (K × V))} {P : α → Store K V → Prop}
    {Q : β → Store K V → Prop} {R : γ → Store K V → Prop} {x : FilterM ε K V α} {y : FilterM ε K V β}
    {z : α → β → FilterM ε K V γ} (hP : ∀ a s s', s.Grows s' → P a s → P a s')
    (hx : Sifts keys test chosen ms listing P f (x.run.run f))
    (hy : ∀ f' : FilterState K V, f.store.Grows f'.store → f'.store.Sound → f'.Right keys test →
      Sifts keys test chosen ms' listing' Q f' (y.run.run f'))
    (hz : ∀ a b (f' : FilterState K V), f'.store.Sound → P a f'.store → Q b f'.store →
      .ok (listing a) = sift (fun m => test (chosen ++ restrict keys m)) ms →
      .ok (listing' b) = sift (fun m => test (chosen ++ restrict keys m)) ms' →
      ∃ c s, (z a b).run.run f' = (.ok c, { f' with store := s }) ∧ f'.store.Grows s ∧ s.Sound ∧
        listing'' c = listing a ++ listing' b ∧ R c s) :
    Sifts keys test chosen (ms ++ ms') listing'' R f ((do
      let a ← x
      let b ← y
      z a b).run.run f) := by
  rw [run_bind]
  rcases hrx : x.run.run f with ⟨e | a, f₁⟩
  · rw [hrx] at hx
    refine ⟨hx.grows, hx.sound, hx.right, ?_, ?_, fun _ h => by cases h⟩
    · rw [List.map_append]
      exact hx.asked.append_right
    · rw [sift_append, ← hx.result]
      rfl
  · rw [hrx] at hx
    have hy' := hy f₁ hx.grows hx.sound hx.right
    simp only
    rw [run_bind]
    rcases hry : y.run.run f₁ with ⟨e | b, f₂⟩
    · rw [hry] at hy'
      refine ⟨hx.grows.trans hy'.grows, hy'.sound, hy'.right, ?_, ?_, fun _ h => by cases h⟩
      · rw [List.map_append]
        exact hx.asked.trans hy'.asked
      · rw [sift_append, ← hx.result, ← hy'.result]
        rfl
    · rw [hry] at hy'
      obtain ⟨c, s, hrun, hg, hs, hlisting, hc⟩ := hz a b f₂ hy'.sound (hP a _ _ hy'.grows (hx.ensures a rfl))
        (hy'.ensures b rfl) hx.result hy'.result
      simp only
      rw [hrun]
      refine ⟨(hx.grows.trans hy'.grows).trans hg, hs, hy'.right.of_store hg, ?_, ?_, ?_⟩
      · rw [List.map_append]
        exact hx.asked.trans hy'.asked
      · rw [sift_append, ← hx.result, ← hy'.result]
        exact congrArg Except.ok hlisting
      · rintro _ ⟨⟩
        exact hc

/-- The maps of a branch have the key of the node in front, which is chosen for the test if the test looks at it. -/
private theorem Sifts.map_cons {α : Type} {k : K} {v : V} {ms : List (List (K × V))} {listing : α → List (List (K × V))}
    {P : α → Store K V → Prop} {y : Except ε α × FilterState K V}
    (h : Sifts keys test (if isChosen keys k then chosen ++ [(k, v)] else chosen) ms listing P f y) :
    Sifts keys test chosen (ms.map ((k, v) :: ·)) (fun a => (listing a).map ((k, v) :: ·)) P f y := by
  have hasked : ∀ m, chosen ++ restrict keys ((k, v) :: m) =
      (if isChosen keys k then chosen ++ [(k, v)] else chosen) ++ restrict keys m :=
    chosen_append_restrict keys chosen (k, v)
  refine ⟨h.grows, h.sound, h.right, ?_, ?_, h.ensures⟩
  · rw [List.map_map, funext (f := (fun m => chosen ++ restrict keys m) ∘ ((k, v) :: ·)) hasked]
    exact h.asked
  · rw [sift_map]
    simp only [hasked]
    rw [← h.result]
    cases y.1 <;> rfl

/-- The sifted maps of a branch come before those of the branches that follow. -/
private theorem sifts_cons {k : K} {v : V} {c : Diagram K V} {rest : List (V × Diagram K V)}
    {x : FilterM ε K V (Diagram K V)} {y : FilterM ε K V (List (V × Diagram K V))}
    (hx : Sifts keys test (if isChosen keys k then chosen ++ [(k, v)] else chosen) c.maps maps (fun d s => s.Has d) f
      (x.run.run f))
    (hy : ∀ f' : FilterState K V, f.store.Grows f'.store → f'.store.Sound → f'.Right keys test →
      Sifts keys test chosen (branchMaps k rest) (branchMaps k) (Kept rest) f' (y.run.run f')) :
    Sifts keys test chosen (branchMaps k ((v, c) :: rest)) (branchMaps k) (Kept ((v, c) :: rest)) f ((do
      let d ← x
      let ds ← y
      return (v, d) :: ds).run.run f) := by
  rw [branchMaps]
  refine hx.map_cons.seq (fun _ _ _ hg h => h.mono hg) hy fun d ds f' hs' hd hds hsift _ => ?_
  refine ⟨(v, d) :: ds, f'.store, rfl, .refl _, hs', rfl, .cons ⟨rfl, hd, fun l hl => ?_⟩ hds⟩
  have hmem := ((mem_of_sift hsift.symm).1 (List.mem_map_of_mem hl)).1
  exact (List.mem_map_of_injective List.cons_injective).1 hmem

section Steps

variable [Std.LawfulEqOrd K] [Std.TransOrd V] [Std.LawfulEqOrd V]

/-- Remembering verdicts does not change what is kept. -/
private theorem sifts_rememberVerdict {d : Diagram K V} {x : FilterM ε K V (Diagram K V)} (hs : f.store.Sound)
    (hr : f.Right keys test) (hd : f.store.Has d)
    (hx : Sifts keys test chosen d.maps maps (fun d s => s.Has d) f (x.run.run f)) :
    Sifts keys test chosen d.maps maps (fun d s => s.Has d) f ((rememberVerdict d.index chosen x).run.run f) := by
  rw [run_rememberVerdict]
  split
  · rename_i d' hd'
    obtain ⟨hhas, e, he, hsift⟩ := hr _ _ _ hd'
    obtain rfl : d = e := Option.some.inj (hd.symm.trans he)
    refine ⟨.refl _, hs, hr, ⟨[], rfl, List.nil_sublist _⟩, hsift.symm, ?_⟩
    rintro _ ⟨⟩
    exact hhas
  · rcases hrun : x.run.run f with ⟨_ | d', f'⟩
    · rwa [hrun] at hx
    · rw [hrun] at hx
      have hsift := hx.result
      refine ⟨hx.grows, hx.sound, fun i c e h => ?_, hx.asked, hx.result, hx.ensures⟩
      simp only [Std.TreeMap.getElem?_insert] at h
      split at h
      · rename_i hm
        cases h
        obtain ⟨rfl, rfl⟩ := matter_injective (Std.LawfulEqCmp.eq_of_compare hm)
        exact ⟨hx.ensures _ rfl, d, hd.mono hx.grows, hsift.symm⟩
      · exact hx.right i c e h

/-- The sifted parts of a node make the sifted node. -/
theorem sifts_node {i : Nat} {k : K} {take : List (V × Diagram K V)} {skip : Diagram K V}
    {x : FilterM ε K V (List (V × Diagram K V))} {y : FilterM ε K V (Diagram K V)} (hs : f.store.Sound)
    (hd : f.store.Has (node i k take skip))
    (hx : Sifts keys test chosen (branchMaps k take) (branchMaps k) (Kept take) f (x.run.run f))
    (hy : ∀ f' : FilterState K V, f.store.Grows f'.store → f'.store.Sound → f'.Right keys test →
      Sifts keys test chosen skip.maps maps (fun d s => s.Has d) f' (y.run.run f')) :
    Sifts keys test chosen (node i k take skip).maps maps (fun d s => s.Has d) f ((do
      let take' ← x
      let skip' ← y
      liftStore (mkNode k take' skip')).run.run f) := by
  have hf := hs.fits_of_has hd
  have hn := hs.normal hd
  rw [maps]
  refine hx.seq (fun _ _ _ hg h => h.mono hg) hy fun take' skip' f' hs' hkept hskip _ hsift => ?_
  have hacc : f'.store.Accepts k take' skip' := by
    refine accepts_of_isAbove hs' (hkept.pairwise hf.sorted) (fun b hb => (hkept.of_mem hb).1) hskip
      (fun b hb m hm => ?_) fun m hm => ?_
    · obtain ⟨hb', c, hc, hl⟩ := hkept.of_mem hb
      have hmc := hl _ ((hs'.normal hb').mem_maps_iff.2 ⟨m, hm, rfl⟩)
      exact hn.branch_isAbove hc ((hs.normal (hf.branch_has c hc)).entries_mem_maps_iff.1 hmc)
    · have hmem := (hs'.normal hskip).mem_maps_iff.2 ⟨m, hm, rfl⟩
      have hmskip := ((mem_of_sift hsift.symm).1 hmem).1
      exact hn.skip_isAbove ((hs.normal hf.skip_has).entries_mem_maps_iff.1 hmskip)
  obtain ⟨hg, hsound, hhas, hmaps⟩ := ensures_mkNode_maps hs' hacc (hkept.pairwise hf.sorted)
  exact ⟨_, _, rfl, hg, hsound, hmaps, hhas⟩

end Steps

variable (keys test)

mutual

theorem sifts_filterFrom [Std.LawfulEqOrd K] [Std.TransOrd V] [Std.LawfulEqOrd V] (chosen : List (K × V))
    (d : Diagram K V) (f : FilterState K V) (hs : f.store.Sound) (hr : f.Right keys test) (hd : f.store.Has d)
    (hchosen : ∀ e ∈ chosen, d.IsAbove e.1) :
    Sifts keys test chosen d.maps maps (fun d s => s.Has d) f ((filterFrom keys test chosen d).run.run f) := by
  match d, hd, hchosen with
  | .emptySet, _, _ =>
    refine ⟨.refl _, hs, hr, ⟨[], rfl, List.nil_sublist _⟩, rfl, ?_⟩
    rintro _ ⟨⟩
    exact has_emptySet
  | .emptyMap, hd, _ =>
    unfold filterFrom
    refine sifts_rememberVerdict (d := emptyMap) hs hr hd (sifts_judge hs hr hd (by simp) fun m hm => ?_)
    rw [maps, List.mem_singleton] at hm
    rw [hm]
    rfl
  | .node i k take skip, hd, hchosen =>
    have hf := hs.fits_of_has hd
    have hi := two_le_of_has hd
    unfold filterFrom
    refine sifts_rememberVerdict (d := node i k take skip) hs hr hd ?_
    split
    · rename_i hdec
      refine sifts_judge hs hr hd (by simp; omega) fun m hm => ?_
      exact restrict_eq_nil hdec hchosen ((hs.normal hd).isLE_of_mem_maps hm)
    · refine sifts_node hs hd ?_ fun f' hg hs' hr' => ?_
      · exact sifts_filterBranches chosen k take f hs hr hf.branch_has hf.branch_above hchosen
      · exact sifts_filterFrom chosen skip f' hs' hr' (hf.skip_has.mono hg)
          fun e he => hf.skip_above.of_lt (hchosen e he)

theorem sifts_filterBranches [Std.LawfulEqOrd K] [Std.TransOrd V] [Std.LawfulEqOrd V] (chosen : List (K × V))
    (k : K) (take : List (V × Diagram K V)) (f : FilterState K V) (hs : f.store.Sound) (hr : f.Right keys test)
    (htake : ∀ b ∈ take, f.store.Has b.2) (habove : ∀ b ∈ take, b.2.IsAbove k) (hchosen : ∀ e ∈ chosen, compare e.1 k = .lt) :
    Sifts keys test chosen (branchMaps k take) (branchMaps k) (Kept take) f
      ((filterBranches keys test chosen k take).run.run f) := by
  match take, htake, habove with
  | [], _, _ =>
    unfold filterBranches
    refine ⟨.refl _, hs, hr, ⟨[], rfl, List.nil_sublist _⟩, rfl, ?_⟩
    rintro _ ⟨⟩
    exact .nil
  | (v, c) :: rest, htake, habove =>
    have hc := habove (v, c) List.mem_cons_self
    have hbranch := sifts_filterFrom (if isChosen keys k then chosen ++ [(k, v)] else chosen) c f hs hr
      (htake (v, c) List.mem_cons_self) (isAbove_of_mem_chosen hc hchosen)
    have hrest := fun f' hg hs' hr' => sifts_filterBranches chosen k rest f' hs' hr'
      (fun b hb => (htake b (List.mem_cons_of_mem _ hb)).mono hg) (fun b hb => habove b (List.mem_cons_of_mem _ hb))
      hchosen
    unfold filterBranches
    exact sifts_cons hbranch hrest

end

/-- The filter keeps the maps that pass the test, or reports its first failure.  The test is asked about some of the
maps, in their order and about each at most once. -/
theorem ensures_filter [Std.LawfulEqOrd K] [Std.TransOrd V] [Std.LawfulEqOrd V] {s : Store K V} {d : Diagram K V}
    (hs : s.Sound) (hd : s.Has d) : Ensures (filter keys test d) s fun r s' =>
      r.result.map maps = sift (fun m => test (restrict keys m)) d.maps ∧ (∀ d', r.result = .ok d' → s'.Has d') ∧
      r.calls.Sublist (d.maps.map (restrict keys)) := by
  have hr : ({ store := s } : FilterState K V).Right keys test := by
    intro i chosen d' h
    simp at h
  have h := sifts_filterFrom keys test [] d { store := s } hs hr hd (by simp)
  obtain ⟨new, hnew, hsub⟩ := h.asked
  refine ⟨h.grows, h.sound, h.result, h.ensures, ?_⟩
  rw [List.append_nil] at hnew
  rw [← hnew] at hsub
  exact hsub

end Sifts

end Diagram

end TokenNet
