import TokenNet.Proofs.Diagram.Union

/-!
# Diagrams of given maps, and their number

A node lists the maps of its branches and then those of its skip diagram: `ensures_mkNode_maps`.  So the diagram of a
single map lists that map alone, `ensures_singleton`, and the diagram of several maps denotes just these,
`ensures_ofMaps`.  The number of maps of a diagram is the length of the list, as far as a word can
hold it: `ensures_count`.
-/

namespace TokenNet.Diagram

open Store

variable {K V : Type} [Ord K]

/-- A map in key order is a finite map. -/
theorem sorted_sortMap [Std.TransOrd K] [Std.LawfulEqOrd K] {m : List (K × V)} (h : (m.map Prod.fst).Nodup) :
    (sortMap m).Pairwise fun a b => compare a.1 b.1 = .lt := by
  have hne : (sortMap m).Pairwise fun a b => a.1 ≠ b.1 :=
    (sortOn_perm Prod.fst m).symm.pairwise (List.pairwise_map.1 h) fun h => Ne.symm h
  refine ((pairwise_sortOn Prod.fst m).and hne).imp fun {a b} hab => ?_
  cases hc : compare a.1 b.1 with
  | lt => rfl
  | eq => exact absurd (Std.LawfulEqCmp.eq_of_compare hc) hab.2
  | gt => simp [hc] at hab

/-! ### The maps of a new node -/

variable [Ord V] {s : Store K V}

private theorem branchMaps_filter {k : K} {take : List (V × Diagram K V)} (h : ∀ b ∈ take, s.Has b.2) :
    branchMaps k (take.filter fun b => !b.2.isEmptySet) = branchMaps k take := by
  induction take with
  | nil => rfl
  | cons b take ih =>
    obtain ⟨v, c⟩ := b
    have ih' := ih fun b hb => h b (List.mem_cons_of_mem _ hb)
    by_cases hc : c.isEmptySet
    · obtain rfl := (h (v, c) List.mem_cons_self).eq_emptySet (isEmptySet_iff.1 hc)
      simp [hc, branchMaps, maps, ih']
    · simp [hc, branchMaps, ih']

/-! ### Counting -/

variable [Std.TransOrd K]

/-- A store that remembers a right number stays sound. -/
private theorem Sound.remember_count (hs : s.Sound) {d : Diagram K V} (hd : s.Has d) {n : Nat}
    (hn : toWord d.maps.length = n) : ({ s with counts := s.counts.insert d.index n } : Store K V).Sound := by
  refine hs.of_nodes_eq rfl rfl hs.results fun i n' h => ?_
  simp only [Std.TreeMap.getElem?_insert] at h
  split at h
  · rename_i hi
    obtain rfl := Std.LawfulEqCmp.eq_of_compare hi
    exact ⟨d, hd, hn.trans (Option.some.inj h)⟩
  · exact hs.counts i n' h

mutual

/-- The number of maps is the same whether it is remembered or not. -/
theorem ensures_count (d : Diagram K V) (s : Store K V) (hs : s.Sound) (hd : s.Has d) :
    Ensures (count d) s fun n _ => n = toWord d.maps.length := by
  match d, hd with
  | .emptySet, _ => exact .pure hs rfl
  | .emptyMap, _ => exact .pure hs rfl
  | .node i k take skip, hd =>
    have hf := hs.fits_of_has hd
    unfold count
    refine (ensures_get hs).bind ?_
    rintro t s' - - ⟨rfl, rfl⟩
    split
    · rename_i n hn
      obtain ⟨e, he, hlen⟩ := hs.counts i n hn
      obtain rfl : Diagram.node i k take skip = e := Option.some.inj (hd.symm.trans he)
      refine (ensures_modify (grows_of_nodes_eq rfl) hs.hit).bind ?_
      rintro - s' - - rfl
      exact .pure hs.hit hlen.symm
    · refine (ensures_modify (grows_of_nodes_eq rfl) hs.miss).bind ?_
      rintro - s₁ hg₁ hs₁ -
      refine (ensures_countBranches k take s₁ hs₁ fun b hb => (hf.branch_has b hb).mono hg₁).bind ?_
      rintro n s₂ hg₂ hs₂ rfl
      refine (ensures_count skip s₂ hs₂ (hf.skip_has.mono (hg₁.trans hg₂))).bind ?_
      rintro m s₃ hg₃ hs₃ rfl
      have hlen : toWord (Diagram.node i k take skip).maps.length =
          toWord (toWord (branchMaps k take).length + toWord skip.maps.length) := by
        rw [maps, List.length_append, toWord_add_toWord]
      have hr := Sound.remember_count hs₃ (hd.mono ((hg₁.trans hg₂).trans hg₃)) hlen
      refine (ensures_modify (grows_of_nodes_eq rfl) hr).bind ?_
      rintro - s₄ - hs₄ -
      exact .pure hs₄ hlen.symm

theorem ensures_countBranches (k : K) (take : List (V × Diagram K V)) (s : Store K V) (hs : s.Sound)
    (htake : ∀ b ∈ take, s.Has b.2) : Ensures (countBranches take) s fun n _ => n = toWord (branchMaps k take).length := by
  match take, htake with
  | [], _ => exact .pure hs rfl
  | (v, c) :: rest, htake =>
    unfold countBranches
    refine (ensures_count c s hs (htake (v, c) List.mem_cons_self)).bind ?_
    rintro n s₁ hg₁ hs₁ rfl
    refine (ensures_countBranches k rest s₁ hs₁ fun b hb => (htake b (List.mem_cons_of_mem _ hb)).mono hg₁).bind ?_
    rintro m s₂ hg₂ hs₂ rfl
    refine .pure hs₂ ?_
    rw [toWord_add_toWord, branchMaps, List.length_append, List.length_map]

end

/-! ### Nodes and single maps -/

variable [Std.LawfulEqOrd K]

/-- A diagram with a single map lies above a key if the entries of the map do. -/
private theorem isAbove_of_maps_eq {k : K} {l : List (K × V)} {d : Diagram K V} (hd : d.Normal) (h : d.maps = [l])
    (hk : ∀ e ∈ l, compare k e.1 = .lt) : d.IsAbove k := by
  refine hd.isAbove_iff.2 fun m hm => ?_
  have hl := hd.mem_maps_iff.2 ⟨m, hm, rfl⟩
  rw [h, List.mem_singleton] at hl
  intro e he
  rw [hl] at he
  exact hk e he

variable [Std.TransOrd V] [Std.LawfulEqOrd V]

theorem ensures_mkNode_maps {k : K} {take : List (V × Diagram K V)} {skip : Diagram K V} (hs : s.Sound)
    (h : s.Accepts k take skip) (hsort : take.Pairwise fun a b => compare a.1 b.1 = .lt) :
    Ensures (mkNode k take skip) s fun d s' => s'.Has d ∧ d.maps = branchMaps k take ++ skip.maps := by
  have hbranch := branchMaps_filter (k := k) h.branch_has
  rw [← tidy_eq_filter hsort] at hbranch
  refine (ensures_mkNode hs h).imp fun d s' _ _ ⟨hd, hparts⟩ => ⟨hd, ?_⟩
  rcases hparts with ⟨ht, rfl⟩ | ⟨i, rfl⟩
  · rw [← hbranch, ht]
    rfl
  · rw [maps, hbranch]

theorem ensures_mapChain {l : List (K × V)} (hs : s.Sound) (hl : l.Pairwise fun a b => compare a.1 b.1 = .lt) :
    Ensures (l.foldrM (fun e d => mkNode e.1 [(e.2, d)] .emptySet) .emptyMap) s
      fun d s' => s'.Has d ∧ d.maps = [l] := by
  induction l with
  | nil => exact .pure hs ⟨has_emptyMap, rfl⟩
  | cons e l ih =>
    obtain ⟨he, hl'⟩ := List.pairwise_cons.1 hl
    rw [List.foldrM_cons]
    refine (ih hl').bind fun d s' _ hs' ⟨hd, hmaps⟩ => ?_
    have hacc : s'.Accepts e.1 [(e.2, d)] .emptySet :=
      { distinct := nodup_values (List.pairwise_singleton _ _) _
        branch_has := by simpa using hd
        branch_above := by simpa using isAbove_of_maps_eq (hs'.normal hd) hmaps he
        skip_has := has_emptySet
        skip_above := trivial }
    refine (ensures_mkNode_maps hs' hacc (List.pairwise_singleton _ _)).imp fun d' s'' _ _ ⟨hd', hm⟩ => ⟨hd', ?_⟩
    rw [hm, branchMaps, hmaps]
    rfl

theorem ensures_singleton {m : List (K × V)} (hs : s.Sound) (hm : (m.map Prod.fst).Nodup) :
    Ensures (singleton m) s fun d s' => s'.Has d ∧ d.maps = [sortMap m] :=
  ensures_mapChain hs (sorted_sortMap hm)

/-! ### Several maps -/

private theorem ensures_foldlM_union {ms : List (List (K × V))} {d : Diagram K V} (hs : s.Sound) (hd : s.Has d)
    (hms : ∀ l ∈ ms, (l.map Prod.fst).Nodup) :
    Ensures (ms.foldlM (fun d l => do union d (← singleton l)) d) s
      fun e s' => s'.Has e ∧ ∀ m, m ∈ e ↔ m ∈ d ∨ ∃ l ∈ ms, m.entries = sortMap l := by
  induction ms generalizing d s with
  | nil => exact .pure hs ⟨hd, fun m => by simp⟩
  | cons l ms ih =>
    rw [List.foldlM_cons]
    have hstep : Ensures (do union d (← singleton l)) s
        fun e s' => s'.Has e ∧ ∀ m, m ∈ e ↔ m ∈ d ∨ m.entries = sortMap l := by
      refine (ensures_singleton hs (hms l List.mem_cons_self)).bind fun c s' hg hs' ⟨hc, hmaps⟩ => ?_
      refine (ensures_union hs' (hd.mono hg) hc).imp fun e s'' hg' hs'' ⟨he, hm⟩ => ⟨he, fun m => ?_⟩
      have hmem : m ∈ c ↔ m.entries = sortMap l := by
        rw [← (hs''.normal (hc.mono hg')).entries_mem_maps_iff, hmaps, List.mem_singleton]
      rw [hm, hmem]
    refine hstep.bind fun e s' hg hs' ⟨he, hm⟩ => ?_
    refine (ih hs' he fun l hl => hms l (List.mem_cons_of_mem _ hl)).imp fun e' s'' _ _ ⟨he', hm'⟩ => ⟨he', fun m => ?_⟩
    rw [hm', hm, or_assoc]
    simp

theorem ensures_ofMaps {ms : List (List (K × V))} (hs : s.Sound) (hms : ∀ l ∈ ms, (l.map Prod.fst).Nodup) :
    Ensures (ofMaps ms) s fun d s' => s'.Has d ∧ ∀ m, m ∈ d ↔ ∃ l ∈ ms, m.entries = sortMap l := by
  refine (ensures_foldlM_union hs has_emptySet hms).imp fun d s' _ _ ⟨hd, hm⟩ => ⟨hd, fun m => ?_⟩
  rw [hm]
  exact or_iff_right (not_mem_emptySet m)

end TokenNet.Diagram
