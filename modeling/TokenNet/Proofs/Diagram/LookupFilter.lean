import TokenNet.Proofs.Diagram.Lookup

/-!
# Every lookup finds a node: counting and filtering

In a sound store counting and filtering on the table fail nowhere and do the same as on the diagrams: `follows_count`,
`follows_filter`.
-/

namespace TokenNet.Diagram

open Store

variable {K V ε : Type} [Ord K] [Ord V]

/-! ### Counting -/

section Count

variable [Std.TransOrd K] {s : Store K V}

private theorem follows_sumBranches {n : Nat} {take : List (V × Diagram K V)} (hs : s.Sound)
    (htake : ∀ b ∈ take, s.Has b.2) (hgo : ∀ b ∈ take, ∀ s', s'.Sound → s'.Has b.2 →
      Follows (Table.countBelow n b.2) (count b.2) s') :
    Follows (Table.sumBranches (Table.countBelow n) take) (countBranches take) s := by
  induction take generalizing s with
  | nil => exact follows_pure 0
  | cons b take ih =>
    obtain ⟨v, c⟩ := b
    have hc := htake (v, c) List.mem_cons_self
    unfold Table.sumBranches countBranches
    refine (hgo (v, c) List.mem_cons_self s hs hc).bind fun m s' hrun => ?_
    obtain ⟨hg, hs', -⟩ := (ensures_count c s hs hc).of_run hrun
    have hrest := ih hs' (fun b hb => (htake b (List.mem_cons_of_mem _ hb)).mono hg)
      fun b hb => hgo b (List.mem_cons_of_mem _ hb)
    exact hrest.bind fun _ _ _ => follows_pure _

theorem follows_countBelow (n : Nat) {d : Diagram K V} (hs : s.Sound) (hd : s.Has d) (hn : d.index < n) :
    Follows (Table.countBelow n d) (count d) s := by
  induction n generalizing d s with
  | zero => omega
  | succ n ih =>
    cases d with
    | emptySet => exact follows_pure 0
    | emptyMap => exact follows_pure 1
    | node i k take skip =>
      have hf := hs.fits_of_has hd
      have hi := two_le_of_has hd
      have hskip := hf.skip_lt
      simp only [index_node] at hn
      unfold Table.countBelow count
      rw [index_node, if_neg (by omega), if_neg (by omega)]
      refine (follows_monadLift get).bind fun t s' hrun => ?_
      cases hrun
      cases s.counts[i]? with
      | some m => exact (follows_monadLift (modify Store.hit)).bind fun _ _ _ => follows_pure m
      | none =>
        refine (follows_monadLift (modify Store.miss)).bind fun _ s' hrun => ?_
        cases hrun
        have hgrow : s.Grows s.miss := grows_of_nodes_eq rfl
        refine follows_read (hd.mono hgrow) ?_
        have htake : ∀ b ∈ take, s.miss.Has b.2 := fun b hb => (hf.branch_has b hb).mono hgrow
        refine (follows_sumBranches hs.miss htake fun b hb s' hs' hb' => ?_).bind fun m s₂ hrun => ?_
        · have hbi := hf.branch_lt b hb
          exact ih hs' hb' (by omega)
        · obtain ⟨hg, hs₂, -⟩ := (ensures_countBranches k take s.miss hs.miss htake).of_run hrun
          refine (ih hs₂ ((hf.skip_has.mono hgrow).mono hg) (by omega)).bind fun m' s₃ _ => ?_
          exact (follows_monadLift _).bind fun _ _ _ => follows_pure _

theorem follows_count {d : Diagram K V} (hs : s.Sound) (hd : s.Has d) : Follows (Table.count d) (count d) s :=
  follows_countBelow _ hs hd (Nat.lt_succ_self _)

end Count

/-! ### Following a filter -/

section FollowsFilter

variable {α β : Type} {f : FilterState K V}

/-- Started in `f`, the filter on the table finds all it looks up and does what the other one does. -/
def FollowsFilter (x : Table.FilterTableM ε K V α) (y : FilterM ε K V α) (f : FilterState K V) : Prop :=
  x.run.run.run f = ((y.run.run f).1.map some, (y.run.run f).2)

theorem run_bind_filterTable (x : Table.FilterTableM ε K V α) (g : α → Table.FilterTableM ε K V β)
    (f : FilterState K V) : (x >>= g).run.run.run f = match x.run.run.run f with
      | (.ok (some a), f') => (g a).run.run.run f'
      | (.ok none, f') => (.ok none, f')
      | (.error e, f') => (.error e, f') := by
  have hrun : (x >>= g).run = (x.run >>= fun o => match o with
      | some a => (g a).run
      | none => pure none : FilterM ε K V (Option β)) := rfl
  rw [hrun, run_bind]
  rcases x.run.run.run f with ⟨_ | _ | a, f'⟩ <;> rfl

theorem FollowsFilter.bind {x : Table.FilterTableM ε K V α} {y : FilterM ε K V α}
    {g' : α → Table.FilterTableM ε K V β} {g : α → FilterM ε K V β} (h : FollowsFilter x y f)
    (hg : ∀ a f', y.run.run f = (.ok a, f') → FollowsFilter (g' a) (g a) f') :
    FollowsFilter (x >>= g') (y >>= g) f := by
  unfold FollowsFilter at h ⊢
  rw [run_bind_filterTable, run_bind, h]
  rcases hy : y.run.run f with ⟨e | a, f'⟩
  · rfl
  · exact hg a f' hy

theorem followsFilter_liftTable {x : TableM K V α} {y : StoreM K V α} (h : Follows x y f.store) :
    FollowsFilter (Table.liftTable x : Table.FilterTableM ε K V α) (liftStore y) f := by
  have hrun : (Table.liftTable x : Table.FilterTableM ε K V α).run.run.run f =
      (.ok (x.run.run f.store).1, { f with store := (x.run.run f.store).2 }) := rfl
  unfold FollowsFilter
  unfold Follows at h
  rw [hrun, h, run_liftStore]
  rfl

theorem followsFilter_monadLift (y : FilterM ε K V α) :
    FollowsFilter (monadLift y : Table.FilterTableM ε K V α) y f := by
  have hrun : (monadLift y : Table.FilterTableM ε K V α).run = (y >>= fun a => pure (some a)) := rfl
  unfold FollowsFilter
  rw [hrun, run_bind]
  rcases y.run.run f with ⟨e | a, f'⟩ <;> rfl

theorem followsFilter_rememberVerdict {i : Nat} {chosen : List (K × V)}
    {x : Table.FilterTableM ε K V (Diagram K V)} {y : FilterM ε K V (Diagram K V)} (h : FollowsFilter x y f) :
    FollowsFilter (Table.rememberVerdict i chosen x) (rememberVerdict i chosen y) f := by
  unfold Table.rememberVerdict rememberVerdict
  refine (followsFilter_monadLift get).bind fun t f' hrun => ?_
  cases hrun
  cases f.verdicts[matter i chosen]? with
  | some d => rfl
  | none => exact h.bind fun d f' _ => (followsFilter_monadLift _).bind fun _ _ _ => rfl

end FollowsFilter

/-! ### Filtering -/

section Filter

private theorem run_filter_table (keys : List K) (test : Test ε K V) (d : Diagram K V) (s : Store K V) :
    (Table.filter keys test d).run.run s =
      match (Table.filterBelow keys test (d.index + 1) [] d).run.run.run { store := s } with
      | (.error e, f) => (some ⟨.error e, f.calls.reverse⟩, f.store)
      | (.ok none, f) => (none, f.store)
      | (.ok (some d'), f) => (some ⟨.ok d', f.calls.reverse⟩, f.store) := rfl

private theorem run_filter (keys : List K) (test : Test ε K V) (d : Diagram K V) (s : Store K V) :
    (filter keys test d).run s =
      match (filterFrom keys test [] d).run.run { store := s } with
      | (result, f) => (⟨result, f.calls.reverse⟩, f.store) := rfl

/-- A node that the store has can be looked up within a filter. -/
private theorem followsFilter_read {β : Type} {f : FilterState K V} {i : Nat} {k : K} {take : List (V × Diagram K V)}
    {skip : Diagram K V} {g : Parts K V → Table.FilterTableM ε K V β} {y : FilterM ε K V β}
    (h : f.store.Has (node i k take skip)) (hg : FollowsFilter (g (k, take, skip)) y f) :
    FollowsFilter (Table.liftTable (Table.read (node i k take skip)) >>= g) y f := by
  have hrun : (Table.liftTable (Table.read (node i k take skip)) : Table.FilterTableM ε K V (Parts K V)).run.run.run f =
      (.ok (some (k, take, skip)), f) := by
    rw [← parts?_of_has h]
    rfl
  unfold FollowsFilter
  rw [run_bind_filterTable, hrun]
  exact hg

variable [Std.TransOrd K] [Std.LawfulEqOrd K] [Std.TransOrd V] [Std.LawfulEqOrd V] {keys : List K} {test : Test ε K V}

private theorem followsFilter_branches {n : Nat} {chosen : List (K × V)} {k : K} {take : List (V × Diagram K V)}
    {f : FilterState K V} (hs : f.store.Sound) (hr : f.Right keys test) (htake : ∀ b ∈ take, f.store.Has b.2)
    (habove : ∀ b ∈ take, b.2.IsAbove k) (hchosen : ∀ e ∈ chosen, compare e.1 k = .lt)
    (hgo : ∀ b ∈ take, ∀ (chosen : List (K × V)) (f' : FilterState K V), f'.store.Sound → f'.Right keys test →
      f'.store.Has b.2 → (∀ e ∈ chosen, b.2.IsAbove e.1) →
      FollowsFilter (Table.filterBelow keys test n chosen b.2) (filterFrom keys test chosen b.2) f') :
    FollowsFilter (Table.filterBranches (Table.filterBelow keys test n) keys chosen k take)
      (filterBranches keys test chosen k take) f := by
  induction take generalizing f with
  | nil => rfl
  | cons b take ih =>
    obtain ⟨v, c⟩ := b
    have hc := htake (v, c) List.mem_cons_self
    have hck := habove (v, c) List.mem_cons_self
    have hchosen' : ∀ e ∈ (if isChosen keys k then chosen ++ [(k, v)] else chosen), c.IsAbove e.1 :=
      isAbove_of_mem_chosen hck hchosen
    unfold Table.filterBranches filterBranches
    refine (hgo (v, c) List.mem_cons_self _ f hs hr hc hchosen').bind fun d f₁ hrun => ?_
    have hsifts := sifts_filterFrom keys test _ c f hs hr hc hchosen'
    rw [hrun] at hsifts
    have hrest := ih hsifts.sound hsifts.right
      (fun b hb => (htake b (List.mem_cons_of_mem _ hb)).mono hsifts.grows)
      (fun b hb => habove b (List.mem_cons_of_mem _ hb)) fun b hb => hgo b (List.mem_cons_of_mem _ hb)
    exact hrest.bind fun _ _ _ => rfl

theorem followsFilter_filterBelow (keys : List K) (test : Test ε K V) (n : Nat) (chosen : List (K × V))
    (d : Diagram K V) (f : FilterState K V) (hs : f.store.Sound) (hr : f.Right keys test) (hd : f.store.Has d) (hchosen : ∀ e ∈ chosen, d.IsAbove e.1)
    (hn : d.index < n) :
    FollowsFilter (Table.filterBelow keys test n chosen d) (filterFrom keys test chosen d) f := by
  induction n generalizing chosen d f with
  | zero => omega
  | succ n ih =>
    cases d with
    | emptySet => rfl
    | emptyMap =>
      unfold Table.filterBelow filterFrom
      rw [index_emptyMap, if_neg (by decide), if_pos rfl]
      exact followsFilter_rememberVerdict (followsFilter_monadLift _)
    | node i k take skip =>
      have hf := hs.fits_of_has hd
      have hi := two_le_of_has hd
      have hskip := hf.skip_lt
      simp only [index_node] at hn
      unfold Table.filterBelow filterFrom
      rw [index_node, if_neg (by omega), if_neg (by omega)]
      refine followsFilter_rememberVerdict (followsFilter_read hd ?_)
      by_cases hdec : isDecided keys chosen k
      · simp only [hdec, if_true]
        exact followsFilter_monadLift _
      · simp only [hdec, Bool.false_eq_true, if_false]
        have hx := sifts_filterBranches keys test chosen k take f hs hr hf.branch_has hf.branch_above hchosen
        have hskips := fun (f' : FilterState K V) (hg : f.store.Grows f'.store) (hs' : f'.store.Sound)
            (hr' : f'.Right keys test) =>
          sifts_filterFrom keys test chosen skip f' hs' hr' (hf.skip_has.mono hg)
            fun e he => hf.skip_above.of_lt (hchosen e he)
        have hnode := sifts_node hs hd hx hskips
        refine (followsFilter_branches hs hr hf.branch_has hf.branch_above hchosen ?_).bind fun take' f₁ hrun => ?_
        · intro b hb chosen' f' hs' hr' hb' hchosen'
          have hbi := hf.branch_lt b hb
          exact ih chosen' b.2 f' hs' hr' hb' hchosen' (by omega)
        · rw [run_bind, hrun] at hnode
          rw [hrun] at hx
          have hy := hskips f₁ hx.grows hx.sound hx.right
          refine (ih chosen skip f₁ hx.sound hx.right (hf.skip_has.mono hx.grows)
            (fun e he => hf.skip_above.of_lt (hchosen e he)) (by omega)).bind fun skip' f₂ hrun' => ?_
          simp only at hnode
          rw [run_bind, hrun'] at hnode
          rw [hrun'] at hy
          have hkept := hx.ensures take' rfl
          exact followsFilter_liftTable (follows_mkNode hy.sound
            (fun b hb => ((hkept.of_mem hb).1).mono hy.grows) (hy.ensures skip' rfl) hnode.sound)

theorem follows_filter {s : Store K V} {d : Diagram K V} (keys : List K) (test : Test ε K V) (hs : s.Sound)
    (hd : s.Has d) : Follows (Table.filter keys test d) (filter keys test d) s := by
  have hr : ({ store := s } : FilterState K V).Right keys test := by
    intro i chosen d' h
    simp at h
  have h := followsFilter_filterBelow keys test (d.index + 1) [] d { store := s } hs hr hd (by simp) (Nat.lt_succ_self _)
  unfold FollowsFilter at h
  unfold Follows
  rw [run_filter_table, run_filter, h]
  rcases (filterFrom keys test [] d).run.run { store := s } with ⟨_ | d', f⟩ <;> rfl

end Filter

end TokenNet.Diagram
