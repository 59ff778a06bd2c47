import TokenNet.Proofs.Diagram.Filtering
import TokenNet.Proofs.Diagram.Join
import TokenNet.Proofs.Diagram.Table

/-!
# Every lookup finds a node

In a sound store the operations on the table never fail, and do the same as those on the diagrams: `follows_singleton`,
`follows_union`, `follows_join`.  So no operation looks up a terminal, and every node is made of parts that fit.

The induction is on the bound of the recursion, which the indices of the diagrams stay below.
-/

namespace TokenNet

variable {K V ε : Type} [Ord V]

private theorem Diagram.hasDistinctNeighbours_of_pairwise {take : List (V × Diagram K V)}
    (h : take.Pairwise fun a b => compare a.1 b.1 = .lt) : Table.hasDistinctNeighbours take = true := by
  unfold Table.hasDistinctNeighbours
  induction take with
  | nil => rfl
  | cons b take ih =>
    obtain ⟨hb, htake⟩ := List.pairwise_cons.1 h
    have ih' := ih htake
    cases take with
    | nil => rfl
    | cons c take =>
      simp only [List.tail_cons, List.zip_cons_cons, List.all_cons, Bool.and_eq_true] at ih' ⊢
      refine ⟨?_, ih'⟩
      rw [hb c List.mem_cons_self]
      rfl

variable [Ord K]

/-! ### Following a computation -/

section Follows

variable {α β : Type} {s : Store K V}

/-- Started in `s`, the computation on the table fails nowhere and does what the other one does. -/
def Follows (x : TableM K V α) (y : StoreM K V α) (s : Store K V) : Prop :=
  x.run.run s = (some (y.run s).1, (y.run s).2)

theorem follows_pure (a : α) : Follows (pure a) (pure a) s := rfl

theorem follows_monadLift (y : StoreM K V α) : Follows (monadLift y) y s := rfl

theorem run_bind_table (x : TableM K V α) (f : α → TableM K V β) (s : Store K V) :
    (x >>= f).run.run s = match x.run.run s with
      | (some a, s') => (f a).run.run s'
      | (none, s') => (none, s') := by
  have hrun : (x >>= f).run.run s = (match (x.run.run s).1 with
      | some a => (f a).run
      | none => pure none : StoreM K V (Option β)).run (x.run.run s).2 := rfl
  rw [hrun]
  rcases x.run.run s with ⟨_ | a, s'⟩ <;> rfl

theorem Follows.bind {x : TableM K V α} {y : StoreM K V α} {f : α → TableM K V β} {g : α → StoreM K V β}
    (h : Follows x y s) (hf : ∀ a s', y.run s = (a, s') → Follows (f a) (g a) s') : Follows (x >>= f) (y >>= g) s := by
  unfold Follows at h ⊢
  rw [run_bind_table, h]
  exact hf _ _ rfl

theorem run_bind_of_run {y : StoreM K V α} {g : α → StoreM K V β} {a : α} {s' : Store K V} (hrun : y.run s = (a, s')) :
    (y >>= g).run s = (g a).run s' := by
  rw [StateT.run_bind, hrun]
  rfl

variable [Std.TransOrd K]

/-- What a computation ensures holds of its run. -/
theorem Ensures.of_run {y : StoreM K V α} {P : α → Store K V → Prop} {a : α} {s' : Store K V} (h : Ensures y s P)
    (hrun : y.run s = (a, s')) : s.Grows s' ∧ s'.Sound ∧ P a s' := by
  unfold Ensures at h
  rwa [hrun] at h

theorem sound_of_run_bind {y : StoreM K V α} {g : α → StoreM K V β} {a : α} {s' : Store K V}
    (h : ((y >>= g).run s).2.Sound) (hrun : y.run s = (a, s')) : ((g a).run s').2.Sound := by
  rwa [run_bind_of_run hrun] at h

/-- What holds of the result of a computation for each element of a list. -/
theorem ensures_mapM_all {g : α → StoreM K V β} {P : β → Store K V → Prop} {l : List α}
    (hP : ∀ b s s', s.Grows s' → P b s → P b s') (hs : s.Sound)
    (hg : ∀ a ∈ l, ∀ s', s.Grows s' → s'.Sound → Ensures (g a) s' P) :
    Ensures (l.mapM g) s fun r s' => ∀ b ∈ r, P b s' := by
  refine (ensures_mapM (R := fun _ b s => P b s) (fun _ b s s' hg h => hP b s s' hg h) hs hg).imp ?_
  intro r s' _ _ hr b hb
  obtain ⟨i, hi, rfl⟩ := List.getElem_of_mem hb
  exact hr.get (hr.length_eq ▸ hi) hi

theorem follows_mapM {f : α → TableM K V β} {g : α → StoreM K V β} {P : β → Store K V → Prop} {l : List α}
    (hs : s.Sound) (hf : ∀ a ∈ l, ∀ s', s.Grows s' → s'.Sound → Follows (f a) (g a) s' ∧ Ensures (g a) s' P) :
    Follows (l.mapM f) (l.mapM g) s := by
  induction l generalizing s with
  | nil =>
    rw [List.mapM_nil, List.mapM_nil]
    exact follows_pure []
  | cons a l ih =>
    rw [List.mapM_cons, List.mapM_cons]
    obtain ⟨hfollows, hensures⟩ := hf a List.mem_cons_self s (.refl s) hs
    refine hfollows.bind fun b s' hrun => ?_
    obtain ⟨hg, hs', -⟩ := hensures.of_run hrun
    refine (ih hs' fun c hc s'' hg' hs'' => hf c (List.mem_cons_of_mem a hc) s'' (hg.trans hg') hs'').bind ?_
    exact fun r s'' _ => follows_pure (b :: r)

end Follows

namespace Diagram

open Store

/-! ### Looking nodes up -/

variable {s : Store K V}

theorem parts?_of_has {i : Nat} {k : K} {take : List (V × Diagram K V)} {skip : Diagram K V}
    (h : s.Has (node i k take skip)) : s.parts? i = some (k, take, skip) := by
  have hi := two_le_of_has h
  obtain ⟨j, rfl⟩ : ∃ j, i = j + 2 := ⟨i - 2, by omega⟩
  have hj : s.nodes[j]? = some (.node (j + 2) k take skip) := h
  simp [Store.parts?, hj]

/-- A node that the store has can be looked up. -/
theorem follows_read {β : Type} {i : Nat} {k : K} {take : List (V × Diagram K V)} {skip : Diagram K V}
    {f : Parts K V → TableM K V β} {y : StoreM K V β} (h : s.Has (node i k take skip))
    (hf : Follows (f (k, take, skip)) y s) : Follows (Table.read (node i k take skip) >>= f) y s := by
  have hrun : (Table.read (node i k take skip)).run.run s = (some (k, take, skip), s) := by
    rw [← parts?_of_has h]
    rfl
  unfold Follows
  rw [run_bind_table, hrun]
  exact hf

private theorem follows_checkAbove {k : K} {d : Diagram K V} (hd : s.Has d) (h : d.IsAbove k) :
    Follows (Table.checkAbove k d) (pure ()) s := by
  unfold Table.checkAbove
  cases d with
  | emptySet => exact follows_pure ()
  | emptyMap => exact follows_pure ()
  | node i l take skip =>
    rw [index_node, if_pos (two_le_of_has hd)]
    refine follows_read hd ?_
    have hkl : compare k l = .lt := h
    simp only [if_pos hkl]
    exact follows_pure ()

private theorem follows_forM_checkAbove {k : K} {l : List (Diagram K V)} (h : ∀ d ∈ l, s.Has d ∧ d.IsAbove k) :
    Follows (l.forM (Table.checkAbove k)) (pure ()) s := by
  induction l with
  | nil => exact follows_pure ()
  | cons d l ih =>
    obtain ⟨hd, hk⟩ := h d List.mem_cons_self
    have hl := ih fun d hd => h d (List.mem_cons_of_mem _ hd)
    exact Follows.bind (y := pure ()) (g := fun _ => pure ()) (follows_checkAbove hd hk) fun _ s' hrun => by
      cases hrun
      exact hl

/-! ### Making nodes -/

variable [Std.TransOrd K]

/-- A node that keeps the store sound is made of parts that fit. -/
theorem follows_mkNode {k : K} {take : List (V × Diagram K V)} {skip : Diagram K V} (hs : s.Sound)
    (htake : ∀ b ∈ take, s.Has b.2) (hskip : s.Has skip) (hsound : ((mkNode k take skip).run s).2.Sound) :
    Follows (Table.mkNode k take skip) (mkNode k take skip) s := by
  have htidy : ∀ b ∈ tidy take, s.Has b.2 := fun b hb => htake b (mem_tidy_iff.1 hb).1
  unfold Table.mkNode
  by_cases ht : (tidy take).isEmpty
  · simp only [ht, if_true]
    exact follows_monadLift _
  · obtain ⟨s', i, hf⟩ : ∃ s' i, Store.Fits s' i k (tidy take) skip := by
      rw [run_mkNode, if_neg ht] at hsound
      cases hu : s.unique[shape k (tidy take) skip]? with
      | some d =>
        obtain ⟨hd, i, rfl⟩ := Sound.eq_node_of_unique hs htidy hskip hu
        exact ⟨s, i, hs.fits_of_has hd⟩
      | none =>
        rw [hu] at hsound
        exact ⟨_, _, hsound.fits_of_has push_has_node⟩
    have hcheck : Follows ((List.map Prod.snd (tidy take) ++ [skip]).forM (Table.checkAbove k)) (pure ()) s := by
      refine follows_forM_checkAbove fun d hd => ?_
      rcases List.mem_append.1 hd with hd | hd
      · obtain ⟨b, hb, rfl⟩ := List.mem_map.1 hd
        exact ⟨htidy b hb, hf.branch_above b hb⟩
      · rw [List.mem_singleton.1 hd]
        exact ⟨hskip, hf.skip_above⟩
    simp only [ht, Bool.false_eq_true, if_false, hasDistinctNeighbours_of_pairwise hf.sorted, if_true]
    refine Follows.bind (y := pure ()) (g := fun _ => mkNode k take skip) hcheck fun _ s' hrun => ?_
    cases hrun
    exact follows_monadLift _

/-- A node made at the end of a computation that keeps the store sound. -/
private theorem Follows.mkNode {x : TableM K V (Diagram K V)} {y : StoreM K V (Diagram K V)} {k : K}
    {take : List (V × Diagram K V)} {P : Diagram K V → Store K V → Prop} (htake : ∀ b ∈ take, s.Has b.2)
    (hx : Follows x y s) (hy : Ensures y s P) (hP : ∀ d s', P d s' → s'.Has d)
    (hsound : ((do Diagram.mkNode k take (← y)).run s).2.Sound) :
    Follows (do Table.mkNode k take (← x)) (do Diagram.mkNode k take (← y)) s := by
  refine hx.bind fun d s' hrun => ?_
  obtain ⟨hg, hs', hp⟩ := hy.of_run hrun
  exact follows_mkNode hs' (fun b hb => (htake b hb).mono hg) (hP d s' hp) (sound_of_run_bind hsound hrun)

/-- A node whose branches are computed one by one, and its skip diagram after them. -/
private theorem follows_mkNode_branches {E : Type} {f' : E → TableM K V (V × Diagram K V)}
    {f : E → StoreM K V (V × Diagram K V)} {l : List E} {x : TableM K V (Diagram K V)} {y : StoreM K V (Diagram K V)}
    {k : K} {P : Diagram K V → Store K V → Prop} (hs : s.Sound)
    (hf : ∀ c ∈ l, ∀ s', s.Grows s' → s'.Sound → Follows (f' c) (f c) s' ∧ Ensures (f c) s' fun d s'' => s''.Has d.2)
    (hx : ∀ s', s.Grows s' → s'.Sound → Follows x y s' ∧ Ensures y s' P) (hP : ∀ d s', P d s' → s'.Has d)
    (hsound : ((do
      let take ← l.mapM f
      Diagram.mkNode k take (← y)).run s).2.Sound) :
    Follows (do
      let take ← l.mapM f'
      Table.mkNode k take (← x)) (do
      let take ← l.mapM f
      Diagram.mkNode k take (← y)) s := by
  refine (follows_mapM hs hf).bind fun take s' hrun => ?_
  obtain ⟨hg, hs', hhas⟩ := (ensures_mapM_all (fun _ _ _ hg h => h.mono hg) hs
    fun c hc s' hg hs' => (hf c hc s' hg hs').2).of_run hrun
  obtain ⟨hfollows, hensures⟩ := hx s' hg hs'
  have hsound' := sound_of_run_bind hsound hrun
  exact Follows.mkNode hhas hfollows hensures hP hsound'

/-! ### The nodes of unions and joins -/

private theorem follows_memoized {op : Operation} {f' : Diagram K V → Diagram K V → TableM K V (Diagram K V)}
    {f : Diagram K V → Diagram K V → StoreM K V (Diagram K V)} {a b : Diagram K V} (hs : s.Sound)
    (hf : ∀ x y, (x = a ∧ y = b ∨ x = b ∧ y = a) → ∀ s', s.Grows s' → s'.Sound → Follows (f' x y) (f x y) s') :
    Follows (Table.memoized op f' a b) (memoized op f a b) s := by
  unfold Table.memoized memoized
  obtain ⟨x, y, hxy, hcase⟩ : ∃ x y, ordered a b = (x, y) ∧ (x = a ∧ y = b ∨ x = b ∧ y = a) := by
    rcases ordered_cases a b with ⟨h, -⟩ | ⟨h, -⟩
    · exact ⟨a, b, h, .inl ⟨rfl, rfl⟩⟩
    · exact ⟨b, a, h, .inr ⟨rfl, rfl⟩⟩
  rw [hxy]
  refine (follows_monadLift get).bind fun t s' hrun => ?_
  cases hrun
  cases s.result? op (x.index, y.index) with
  | some d => exact (follows_monadLift (modify Store.hit)).bind fun _ _ _ => follows_pure d
  | none =>
    refine (follows_monadLift (modify Store.miss)).bind fun _ s' hrun => ?_
    cases hrun
    refine (hf x y hcase s.miss (grows_of_nodes_eq rfl) hs.miss).bind fun d s' _ => ?_
    exact (follows_monadLift _).bind fun _ _ _ => follows_pure d

/-- A node whose skip diagram alone changes. -/
private theorem follows_unionSkip {i : Nat} {k : K} {t : List (V × Diagram K V)} {q d d' : Diagram K V}
    {x : TableM K V (Diagram K V)} {y : StoreM K V (Diagram K V)} (hs : s.Sound) (hd : s.Has (node i k t q))
    (h : Follows x y s ∧ Ensures y s (UnionOf d d')) (hsound : ((do Diagram.mkNode k t (← y)).run s).2.Sound) :
    Follows (do Table.mkNode k t (← x)) (do Diagram.mkNode k t (← y)) s :=
  Follows.mkNode (hs.fits_of_has hd).branch_has h.1 h.2 (fun _ _ h => h.1) hsound

/-- A node, all of whose parts are joined with a diagram. -/
private theorem follows_joinBranches {go' : Diagram K V → Diagram K V → TableM K V (Diagram K V)}
    {go : Diagram K V → Diagram K V → StoreM K V (Diagram K V)} {k : K} {t : List (V × Diagram K V)}
    {b : Diagram K V} (d d' : Diagram K V) {x : TableM K V (Diagram K V)} {y : StoreM K V (Diagram K V)} (hs : s.Sound)
    (hgo : ∀ c ∈ t, ∀ s', s.Grows s' → s'.Sound →
      Follows (go' c.2 b) (go c.2 b) s' ∧ Ensures (go c.2 b) s' (JoinOf c.2 b))
    (hx : ∀ s', s.Grows s' → s'.Sound → Follows x y s' ∧ Ensures y s' (JoinOf d d'))
    (hsound : ((do
      let take ← joinBranches go t b
      mkNode k take (← y)).run s).2.Sound) :
    Follows (do
      let take ← Table.joinBranches go' t b
      Table.mkNode k take (← x)) (do
      let take ← joinBranches go t b
      mkNode k take (← y)) s := by
  unfold joinBranches at hsound
  unfold Table.joinBranches joinBranches
  have htake : ∀ c ∈ t, ∀ s', s.Grows s' → s'.Sound →
      Follows (do return (c.1, ← go' c.2 b)) (do return (c.1, ← go c.2 b)) s' ∧
      Ensures (do return (c.1, ← go c.2 b)) s' fun (d : V × Diagram K V) s'' => s''.Has d.2 := by
    intro c hc s' hg hs'
    obtain ⟨hfollows, hensures⟩ := hgo c hc s' hg hs'
    exact ⟨hfollows.bind fun _ _ _ => follows_pure _, hensures.bind fun d s'' _ hs'' hd => .pure hs'' hd.1⟩
  exact follows_mkNode_branches hs htake hx (fun _ _ h => h.1) hsound

variable [Std.TransOrd V] [Std.LawfulEqOrd V]

/-- What two merged branches become. -/
private theorem follows_unionMerged {go' : Diagram K V → Diagram K V → TableM K V (Diagram K V)}
    {go : Diagram K V → Diagram K V → StoreM K V (Diagram K V)} {i j : Nat} {k l : K} {t u : List (V × Diagram K V)}
    {q r : Diagram K V} (hfa : s.Fits i k t q) (hfb : s.Fits j l u r)
    (hgo : ∀ x y s', s.Grows s' → s'.Sound → s'.Has x → s'.Has y → x.index + y.index < i + j →
      Follows (go' x y) (go x y) s' ∧ Ensures (go x y) s' (UnionOf x y)) {c : V × Merged (Diagram K V)}
    (hc : c ∈ merge t u) {s' : Store K V} (hg : s.Grows s') (hs' : s'.Sound) :
    Follows (match c.2 with
      | .left x => pure (c.1, x)
      | .right y => pure (c.1, y)
      | .both x y => do return (c.1, ← go' x y)) (match c.2 with
      | .left x => pure (c.1, x)
      | .right y => pure (c.1, y)
      | .both x y => do return (c.1, ← go x y)) s' ∧
    Ensures (match c.2 with
      | .left x => pure (c.1, x)
      | .right y => pure (c.1, y)
      | .both x y => do return (c.1, ← go x y)) s' fun (d : V × Diagram K V) s'' => s''.Has d.2 := by
  have hside := mem_of_mem_merge hfa.sorted hfb.sorted hc
  obtain ⟨v, m⟩ := c
  cases m with
  | left x => exact ⟨follows_pure _, .pure hs' ((hfa.branch_has _ hside).mono hg)⟩
  | right y => exact ⟨follows_pure _, .pure hs' ((hfb.branch_has _ hside).mono hg)⟩
  | both x y =>
    have hxi := hfa.branch_lt _ hside.1
    have hyj := hfb.branch_lt _ hside.2
    simp only at hxi hyj
    obtain ⟨hfollows, hensures⟩ := hgo x y s' hg hs' ((hfa.branch_has _ hside.1).mono hg)
      ((hfb.branch_has _ hside.2).mono hg) (by omega)
    exact ⟨hfollows.bind fun _ _ _ => follows_pure _, hensures.bind fun d s'' _ hs'' hd => .pure hs'' hd.1⟩

/-- Two nodes are united below the smaller key, or by their branches if they have the same key. -/
private theorem follows_unionNodes {go' : Diagram K V → Diagram K V → TableM K V (Diagram K V)}
    {go : Diagram K V → Diagram K V → StoreM K V (Diagram K V)} {i j : Nat} {k l : K} {t u : List (V × Diagram K V)}
    {q r : Diagram K V} (hs : s.Sound) (ha : s.Has (node i k t q)) (hb : s.Has (node j l u r))
    (hgo : ∀ x y s', s.Grows s' → s'.Sound → s'.Has x → s'.Has y → x.index + y.index < i + j →
      Follows (go' x y) (go x y) s' ∧ Ensures (go x y) s' (UnionOf x y))
    (hsound : ((unionStep go (node i k t q) (node j l u r)).run s).2.Sound) :
    Follows (Table.unionStep go' (node i k t q) (node j l u r)) (unionStep go (node i k t q) (node j l u r)) s := by
  have hfa := hs.fits_of_has ha
  have hfb := hs.fits_of_has hb
  have hqi := hfa.skip_lt
  have hrj := hfb.skip_lt
  have hi := two_le_of_has ha
  have hj := two_le_of_has hb
  unfold Table.unionStep
  rw [index_node, index_node, if_neg (by omega), if_neg (by omega)]
  refine follows_read ha (follows_read hb ?_)
  unfold unionStep at hsound ⊢
  cases hkl : compare k l with
  | lt =>
    simp only [hkl] at hsound ⊢
    exact follows_unionSkip hs ha (hgo _ _ s (.refl s) hs hfa.skip_has hb (by simp only [index_node]; omega)) hsound
  | gt =>
    simp only [hkl] at hsound ⊢
    exact follows_unionSkip hs hb (hgo _ _ s (.refl s) hs ha hfb.skip_has (by simp only [index_node]; omega)) hsound
  | eq =>
    simp only [hkl] at hsound ⊢
    refine follows_mkNode_branches (P := UnionOf q r) hs
      (fun c hc s' hg hs' => follows_unionMerged hfa hfb hgo hc hg hs') (fun s' hg hs' => ?_) (fun _ _ h => h.1) hsound
    exact hgo q r s' hg hs' (hfa.skip_has.mono hg) (hfb.skip_has.mono hg) (by omega)

variable [Std.LawfulEqOrd K]

theorem follows_singleton {m : List (K × V)} (hs : s.Sound) (hm : (m.map Prod.fst).Nodup) :
    Follows (Table.singleton m) (singleton m) s := by
  have hl := sorted_sortMap hm
  unfold Table.singleton singleton
  generalize sortMap m = l at hl
  induction l with
  | nil => exact follows_pure emptyMap
  | cons e l ih =>
    have hsound := (ensures_mapChain hs hl).2.1
    obtain ⟨-, hl'⟩ := List.pairwise_cons.1 hl
    rw [List.foldrM_cons] at hsound ⊢
    rw [List.foldrM_cons]
    refine (ih hl').bind fun d s' hrun => ?_
    obtain ⟨-, hs', hd, -⟩ := (ensures_mapChain hs hl').of_run hrun
    have hsound' := sound_of_run_bind hsound hrun
    exact follows_mkNode hs' (by simpa using hd) has_emptySet hsound'

/-! ### Union and join -/

private theorem follows_unionStep {go' : Diagram K V → Diagram K V → TableM K V (Diagram K V)}
    {go : Diagram K V → Diagram K V → StoreM K V (Diagram K V)} {a b : Diagram K V} (hs : s.Sound) (ha : s.Has a)
    (hb : s.Has b) (hab : a.index ≠ b.index) (ha0 : a.index ≠ 0) (hb0 : b.index ≠ 0)
    (hgo : ∀ x y s', s.Grows s' → s'.Sound → s'.Has x → s'.Has y → x.index + y.index < a.index + b.index →
      Follows (go' x y) (go x y) s' ∧ Ensures (go x y) s' (UnionOf x y)) :
    Follows (Table.unionStep go' a b) (unionStep go a b) s := by
  have hstep := ensures_unionStep hs ha hb hab ha0 hb0 fun x y s' hg hs' hx hy hlt => (hgo x y s' hg hs' hx hy hlt).2
  cases a with
  | emptySet => exact absurd rfl ha0
  | emptyMap =>
    cases b with
    | emptySet => exact absurd rfl hb0
    | emptyMap => exact absurd rfl hab
    | node j l u r =>
      have hfb := hs.fits_of_has hb
      have hrj := hfb.skip_lt
      unfold Table.unionStep
      rw [index_emptyMap, if_pos rfl]
      refine follows_read hb ?_
      exact follows_unionSkip hs hb
        (hgo _ _ s (.refl s) hs ha hfb.skip_has (by simp only [index_emptyMap, index_node]; omega)) hstep.2.1
  | node i k t q =>
    cases b with
    | emptySet => exact absurd rfl hb0
    | emptyMap =>
      have hfa := hs.fits_of_has ha
      have hqi := hfa.skip_lt
      have hi := two_le_of_has ha
      unfold Table.unionStep
      rw [index_node, index_emptyMap, if_neg (by omega), if_pos rfl]
      refine follows_read ha ?_
      exact follows_unionSkip hs ha
        (hgo _ _ s (.refl s) hs hb hfa.skip_has (by simp only [index_emptyMap, index_node]; omega)) hstep.2.1
    | node j l u r => exact follows_unionNodes hs ha hb hgo hstep.2.1

theorem follows_unionBelow (n : Nat) {a b : Diagram K V} (hs : s.Sound) (ha : s.Has a) (hb : s.Has b)
    (hn : a.index + b.index < n) : Follows (Table.unionBelow n a b) (unionBelow n a b) s := by
  induction n generalizing a b s with
  | zero => omega
  | succ n ih =>
    unfold Table.unionBelow unionBelow
    by_cases hab : a.index = b.index
    · rw [if_pos hab, if_pos hab]
      exact follows_pure a
    · rw [if_neg hab, if_neg hab]
      by_cases ha0 : a.isEmptySet
      · rw [if_pos ha0, if_pos ha0]
        exact follows_pure b
      · rw [if_neg ha0, if_neg ha0]
        by_cases hb0 : b.isEmptySet
        · rw [if_pos hb0, if_pos hb0]
          exact follows_pure a
        · rw [if_neg hb0, if_neg hb0]
          have hgo : ∀ x y s', s'.Sound → s'.Has x → s'.Has y → x.index + y.index < n →
              Follows (Table.unionBelow n x y) (unionBelow n x y) s' ∧ Ensures (unionBelow n x y) s' (UnionOf x y) :=
            fun x y s' hs' hx hy hlt => ⟨ih hs' hx hy hlt, ensures_unionBelow n hs' hx hy hlt⟩
          rw [isEmptySet_iff] at ha0 hb0
          refine follows_memoized hs fun x y hxy s' hg hs' => ?_
          rcases hxy with ⟨rfl, rfl⟩ | ⟨rfl, rfl⟩
          · exact follows_unionStep hs' (ha.mono hg) (hb.mono hg) hab ha0 hb0
              fun x y s'' _ hs'' hx hy hlt => hgo x y s'' hs'' hx hy (by omega)
          · exact follows_unionStep hs' (hb.mono hg) (ha.mono hg) (Ne.symm hab) hb0 ha0
              fun x y s'' _ hs'' hx hy hlt => hgo x y s'' hs'' hx hy (by omega)

theorem follows_union {a b : Diagram K V} (hs : s.Sound) (ha : s.Has a) (hb : s.Has b) :
    Follows (Table.union a b) (union a b) s :=
  follows_unionBelow _ hs ha hb (Nat.lt_succ_self _)

theorem follows_ofMaps {ms : List (List (K × V))} (hs : s.Sound) (hms : ∀ l ∈ ms, (l.map Prod.fst).Nodup) :
    Follows (Table.ofMaps ms) (ofMaps ms) s := by
  unfold Table.ofMaps ofMaps
  have hd : s.Has (emptySet : Diagram K V) := has_emptySet
  generalize (emptySet : Diagram K V) = d at hd
  induction ms generalizing d s with
  | nil => exact follows_pure d
  | cons l ms ih =>
    have hl := hms l List.mem_cons_self
    rw [List.foldlM_cons, List.foldlM_cons]
    refine Follows.bind ?_ fun e s' hrun => ?_
    · refine (follows_singleton hs hl).bind fun c s' hrun => ?_
      obtain ⟨hg, hs', hc, -⟩ := (ensures_singleton hs hl).of_run hrun
      exact follows_union hs' (hd.mono hg) hc
    · have hstep : Ensures (do union d (← singleton l)) s fun e s' => s'.Has e :=
        (ensures_singleton hs hl).bind fun c s' hg hs' hc =>
          (ensures_union hs' (hd.mono hg) hc.1).imp fun _ _ _ _ h => h.1
      obtain ⟨-, hs', he⟩ := hstep.of_run hrun
      exact ih hs' (fun l hl => hms l (List.mem_cons_of_mem _ hl)) e he

private theorem follows_joinMerged {go' : Diagram K V → Diagram K V → TableM K V (Diagram K V)}
    {go : Diagram K V → Diagram K V → StoreM K V (Diagram K V)} {q r : Diagram K V} {e : Merged (Diagram K V)}
    (hs : s.Sound) (hgo : ∀ x y s', s.Grows s' → s'.Sound → JoinCall q r e x y →
      Follows (go' x y) (go x y) s' ∧ Ensures (go x y) s' (JoinOf x y)) :
    Follows (Table.joinMerged go' q r e) (joinMerged go q r e) s := by
  cases e with
  | left x => exact (hgo x r s (.refl s) hs ⟨rfl, rfl⟩).1
  | right y => exact (hgo q y s (.refl s) hs ⟨rfl, rfl⟩).1
  | both x y =>
    unfold Table.joinMerged joinMerged
    obtain ⟨hf₁, he₁⟩ := hgo x y s (.refl s) hs (.inl ⟨rfl, rfl⟩)
    refine hf₁.bind fun both s₁ hrun => ?_
    obtain ⟨hg₁, hs₁, hboth, -⟩ := he₁.of_run hrun
    obtain ⟨hf₂, he₂⟩ := hgo x r s₁ hg₁ hs₁ (.inr (.inl ⟨rfl, rfl⟩))
    refine hf₂.bind fun xr s₂ hrun => ?_
    obtain ⟨hg₂, hs₂, hxr, -⟩ := he₂.of_run hrun
    refine (follows_union hs₂ (hboth.mono hg₂) hxr).bind fun left s₃ hrun => ?_
    obtain ⟨hg₃, hs₃, hleft, -⟩ := (ensures_union hs₂ (hboth.mono hg₂) hxr).of_run hrun
    obtain ⟨hf₄, he₄⟩ := hgo q y s₃ ((hg₁.trans hg₂).trans hg₃) hs₃ (.inr (.inr ⟨rfl, rfl⟩))
    refine hf₄.bind fun qy s₄ hrun => ?_
    obtain ⟨hg₄, hs₄, hqy, -⟩ := he₄.of_run hrun
    exact follows_union hs₄ (hleft.mono hg₄) hqy

private theorem follows_joinStep {go' : Diagram K V → Diagram K V → TableM K V (Diagram K V)}
    {go : Diagram K V → Diagram K V → StoreM K V (Diagram K V)} {i j : Nat} {k l : K} {t u : List (V × Diagram K V)}
    {q r : Diagram K V} (hs : s.Sound) (ha : s.Has (node i k t q)) (hb : s.Has (node j l u r))
    (hgo : ∀ x y s', s.Grows s' → s'.Sound → s'.Has x → s'.Has y → x.index + y.index < i + j →
      Follows (go' x y) (go x y) s' ∧ Ensures (go x y) s' (JoinOf x y)) :
    Follows (Table.joinStep go' (node i k t q) (node j l u r)) (joinStep go (node i k t q) (node j l u r)) s := by
  have hstep := ensures_joinStep hs ha hb fun x y s' hg hs' hx hy hlt => (hgo x y s' hg hs' hx hy hlt).2
  have hsound := hstep.2.1
  have hfa := hs.fits_of_has ha
  have hfb := hs.fits_of_has hb
  have hqi := hfa.skip_lt
  have hrj := hfb.skip_lt
  unfold Table.joinStep
  refine follows_read ha (follows_read hb ?_)
  unfold joinStep at hsound ⊢
  cases hkl : compare k l with
  | lt =>
    simp only [hkl] at hsound ⊢
    refine follows_joinBranches q (node j l u r) hs (fun c hc s' hg hs' => ?_) (fun s' hg hs' => ?_) hsound
    · have hci := hfa.branch_lt c hc
      exact hgo _ _ s' hg hs' ((hfa.branch_has c hc).mono hg) (hb.mono hg) (by simp only [index_node]; omega)
    · exact hgo _ _ s' hg hs' (hfa.skip_has.mono hg) (hb.mono hg) (by simp only [index_node]; omega)
  | gt =>
    simp only [hkl] at hsound ⊢
    refine follows_joinBranches r (node i k t q) hs (fun c hc s' hg hs' => ?_) (fun s' hg hs' => ?_) hsound
    · have hcj := hfb.branch_lt c hc
      exact hgo _ _ s' hg hs' ((hfb.branch_has c hc).mono hg) (ha.mono hg) (by simp only [index_node]; omega)
    · exact hgo _ _ s' hg hs' (hfb.skip_has.mono hg) (ha.mono hg) (by simp only [index_node]; omega)
  | eq =>
    simp only [hkl] at hsound ⊢
    have htake : ∀ c ∈ merge t u, ∀ s', s.Grows s' → s'.Sound →
        Follows (do return (c.1, ← Table.joinMerged go' q r c.2)) (do return (c.1, ← joinMerged go q r c.2)) s' ∧
        Ensures (do return (c.1, ← joinMerged go q r c.2)) s' fun (d : V × Diagram K V) s'' => s''.Has d.2 := by
      intro c hc s' hg hs'
      have hgo' := joinMerged_calls hfa hfb hc hgo
      refine ⟨?_, ?_⟩
      · exact (follows_joinMerged hs' fun x y s'' hg' hs'' hxy => hgo' x y s'' (hg.trans hg') hs'' hxy).bind
          fun _ _ _ => follows_pure _
      · exact (ensures_joinMerged hs' fun x y s'' hg' hs'' hxy => (hgo' x y s'' (hg.trans hg') hs'' hxy).2).bind
          fun d s'' _ hs'' hd => .pure hs'' hd.1
    refine follows_mkNode_branches (P := JoinOf q r) hs htake (fun s' hg hs' => ?_) (fun _ _ h => h.1) hsound
    exact hgo q r s' hg hs' (hfa.skip_has.mono hg) (hfb.skip_has.mono hg) (by omega)

theorem follows_joinBelow (n : Nat) {a b : Diagram K V} (hs : s.Sound) (ha : s.Has a) (hb : s.Has b)
    (hn : a.index + b.index < n) : Follows (Table.joinBelow n a b) (joinBelow n a b) s := by
  induction n generalizing a b s with
  | zero => omega
  | succ n ih =>
    have hgo : ∀ x y s', s'.Sound → s'.Has x → s'.Has y → x.index + y.index < n →
        Follows (Table.joinBelow n x y) (joinBelow n x y) s' ∧ Ensures (joinBelow n x y) s' (JoinOf x y) :=
      fun x y s' hs' hx hy hlt => ⟨ih hs' hx hy hlt, ensures_joinBelow n hs' hx hy hlt⟩
    unfold Table.joinBelow
    match a, b with
    | .emptySet, b => exact follows_pure emptySet
    | .emptyMap, .emptySet => exact follows_pure emptySet
    | .node i k t q, .emptySet =>
      rw [if_pos (by simp [isEmptySet_iff])]
      exact follows_pure emptySet
    | .emptyMap, .emptyMap => exact follows_pure emptyMap
    | .emptyMap, .node j l u r =>
      have hj := two_le_of_has hb
      rw [if_neg (by simp [isEmptySet_iff]; omega), if_pos index_emptyMap]
      exact follows_pure _
    | .node i k t q, .emptyMap =>
      have hi := two_le_of_has ha
      rw [if_neg (by simp [isEmptySet_iff]; omega), if_neg (by simp; omega), if_pos index_emptyMap]
      exact follows_pure _
    | .node i k t q, .node j l u r =>
      have hi := two_le_of_has ha
      have hj := two_le_of_has hb
      rw [if_neg (by simp [isEmptySet_iff]; omega), if_neg (by simp; omega), if_neg (by simp; omega)]
      simp only [index_node] at hn
      refine follows_memoized hs fun x y hxy s' hg hs' => ?_
      rcases hxy with ⟨rfl, rfl⟩ | ⟨rfl, rfl⟩
      · exact follows_joinStep hs' (ha.mono hg) (hb.mono hg)
          fun x y s'' _ hs'' hx hy hlt => hgo x y s'' hs'' hx hy (by omega)
      · exact follows_joinStep hs' (hb.mono hg) (ha.mono hg)
          fun x y s'' _ hs'' hx hy hlt => hgo x y s'' hs'' hx hy (by omega)

theorem follows_join {a b : Diagram K V} (hs : s.Sound) (ha : s.Has a) (hb : s.Has b) :
    Follows (Table.join a b) (join a b) s :=
  follows_joinBelow _ hs ha hb (Nat.lt_succ_self _)

end Diagram

end TokenNet
