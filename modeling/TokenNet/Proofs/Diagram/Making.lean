import Mathlib.Data.List.Forall2
import TokenNet.Proofs.Diagram.Sound

/-!
# Making nodes and remembering results

`Ensures x s P` says of the computation `x`, started in `s`, that it leaves a sound store which still has the diagrams of
`s`, and that its result satisfies `P` there.  `ensures_mkNode` says what a new node denotes, `ensures_memoized` that
remembering results does not change what an operation yields.
-/

namespace TokenNet

variable {K V : Type}

/-! ### Ordered arguments and tidy branches -/

namespace Diagram

theorem ordered_cases (a b : Diagram K V) :
    ordered a b = (a, b) ∧ a.index ≤ b.index ∨ ordered a b = (b, a) ∧ b.index ≤ a.index := by
  unfold ordered
  split
  · exact .inl ⟨rfl, by omega⟩
  · exact .inr ⟨rfl, by omega⟩

variable [Ord V] {take : List (V × Diagram K V)}

theorem mem_tidy_iff {b : V × Diagram K V} : b ∈ tidy take ↔ b ∈ take ∧ b.2.index ≠ 0 := by
  simp [tidy, mem_sortOn, isEmptySet]

theorem tidy_eq_filter (h : take.Pairwise fun a b => compare a.1 b.1 = .lt) :
    tidy take = take.filter fun b => !b.2.isEmptySet :=
  sortOn_eq_self ((h.filter _).imp fun h => by simp [h])

theorem sorted_tidy [Std.TransOrd V] [Std.LawfulEqOrd V] (h : ((take.filter fun b => !b.2.isEmptySet).map Prod.fst).Nodup) :
    (tidy take).Pairwise fun a b => compare a.1 b.1 = .lt := by
  have hne : (tidy take).Pairwise fun a b => a.1 ≠ b.1 :=
    (sortOn_perm Prod.fst _).symm.pairwise (List.pairwise_map.1 h) fun h => Ne.symm h
  refine ((pairwise_sortOn Prod.fst _).and hne).imp fun {a b} hab => ?_
  cases hc : compare a.1 b.1 with
  | lt => rfl
  | eq => exact absurd (Std.LawfulEqCmp.eq_of_compare hc) hab.2
  | gt => simp [hc] at hab

end Diagram

variable [Ord K] [Ord V]

/-! ### Remembered results and new nodes -/

namespace Store

variable {s : Store K V}

theorem result?_remember (s : Store K V) (op op' : Operation) (p q : Nat × Nat) (d : Diagram K V) :
    (s.remember op p d).result? op' q = if op = op' ∧ p = q then some d else s.result? op' q := by
  cases op <;> cases op' <;> simp [remember, result?, Std.TreeMap.getElem?_insert]

theorem remember_nodes (s : Store K V) (op : Operation) (p : Nat × Nat) (d : Diagram K V) :
    (s.remember op p d).nodes = s.nodes := by cases op <;> rfl

/-- What a node can be made of: the branches that lead to some map have distinct values, and all diagrams are those of
the store and lie above the key. -/
structure Accepts (s : Store K V) (k : K) (take : List (V × Diagram K V)) (skip : Diagram K V) : Prop where
  distinct : ((take.filter fun b => !b.2.isEmptySet).map Prod.fst).Nodup
  branch_has : ∀ b ∈ take, s.Has b.2
  branch_above : ∀ b ∈ take, b.2.IsAbove k
  skip_has : s.Has skip
  skip_above : skip.IsAbove k

theorem Has.index_lt {d : Diagram K V} (hd : s.Has d) : d.index < s.nodes.size + 2 := by
  cases d with
  | emptySet => simp
  | emptyMap => simp
  | node i k take skip =>
    have hi := two_le_of_has hd
    obtain ⟨j, rfl⟩ : ∃ j, i = j + 2 := ⟨i - 2, by omega⟩
    have hj : s.nodes[j]? = some (.node (j + 2) k take skip) := hd
    have := (Array.getElem?_eq_some_iff.1 hj).1
    simp
    omega

/-- The store with one more node. -/
def push (s : Store K V) (k : K) (take : List (V × Diagram K V)) (skip : Diagram K V) : Store K V :=
  let d := Diagram.node (s.nodes.size + 2) k take skip
  { s with nodes := s.nodes.push d, unique := s.unique.insert (Diagram.shape k take skip) d }

variable {k : K} {take : List (V × Diagram K V)} {skip : Diagram K V}

theorem grows_push : s.Grows (s.push k take skip) := by
  intro i d h
  match i, h with
  | 0, h => exact h
  | 1, h => exact h
  | i + 2, h =>
    have hi : s.nodes[i]? = some d := h
    change (s.nodes.push _)[i]? = some d
    rw [Array.getElem?_push_lt (Array.getElem?_eq_some_iff.1 hi).1, ← Array.getElem?_eq_getElem]
    exact hi

theorem push_has_node : (s.push k take skip).Has (.node (s.nodes.size + 2) k take skip) := by
  change (s.nodes.push _)[s.nodes.size]? = _
  simp

theorem push_diagram? {i : Nat} {d : Diagram K V} (h : (s.push k take skip).diagram? i = some d) :
    s.diagram? i = some d ∨ i = s.nodes.size + 2 ∧ d = .node (s.nodes.size + 2) k take skip := by
  match i, h with
  | 0, h => exact .inl h
  | 1, h => exact .inl h
  | i + 2, h =>
    change (s.nodes.push _)[i]? = some d at h
    rw [Array.getElem?_push] at h
    split at h
    · rename_i hi
      exact .inr ⟨by omega, (Option.some.inj h).symm⟩
    · exact .inl h

theorem shape_injective {k k' : K} {t t' : List (V × Diagram K V)} {r r' : Diagram K V} (ht : ∀ b ∈ t, s.Has b.2)
    (ht' : ∀ b ∈ t', s.Has b.2) (hr : s.Has r) (hr' : s.Has r')
    (h : Diagram.shape k t r = Diagram.shape k' t' r') : k = k' ∧ t = t' ∧ r = r' := by
  simp only [Diagram.shape, Prod.mk.injEq] at h
  obtain ⟨hskip, hindex, hvalue, hkey⟩ := h
  refine ⟨hkey, ?_, hr.eq_of_index hr' hskip⟩
  induction t generalizing t' with
  | nil => simpa using hvalue
  | cons b t ih =>
    cases t' with
    | nil => simp at hvalue
    | cons b' t' =>
      simp only [List.map_cons, List.cons.injEq] at hindex hvalue
      have hb := (ht b List.mem_cons_self).eq_of_index (ht' b' List.mem_cons_self) hindex.1
      have hbb : b = b' := Prod.ext hvalue.1 hb
      rw [hbb, ih (fun c hc => ht c (List.mem_cons_of_mem b hc)) (fun c hc => ht' c (List.mem_cons_of_mem b' hc))
        hindex.2 hvalue.2]

end Store

namespace Diagram

theorem run_mkNode (k : K) (take : List (V × Diagram K V)) (skip : Diagram K V) (s : Store K V) :
    (mkNode k take skip).run s = if (tidy take).isEmpty then (skip, s) else
      match s.unique[shape k (tidy take) skip]? with
      | some d => (d, s)
      | none => (node (s.nodes.size + 2) k (tidy take) skip, s.push k (tidy take) skip) := by
  unfold mkNode
  by_cases ht : (tidy take).isEmpty
  · simp only [if_pos ht]
    rfl
  · simp only [if_neg ht]
    change (match s.unique[shape k (tidy take) skip]? with
      | some d => (pure d : StoreM K V (Diagram K V))
      | none => _).run s = _
    cases s.unique[shape k (tidy take) skip]? <;> rfl

end Diagram

variable [Std.TransOrd K]

/-! ### What a computation ensures -/

def Ensures {α : Type} (x : StoreM K V α) (s : Store K V) (P : α → Store K V → Prop) : Prop :=
  s.Grows (x.run s).2 ∧ (x.run s).2.Sound ∧ P (x.run s).1 (x.run s).2

section Ensures

variable {α β : Type} {x : StoreM K V α} {f : α → StoreM K V β} {s : Store K V} {P : α → Store K V → Prop}
  {Q : β → Store K V → Prop}

theorem Ensures.pure {a : α} (hs : s.Sound) (h : P a s) : Ensures (pure a) s P := ⟨.refl s, hs, h⟩

theorem Ensures.bind (hx : Ensures x s P) (hf : ∀ a s', s.Grows s' → s'.Sound → P a s' → Ensures (f a) s' Q) :
    Ensures (x >>= f) s Q := by
  obtain ⟨hgrow, hsound, hp⟩ := hx
  obtain ⟨hgrow', hsound', hq⟩ := hf _ _ hgrow hsound hp
  exact ⟨hgrow.trans hgrow', hsound', hq⟩

theorem Ensures.imp {P' : α → Store K V → Prop} (hx : Ensures x s P)
    (h : ∀ a s', s.Grows s' → s'.Sound → P a s' → P' a s') : Ensures x s P' :=
  ⟨hx.1, hx.2.1, h _ _ hx.1 hx.2.1 hx.2.2⟩

/-- The results of a computation for each element of a list. -/
theorem ensures_mapM {R : α → β → Store K V → Prop} (hR : ∀ a b s s', s.Grows s' → R a b s → R a b s') {l : List α}
    (hs : s.Sound) (hf : ∀ a ∈ l, ∀ s', s.Grows s' → s'.Sound → Ensures (f a) s' (R a)) :
    Ensures (l.mapM f) s fun r s' => List.Forall₂ (fun a b => R a b s') l r := by
  induction l generalizing s with
  | nil =>
    rw [List.mapM_nil]
    exact .pure hs .nil
  | cons a l ih =>
    rw [List.mapM_cons]
    refine (hf a List.mem_cons_self s (.refl s) hs).bind fun b s' hg hs' hb => ?_
    refine (ih hs' fun a' ha' s'' hg' hs'' => hf a' (List.mem_cons_of_mem a ha') s'' (hg.trans hg') hs'').bind ?_
    intro r s'' hg' hs'' hr
    exact .pure hs'' (.cons (hR a b s' s'' hg' hb) hr)

/-- A fold ensures of the whole list what each step ensures of the elements so far. -/
theorem ensures_foldlM {γ : Type} {g : β → γ → StoreM K V β} {I : List γ → β → Store K V → Prop} {b : β} (l : List γ)
    (hs : s.Sound) (hb : I [] b s)
    (hg : ∀ l c b s', s'.Sound → I l b s' → Ensures (g b c) s' (I (l ++ [c]))) : Ensures (l.foldlM g b) s (I l) := by
  have hfrom : ∀ (rest done : List γ) (b : β) (s : Store K V), s.Sound → I done b s →
      Ensures (rest.foldlM g b) s (I (done ++ rest)) := by
    intro rest
    induction rest with
    | nil =>
      intro done b s hs hb
      rw [List.append_nil]
      exact .pure hs hb
    | cons c rest ih =>
      intro done b s hs hb
      rw [List.foldlM_cons]
      refine (hg done c b s hs hb).bind fun b' s' _ hs' hb' => ?_
      have hind := ih (done ++ [c]) b' s' hs' hb'
      rwa [List.append_assoc] at hind
  exact hfrom l [] b s hs hb

theorem ensures_get (hs : s.Sound) : Ensures (get : StoreM K V (Store K V)) s fun t s' => t = s ∧ s' = s :=
  ⟨.refl s, hs, rfl, rfl⟩

theorem ensures_modify {g : Store K V → Store K V} (hg : s.Grows (g s)) (hs : (g s).Sound) :
    Ensures (modify g : StoreM K V Unit) s fun _ s' => s' = g s :=
  ⟨hg, hs, rfl⟩

end Ensures

/-! ### Changing what a store remembers -/

namespace Store

variable {s s' : Store K V}

/-- A store with the nodes of a sound store is sound if it remembers only right results. -/
theorem Sound.of_nodes_eq (hs : s.Sound) (hn : s'.nodes = s.nodes) (hu : s'.unique = s.unique)
    (hr : ∀ op p d, s'.result? op p = some d → s.Has d ∧ p.1 ≤ p.2 ∧
      ∃ a b, s.diagram? p.1 = some a ∧ s.diagram? p.2 = some b ∧ ∀ m, m ∈ d ↔ op.Yields a b m)
    (hc : ∀ i n, s'.counts[i]? = some n → ∃ d, s.diagram? i = some d ∧ toWord d.maps.length = n) : s'.Sound where
  fits i d h := by
    rw [hn] at h
    obtain ⟨k, take, skip, hd, hf⟩ := hs.fits i d h
    exact ⟨k, take, skip, hd, hf.mono (grows_of_nodes_eq hn)⟩
  unique_iff p d := by
    rw [hu, has_congr hn]
    exact hs.unique_iff p d
  results op p d h := by
    rw [has_congr hn, diagram?_congr hn]
    exact hr op p d h
  counts i n h := by
    rw [diagram?_congr hn]
    exact hc i n h

theorem Sound.hit (hs : s.Sound) : s.hit.Sound := hs.of_nodes_eq rfl rfl hs.results hs.counts

theorem Sound.miss (hs : s.Sound) : s.miss.Sound := hs.of_nodes_eq rfl rfl hs.results hs.counts

theorem Sound.clearCaches (hs : s.Sound) : s.clearCaches.Sound := by
  refine hs.of_nodes_eq rfl rfl (fun op p d h => ?_) fun i n h => ?_
  · cases op <;> simp [Store.clearCaches, result?] at h
  · simp [Store.clearCaches] at h

theorem Sound.remember (hs : s.Sound) (op : Operation) {a b d : Diagram K V} (ha : s.Has a) (hb : s.Has b)
    (hd : s.Has d) (hab : a.index ≤ b.index) (h : ∀ m, m ∈ d ↔ op.Yields a b m) :
    (s.remember op (a.index, b.index) d).Sound := by
  refine hs.of_nodes_eq (remember_nodes s op _ d) (by cases op <;> rfl) (fun op' p d' h' => ?_) ?_
  · rw [result?_remember] at h'
    split at h'
    · rename_i hop
      obtain ⟨rfl, rfl⟩ := hop
      cases h'
      exact ⟨hd, hab, a, b, ha, hb, h⟩
    · exact hs.results op' p d' h'
  · cases op <;> exact hs.counts

/-! ### Adding a node -/

variable {k : K} {take : List (V × Diagram K V)} {skip : Diagram K V}

variable [Std.LawfulEqOrd K] [Std.TransOrd V] [Std.LawfulEqOrd V]

/-- The new node comes to the nodes that are found by their parts. -/
private theorem push_unique_iff (hs : s.Sound) (hnew : s.unique[Diagram.shape k take skip]? = none) {p : Shape K V}
    {d : Diagram K V} : (s.push k take skip).unique[p]? = some d ↔ (s.push k take skip).Has d ∧ d.shape? = some p := by
  change (s.unique.insert _ _)[p]? = some d ↔ _
  rw [Std.TreeMap.getElem?_insert]
  split
  · rename_i hp
    rw [Std.LawfulEqCmp.compare_eq_iff_eq] at hp
    constructor
    · rintro ⟨⟩
      exact ⟨push_has_node, congrArg some hp⟩
    · rintro ⟨hd, hshape⟩
      rcases push_diagram? hd with hd | ⟨-, rfl⟩
      · have := (hs.unique_iff p d).2 ⟨hd, hshape⟩
        rw [← hp, hnew] at this
        cases this
      · rfl
  · rename_i hp
    rw [Std.LawfulEqCmp.compare_eq_iff_eq] at hp
    rw [hs.unique_iff]
    constructor
    · exact fun ⟨hd, hshape⟩ => ⟨hd.mono grows_push, hshape⟩
    · rintro ⟨hd, hshape⟩
      rcases push_diagram? hd with hd | ⟨-, rfl⟩
      · exact ⟨hd, hshape⟩
      · exact absurd (Option.some.inj hshape) hp

theorem Sound.push (hs : s.Sound) (hf : s.Fits (s.nodes.size + 2) k take skip)
    (hnew : s.unique[Diagram.shape k take skip]? = none) : (s.push k take skip).Sound where
  fits i d h := by
    change (s.nodes.push _)[i]? = some d at h
    rw [Array.getElem?_push] at h
    split at h
    · rename_i hi
      cases h
      exact ⟨k, take, skip, by rw [hi], hi ▸ hf.mono grows_push⟩
    · obtain ⟨k', take', skip', rfl, hf'⟩ := hs.fits i d h
      exact ⟨k', take', skip', rfl, hf'.mono grows_push⟩
  unique_iff _ _ := push_unique_iff hs hnew
  results op p d h := by
    have h' : s.result? op p = some d := by
      cases op <;> exact h
    obtain ⟨hd, hle, a, b, ha, hb, hm⟩ := hs.results op p d h'
    exact ⟨hd.mono grows_push, hle, a, b, grows_push _ _ ha, grows_push _ _ hb, hm⟩
  counts i n h := by
    obtain ⟨d, hd, hlen⟩ := hs.counts i n h
    exact ⟨d, grows_push _ _ hd, hlen⟩

end Store

/-! ### The parts of a node -/

namespace Diagram

open Store

variable {s : Store K V} {k : K} {take : List (V × Diagram K V)} {skip : Diagram K V}

/-- Branches that lead to no map add nothing to a node. -/
theorem inBranches_tidy_iff (hs : s.Sound) (h : ∀ b ∈ take, s.Has b.2) {m : FinMap K V} :
    InBranches k (tidy take) m ↔ InBranches k take m := by
  constructor
  · rintro ⟨v, c, n, hc, hn, rfl⟩
    exact ⟨v, c, n, (mem_tidy_iff.1 hc).1, hn, rfl⟩
  · rintro ⟨v, c, n, hc, hn, rfl⟩
    refine ⟨v, c, n, mem_tidy_iff.2 ⟨hc, fun h0 => ?_⟩, hn, rfl⟩
    exact (hs.normal (h _ hc)).not_mem_of_index_eq_zero h0 n hn

/-- A node that the store has under the shape of given parts consists of them. -/
theorem Sound.eq_node_of_unique (hs : s.Sound) (htake : ∀ b ∈ take, s.Has b.2) (hskip : s.Has skip) {d : Diagram K V}
    (h : s.unique[shape k take skip]? = some d) : s.Has d ∧ ∃ i, d = node i k take skip := by
  obtain ⟨hd, hshape⟩ := (hs.unique_iff _ _).1 h
  refine ⟨hd, ?_⟩
  cases d with
  | node i k' take' skip' =>
    have hf := hs.fits_of_has hd
    obtain ⟨rfl, rfl, rfl⟩ := Store.shape_injective hf.branch_has htake hf.skip_has hskip (Option.some.inj hshape)
    exact ⟨i, rfl⟩
  | _ => cases hshape

variable [Std.LawfulEqOrd K]

/-! ### Remembering results -/

/-- An operation on two diagrams yields the same whether its results are remembered or not. -/
theorem ensures_memoized (op : Operation) {f : Diagram K V → Diagram K V → StoreM K V (Diagram K V)} {a b : Diagram K V}
    (hs : s.Sound) (ha : s.Has a) (hb : s.Has b)
    (hf : ∀ x y, (x = a ∧ y = b ∨ x = b ∧ y = a) → ∀ s', s.Grows s' → s'.Sound →
      Ensures (f x y) s' fun d s'' => s''.Has d ∧ ∀ m, m ∈ d ↔ op.Yields x y m) :
    Ensures (memoized op f a b) s fun d s' => s'.Has d ∧ ∀ m, m ∈ d ↔ op.Yields a b m := by
  obtain ⟨x, y, hxy, hle, hcase⟩ : ∃ x y, ordered a b = (x, y) ∧ x.index ≤ y.index ∧
      (x = a ∧ y = b ∨ x = b ∧ y = a) := by
    rcases ordered_cases a b with ⟨h, hle⟩ | ⟨h, hle⟩
    · exact ⟨a, b, h, hle, .inl ⟨rfl, rfl⟩⟩
    · exact ⟨b, a, h, hle, .inr ⟨rfl, rfl⟩⟩
  have hyields : ∀ m, op.Yields x y m ↔ op.Yields a b m := by
    rcases hcase with ⟨rfl, rfl⟩ | ⟨rfl, rfl⟩
    · exact fun m => Iff.rfl
    · exact fun m => op.yields_comm
  have hx : s.Has x := by rcases hcase with ⟨rfl, -⟩ | ⟨rfl, -⟩ <;> assumption
  have hy : s.Has y := by rcases hcase with ⟨-, rfl⟩ | ⟨-, rfl⟩ <;> assumption
  unfold memoized
  rw [hxy]
  refine (ensures_get hs).bind ?_
  rintro t s' - - ⟨rfl, rfl⟩
  split
  · rename_i d hd
    obtain ⟨hd, -, a', b', ha', hb', hm⟩ := hs.results op _ d hd
    refine (ensures_modify (grows_of_nodes_eq rfl) hs.hit).bind ?_
    rintro - s' - - rfl
    obtain rfl : x = a' := Option.some.inj (hx.symm.trans ha')
    obtain rfl : y = b' := Option.some.inj (hy.symm.trans hb')
    exact .pure hs.hit ⟨hd, fun m => (hm m).trans (hyields m)⟩
  · refine (ensures_modify (grows_of_nodes_eq rfl) hs.miss).bind ?_
    rintro - s' hg hs' rfl
    refine (hf x y hcase _ hg hs').bind fun d s'' hg' hs'' ⟨hd, hm⟩ => ?_
    have hr := hs''.remember op ((hx.mono hg).mono hg') ((hy.mono hg).mono hg') hd hle hm
    refine (ensures_modify (grows_of_nodes_eq (remember_nodes _ op _ d)) hr).bind ?_
    rintro - s' - - rfl
    exact .pure hr ⟨hd.mono (grows_of_nodes_eq (remember_nodes _ op _ d)), fun m => (hm m).trans (hyields m)⟩

/-! ### Making nodes -/

variable [Std.TransOrd V] [Std.LawfulEqOrd V]

/-- The new node consists of the tidy branches; without branches it is the skip diagram. -/
theorem ensures_mkNode (hs : s.Sound) (h : s.Accepts k take skip) :
    Ensures (mkNode k take skip) s fun d s' =>
      s'.Has d ∧ (tidy take = [] ∧ d = skip ∨ ∃ i, d = node i k (tidy take) skip) := by
  have htidy : ∀ b ∈ tidy take, s.Has b.2 := fun b hb => h.branch_has b (mem_tidy_iff.1 hb).1
  unfold Ensures
  rw [run_mkNode]
  split
  · rename_i ht
    exact ⟨.refl s, hs, h.skip_has, .inl ⟨List.isEmpty_iff.1 ht, rfl⟩⟩
  · rename_i ht
    cases hu : s.unique[shape k (tidy take) skip]? with
    | some d =>
      obtain ⟨hd, i, rfl⟩ := Sound.eq_node_of_unique hs htidy h.skip_has hu
      exact ⟨.refl s, hs, hd, .inr ⟨i, rfl⟩⟩
    | none =>
      have hf : s.Fits (s.nodes.size + 2) k (tidy take) skip :=
        { take_ne_nil := fun heq => ht (List.isEmpty_iff.2 heq)
          sorted := sorted_tidy h.distinct
          branch_ne := fun b hb => (mem_tidy_iff.1 hb).2
          branch_above := fun b hb => h.branch_above b (mem_tidy_iff.1 hb).1
          branch_has := htidy
          branch_lt := fun b hb => (htidy b hb).index_lt
          skip_above := h.skip_above
          skip_has := h.skip_has
          skip_lt := h.skip_has.index_lt }
      exact ⟨Store.grows_push, hs.push hf hu, Store.push_has_node, .inr ⟨_, rfl⟩⟩

/-- The new node denotes the maps of its branches and those of the skip diagram. -/
theorem ensures_mkNode_mem (hs : s.Sound) (h : s.Accepts k take skip) :
    Ensures (mkNode k take skip) s fun d s' => s'.Has d ∧ ∀ m, m ∈ d ↔ InBranches k take m ∨ m ∈ skip := by
  refine (ensures_mkNode hs h).imp fun d s' _ _ ⟨hd, hparts⟩ => ⟨hd, fun m => ?_⟩
  rw [← inBranches_tidy_iff hs h.branch_has]
  rcases hparts with ⟨ht, rfl⟩ | ⟨i, rfl⟩
  · simp [ht, InBranches]
  · exact mem_node_iff

end Diagram

end TokenNet
