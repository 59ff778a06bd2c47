import TokenNet.Proofs.Diagram.Join
import TokenNet.Proofs.Results

/-!
# What a step of an operation consists of

A step of the union or of the join makes at most one node, of what the operation gives on pairs of diagrams further
below: `unionStep_cases`, `joinStep_cases`.  A pair is further below if its indices have a smaller sum, so a bound above
that sum is never used up, and any such bound gives the same computation: `unionBelow_eq_union`, `joinBelow_eq_join`.
The operations are then what their recursion says without a bound: `union_eq`, `join_eq_of_nodes`.
-/

namespace TokenNet.Diagram

open Store

variable {K V : Type}

theorem index_ordered (a b : Diagram K V) : (ordered a b).1.index + (ordered a b).2.index = a.index + b.index := by
  rcases ordered_cases a b with ⟨h, -⟩ | ⟨h, -⟩
  · rw [h]
  · rw [h]
    exact Nat.add_comm _ _

variable [Ord K] [Ord V]

/-- A node whose branches are computed one after another, and then its skip diagram. -/
def nodeOf {D : Type} (k : K) (l : List (V × D)) (f : V × D → StoreM K V (Diagram K V))
    (x : StoreM K V (Diagram K V)) : StoreM K V (Diagram K V) := do
  let take ← l.mapM fun c => do return (c.1, ← f c)
  mkNode k take (← x)

theorem nodeOf_congr {D : Type} {k : K} {l : List (V × D)} {f g : V × D → StoreM K V (Diagram K V)}
    {x y : StoreM K V (Diagram K V)} (hfg : ∀ c ∈ l, f c = g c) (hxy : x = y) : nodeOf k l f x = nodeOf k l g y := by
  have hmap : (l.mapM fun c => do return (c.1, ← f c)) = l.mapM fun c => do return (c.1, ← g c) :=
    mapM_congr fun c hc => by rw [hfg c hc]
  unfold nodeOf
  rw [hmap, hxy]

/-- What a merged branch of a union becomes. -/
def uniteMerged (go : Diagram K V → Diagram K V → StoreM K V (Diagram K V)) :
    Merged (Diagram K V) → StoreM K V (Diagram K V)
  | .left x => return x
  | .right y => return y
  | .both x y => go x y

/-- The second pair of diagrams is further below in the store than the first. -/
structure Descends (s : Store K V) (a b x y : Diagram K V) : Prop where
  left_has : s.Has x
  right_has : s.Has y
  lt : x.index + y.index < a.index + b.index

theorem Descends.swap {s : Store K V} {a b x y : Diagram K V} (h : Descends s a b x y) : Descends s a b y x :=
  ⟨h.right_has, h.left_has, by rw [Nat.add_comm]; exact h.lt⟩

theorem Descends.swap_above {s : Store K V} {a b x y : Diagram K V} (h : Descends s a b x y) : Descends s b a x y :=
  ⟨h.left_has, h.right_has, by rw [Nat.add_comm b.index]; exact h.lt⟩

private theorem joinMerged_congr {go go' : Diagram K V → Diagram K V → StoreM K V (Diagram K V)} {q r : Diagram K V}
    {e : Merged (Diagram K V)} (hgo : ∀ x y, JoinCall q r e x y → go x y = go' x y) :
    joinMerged go q r e = joinMerged go' q r e := by
  cases e with
  | left x => exact hgo x r ⟨rfl, rfl⟩
  | right y => exact hgo q y ⟨rfl, rfl⟩
  | both x y =>
    dsimp only [joinMerged]
    rw [hgo x y (.inl ⟨rfl, rfl⟩), hgo x r (.inr (.inl ⟨rfl, rfl⟩)), hgo q y (.inr (.inr ⟨rfl, rfl⟩))]

variable {s s' : Store K V} {a b : Diagram K V}

theorem has_ordered (ha : s.Has a) (hb : s.Has b) : s.Has (ordered a b).1 ∧ s.Has (ordered a b).2 := by
  rcases ordered_cases a b with ⟨h, -⟩ | ⟨h, -⟩
  · rw [h]
    exact ⟨ha, hb⟩
  · rw [h]
    exact ⟨hb, ha⟩

theorem memoized_congr {op : Operation} {f g : Diagram K V → Diagram K V → StoreM K V (Diagram K V)}
    (h : f (ordered a b).1 (ordered a b).2 = g (ordered a b).1 (ordered a b).2) :
    memoized op f a b = memoized op g a b := by
  unfold memoized
  rcases hxy : ordered a b with ⟨x, y⟩
  rw [hxy] at h
  dsimp only at h ⊢
  rw [h]

variable [Std.TransOrd K]

/-! ### The steps -/

/-- The parts of a node are further below. -/
private theorem descends_node {i : Nat} {k : K} {t : List (V × Diagram K V)} {q : Diagram K V} (hs : s.Sound)
    (ha : s.Has (node i k t q)) (hb : s.Has b) :
    Descends s (node i k t q) b q b ∧ ∀ e ∈ t, Descends s (node i k t q) b e.2 b := by
  have hf := hs.fits_of_has ha
  exact ⟨⟨hf.skip_has, hb, Nat.add_lt_add_right hf.skip_lt _⟩,
    fun e he => ⟨hf.branch_has e he, hb, Nat.add_lt_add_right (hf.branch_lt e he) _⟩⟩

variable [Std.TransOrd V] [Std.LawfulEqOrd V]

/-- A step of the union returns one of the diagrams, or makes a node whose branches or skip diagram are unions of
diagrams further below. -/
theorem unionStep_cases (hs : s.Sound) (ha : s.Has a) (hb : s.Has b) :
    (∀ go, unionStep go a b = pure a) ∨
    (∃ k t x y, Descends s a b x y ∧ ∀ go, unionStep go a b = (go x y >>= fun d => mkNode k t d)) ∨
    ∃ (k : K) (l : List (V × Merged (Diagram K V))) (q r : Diagram K V), Descends s a b q r ∧
      (∀ v x y, (v, .both x y) ∈ l → Descends s a b x y) ∧
      ∀ go, unionStep go a b = nodeOf k l (fun c => uniteMerged go c.2) (go q r) := by
  have hright : ∀ {j : Nat} {l : K} {u : List (V × Diagram K V)} {r : Diagram K V}, b = node j l u r →
      Descends s a b a r := by
    rintro j l u r rfl
    exact (descends_node hs hb ha).1.swap.swap_above
  cases a with
  | emptySet =>
    cases b with
    | emptySet => exact .inl fun _ => rfl
    | emptyMap => exact .inl fun _ => rfl
    | node j l u r => exact .inr (.inl ⟨l, u, _, r, hright rfl, fun _ => rfl⟩)
  | emptyMap =>
    cases b with
    | emptySet => exact .inl fun _ => rfl
    | emptyMap => exact .inl fun _ => rfl
    | node j l u r => exact .inr (.inl ⟨l, u, _, r, hright rfl, fun _ => rfl⟩)
  | node i k t q =>
    obtain ⟨hskip, -⟩ := descends_node hs ha hb
    cases b with
    | emptySet => exact .inr (.inl ⟨k, t, _, q, hskip.swap, fun _ => rfl⟩)
    | emptyMap => exact .inr (.inl ⟨k, t, _, q, hskip.swap, fun _ => rfl⟩)
    | node j l u r =>
      cases hkl : compare k l with
      | lt => exact .inr (.inl ⟨k, t, q, _, hskip, fun go => by simp only [unionStep, hkl]⟩)
      | gt => exact .inr (.inl ⟨l, u, _, r, hright rfl, fun go => by simp only [unionStep, hkl]⟩)
      | eq =>
        have hfa := hs.fits_of_has ha
        have hfb := hs.fits_of_has hb
        have hbelow : ∀ {x y : Diagram K V}, s.Has x → s.Has y → x.index < i → y.index < j →
            Descends s (node i k t q) (node j l u r) x y :=
          fun hx hy hxi hyj => ⟨hx, hy, Nat.add_lt_add hxi hyj⟩
        refine .inr (.inr ⟨k, merge t u, q, r, hbelow hfa.skip_has hfb.skip_has hfa.skip_lt hfb.skip_lt,
          fun v x y hxy => ?_, fun go => ?_⟩)
        · have hside := mem_of_mem_merge hfa.sorted hfb.sorted hxy
          exact hbelow (hfa.branch_has _ hside.1) (hfb.branch_has _ hside.2) (hfa.branch_lt _ hside.1)
            (hfb.branch_lt _ hside.2)
        · have hbranches : ∀ {f : V × Merged (Diagram K V) → StoreM K V (V × Diagram K V)},
              (∀ c, f c = do return (c.1, ← uniteMerged go c.2)) →
              (do mkNode k (← (merge t u).mapM f) (← go q r)) =
                nodeOf k (merge t u) (fun c => uniteMerged go c.2) (go q r) := by
            intro f hf
            rw [funext hf]
            rfl
          simp only [unionStep, hkl]
          refine hbranches fun c => ?_
          obtain ⟨v, m⟩ := c
          cases m <;> rfl

/-- A step of the join returns the empty set, or makes a node whose branches and skip diagram come from joins of
diagrams further below. -/
theorem joinStep_cases (hs : s.Sound) (ha : s.Has a) (hb : s.Has b) :
    (∀ go, joinStep go a b = pure .emptySet) ∨
    (∃ k l q c, (∀ e ∈ l, Descends s a b e.2 c) ∧ Descends s a b q c ∧
      ∀ go, joinStep go a b = nodeOf k l (fun e => go e.2 c) (go q c)) ∨
    ∃ (k : K) (l : List (V × Merged (Diagram K V))) (q r : Diagram K V), Descends s a b q r ∧
      (∀ e ∈ l, ∀ x y, JoinCall q r e.2 x y → Descends s a b x y) ∧
      ∀ go, joinStep go a b = nodeOf k l (fun e => joinMerged go q r e.2) (go q r) := by
  cases a with
  | emptySet => exact .inl fun _ => by cases b <;> rfl
  | emptyMap => exact .inl fun _ => by cases b <;> rfl
  | node i k t q =>
    cases b with
    | emptySet => exact .inl fun _ => rfl
    | emptyMap => exact .inl fun _ => rfl
    | node j l u r =>
      obtain ⟨hq, ht⟩ := descends_node hs ha hb
      obtain ⟨hr, hu⟩ := descends_node hs hb ha
      cases hkl : compare k l with
      | lt => exact .inr (.inl ⟨k, t, q, _, ht, hq, fun go => by simp only [joinStep, hkl, joinBranches, nodeOf]⟩)
      | gt =>
        exact .inr (.inl ⟨l, u, r, _, fun e he => (hu e he).swap_above, hr.swap_above, fun go => by
          simp only [joinStep, hkl, joinBranches, nodeOf]⟩)
      | eq =>
        have hfa := hs.fits_of_has ha
        have hfb := hs.fits_of_has hb
        refine .inr (.inr ⟨k, merge t u, q, r, ⟨hfa.skip_has, hfb.skip_has, Nat.add_lt_add hfa.skip_lt hfb.skip_lt⟩,
          fun e he x y hxy => ?_, fun go => ?_⟩)
        · exact joinMerged_calls (C := fun x y s' => Descends s' (node i k t q) (node j l u r) x y) hfa hfb he
            (fun x y s' _ _ hx hy hlt => ⟨hx, hy, hlt⟩) x y s (.refl s) hs hxy
        · simp only [joinStep, hkl, nodeOf]

/-! ### The bound of the recursion -/

private theorem unionStep_congr {go go' : Diagram K V → Diagram K V → StoreM K V (Diagram K V)} (hs : s.Sound)
    (ha : s.Has a) (hb : s.Has b) (hgo : ∀ x y, Descends s a b x y → go x y = go' x y) :
    unionStep go a b = unionStep go' a b := by
  rcases unionStep_cases hs ha hb with h | ⟨k, t, x, y, hxy, h⟩ | ⟨k, l, q, r, hqr, hl, h⟩
  · rw [h, h]
  · rw [h, h, hgo x y hxy]
  · rw [h, h]
    refine nodeOf_congr (fun c hc => ?_) (hgo q r hqr)
    obtain ⟨v, e⟩ := c
    cases e with
    | left x => rfl
    | right y => rfl
    | both x y => exact hgo x y (hl v x y hc)

private theorem joinStep_congr {go go' : Diagram K V → Diagram K V → StoreM K V (Diagram K V)} (hs : s.Sound)
    (ha : s.Has a) (hb : s.Has b) (hgo : ∀ x y, Descends s a b x y → go x y = go' x y) :
    joinStep go a b = joinStep go' a b := by
  rcases joinStep_cases hs ha hb with h | ⟨k, l, q, c, hl, hq, h⟩ | ⟨k, l, q, r, hqr, hl, h⟩
  · rw [h, h]
  · rw [h, h]
    exact nodeOf_congr (fun e he => hgo e.2 c (hl e he)) (hgo q c hq)
  · rw [h, h]
    exact nodeOf_congr (fun e he => joinMerged_congr fun x y hxy => hgo x y (hl e he x y hxy)) (hgo q r hqr)

theorem unionBelow_eq_union (hs : s.Sound) (ha : s.Has a) (hb : s.Has b) {n : Nat} (hn : a.index + b.index < n) :
    unionBelow n a b = union a b := by
  have hbounds : ∀ (n m : Nat) {a b : Diagram K V}, s.Has a → s.Has b → a.index + b.index < n →
      a.index + b.index < m → unionBelow n a b = unionBelow m a b := by
    intro n
    induction n with
    | zero => exact fun m a b _ _ hn => absurd hn (Nat.not_lt_zero _)
    | succ n ih =>
      intro m a b ha hb hn hm
      obtain ⟨m, rfl⟩ : ∃ m', m = m' + 1 := ⟨m - 1, by omega⟩
      obtain ⟨hx, hy⟩ := has_ordered ha hb
      have hsum := index_ordered a b
      have hstep : memoized .union (unionStep (unionBelow n)) a b = memoized .union (unionStep (unionBelow m)) a b := by
        refine memoized_congr (unionStep_congr hs hx hy fun x y hxy => ?_)
        have hlt := hxy.lt
        exact ih m hxy.left_has hxy.right_has (by omega) (by omega)
      unfold unionBelow
      rw [hstep]
  exact hbounds n _ ha hb hn (Nat.lt_succ_self _)

theorem joinBelow_eq_join (hs : s.Sound) (ha : s.Has a) (hb : s.Has b) {n : Nat} (hn : a.index + b.index < n) :
    joinBelow n a b = join a b := by
  have hbounds : ∀ (n m : Nat) {a b : Diagram K V}, s.Has a → s.Has b → a.index + b.index < n →
      a.index + b.index < m → joinBelow n a b = joinBelow m a b := by
    intro n
    induction n with
    | zero => exact fun m a b _ _ hn => absurd hn (Nat.not_lt_zero _)
    | succ n ih =>
      intro m a b ha hb hn hm
      obtain ⟨m, rfl⟩ : ∃ m', m = m' + 1 := ⟨m - 1, by omega⟩
      obtain ⟨hx, hy⟩ := has_ordered ha hb
      have hsum := index_ordered a b
      have hstep : memoized .join (joinStep (joinBelow n)) a b = memoized .join (joinStep (joinBelow m)) a b := by
        refine memoized_congr (joinStep_congr hs hx hy fun x y hxy => ?_)
        have hlt := hxy.lt
        exact ih m hxy.left_has hxy.right_has (by omega) (by omega)
      unfold joinBelow
      cases a with
      | emptySet => rfl
      | emptyMap => cases b <;> rfl
      | node i k t q =>
        cases b with
        | emptySet => rfl
        | emptyMap => rfl
        | node j l u r => exact hstep
  exact hbounds n _ ha hb hn (Nat.lt_succ_self _)

/-! ### The recursion without a bound -/

theorem union_eq (hs : s.Sound) (ha : s.Has a) (hb : s.Has b) :
    union a b = if a.index = b.index then pure a else if a.isEmptySet then pure b else if b.isEmptySet then pure a
      else memoized .union (unionStep union) a b := by
  obtain ⟨hx, hy⟩ := has_ordered ha hb
  have hsum := index_ordered a b
  have hstep : memoized .union (unionStep (unionBelow (a.index + b.index))) a b =
      memoized .union (unionStep union) a b := by
    refine memoized_congr (unionStep_congr hs hx hy fun x y hxy => ?_)
    have hlt := hxy.lt
    exact unionBelow_eq_union hs hxy.left_has hxy.right_has (by omega)
  rw [← hstep]
  rfl

theorem join_eq_of_nodes {i j : Nat} {k l : K} {t u : List (V × Diagram K V)} {q r : Diagram K V} (hs : s.Sound)
    (ha : s.Has (node i k t q)) (hb : s.Has (node j l u r)) :
    join (node i k t q) (node j l u r) = memoized .join (joinStep join) (node i k t q) (node j l u r) := by
  obtain ⟨hx, hy⟩ := has_ordered ha hb
  have hsum := index_ordered (node i k t q) (node j l u r)
  have hstep : memoized .join (joinStep (joinBelow (i + j))) (node i k t q) (node j l u r) =
      memoized .join (joinStep join) (node i k t q) (node j l u r) := by
    refine memoized_congr (joinStep_congr hs hx hy fun x y hxy => ?_)
    have hlt := hxy.lt
    simp only [index_node] at hsum
    exact joinBelow_eq_join hs hxy.left_has hxy.right_has (by omega)
  rw [← hstep]
  rfl

end TokenNet.Diagram
