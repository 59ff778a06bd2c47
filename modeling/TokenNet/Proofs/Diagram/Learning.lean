import Mathlib.Data.Prod.Lex
import Mathlib.Data.Set.Basic
import TokenNet.Proofs.Diagram.Filtering
import TokenNet.Proofs.Diagram.Forgetting
import TokenNet.Proofs.Diagram.Steps

/-!
# What computations learn

A store can be asked `Question`s: for the result of an operation on the diagrams at two indices, and for the number of
maps of the diagram at an index.  `Store.Learned A s s'` says that `s'` has the answers of `s`, and further ones to
questions in `A` only, one for each miss on the way.

To answer a question, only questions of a smaller rank are asked: a union asks for unions of diagrams further below, a
join for such joins and for unions, a count for counts of diagrams further below.  So no question is asked while it is
being answered, and its answer is still missing when it is to be remembered: `Learned.answered`.  With this, the
operations learn nothing above the rank of their question: `learns_union`, `learns_join`, `learns_count`.
-/

namespace TokenNet

/-! ### Questions -/

/-- What a store remembers answers to. -/
inductive Question where
  | operation (op : Operation) (i j : Nat)
  | count (i : Nat)

/-- Joins rank above unions, which they ask for, and the operations on later diagrams above those on earlier ones. -/
def Operation.rank (op : Operation) (n : Nat) : Nat ×ₗ Nat :=
  match op with
  | .union => toLex (0, n)
  | .join => toLex (1, n)

theorem Operation.rank_lt {op : Operation} {m n : Nat} (h : m < n) : op.rank m < op.rank n := by
  cases op <;> exact Prod.Lex.toLex_lt_toLex.2 (.inr ⟨rfl, h⟩)

theorem Operation.rank_union_lt (m n : Nat) : Operation.union.rank m < Operation.join.rank n :=
  Prod.Lex.toLex_lt_toLex.2 (.inl Nat.zero_lt_one)

def Question.rank : Question → Nat ×ₗ Nat
  | operation op i j => op.rank (i + j)
  | count i => toLex (0, i)

theorem Question.rank_count_lt {i j : Nat} (h : i < j) : (count i).rank < (count j).rank :=
  Prod.Lex.toLex_lt_toLex.2 (.inr ⟨rfl, h⟩)

variable {K V ε : Type} [Ord K] [Ord V]

/-- Whether the store remembers an answer. -/
def Store.Recalls (s : Store K V) : Question → Prop
  | .operation op i j => ∃ d, s.result? op (i, j) = some d
  | .count i => ∃ n, s.counts[i]? = some n

/-- The later store has the answers of the earlier one, and further ones to questions in `A` only, one for each miss. -/
structure Store.Learned (A : Set Question) (s s' : Store K V) : Prop where
  balance : s'.cached + s.misses = s.cached + s'.misses
  keeps : ∀ q, s.Recalls q → s'.Recalls q
  learned : ∀ q, s'.Recalls q → s.Recalls q ∨ q ∈ A

namespace Store

variable {s s' s'' : Store K V} {A B : Set Question}

theorem Learned.refl (A : Set Question) (s : Store K V) : s.Learned A s := ⟨rfl, fun _ h => h, fun _ h => .inl h⟩

theorem Learned.trans (h : s.Learned A s') (h' : s'.Learned A s'') : s.Learned A s'' where
  balance := by
    have h₁ := h.balance
    have h₂ := h'.balance
    omega
  keeps q hq := h'.keeps q (h.keeps q hq)
  learned q hq := (h'.learned q hq).elim (h.learned q) .inr

theorem Learned.mono (h : s.Learned A s') (hAB : A ⊆ B) : s.Learned B s' :=
  ⟨h.balance, h.keeps, fun q hq => (h.learned q hq).imp_right fun hA => hAB hA⟩

/-- A store that remembers the same after as many misses has learned nothing. -/
theorem learned_of_eq (hu : s'.unions = s.unions) (hj : s'.joins = s.joins) (hc : s'.counts = s.counts)
    (hm : s'.misses = s.misses) : s.Learned A s' := by
  have hrecalls : ∀ q, s'.Recalls q ↔ s.Recalls q := by
    intro q
    cases q with
    | operation op i j => cases op <;> simp only [Recalls, result?, hu, hj]
    | count i => simp only [Recalls, hc]
  refine ⟨?_, fun q => (hrecalls q).2, fun q hq => .inl ((hrecalls q).1 hq)⟩
  simp only [cached, hu, hj, hc, hm]

/-- A question outside `A` that has no answer stays without one. -/
theorem Learned.not_recalls (h : s.Learned A s') {q : Question} (hq : ¬ s.Recalls q) (hA : q ∉ A) : ¬ s'.Recalls q :=
  fun hq' => (h.learned q hq').elim hq hA

theorem recalls_miss (q : Question) : s.miss.Recalls q ↔ s.Recalls q := by
  cases q with
  | operation op i j => cases op <;> exact Iff.rfl
  | count i => exact Iff.rfl

/-- If after a miss only questions of a smaller rank are asked, the answer to `q` is one more. -/
theorem Learned.answered {q : Question} (hq : ¬ s.Recalls q) (h : s.miss.Learned {q' | q'.rank < q.rank} s')
    (hrecalls : ∀ q', s''.Recalls q' ↔ s'.Recalls q' ∨ q' = q) (hmisses : s''.misses = s'.misses)
    (hcached : ¬ s'.Recalls q → s''.cached = s'.cached + 1) : s.Learned {q' | q'.rank ≤ q.rank} s'' := by
  -- since the miss only questions below `q` have been asked, so its own answer is still missing
  have hcount := hcached (h.not_recalls (fun hq' => hq ((recalls_miss q).1 hq')) (lt_irrefl q.rank))
  constructor
  · have hbalance := h.balance
    simp only [miss, cached] at hbalance hcount ⊢
    omega
  · exact fun q' hq' => (hrecalls q').2 (.inl (h.keeps q' ((recalls_miss q').2 hq')))
  · intro q' hq'
    rcases (hrecalls q').1 hq' with hq' | rfl
    · rcases h.learned q' hq' with hq' | hlt
      · exact .inl ((recalls_miss q').1 hq')
      · have hle : q'.rank ≤ q.rank := le_of_lt hlt
        exact .inr hle
    · exact .inr (le_refl q'.rank)

theorem recalls_remember [Std.TransOrd K] (s : Store K V) (op : Operation) (i j : Nat) (d : Diagram K V)
    (q : Question) : (s.remember op (i, j) d).Recalls q ↔ s.Recalls q ∨ q = .operation op i j := by
  cases q with
  | operation op' i' j' =>
    simp only [Recalls, result?_remember, Question.operation.injEq, Prod.mk.injEq]
    by_cases h : op = op' ∧ i = i' ∧ j = j'
    · obtain ⟨rfl, rfl, rfl⟩ := h
      simp
    · rw [if_neg h]
      refine (or_iff_left fun h' => h ?_).symm
      exact ⟨h'.1.symm, h'.2.1.symm, h'.2.2.symm⟩
  | count i =>
    cases op <;> simp [Recalls, remember]

theorem misses_remember (s : Store K V) (op : Operation) (p : Nat × Nat) (d : Diagram K V) :
    (s.remember op p d).misses = s.misses := by cases op <;> rfl

private theorem size_insert_of_new {α β : Type} [Ord α] [Std.TransOrd α] {t : Std.TreeMap α β} {k : α}
    (h : ¬ ∃ v, t[k]? = some v) (v : β) : (t.insert k v).size = t.size + 1 := by
  rw [Std.TreeMap.size_insert, if_neg]
  rwa [← Std.TreeMap.isSome_getElem?_eq_contains, Option.isSome_iff_exists]

theorem cached_remember {op : Operation} {i j : Nat} (h : ¬ s.Recalls (.operation op i j)) (d : Diagram K V) :
    (s.remember op (i, j) d).cached = s.cached + 1 := by
  cases op with
  | union =>
    have hsize : (s.unions.insert (i, j) d).size = s.unions.size + 1 := size_insert_of_new h d
    simp only [remember, cached, hsize]
    omega
  | join =>
    have hsize : (s.joins.insert (i, j) d).size = s.joins.size + 1 := size_insert_of_new h d
    simp only [remember, cached, hsize]
    omega

end Store

/-! ### Computations -/

/-- What the computation learns when it is started in the store. -/
def Learns {α : Type} (x : StoreM K V α) (s : Store K V) (A : Set Question) : Prop := s.Learned A (x.run s).2

section Learns

variable {α β : Type} {s : Store K V} {A B : Set Question}

theorem learns_pure (a : α) : Learns (pure a : StoreM K V α) s A := .refl A s

theorem Learns.mono {x : StoreM K V α} (h : Learns x s A) (hAB : A ⊆ B) : Learns x s B := Store.Learned.mono h hAB

theorem Learns.bind {x : StoreM K V α} {f : α → StoreM K V β} (hx : Learns x s A)
    (hf : ∀ a s', x.run s = (a, s') → Learns (f a) s' A) : Learns (x >>= f) s A :=
  Store.Learned.trans hx (hf _ _ rfl)

/-- A computation that ensures a condition, followed by one that relies on it. -/
theorem Learns.bind_ensures [Std.TransOrd K] {x : StoreM K V α} {f : α → StoreM K V β} {P : α → Store K V → Prop}
    (hx : Learns x s A ∧ Ensures x s P) (hf : ∀ a s', s.Grows s' → s'.Sound → P a s' → Learns (f a) s' A) :
    Learns (x >>= f) s A :=
  hx.1.bind fun a s' hrun => by
    obtain ⟨hg, hs', ha⟩ := hx.2.of_run hrun
    exact hf a s' hg hs' ha

theorem learns_mapM [Std.TransOrd K] {f : α → StoreM K V β} {P : α → β → Store K V → Prop} {l : List α} (hs : s.Sound)
    (hf : ∀ a ∈ l, ∀ s', s.Grows s' → s'.Sound → Learns (f a) s' A ∧ Ensures (f a) s' (P a)) :
    Learns (l.mapM f) s A := by
  induction l generalizing s with
  | nil =>
    rw [List.mapM_nil]
    exact learns_pure []
  | cons a l ih =>
    rw [List.mapM_cons]
    refine .bind_ensures (hf a List.mem_cons_self s (.refl s) hs) fun b s' hg hs' _ => ?_
    refine (ih hs' fun c hc s'' hg' => hf c (List.mem_cons_of_mem a hc) s'' (hg.trans hg')).bind ?_
    exact fun r s'' _ => learns_pure (b :: r)

end Learns

namespace Diagram

open Store

variable {s : Store K V} {A : Set Question}

/-! ### Making nodes -/

theorem learns_mkNode (k : K) (take : List (V × Diagram K V)) (skip : Diagram K V) (s : Store K V)
    (A : Set Question) : Learns (mkNode k take skip) s A := by
  unfold Learns
  rw [run_mkNode]
  split
  · exact .refl A s
  · split
    · exact .refl A s
    · exact learned_of_eq rfl rfl rfl rfl

theorem learns_singleton (m : List (K × V)) (s : Store K V) (A : Set Question) : Learns (singleton m) s A := by
  unfold Diagram.singleton
  generalize sortMap m = l
  induction l with
  | nil => exact learns_pure emptyMap
  | cons e l ih =>
    rw [List.foldrM_cons]
    exact ih.bind fun d s' _ => learns_mkNode e.1 [(e.2, d)] emptySet s' A

/-! ### Filtering -/

/-- A part of a filter learns nothing. -/
private def LearnsNothing {α : Type} (x : FilterM ε K V α) : Prop :=
  ∀ f : FilterState K V, f.store.Learned ∅ (x.run.run f).2.store

private theorem learnsNothing_pure {α : Type} (a : α) : LearnsNothing (pure a : FilterM ε K V α) :=
  fun f => .refl ∅ f.store

private theorem LearnsNothing.bind {α β : Type} {x : FilterM ε K V α} {g : α → FilterM ε K V β} (hx : LearnsNothing x)
    (hg : ∀ a, LearnsNothing (g a)) : LearnsNothing (x >>= g) := by
  intro f
  have hf := hx f
  rw [run_bind]
  rcases hxf : x.run.run f with ⟨_ | a, f'⟩
  · rwa [hxf] at hf
  · rw [hxf] at hf
    exact hf.trans (hg a f')

private theorem learnsNothing_judge (test : Test ε K V) (chosen : List (K × V)) (d : Diagram K V) :
    LearnsNothing (judge test chosen d) := by
  intro f
  rw [run_judge]
  exact .refl ∅ f.store

private theorem LearnsNothing.rememberVerdict {x : FilterM ε K V (Diagram K V)} (hx : LearnsNothing x) (i : Nat)
    (chosen : List (K × V)) : LearnsNothing (Diagram.rememberVerdict i chosen x) := by
  intro f
  have hf := hx f
  rw [run_rememberVerdict]
  cases f.verdicts[matter i chosen]? with
  | some d => exact .refl ∅ f.store
  | none => rcases hxf : x.run.run f with ⟨_ | d, f'⟩ <;> rwa [hxf] at hf

private theorem learnsNothing_closed : FilterClosed fun {_} (x : FilterM ε K V _) => LearnsNothing x where
  pure := learnsNothing_pure
  bind hx hg := hx.bind hg
  judge := learnsNothing_judge
  rememberVerdict hx i chosen := hx.rememberVerdict i chosen
  mkNode k take skip f := learns_mkNode k take skip f.store ∅

theorem learns_filter (keys : List K) (test : Test ε K V) (d : Diagram K V) (s : Store K V) (A : Set Question) :
    Learns (filter keys test d) s A :=
  Learned.mono (learnsNothing_closed.filterFrom keys test [] d { store := s }) (Set.empty_subset A)

/-! ### Counting -/

private theorem run_count_some {i : Nat} {k : K} {take : List (V × Diagram K V)} {skip : Diagram K V} {n : Nat}
    (h : s.counts[i]? = some n) : (count (node i k take skip)).run s = (n, s.hit) := by
  have hget : (get : StoreM K V (Store K V)).run s = (s, s) := rfl
  unfold count
  rw [run_bind_of_run hget, h]
  rfl

/-- The maps of a node are counted on its branches, and then in its skip diagram. -/
def countParts (take : List (V × Diagram K V)) (skip : Diagram K V) : StoreM K V Nat := do
  let n ← countBranches take
  let m ← count skip
  return toWord (n + m)

private theorem run_count_none {i : Nat} {k : K} {take : List (V × Diagram K V)} {skip : Diagram K V}
    (h : s.counts[i]? = none) : (count (node i k take skip)).run s =
      (((countParts take skip).run s.miss).1, { ((countParts take skip).run s.miss).2 with
        counts := ((countParts take skip).run s.miss).2.counts.insert i ((countParts take skip).run s.miss).1 }) := by
  have hget : (get : StoreM K V (Store K V)).run s = (s, s) := rfl
  unfold count
  rw [run_bind_of_run hget, h]
  rfl

/-- A new count is one more answer. -/
private theorem learns_count_node {i : Nat} {k : K} {take : List (V × Diagram K V)} {skip : Diagram K V}
    (h : Learns (countParts take skip) s.miss {q | q.rank < (Question.count i).rank}) :
    Learns (count (node i k take skip)) s {q | q.rank ≤ (Question.count i).rank} := by
  unfold Learns
  cases hn : s.counts[i]? with
  | some n =>
    rw [run_count_some hn]
    exact learned_of_eq rfl rfl rfl rfl
  | none =>
    rw [run_count_none hn]
    unfold Learns at h
    generalize (countParts take skip).run s.miss = y at h ⊢
    obtain ⟨n, t⟩ := y
    have hq : ¬ s.Recalls (.count i) := by
      rintro ⟨n, h⟩
      rw [hn] at h
      cases h
    refine Learned.answered hq h (fun q => ?_) rfl fun hnew => ?_
    · cases q with
      | operation op i j => cases op <;> simp [Recalls, result?]
      | count j =>
        simp only [Recalls, Std.TreeMap.getElem?_insert, Question.count.injEq, Std.LawfulEqCmp.compare_eq_iff_eq]
        by_cases hij : i = j
        · simp [hij]
        · rw [if_neg hij]
          exact (or_iff_left fun h => hij h.symm).symm
    · have hsize : (t.counts.insert i n).size = t.counts.size + 1 := size_insert_of_new hnew n
      simp only [cached, hsize]
      omega

private theorem learns_parts {t : Store K V} {i : Nat} {k : K} {take : List (V × Diagram K V)} {skip : Diagram K V}
    (hf : t.Fits i k take skip)
    (htake : ∀ s : Store K V, Learns (countBranches take) s {q | q.rank < (Question.count i).rank})
    (hskip : ∀ s : Store K V, Learns (count skip) s {q | q.rank ≤ (Question.count skip.index).rank}) (s : Store K V) :
    Learns (countParts take skip) s {q | q.rank < (Question.count i).rank} := by
  refine (htake s).bind fun n s' _ => Learns.bind ?_ fun m s'' _ => learns_pure (toWord (n + m))
  exact (hskip s').mono fun q hq => lt_of_le_of_lt hq (Question.rank_count_lt hf.skip_lt)

variable [Std.TransOrd K]

mutual

/-- The diagram is one of some sound store, not necessarily the one in which it is counted. -/
theorem learns_count {t : Store K V} (ht : t.Sound) (d : Diagram K V) (hd : t.Has d) (s : Store K V) :
    Learns (count d) s {q | q.rank ≤ (Question.count d.index).rank} := by
  match d, hd with
  | .emptySet, _ => exact learns_pure 0
  | .emptyMap, _ => exact learns_pure 1
  | .node i k take skip, hd =>
    have hf := ht.fits_of_has hd
    have htake : ∀ b ∈ take, t.Has b.2 ∧ b.2.index < i := fun b hb => ⟨hf.branch_has b hb, hf.branch_lt b hb⟩
    have hparts := learns_parts hf (learns_countBranches ht take htake) (learns_count ht skip hf.skip_has)
    exact learns_count_node (hparts s.miss)

theorem learns_countBranches {t : Store K V} (ht : t.Sound) {i : Nat} (take : List (V × Diagram K V))
    (h : ∀ b ∈ take, t.Has b.2 ∧ b.2.index < i) (s : Store K V) :
    Learns (countBranches take) s {q | q.rank < (Question.count i).rank} := by
  match take, h with
  | [], _ => exact learns_pure 0
  | (_, c) :: rest, h =>
    obtain ⟨hc, hlt⟩ := h _ List.mem_cons_self
    unfold countBranches
    refine Learns.bind ?_ fun n s' _ => ?_
    · exact (learns_count ht c hc s).mono fun q hq => lt_of_le_of_lt hq (Question.rank_count_lt hlt)
    · refine (learns_countBranches ht rest (fun b hb => h b (List.mem_cons_of_mem _ hb)) s').bind fun m s'' _ => ?_
      exact learns_pure (toWord (n + m))

end

theorem learns_countParts {i : Nat} {k : K} {take : List (V × Diagram K V)} {skip : Diagram K V} (hs : s.Sound)
    (hd : s.Has (node i k take skip)) :
    Learns (countParts take skip) s {q | q.rank < (Question.count i).rank} := by
  have hf := hs.fits_of_has hd
  have htake : ∀ b ∈ take, s.Has b.2 ∧ b.2.index < i := fun b hb => ⟨hf.branch_has b hb, hf.branch_lt b hb⟩
  exact learns_parts hf (learns_countBranches hs take htake) (learns_count hs skip hf.skip_has) s

/-! ### Nodes with computed branches -/

theorem learns_nodeOf {D : Type} {k : K} {l : List (V × D)} {f : V × D → StoreM K V (Diagram K V)}
    {x : StoreM K V (Diagram K V)} {P : V × D → Diagram K V → Store K V → Prop} (hs : s.Sound)
    (hf : ∀ c ∈ l, ∀ s', s.Grows s' → s'.Sound → Learns (f c) s' A ∧ Ensures (f c) s' (P c))
    (hx : ∀ s', s.Grows s' → s'.Sound → Learns x s' A) : Learns (nodeOf k l f x) s A := by
  have hbranch : ∀ c ∈ l, ∀ s', s.Grows s' → s'.Sound →
      Learns (do return (c.1, ← f c)) s' A ∧ Ensures (do return (c.1, ← f c)) s' fun _ _ => True := by
    intro c hc s' hg hs'
    obtain ⟨hlearns, hensures⟩ := hf c hc s' hg hs'
    constructor
    · exact hlearns.bind fun d s'' _ => learns_pure (c.1, d)
    · exact hensures.bind fun d s'' _ hs'' _ => .pure hs'' trivial
  have hmap := ensures_mapM_all (fun _ _ _ _ _ => trivial) hs fun c hc s' hg hs' => (hbranch c hc s' hg hs').2
  unfold nodeOf
  refine .bind_ensures ⟨learns_mapM hs hbranch, hmap⟩ fun take s' hg hs' _ => ?_
  exact (hx s' hg hs').bind fun d s'' _ => learns_mkNode k take d s'' A

variable {a b : Diagram K V}

/-! ### Remembering results -/

/-- An operation learns nothing above the rank of its question if computing the result learns nothing as high as it. -/
theorem learns_memoized {op : Operation} {f : Diagram K V → Diagram K V → StoreM K V (Diagram K V)}
    (hf : Learns (f (ordered a b).1 (ordered a b).2) s.miss {q | q.rank < op.rank (a.index + b.index)}) :
    Learns (memoized op f a b) s {q | q.rank ≤ op.rank (a.index + b.index)} := by
  have hsum := index_ordered a b
  rcases hxy : ordered a b with ⟨x, y⟩
  rw [hxy] at hf hsum
  rw [← hsum] at hf ⊢
  unfold Learns
  cases hd : s.result? op (x.index, y.index) with
  | some d =>
    rw [run_memoized_some hxy hd]
    exact learned_of_eq rfl rfl rfl rfl
  | none =>
    rw [run_memoized_none hxy hd]
    have hq : ¬ s.Recalls (.operation op x.index y.index) := by
      rintro ⟨d, h⟩
      rw [hd] at h
      cases h
    refine Learned.answered hq hf (recalls_remember _ op x.index y.index _) (misses_remember _ op _ _) ?_
    exact fun hnew => cached_remember hnew _

variable [Std.LawfulEqOrd K] [Std.TransOrd V] [Std.LawfulEqOrd V]

/-! ### The union -/

/-- A step of the union asks for unions of diagrams further below. -/
theorem learns_unionStep (hs : s.Sound) (ha : s.Has a) (hb : s.Has b)
    (hgo : ∀ x y s', s.Grows s' → s'.Sound → Descends s a b x y →
      Learns (union x y) s' {q | q.rank ≤ Operation.union.rank (x.index + y.index)}) :
    Learns (unionStep union a b) s {q | q.rank < Operation.union.rank (a.index + b.index)} := by
  have hbelow : ∀ x y s', s.Grows s' → s'.Sound → Descends s a b x y →
      Learns (union x y) s' {q | q.rank < Operation.union.rank (a.index + b.index)} :=
    fun x y s' hg hs' hxy => (hgo x y s' hg hs' hxy).mono fun q hq => lt_of_le_of_lt hq (Operation.rank_lt hxy.lt)
  rcases unionStep_cases hs ha hb with h | ⟨k, t, x, y, hxy, h⟩ | ⟨k, l, q, r, hqr, hl, h⟩
  · rw [h]
    exact learns_pure a
  · rw [h]
    exact (hbelow x y s (.refl s) hs hxy).bind fun d s' _ => learns_mkNode k t d s' _
  · rw [h]
    refine learns_nodeOf (P := fun _ _ _ => True) hs (fun c hc s' hg hs' => ?_)
      fun s' hg hs' => hbelow q r s' hg hs' hqr
    obtain ⟨v, e⟩ := c
    cases e with
    | left x => exact ⟨learns_pure x, .pure hs' trivial⟩
    | right y => exact ⟨learns_pure y, .pure hs' trivial⟩
    | both x y =>
      have hxy := hl v x y hc
      refine ⟨hbelow x y s' hg hs' hxy, ?_⟩
      exact (ensures_union hs' (hxy.left_has.mono hg) (hxy.right_has.mono hg)).imp fun _ _ _ _ _ => trivial

theorem learns_union (hs : s.Sound) (ha : s.Has a) (hb : s.Has b) :
    Learns (union a b) s {q | q.rank ≤ Operation.union.rank (a.index + b.index)} := by
  -- on the sum of the indices, which is smaller wherever a step descends
  induction hn : a.index + b.index using Nat.strongRecOn generalizing a b s with
  | ind n ih =>
    rw [union_eq hs ha hb]
    split
    · exact learns_pure a
    · split
      · exact learns_pure b
      · split
        · exact learns_pure a
        · obtain ⟨hx, hy⟩ := has_ordered ha hb
          rw [← hn]
          refine learns_memoized ?_
          rw [← index_ordered]
          refine learns_unionStep hs.miss hx hy fun x y s' hg hs' hxy => ?_
          have hlt := hxy.lt
          rw [index_ordered] at hlt
          exact ih _ (by omega) hs' (hxy.left_has.mono hg) (hxy.right_has.mono hg) rfl

/-! ### The join -/

private theorem learns_joinMerged {n : Nat} {q r : Diagram K V} {e : Merged (Diagram K V)} (hs : s.Sound)
    (hgo : ∀ x y s', s.Grows s' → s'.Sound → JoinCall q r e x y →
      Learns (join x y) s' {q | q.rank < Operation.join.rank n} ∧ Ensures (join x y) s' (JoinOf x y)) :
    Learns (joinMerged join q r e) s {q | q.rank < Operation.join.rank n} := by
  have hunion : ∀ {x y : Diagram K V} {s' : Store K V}, s'.Sound → s'.Has x → s'.Has y →
      Learns (union x y) s' {q | q.rank < Operation.join.rank n} :=
    fun hs' hx hy => (learns_union hs' hx hy).mono fun q hq => lt_of_le_of_lt hq (Operation.rank_union_lt _ n)
  cases e with
  | left x => exact (hgo x r s (.refl s) hs ⟨rfl, rfl⟩).1
  | right y => exact (hgo q y s (.refl s) hs ⟨rfl, rfl⟩).1
  | both x y =>
    refine .bind_ensures (hgo x y s (.refl s) hs (.inl ⟨rfl, rfl⟩)) fun both s₁ hg₁ hs₁ hboth => ?_
    refine .bind_ensures (hgo x r s₁ hg₁ hs₁ (.inr (.inl ⟨rfl, rfl⟩))) fun xr s₂ hg₂ hs₂ hxr => ?_
    have hleft := hboth.1.mono hg₂
    refine .bind_ensures ⟨hunion hs₂ hleft hxr.1, ensures_union hs₂ hleft hxr.1⟩ fun left s₃ hg₃ hs₃ hleft => ?_
    have hg := (hg₁.trans hg₂).trans hg₃
    refine .bind_ensures (hgo q y s₃ hg hs₃ (.inr (.inr ⟨rfl, rfl⟩))) fun qy s₄ hg₄ hs₄ hqy => ?_
    exact hunion hs₄ (hleft.1.mono hg₄) hqy.1

/-- A step of the join asks for joins of diagrams further below, and for unions. -/
theorem learns_joinStep (hs : s.Sound) (ha : s.Has a) (hb : s.Has b)
    (hgo : ∀ x y s', s.Grows s' → s'.Sound → Descends s a b x y →
      Learns (join x y) s' {q | q.rank ≤ Operation.join.rank (x.index + y.index)}) :
    Learns (joinStep join a b) s {q | q.rank < Operation.join.rank (a.index + b.index)} := by
  have hbelow : ∀ x y s', s.Grows s' → s'.Sound → Descends s a b x y →
      Learns (join x y) s' {q | q.rank < Operation.join.rank (a.index + b.index)} ∧
        Ensures (join x y) s' (JoinOf x y) := by
    intro x y s' hg hs' hxy
    constructor
    · exact (hgo x y s' hg hs' hxy).mono fun q hq => lt_of_le_of_lt hq (Operation.rank_lt hxy.lt)
    · exact ensures_join hs' (hxy.left_has.mono hg) (hxy.right_has.mono hg)
  rcases joinStep_cases hs ha hb with h | ⟨k, l, q, c, hl, hq, h⟩ | ⟨k, l, q, r, hqr, hl, h⟩
  · rw [h]
    exact learns_pure emptySet
  · rw [h]
    exact learns_nodeOf hs (fun e he s' hg hs' => hbelow e.2 c s' hg hs' (hl e he))
      fun s' hg hs' => (hbelow q c s' hg hs' hq).1
  · rw [h]
    refine learns_nodeOf (P := fun e d s' => s'.Has d ∧ ∀ m, m ∈ d ↔ JoinMerged q r e.2 m) hs
      (fun e he s' hg hs' => ?_) fun s' hg hs' => (hbelow q r s' hg hs' hqr).1
    have hcall : ∀ x y s'', s'.Grows s'' → s''.Sound → JoinCall q r e.2 x y →
        Learns (join x y) s'' {q | q.rank < Operation.join.rank (a.index + b.index)} ∧
          Ensures (join x y) s'' (JoinOf x y) :=
      fun x y s'' hg' hs'' hxy => hbelow x y s'' (hg.trans hg') hs'' (hl e he x y hxy)
    refine ⟨learns_joinMerged hs' hcall, ensures_joinMerged hs' fun x y s'' hg' hs'' hxy => ?_⟩
    exact (hcall x y s'' hg' hs'' hxy).2

theorem learns_join (hs : s.Sound) (ha : s.Has a) (hb : s.Has b) :
    Learns (join a b) s {q | q.rank ≤ Operation.join.rank (a.index + b.index)} := by
  induction hn : a.index + b.index using Nat.strongRecOn generalizing a b s with
  | ind n ih =>
    match a, b with
    | .emptySet, b => exact learns_pure emptySet
    | .emptyMap, .emptySet => exact learns_pure emptySet
    | .node i k t q, .emptySet => exact learns_pure emptySet
    | .emptyMap, .emptyMap => exact learns_pure emptyMap
    | .emptyMap, .node j l u r => exact learns_pure _
    | .node i k t q, .emptyMap => exact learns_pure _
    | .node i k t q, .node j l u r =>
      obtain ⟨hx, hy⟩ := has_ordered ha hb
      rw [join_eq_of_nodes hs ha hb, ← hn]
      refine learns_memoized ?_
      rw [← index_ordered]
      refine learns_joinStep hs.miss hx hy fun x y s' hg hs' hxy => ?_
      have hlt := hxy.lt
      rw [index_ordered] at hlt
      exact ih _ (by omega) hs' (hxy.left_has.mono hg) (hxy.right_has.mono hg) rfl

/-! ### Several maps -/

theorem learns_ofMaps {ms : List (List (K × V))} (hs : s.Sound) (hms : ∀ l ∈ ms, (l.map Prod.fst).Nodup) :
    Learns (ofMaps ms) s Set.univ := by
  unfold ofMaps
  have hd : s.Has (emptySet : Diagram K V) := has_emptySet
  generalize (emptySet : Diagram K V) = d at hd
  induction ms generalizing d s with
  | nil => exact learns_pure d
  | cons l ms ih =>
    have hl := ensures_singleton hs (hms l List.mem_cons_self)
    rw [List.foldlM_cons]
    refine Learns.bind_ensures (P := fun e s' => s'.Has e) ⟨?_, ?_⟩ fun e s' _ hs' he => ?_
    · refine .bind_ensures ⟨learns_singleton l s Set.univ, hl⟩ fun c s' hg hs' hc => ?_
      exact (learns_union hs' (hd.mono hg) hc.1).mono (Set.subset_univ _)
    · refine hl.bind fun c s' hg hs' hc => ?_
      exact (ensures_union hs' (hd.mono hg) hc.1).imp fun _ _ _ _ h => h.1
    · exact ih hs' (fun l hl => hms l (List.mem_cons_of_mem _ hl)) e he

end Diagram

end TokenNet
