import TokenNet.Diagram
import TokenNet.Proofs.FinMap

/-!
# The family of maps of a diagram

`Member` says which finite maps a diagram denotes.  A diagram is in normal form, `Normal`, if along every path the keys
increase, every node has a branch, its branches are sorted by value, and none of them leads to the empty set.

In normal form the least key that a map of the diagram binds is that of its node (`Normal.isAbove_of_mem`,
`Normal.exists_mem`), so the family determines the skip diagram (`Normal.mem_skip_iff`) and the branches
(`Normal.insert_mem_iff`).
-/

namespace TokenNet

namespace Diagram

variable {K V : Type}

@[simp]
theorem index_emptySet : (emptySet : Diagram K V).index = 0 := rfl

@[simp]
theorem index_emptyMap : (emptyMap : Diagram K V).index = 1 := rfl

@[simp]
theorem index_node (i : Nat) (k : K) (take : List (V × Diagram K V)) (skip : Diagram K V) :
    (node i k take skip).index = i := rfl

theorem isEmptySet_iff {d : Diagram K V} : d.isEmptySet = true ↔ d.index = 0 := by simp [isEmptySet]

variable [Ord K]

/-- The key of the node, if there is one, is greater than `k`. -/
def IsAbove (k : K) : Diagram K V → Prop
  | node _ l _ _ => compare k l = .lt
  | _ => True

theorem IsAbove.of_lt [Std.TransOrd K] {k l : K} {d : Diagram K V} (h : d.IsAbove l) (hk : compare k l = .lt) :
    d.IsAbove k := by
  cases d with
  | node i j take skip => exact Std.TransCmp.lt_trans hk h
  | _ => trivial

section Family

variable [Std.TransOrd K]

/-- The maps that a diagram denotes. -/
inductive Member : FinMap K V → Diagram K V → Prop where
  | emptyMap : Member ∅ emptyMap
  | take {i : Nat} {k : K} {take : List (V × Diagram K V)} {skip : Diagram K V} {v : V} {c : Diagram K V}
      {m : FinMap K V} (hc : (v, c) ∈ take) (hm : Member m c) : Member (m.insert k v) (node i k take skip)
  | skip {i : Nat} {k : K} {take : List (V × Diagram K V)} {skip : Diagram K V} {m : FinMap K V}
      (hm : Member m skip) : Member m (node i k take skip)

instance : Membership (FinMap K V) (Diagram K V) := ⟨fun d m => Member m d⟩

/-- The maps of the branches of a node. -/
def InBranches (k : K) (take : List (V × Diagram K V)) (m : FinMap K V) : Prop :=
  ∃ v c n, (v, c) ∈ take ∧ n ∈ c ∧ m = n.insert k v

theorem not_mem_emptySet (m : FinMap K V) : m ∉ (emptySet : Diagram K V) := nofun

theorem mem_emptyMap_iff {m : FinMap K V} : m ∈ (emptyMap : Diagram K V) ↔ m = ∅ := by
  constructor
  · rintro ⟨⟩
    rfl
  · rintro rfl
    exact .emptyMap

theorem mem_node_iff {i : Nat} {k : K} {take : List (V × Diagram K V)} {skip : Diagram K V} {m : FinMap K V} :
    m ∈ node i k take skip ↔ InBranches k take m ∨ m ∈ skip := by
  constructor
  · intro h
    cases h with
    | take hc hm => exact .inl ⟨_, _, _, hc, hm, rfl⟩
    | skip hm => exact .inr hm
  · rintro (⟨v, c, n, hc, hn, rfl⟩ | h)
    · exact .take hc hn
    · exact .skip h

/-- No diagram but the empty set has the index `0`, and no node has an index of a terminal. -/
theorem not_mem_of_index_eq_zero {d : Diagram K V} {m : FinMap K V} (h : d.index = 0)
    (hd : ∀ i k take skip, d = node i k take skip → 2 ≤ i) : m ∉ d := by
  cases d with
  | emptySet => exact not_mem_emptySet m
  | emptyMap => simp at h
  | node i k take skip =>
    have := hd i k take skip rfl
    simp at h
    omega

end Family

/-! ### Normal form -/

section Normal

variable [Ord V]

inductive Normal : Diagram K V → Prop where
  | emptySet : Normal emptySet
  | emptyMap : Normal emptyMap
  | node {i : Nat} {k : K} {take : List (V × Diagram K V)} {skip : Diagram K V} (hi : 2 ≤ i) (ht : take ≠ [])
      (hsort : take.Pairwise fun a b => compare a.1 b.1 = .lt) (hne : ∀ b ∈ take, b.2.index ≠ 0)
      (habove : ∀ b ∈ take, b.2.IsAbove k) (hbranch : ∀ b ∈ take, Normal b.2)
      (hskip_above : skip.IsAbove k) (hskip : Normal skip) : Normal (node i k take skip)

variable [Std.TransOrd K]

theorem Normal.not_mem_of_index_eq_zero {d : Diagram K V} (hd : d.Normal) (h : d.index = 0) (m : FinMap K V) :
    m ∉ d := by
  refine Diagram.not_mem_of_index_eq_zero h ?_
  rintro i k take skip rfl
  cases hd with
  | node hi => exact hi

/-- The keys of the maps of a diagram start with that of its node. -/
theorem Normal.isAbove_of_mem {d : Diagram K V} (hd : d.Normal) {k : K} (hk : d.IsAbove k) {m : FinMap K V}
    (hm : m ∈ d) : m.IsAbove k := by
  induction hd generalizing k m with
  | emptySet => exact absurd hm (not_mem_emptySet m)
  | emptyMap =>
    rw [mem_emptyMap_iff.1 hm]
    exact FinMap.isAbove_empty k
  | @node i l take skip _ _ _ _ habove _ hsa _ ihb ihs =>
    have hkl : compare k l = .lt := hk
    rcases mem_node_iff.1 hm with ⟨v, c, n, hc, hn, rfl⟩ | hm
    · have hnl : n.IsAbove l := ihb (v, c) hc (habove (v, c) hc) hn
      exact (hnl.of_lt hkl).insert hkl hnl v
    · exact (ihs hsa hm).of_lt hkl

variable {i : Nat} {k : K} {take : List (V × Diagram K V)} {skip : Diagram K V}

theorem Normal.branch_isAbove (hd : (Diagram.node i k take skip).Normal) {b : V × Diagram K V} (hb : b ∈ take)
    {m : FinMap K V} (hm : m ∈ b.2) : m.IsAbove k := by
  cases hd with
  | node _ _ _ _ habove hbranch _ _ => exact (hbranch b hb).isAbove_of_mem (habove b hb) hm

theorem Normal.skip_isAbove (hd : (Diagram.node i k take skip).Normal) {m : FinMap K V} (hm : m ∈ skip) :
    m.IsAbove k := by
  cases hd with
  | node _ _ _ _ _ _ hsa hs => exact hs.isAbove_of_mem hsa hm

/-- Only the empty set has no map. -/
theorem Normal.exists_mem {d : Diagram K V} (hd : d.Normal) (h : d.index ≠ 0) : ∃ m, m ∈ d := by
  induction hd with
  | emptySet => simp at h
  | emptyMap => exact ⟨∅, .emptyMap⟩
  | @node i k take skip _ ht _ hne _ _ _ _ ihb _ =>
    obtain ⟨b, hb⟩ := List.exists_mem_of_ne_nil take ht
    obtain ⟨m, hm⟩ := ihb b hb (hne b hb)
    exact ⟨m.insert k b.1, .take (v := b.1) (c := b.2) hb hm⟩

theorem Normal.index_eq_zero_iff {d : Diagram K V} (hd : d.Normal) : d.index = 0 ↔ ∀ m, m ∉ d := by
  constructor
  · exact fun h => hd.not_mem_of_index_eq_zero h
  · intro h
    by_cases h0 : d.index = 0
    · exact h0
    · obtain ⟨m, hm⟩ := hd.exists_mem h0
      exact absurd hm (h m)

/-! ### The family determines the parts of a node -/

variable [Std.LawfulEqOrd K]

/-- A diagram lies above `k` if its maps do. -/
theorem Normal.isAbove_iff {d : Diagram K V} (hd : d.Normal) : d.IsAbove k ↔ ∀ m ∈ d, m.IsAbove k := by
  constructor
  · exact fun h m hm => hd.isAbove_of_mem h hm
  · intro h
    cases hd with
    | emptySet => trivial
    | emptyMap => trivial
    | @node i l take skip _ ht _ hne _ hbranch _ _ =>
      obtain ⟨b, hb⟩ := List.exists_mem_of_ne_nil take ht
      obtain ⟨m, hm⟩ := (hbranch b hb).exists_mem (hne b hb)
      have hml := h (m.insert l b.1) (Member.take hb hm)
      exact hml (l, b.1) (FinMap.mem_entries_iff.2 (FinMap.get?_insert_self m l b.1))

theorem Normal.mem_skip_iff (hd : (Diagram.node i k take skip).Normal) {m : FinMap K V} :
    m ∈ skip ↔ m ∈ Diagram.node i k take skip ∧ m.get? k = none := by
  constructor
  · intro hm
    exact ⟨.skip hm, (hd.skip_isAbove hm).get?_eq_none (by simp)⟩
  · rintro ⟨hm, hk⟩
    rcases mem_node_iff.1 hm with ⟨v, c, n, hc, hn, rfl⟩ | hm
    · simp [FinMap.get?_insert_self] at hk
    · exact hm

/-- The value of the key of a node selects the branch. -/
theorem Normal.insert_mem_iff (hd : (Diagram.node i k take skip).Normal) {n : FinMap K V} (hn : n.get? k = none)
    {v : V} : n.insert k v ∈ Diagram.node i k take skip ↔ ∃ c, (v, c) ∈ take ∧ n ∈ c := by
  constructor
  · intro hm
    rcases mem_node_iff.1 hm with ⟨w, c, n', hc, hn', heq⟩ | hm
    · have hk := (hd.branch_isAbove hc hn').get?_eq_none (l := k) (by simp)
      obtain ⟨rfl, rfl⟩ := FinMap.insert_injective hn hk heq
      exact ⟨c, hc, hn'⟩
    · have hk := (hd.skip_isAbove hm).get?_eq_none (l := k) (by simp)
      simp [FinMap.get?_insert_self] at hk
  · rintro ⟨c, hc, hnc⟩
    exact .take hc hnc

end Normal

end Diagram

end TokenNet
