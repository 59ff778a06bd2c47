import Std.Data.TreeMap.Lemmas
import TokenNet.Diagram.Store
import TokenNet.Proofs.Diagram.Listing

/-!
# Sound stores

The diagrams of a store are the two terminals and the nodes of its table, each at its index.  A store is `Sound` if every
node fits its place in the table, the unique table holds exactly the nodes, each under its shape, and every remembered
result is right.  In a sound store all diagrams are in normal form, `Sound.normal`, and a diagram is known by its family,
`Sound.eq_of_mem_iff`.
-/

namespace TokenNet

variable {K V : Type} [Ord K]

/-- The maps of the result of an operation. -/
def Operation.Yields [Std.TransOrd K] (op : Operation) (a b : Diagram K V) (m : FinMap K V) : Prop :=
  match op with
  | .union => m ∈ a ∨ m ∈ b
  | .join => ∃ x ∈ a, ∃ y ∈ b, x.Joins y m

theorem Operation.yields_comm [Std.TransOrd K] [Std.LawfulEqOrd K] (op : Operation) {a b : Diagram K V} {m : FinMap K V} :
    op.Yields a b m ↔ op.Yields b a m := by
  cases op with
  | union => exact or_comm
  | join =>
    constructor
    · exact fun ⟨x, hx, y, hy, h⟩ => ⟨y, hy, x, hx, h.symm⟩
    · exact fun ⟨x, hx, y, hy, h⟩ => ⟨y, hy, x, hx, h.symm⟩

variable [Ord V]

/-- The shape of a node. -/
def Diagram.shape? : Diagram K V → Option (Shape K V)
  | node _ k take skip => some (shape k take skip)
  | _ => none

namespace Store

/-- The diagram at an index. -/
def diagram? (s : Store K V) : Nat → Option (Diagram K V)
  | 0 => some .emptySet
  | 1 => some .emptyMap
  | i + 2 => s.nodes[i]?

/-- Whether a diagram is the one that the store has at its index. -/
def Has (s : Store K V) (d : Diagram K V) : Prop := s.diagram? d.index = some d

/-- The later store still has the diagrams of the earlier one. -/
def Grows (s s' : Store K V) : Prop := ∀ i d, s.diagram? i = some d → s'.diagram? i = some d

/-- What a node at an index may consist of. -/
structure Fits (s : Store K V) (i : Nat) (k : K) (take : List (V × Diagram K V)) (skip : Diagram K V) : Prop where
  take_ne_nil : take ≠ []
  sorted : take.Pairwise fun a b => compare a.1 b.1 = .lt
  branch_ne : ∀ b ∈ take, b.2.index ≠ 0
  branch_above : ∀ b ∈ take, b.2.IsAbove k
  branch_has : ∀ b ∈ take, s.Has b.2
  branch_lt : ∀ b ∈ take, b.2.index < i
  skip_above : skip.IsAbove k
  skip_has : s.Has skip
  skip_lt : skip.index < i

variable {s s' s'' : Store K V} {d : Diagram K V}

/-! ### Having diagrams -/

@[simp]
theorem has_emptySet : s.Has (.emptySet : Diagram K V) := rfl

@[simp]
theorem has_emptyMap : s.Has (.emptyMap : Diagram K V) := rfl

theorem Has.eq_of_index {e : Diagram K V} (hd : s.Has d) (he : s.Has e) (h : d.index = e.index) : d = e := by
  unfold Has at hd he
  rw [h, he] at hd
  exact (Option.some.inj hd).symm

theorem two_le_of_has {i : Nat} {k : K} {take : List (V × Diagram K V)} {skip : Diagram K V}
    (h : s.Has (.node i k take skip)) : 2 ≤ i := by
  unfold Has at h
  match i, h with
  | 0, h => cases h
  | 1, h => cases h
  | i + 2, _ => omega

theorem Has.eq_emptySet (hd : s.Has d) (h : d.index = 0) : d = .emptySet := hd.eq_of_index has_emptySet h

theorem Has.isEmptySet_iff (hd : s.Has d) : d.isEmptySet = true ↔ d = .emptySet := by
  constructor
  · exact fun h => hd.eq_emptySet (Diagram.isEmptySet_iff.1 h)
  · rintro rfl
    rfl

theorem Grows.refl (s : Store K V) : s.Grows s := fun _ _ h => h

theorem Grows.trans (h : s.Grows s') (h' : s'.Grows s'') : s.Grows s'' := fun i d hd => h' i d (h i d hd)

theorem Has.mono (hd : s.Has d) (h : s.Grows s') : s'.Has d := h _ _ hd

theorem Fits.mono {i : Nat} {k : K} {take : List (V × Diagram K V)} {skip : Diagram K V} (hf : s.Fits i k take skip)
    (h : s.Grows s') : s'.Fits i k take skip where
  take_ne_nil := hf.take_ne_nil
  sorted := hf.sorted
  branch_ne := hf.branch_ne
  branch_above := hf.branch_above
  branch_has b hb := (hf.branch_has b hb).mono h
  branch_lt := hf.branch_lt
  skip_above := hf.skip_above
  skip_has := hf.skip_has.mono h
  skip_lt := hf.skip_lt

theorem diagram?_congr (h : s'.nodes = s.nodes) : s'.diagram? = s.diagram? := by
  funext i
  match i with
  | 0 => rfl
  | 1 => rfl
  | i + 2 => exact congrArg (·[i]?) h

theorem has_congr (h : s'.nodes = s.nodes) : s'.Has d ↔ s.Has d := by
  unfold Has
  rw [diagram?_congr h]

theorem grows_of_nodes_eq (h : s'.nodes = s.nodes) : s.Grows s' := by
  intro i d hd
  rwa [diagram?_congr h]

/-! ### Sound stores -/

variable [Std.TransOrd K]

/-- What holds of every store that operations have made. -/
structure Sound (s : Store K V) : Prop where
  fits : ∀ i d, s.nodes[i]? = some d → ∃ k take skip, d = .node (i + 2) k take skip ∧ s.Fits (i + 2) k take skip
  unique_iff : ∀ p d, s.unique[p]? = some d ↔ s.Has d ∧ d.shape? = some p
  results : ∀ op p d, s.result? op p = some d → s.Has d ∧ p.1 ≤ p.2 ∧
    ∃ a b, s.diagram? p.1 = some a ∧ s.diagram? p.2 = some b ∧ ∀ m, m ∈ d ↔ op.Yields a b m
  counts : ∀ i n, s.counts[i]? = some n → ∃ d, s.diagram? i = some d ∧ toWord d.maps.length = n

/-- The store without nodes. -/
theorem sound_empty [Std.TransOrd V] : ({} : Store K V).Sound where
  fits i d h := by simp at h
  unique_iff p d := by
    have hu : ¬ (({} : Store K V).unique[p]? = some d) := by simp
    refine ⟨fun h => absurd h hu, fun ⟨hd, hp⟩ => ?_⟩
    cases d with
    | node i k take skip =>
      have hi := two_le_of_has hd
      obtain ⟨j, rfl⟩ : ∃ j, i = j + 2 := ⟨i - 2, by omega⟩
      simp [Has, diagram?] at hd
    | _ => cases hp
  results op p d h := by
    cases op <;> simp [result?] at h
  counts i n h := by
    simp at h

theorem Sound.fits_of_has (hs : s.Sound) {i : Nat} {k : K} {take : List (V × Diagram K V)} {skip : Diagram K V}
    (h : s.Has (.node i k take skip)) : s.Fits i k take skip := by
  have hi := two_le_of_has h
  obtain ⟨j, rfl⟩ : ∃ j, i = j + 2 := ⟨i - 2, by omega⟩
  obtain ⟨k', take', skip', heq, hf⟩ := hs.fits j _ h
  cases heq
  exact hf

/-- The diagrams of a sound store are in normal form. -/
theorem Sound.normal (hs : s.Sound) (hd : s.Has d) : d.Normal := by
  induction hn : d.index using Nat.strongRecOn generalizing d with
  | ind n ih =>
    cases d with
    | emptySet => exact .emptySet
    | emptyMap => exact .emptyMap
    | node i k take skip =>
      have hf := hs.fits_of_has hd
      obtain rfl : i = n := hn
      refine .node (two_le_of_has hd) hf.take_ne_nil hf.sorted hf.branch_ne hf.branch_above ?_ hf.skip_above ?_
      · exact fun b hb => ih b.2.index (hf.branch_lt b hb) (hf.branch_has b hb) rfl
      · exact ih skip.index hf.skip_lt hf.skip_has rfl

/-! ### A diagram is known by its family -/

section Canonical

variable [Std.LawfulEqOrd K]

/-- Nodes with the same family have the same key. -/
private theorem key_eq_of_mem_iff {i j : Nat} {k l : K} {t u : List (V × Diagram K V)} {q r : Diagram K V}
    (ha : (Diagram.node i k t q).Normal) (hb : (Diagram.node j l u r).Normal)
    (h : ∀ m, m ∈ Diagram.node i k t q ↔ m ∈ Diagram.node j l u r) : k = l := by
  have hle : ∀ {i j : Nat} {k l : K} {t u : List (V × Diagram K V)} {q r : Diagram K V},
      (Diagram.node i k t q).Normal → (Diagram.node j l u r).Normal →
      (∀ m, m ∈ Diagram.node i k t q ↔ m ∈ Diagram.node j l u r) → compare k l ≠ .lt := by
    intro i j k l t u q r ha hb h hlt
    have habove : (Diagram.node i k t q).IsAbove k :=
      ha.isAbove_iff.2 fun m hm => hb.isAbove_iff.1 hlt m ((h m).1 hm)
    have hkk : compare k k = .lt := habove
    simp at hkk
  cases hc : compare k l with
  | eq => exact Std.LawfulEqCmp.eq_of_compare hc
  | lt => exact absurd hc (hle ha hb h)
  | gt => exact absurd (Std.OrientedCmp.lt_of_gt hc) (hle hb ha fun m => (h m).symm)

variable [Std.TransOrd V]

/-- The branch of one node for a value has a branch of the other for the value, with the same family. -/
private theorem exists_branch {i j : Nat} {k : K} {t u : List (V × Diagram K V)} {q r : Diagram K V}
    (ha : (Diagram.node i k t q).Normal) (hb : (Diagram.node j k u r).Normal)
    (h : ∀ m, m ∈ Diagram.node i k t q ↔ m ∈ Diagram.node j k u r) {v : V} {c : Diagram K V} (hc : (v, c) ∈ t) :
    ∃ e, (v, e) ∈ u ∧ ∀ n, n ∈ c ↔ n ∈ e := by
  have huniq : ∀ {t : List (V × Diagram K V)} {c e : Diagram K V},
      t.Pairwise (fun a b => compare a.1 b.1 = .lt) → (v, c) ∈ t → (v, e) ∈ t → c = e := by
    intro t c e ht hc he
    have h1 := FinMap.lookup_eq_some_of_mem ht hc
    have h2 := FinMap.lookup_eq_some_of_mem ht he
    exact Option.some.inj (h1.symm.trans h2)
  have hst : t.Pairwise fun a b => compare a.1 b.1 = .lt := by
    cases ha with
    | node _ _ hsort => exact hsort
  have hsu : u.Pairwise fun a b => compare a.1 b.1 = .lt := by
    cases hb with
    | node _ _ hsort => exact hsort
  have hcn : c.Normal ∧ c.index ≠ 0 := by
    cases ha with
    | node _ _ _ hne _ hbranch => exact ⟨hbranch _ hc, hne _ hc⟩
  -- a map of `c` leads to the branch of the other node, and then every map of either branch to one of the other
  have hstep : ∀ n ∈ c, ∃ e, (v, e) ∈ u ∧ n ∈ e := by
    intro n hn
    have hk := (ha.branch_isAbove hc hn).get?_eq_none (l := k) (by simp)
    exact (hb.insert_mem_iff hk).1 ((h _).1 ((ha.insert_mem_iff hk).2 ⟨c, hc, hn⟩))
  obtain ⟨n, hn⟩ := hcn.1.exists_mem hcn.2
  obtain ⟨e, he, -⟩ := hstep n hn
  refine ⟨e, he, fun m => ⟨fun hm => ?_, fun hm => ?_⟩⟩
  · obtain ⟨e', he', hme⟩ := hstep m hm
    rwa [huniq hsu he he']
  · have hk := (hb.branch_isAbove he hm).get?_eq_none (l := k) (by simp)
    obtain ⟨c', hc', hmc⟩ := (ha.insert_mem_iff hk).1 ((h _).2 ((hb.insert_mem_iff hk).2 ⟨e, he, hm⟩))
    rwa [huniq hst hc hc']

variable [Std.LawfulEqOrd V]

/-- Branches that are sorted by value are determined by their members. -/
private theorem branches_eq_of_mem_iff {D : Type} {t u : List (V × D)} (ht : t.Pairwise fun a b => compare a.1 b.1 = .lt)
    (hu : u.Pairwise fun a b => compare a.1 b.1 = .lt) (h : ∀ b, b ∈ t ↔ b ∈ u) : t = u := by
  have hmap : (⟨t, ht⟩ : FinMap V D) = ⟨u, hu⟩ := by
    refine FinMap.ext_get? fun v => Option.ext fun c => ?_
    rw [← FinMap.mem_entries_iff, ← FinMap.mem_entries_iff]
    exact h (v, c)
  exact congrArg FinMap.entries hmap

/-- Diagrams of a sound store with the same family are the same. -/
theorem Sound.eq_of_mem_iff (hs : s.Sound) {a b : Diagram K V} (ha : s.Has a) (hb : s.Has b)
    (h : ∀ m, m ∈ a ↔ m ∈ b) : a = b := by
  induction hn : a.index using Nat.strongRecOn generalizing a b with
  | ind n ih =>
    have hna := hs.normal ha
    have hnb := hs.normal hb
    have hzero : a.index = 0 ↔ b.index = 0 := by
      rw [hna.index_eq_zero_iff, hnb.index_eq_zero_iff]
      simp only [h]
    -- a diagram with the family of the empty map binds no key
    have hterminal : ∀ {i : Nat} {k : K} {t : List (V × Diagram K V)} {q : Diagram K V},
        s.Has (.node i k t q) → ¬ ∀ m, m ∈ Diagram.node i k t q ↔ m ∈ (Diagram.emptyMap : Diagram K V) := by
      intro i k t q hd hm
      have habove : (Diagram.node i k t q).IsAbove k := (hs.normal hd).isAbove_iff.2 fun m hmd => by
        rw [Diagram.mem_emptyMap_iff.1 ((hm m).1 hmd)]
        exact FinMap.isAbove_empty k
      have hkk : compare k k = .lt := habove
      simp at hkk
    match a, b with
    | .emptySet, b => exact (hb.eq_emptySet (hzero.1 rfl)).symm
    | a, .emptySet => exact ha.eq_emptySet (hzero.2 rfl)
    | .emptyMap, .emptyMap => rfl
    | .emptyMap, .node j l u r => exact absurd (fun m => (h m).symm) (hterminal hb)
    | .node i k t q, .emptyMap => exact absurd h (hterminal ha)
    | .node i k t q, .node j l u r =>
      obtain rfl : i = n := hn
      obtain rfl := key_eq_of_mem_iff hna hnb h
      have hfa := hs.fits_of_has ha
      have hfb := hs.fits_of_has hb
      have hqr : q = r := by
        refine ih q.index hfa.skip_lt hfa.skip_has hfb.skip_has (fun m => ?_) rfl
        rw [hna.mem_skip_iff, hnb.mem_skip_iff, h]
      have htu : t = u := by
        refine branches_eq_of_mem_iff hfa.sorted hfb.sorted fun ⟨v, c⟩ => ⟨fun hc => ?_, fun hc => ?_⟩
        · obtain ⟨e, he, hce⟩ := exists_branch hna hnb h hc
          obtain rfl : c = e := ih c.index (hfa.branch_lt _ hc) (hfa.branch_has _ hc) (hfb.branch_has _ he) hce rfl
          exact he
        · obtain ⟨e, he, hce⟩ := exists_branch hnb hna (fun m => (h m).symm) hc
          obtain rfl : e = c :=
            ih e.index (hfa.branch_lt _ he) (hfa.branch_has _ he) (hfb.branch_has _ hc) (fun m => (hce m).symm) rfl
          exact he
      have hua := (hs.unique_iff _ _).2 ⟨ha, rfl⟩
      have hub := (hs.unique_iff _ _).2 ⟨hb, rfl⟩
      rw [hqr, htu, hub] at hua
      rw [hqr, htu]
      exact (Option.some.inj hua).symm

end Canonical

end Store

end TokenNet
