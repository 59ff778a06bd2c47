import TokenNet.Diagram.Union
import TokenNet.Proofs.Diagram.Branches

/-!
# What the union denotes

The union of two diagrams of a sound store denotes the maps of both: `ensures_union`.  The induction is on the bound of
the recursion; `ensures_unionStep` is one step, with what holds of the diagrams below as its hypothesis.
-/

namespace TokenNet.Diagram

open Store

variable {K V : Type} [Ord K] [Ord V] [Std.TransOrd K] {s : Store K V}

/-- What the union of two diagrams is to yield. -/
abbrev UnionOf (a b d : Diagram K V) (s : Store K V) : Prop := s.Has d ∧ ∀ m, m ∈ d ↔ m ∈ a ∨ m ∈ b

/-- The maps of a merged branch of a union. -/
def UnionMember (e : Merged (Diagram K V)) (m : FinMap K V) : Prop :=
  match e with
  | .left x => m ∈ x
  | .right y => m ∈ y
  | .both x y => m ∈ x ∨ m ∈ y

private theorem ensures_union_swap {x : StoreM K V (Diagram K V)} {a b : Diagram K V} (h : Ensures x s (UnionOf a b)) :
    Ensures x s (UnionOf b a) :=
  h.imp fun _ _ _ _ hd => ⟨hd.1, fun m => (hd.2 m).trans or_comm⟩

variable [Std.TransOrd V] [Std.LawfulEqOrd V]

/-- The merged branches of a union have the maps of the branches on both sides. -/
private theorem union_branches_iff {k : K} {t u : List (V × Diagram K V)}
    (ht : t.Pairwise fun a b => compare a.1 b.1 = .lt) (hu : u.Pairwise fun a b => compare a.1 b.1 = .lt)
    {m : FinMap K V} : (∃ v e n, (v, e) ∈ merge t u ∧ UnionMember e n ∧ m = n.insert k v) ↔
      InBranches k t m ∨ InBranches k u m := by
  have hmt : ∀ {v : V} {c : Diagram K V}, (v, c) ∈ t ↔ FinMap.lookup v t = some c :=
    FinMap.mem_entries_iff (m := ⟨t, ht⟩)
  have hmu : ∀ {v : V} {c : Diagram K V}, (v, c) ∈ u ↔ FinMap.lookup v u = some c :=
    FinMap.mem_entries_iff (m := ⟨u, hu⟩)
  unfold InBranches
  simp only [mem_merge_iff ht hu, hmt, hmu]
  constructor
  · rintro ⟨v, e, n, he, hn, rfl⟩
    cases hx : FinMap.lookup v t with
    | none =>
      cases hy : FinMap.lookup v u with
      | none => simp [hx, hy, Merged.of?] at he
      | some y =>
        simp only [hx, hy, Merged.of?, Option.some.injEq] at he
        subst he
        exact .inr ⟨v, y, n, hy, hn, rfl⟩
    | some x =>
      cases hy : FinMap.lookup v u with
      | none =>
        simp only [hx, hy, Merged.of?, Option.some.injEq] at he
        subst he
        exact .inl ⟨v, x, n, hx, hn, rfl⟩
      | some y =>
        simp only [hx, hy, Merged.of?, Option.some.injEq] at he
        subst he
        rcases hn with hn | hn
        · exact .inl ⟨v, x, n, hx, hn, rfl⟩
        · exact .inr ⟨v, y, n, hy, hn, rfl⟩
  · rintro (⟨v, x, n, hx, hn, rfl⟩ | ⟨v, y, n, hy, hn, rfl⟩)
    · cases hy : FinMap.lookup v u with
      | none => exact ⟨v, .left x, n, by rw [hx, hy]; rfl, hn, rfl⟩
      | some y => exact ⟨v, .both x y, n, by rw [hx, hy]; rfl, .inl hn, rfl⟩
    · cases hx : FinMap.lookup v t with
      | none => exact ⟨v, .right y, n, by rw [hx, hy]; rfl, hn, rfl⟩
      | some x => exact ⟨v, .both x y, n, by rw [hx, hy]; rfl, .inr hn, rfl⟩

variable [Std.LawfulEqOrd K]

/-- A node whose branches stay and whose skip diagram is united with a diagram above its key. -/
private theorem ensures_unionSkip {i : Nat} {k : K} {t : List (V × Diagram K V)} {q b : Diagram K V}
    {x : StoreM K V (Diagram K V)} (hs : s.Sound) (ha : s.Has (node i k t q)) (hb : s.Has b) (hbk : b.IsAbove k)
    (hx : Ensures x s (UnionOf q b)) :
    Ensures (do mkNode k t (← x)) s (UnionOf (node i k t q) b) := by
  have hf := hs.fits_of_has ha
  refine hx.bind fun r s' hg hs' ⟨hr, hm⟩ => ?_
  have hna := hs.normal ha
  have hacc : s'.Accepts k t r := by
    refine accepts_of_isAbove hs' hf.sorted (fun c hc => (hf.branch_has c hc).mono hg) hr ?_ fun m hmr => ?_
    · exact fun c hc m hmc => hna.branch_isAbove hc hmc
    · rcases (hm m).1 hmr with h | h
      · exact hna.skip_isAbove h
      · exact (hs.normal hb).isAbove_of_mem hbk h
  refine (ensures_mkNode_mem hs' hacc).imp fun d s'' _ _ ⟨hd, hmem⟩ => ⟨hd, fun m => ?_⟩
  rw [hmem, hm, mem_node_iff, or_assoc]

/-- Two nodes with the same key: the branches are merged by their values. -/
private theorem ensures_unionMerged {go : Diagram K V → Diagram K V → StoreM K V (Diagram K V)} {i j : Nat} {k : K}
    {t u : List (V × Diagram K V)} {q r : Diagram K V} (hs : s.Sound) (ha : s.Has (node i k t q))
    (hb : s.Has (node j k u r))
    (hgo : ∀ x y s', s.Grows s' → s'.Sound → s'.Has x → s'.Has y → x.index + y.index < i + j →
      Ensures (go x y) s' (UnionOf x y)) :
    Ensures (unionStep go (node i k t q) (node j k u r)) s (UnionOf (node i k t q) (node j k u r)) := by
  have hfa := hs.fits_of_has ha
  have hfb := hs.fits_of_has hb
  have hqi := hfa.skip_lt
  have hrj := hfb.skip_lt
  have hna := hs.normal ha
  have hnb := hs.normal hb
  simp only [unionStep, Std.ReflOrd.compare_self]
  refine (ensures_branches (fun _ => UnionMember) hs fun c hc s' hg hs' => ?_).bind fun take s' hg hs' htake => ?_
  · have hc' := mem_of_mem_merge hfa.sorted hfb.sorted hc
    obtain ⟨v, e⟩ := c
    cases e with
    | left x => exact .pure hs' ⟨rfl, (hfa.branch_has _ hc').mono hg, fun m => Iff.rfl⟩
    | right y => exact .pure hs' ⟨rfl, (hfb.branch_has _ hc').mono hg, fun m => Iff.rfl⟩
    | both x y =>
      have hx := hfa.branch_lt _ hc'.1
      have hy := hfb.branch_lt _ hc'.2
      have := hgo x y s' hg hs' ((hfa.branch_has _ hc'.1).mono hg) ((hfb.branch_has _ hc'.2).mono hg)
        (by simp only at hx hy; omega)
      exact this.bind fun d s'' _ hs'' hd => .pure hs'' ⟨rfl, hd⟩
  · refine (hgo q r s' hg hs' (hfa.skip_has.mono hg) (hfb.skip_has.mono hg) (by omega)).bind ?_
    rintro skip s'' hg' hs'' ⟨hskip, hm⟩
    refine ((htake.mono hg').ensures_mkNode (k := k) hs'' (pairwise_merge hfa.sorted hfb.sorted) hskip
      (fun v e he m hme => ?_) fun m hmskip => ?_).imp fun d s₃ _ _ hd => ⟨hd.1, fun m => ?_⟩
    · have hc' := mem_of_mem_merge hfa.sorted hfb.sorted he
      cases e with
      | left x => exact hna.branch_isAbove hc' hme
      | right y => exact hnb.branch_isAbove hc' hme
      | both x y => exact hme.elim (hna.branch_isAbove hc'.1) (hnb.branch_isAbove hc'.2)
    · exact ((hm m).1 hmskip).elim hna.skip_isAbove hnb.skip_isAbove
    · rw [hd.2, union_branches_iff hfa.sorted hfb.sorted, hm, mem_node_iff, mem_node_iff]
      exact or_or_or_comm

theorem ensures_unionStep {go : Diagram K V → Diagram K V → StoreM K V (Diagram K V)} {a b : Diagram K V}
    (hs : s.Sound) (ha : s.Has a) (hb : s.Has b) (hab : a.index ≠ b.index) (ha0 : a.index ≠ 0) (hb0 : b.index ≠ 0)
    (hgo : ∀ x y s', s.Grows s' → s'.Sound → s'.Has x → s'.Has y → x.index + y.index < a.index + b.index →
      Ensures (go x y) s' (UnionOf x y)) :
    Ensures (unionStep go a b) s (UnionOf a b) := by
  -- the smaller key becomes the root, with the other diagram united into its skip diagram
  have hright : ∀ {j : Nat} {l : K} {u : List (V × Diagram K V)} {r : Diagram K V}, b = node j l u r → a.IsAbove l →
      Ensures (do mkNode l u (← go a r)) s (UnionOf a b) := by
    rintro j l u r rfl hal
    have hf := hs.fits_of_has hb
    have hlt := hf.skip_lt
    refine ensures_union_swap (ensures_unionSkip hs hb ha hal (ensures_union_swap ?_))
    refine hgo a r s (.refl s) hs ha hf.skip_has ?_
    rw [index_node]
    omega
  cases a with
  | emptySet => exact absurd rfl ha0
  | emptyMap =>
    cases b with
    | emptySet => exact absurd rfl hb0
    | emptyMap => exact absurd rfl hab
    | node j l u r => exact hright rfl trivial
  | node i k t q =>
    cases b with
    | emptySet => exact absurd rfl hb0
    | emptyMap =>
      have hf := hs.fits_of_has ha
      have hlt := hf.skip_lt
      refine ensures_unionSkip hs ha hb trivial (ensures_union_swap (hgo _ _ s (.refl s) hs hb hf.skip_has ?_))
      rw [index_node, index_emptyMap]
      omega
    | node j l u r =>
      cases hkl : compare k l with
      | lt =>
        have hf := hs.fits_of_has ha
        have hlt := hf.skip_lt
        simp only [unionStep, hkl]
        refine ensures_unionSkip hs ha hb hkl (hgo _ _ s (.refl s) hs hf.skip_has hb ?_)
        rw [index_node i]
        omega
      | eq =>
        obtain rfl := Std.LawfulEqCmp.eq_of_compare hkl
        exact ensures_unionMerged hs ha hb hgo
      | gt =>
        simp only [unionStep, hkl]
        exact hright rfl (Std.OrientedCmp.lt_of_gt hkl)

theorem ensures_unionBelow (n : Nat) {a b : Diagram K V} (hs : s.Sound) (ha : s.Has a) (hb : s.Has b)
    (hn : a.index + b.index < n) : Ensures (unionBelow n a b) s (UnionOf a b) := by
  induction n generalizing a b s with
  | zero => omega
  | succ n ih =>
    simp only [unionBelow]
    split
    · rename_i hab
      obtain rfl := ha.eq_of_index hb hab
      exact .pure hs ⟨ha, fun m => (or_self_iff).symm⟩
    · rename_i hab
      split
      · rename_i ha0
        obtain rfl := ha.eq_emptySet (isEmptySet_iff.1 ha0)
        exact .pure hs ⟨hb, fun m => by simp [not_mem_emptySet]⟩
      · rename_i ha0
        split
        · rename_i hb0
          obtain rfl := hb.eq_emptySet (isEmptySet_iff.1 hb0)
          exact .pure hs ⟨ha, fun m => by simp [not_mem_emptySet]⟩
        · rename_i hb0
          rw [isEmptySet_iff] at ha0 hb0
          refine ensures_memoized .union hs ha hb fun x y hxy s' hg hs' => ?_
          have hgo : ∀ x y : Diagram K V, x.index + y.index = a.index + b.index → ∀ x' y' s'', s'.Grows s'' →
              s''.Sound → s''.Has x' → s''.Has y' → x'.index + y'.index < x.index + y.index →
              Ensures (unionBelow n x' y') s'' (UnionOf x' y') :=
            fun x y hsum x' y' s'' _ hs'' hx' hy' hlt => ih hs'' hx' hy' (by omega)
          rcases hxy with ⟨rfl, rfl⟩ | ⟨rfl, rfl⟩
          · exact ensures_unionStep hs' (ha.mono hg) (hb.mono hg) hab ha0 hb0 (hgo x y rfl)
          · exact ensures_unionStep hs' (hb.mono hg) (ha.mono hg) (Ne.symm hab) hb0 ha0 (hgo x y (by omega))

/-- The union denotes the maps of either diagram. -/
theorem ensures_union {a b : Diagram K V} (hs : s.Sound) (ha : s.Has a) (hb : s.Has b) :
    Ensures (union a b) s (UnionOf a b) :=
  ensures_unionBelow _ hs ha hb (Nat.lt_succ_self _)

end TokenNet.Diagram
