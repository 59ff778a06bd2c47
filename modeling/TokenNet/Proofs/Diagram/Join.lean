import TokenNet.Diagram.Join
import TokenNet.Proofs.Diagram.Union

/-!
# What the join denotes

The join of two diagrams of a sound store denotes what a map of one and a map of the other join to: `ensures_join`.  At a
common key the maps bind it on both sides, on one side only, or not at all; `joinMember_node_node_iff` takes the four
cases apart.
-/

namespace TokenNet.Diagram

open Store
open FinMap (Joins)

variable {K V : Type} [Ord K] [Std.TransOrd K]

/-- The maps that a map of `a` and a map of `b` join to. -/
def JoinMember (a b : Diagram K V) (m : FinMap K V) : Prop := ∃ x ∈ a, ∃ y ∈ b, Joins x y m

/-- The maps of a merged branch of a join, where `q` and `r` are the skip diagrams of the two nodes. -/
def JoinMerged (q r : Diagram K V) (e : Merged (Diagram K V)) (m : FinMap K V) : Prop :=
  match e with
  | .left x => JoinMember x r m
  | .right y => JoinMember q y m
  | .both x y => (JoinMember x y m ∨ JoinMember x r m) ∨ JoinMember q y m

/-- The diagrams that are joined for a merged branch. -/
def JoinCall (q r : Diagram K V) (e : Merged (Diagram K V)) (x y : Diagram K V) : Prop :=
  match e with
  | .left z => x = z ∧ y = r
  | .right z => x = q ∧ y = z
  | .both z w => x = z ∧ y = w ∨ x = z ∧ y = r ∨ x = q ∧ y = w

/-- The maps of a node, as those of its branches and of its skip diagram. -/
private theorem exists_mem_node_iff {i : Nat} {k : K} {t : List (V × Diagram K V)} {q : Diagram K V}
    {p : FinMap K V → Prop} :
    (∃ x ∈ node i k t q, p x) ↔ (∃ v c, (v, c) ∈ t ∧ ∃ x ∈ c, p (x.insert k v)) ∨ ∃ x ∈ q, p x := by
  constructor
  · rintro ⟨x, hx, hp⟩
    rcases mem_node_iff.1 hx with ⟨v, c, n, hc, hn, rfl⟩ | hx
    · exact .inl ⟨v, c, hc, n, hn, hp⟩
    · exact .inr ⟨x, hx, hp⟩
  · rintro (⟨v, c, hc, n, hn, hp⟩ | ⟨x, hx, hp⟩)
    · exact ⟨_, .take hc hn, hp⟩
    · exact ⟨x, .skip hx, hp⟩

variable [Std.LawfulEqOrd K]

theorem joinMember_comm {a b : Diagram K V} {m : FinMap K V} : JoinMember a b m ↔ JoinMember b a m :=
  Operation.yields_comm .join

theorem joinMember_emptyMap_left {b : Diagram K V} {m : FinMap K V} : JoinMember .emptyMap b m ↔ m ∈ b := by
  constructor
  · rintro ⟨x, hx, y, hy, h⟩
    rw [mem_emptyMap_iff.1 hx, FinMap.joins_empty_left] at h
    rwa [h]
  · exact fun hm => ⟨∅, .emptyMap, m, hm, FinMap.joins_empty_left.2 rfl⟩

theorem JoinMember.isAbove {a b : Diagram K V} {m : FinMap K V} {k : K} (h : JoinMember a b m)
    (ha : ∀ x ∈ a, x.IsAbove k) (hb : ∀ y ∈ b, y.IsAbove k) : m.IsAbove k := by
  obtain ⟨x, hx, y, hy, hj⟩ := h
  exact hj.isAbove (ha x hx) (hb y hy)

/-! ### Joining at the key of a node -/

/-- A branch joined with maps above its key. -/
private theorem exists_join_insert_iff {c b : Diagram K V} {k : K} {v : V} {m : FinMap K V}
    (hc : ∀ x ∈ c, x.IsAbove k) (hb : ∀ y ∈ b, y.IsAbove k) :
    (∃ x ∈ c, ∃ y ∈ b, Joins (x.insert k v) y m) ↔ ∃ n, JoinMember c b n ∧ m = n.insert k v := by
  have hnone : ∀ {x : FinMap K V}, x.IsAbove k → x.get? k = none := fun h => h.get?_eq_none (by simp)
  constructor
  · rintro ⟨x, hx, y, hy, h⟩
    obtain ⟨n, -, rfl, hn⟩ := (FinMap.joins_insert_left (hnone (hc x hx)) (hnone (hb y hy))).1 h
    exact ⟨n, ⟨x, hx, y, hy, hn⟩, rfl⟩
  · rintro ⟨n, ⟨x, hx, y, hy, hn⟩, rfl⟩
    have hxk := hnone (hc x hx)
    have hyk := hnone (hb y hy)
    exact ⟨x, hx, y, hy, (FinMap.joins_insert_left hxk hyk).2 ⟨n, hn.get?_eq_none hxk hyk, rfl, hn⟩⟩

private theorem exists_join_insert_both_iff {c e : Diagram K V} {k : K} {v w : V} {m : FinMap K V}
    (hc : ∀ x ∈ c, x.IsAbove k) (he : ∀ y ∈ e, y.IsAbove k) :
    (∃ x ∈ c, ∃ y ∈ e, Joins (x.insert k v) (y.insert k w) m) ↔ v = w ∧ ∃ n, JoinMember c e n ∧ m = n.insert k v := by
  have hnone : ∀ {x : FinMap K V}, x.IsAbove k → x.get? k = none := fun h => h.get?_eq_none (by simp)
  constructor
  · rintro ⟨x, hx, y, hy, h⟩
    obtain ⟨rfl, n, -, rfl, hn⟩ := (FinMap.joins_insert_both (hnone (hc x hx)) (hnone (he y hy))).1 h
    exact ⟨rfl, n, ⟨x, hx, y, hy, hn⟩, rfl⟩
  · rintro ⟨rfl, n, ⟨x, hx, y, hy, hn⟩, rfl⟩
    have hxk := hnone (hc x hx)
    have hyk := hnone (he y hy)
    exact ⟨x, hx, y, hy, (FinMap.joins_insert_both hxk hyk).2 ⟨rfl, n, hn.get?_eq_none hxk hyk, rfl, hn⟩⟩

variable [Ord V]

section Node

variable {i j : Nat} {k : K} {t u : List (V × Diagram K V)} {q r b : Diagram K V}

/-- A node joined with a diagram above its key. -/
private theorem joinMember_node_iff (ha : (node i k t q).Normal) (hb : ∀ y ∈ b, y.IsAbove k) {m : FinMap K V} :
    JoinMember (node i k t q) b m ↔
      (∃ v c n, (v, c) ∈ t ∧ JoinMember c b n ∧ m = n.insert k v) ∨ JoinMember q b m := by
  unfold JoinMember
  rw [exists_mem_node_iff]
  refine or_congr ⟨?_, ?_⟩ Iff.rfl
  · rintro ⟨v, c, hc, h⟩
    obtain ⟨n, hn, rfl⟩ := (exists_join_insert_iff (fun x hx => ha.branch_isAbove hc hx) hb).1 h
    exact ⟨v, c, n, hc, hn, rfl⟩
  · rintro ⟨v, c, n, hc, hn, rfl⟩
    exact ⟨v, c, hc, (exists_join_insert_iff (fun x hx => ha.branch_isAbove hc hx) hb).2 ⟨n, hn, rfl⟩⟩

/-- Two nodes with the same key: both maps bind it, or only the left one, or only the right one, or neither. -/
private theorem joinMember_node_node_iff (ha : (node i k t q).Normal) (hb : (node j k u r).Normal) {m : FinMap K V} :
    JoinMember (node i k t q) (node j k u r) m ↔
      ((∃ v x y n, (v, x) ∈ t ∧ (v, y) ∈ u ∧ JoinMember x y n ∧ m = n.insert k v) ∨
        (∃ v x n, (v, x) ∈ t ∧ JoinMember x r n ∧ m = n.insert k v) ∨
        ∃ v y n, (v, y) ∈ u ∧ JoinMember q y n ∧ m = n.insert k v) ∨ JoinMember q r m := by
  have hq : ∀ x ∈ q, x.IsAbove k := fun x hx => ha.skip_isAbove hx
  have hr : ∀ y ∈ r, y.IsAbove k := fun y hy => hb.skip_isAbove hy
  have hright : (∃ x ∈ q, ∃ y ∈ node j k u r, Joins x y m) ↔
      (∃ v y n, (v, y) ∈ u ∧ JoinMember q y n ∧ m = n.insert k v) ∨ JoinMember q r m := by
    change JoinMember q (node j k u r) m ↔ _
    rw [joinMember_comm, joinMember_node_iff hb hq, joinMember_comm]
    simp only [joinMember_comm (a := q)]
  have hleft : (∃ v x, (v, x) ∈ t ∧ ∃ x' ∈ x, ∃ y ∈ node j k u r, Joins (x'.insert k v) y m) ↔
      (∃ v x y n, (v, x) ∈ t ∧ (v, y) ∈ u ∧ JoinMember x y n ∧ m = n.insert k v) ∨
        ∃ v x n, (v, x) ∈ t ∧ JoinMember x r n ∧ m = n.insert k v := by
    constructor
    · rintro ⟨v, x, hx, x', hx', h⟩
      rcases exists_mem_node_iff.1 h with ⟨w, y, hy, y', hy', h⟩ | ⟨y', hy', h⟩
      · obtain ⟨rfl, n, hn, rfl⟩ := (exists_join_insert_both_iff (fun x' hx' => ha.branch_isAbove hx hx')
          (fun y' hy' => hb.branch_isAbove hy hy')).1 ⟨x', hx', y', hy', h⟩
        exact .inl ⟨v, x, y, n, hx, hy, hn, rfl⟩
      · obtain ⟨n, hn, rfl⟩ := (exists_join_insert_iff (fun x' hx' => ha.branch_isAbove hx hx') hr).1
          ⟨x', hx', y', hy', h⟩
        exact .inr ⟨v, x, n, hx, hn, rfl⟩
    · rintro (⟨v, x, y, n, hx, hy, hn, rfl⟩ | ⟨v, x, n, hx, hn, rfl⟩)
      · obtain ⟨x', hx', y', hy', h⟩ := (exists_join_insert_both_iff (w := v)
          (fun x' hx' => ha.branch_isAbove hx hx') (fun y' hy' => hb.branch_isAbove hy hy')).2 ⟨rfl, n, hn, rfl⟩
        exact ⟨v, x, hx, x', hx', _, .take hy hy', h⟩
      · obtain ⟨x', hx', y', hy', h⟩ :=
          (exists_join_insert_iff (fun x' hx' => ha.branch_isAbove hx hx') hr).2 ⟨n, hn, rfl⟩
        exact ⟨v, x, hx, x', hx', y', .skip hy', h⟩
  unfold JoinMember at hright ⊢
  rw [exists_mem_node_iff, hleft, hright]
  simp only [JoinMember, or_assoc]

variable [Std.TransOrd V] [Std.LawfulEqOrd V]

omit [Std.LawfulEqOrd K] in
/-- The merged branches of a join, by the sides that bind the key. -/
private theorem join_branches_iff (ht : t.Pairwise fun a b => compare a.1 b.1 = .lt)
    (hu : u.Pairwise fun a b => compare a.1 b.1 = .lt) {m : FinMap K V} :
    (∃ v e n, (v, e) ∈ merge t u ∧ JoinMerged q r e n ∧ m = n.insert k v) ↔
      (∃ v x y n, (v, x) ∈ t ∧ (v, y) ∈ u ∧ JoinMember x y n ∧ m = n.insert k v) ∨
        (∃ v x n, (v, x) ∈ t ∧ JoinMember x r n ∧ m = n.insert k v) ∨
        ∃ v y n, (v, y) ∈ u ∧ JoinMember q y n ∧ m = n.insert k v := by
  have hmt : ∀ {v : V} {c : Diagram K V}, (v, c) ∈ t ↔ FinMap.lookup v t = some c :=
    FinMap.mem_entries_iff (m := ⟨t, ht⟩)
  have hmu : ∀ {v : V} {c : Diagram K V}, (v, c) ∈ u ↔ FinMap.lookup v u = some c :=
    FinMap.mem_entries_iff (m := ⟨u, hu⟩)
  simp only [mem_merge_iff ht hu]
  constructor
  · rintro ⟨v, e, n, he, hn, rfl⟩
    have hside := mem_of_mem_merge ht hu ((mem_merge_iff ht hu).2 he)
    cases e with
    | left x => exact .inr (.inl ⟨v, x, n, hside, hn, rfl⟩)
    | right y => exact .inr (.inr ⟨v, y, n, hside, hn, rfl⟩)
    | both x y =>
      rcases hn with (hn | hn) | hn
      · exact .inl ⟨v, x, y, n, hside.1, hside.2, hn, rfl⟩
      · exact .inr (.inl ⟨v, x, n, hside.1, hn, rfl⟩)
      · exact .inr (.inr ⟨v, y, n, hside.2, hn, rfl⟩)
  · rintro (⟨v, x, y, n, hx, hy, hn, rfl⟩ | ⟨v, x, n, hx, hn, rfl⟩ | ⟨v, y, n, hy, hn, rfl⟩)
    · rw [hmt] at hx
      rw [hmu] at hy
      exact ⟨v, .both x y, n, by rw [hx, hy]; rfl, .inl (.inl hn), rfl⟩
    · rw [hmt] at hx
      cases hy : FinMap.lookup v u with
      | none => exact ⟨v, .left x, n, by rw [hx, hy]; rfl, hn, rfl⟩
      | some y => exact ⟨v, .both x y, n, by rw [hx, hy]; rfl, .inl (.inr hn), rfl⟩
    · rw [hmu] at hy
      cases hx : FinMap.lookup v t with
      | none => exact ⟨v, .right y, n, by rw [hx, hy]; rfl, hn, rfl⟩
      | some x => exact ⟨v, .both x y, n, by rw [hx, hy]; rfl, .inr hn, rfl⟩

end Node

variable [Std.TransOrd V] [Std.LawfulEqOrd V] {s : Store K V}

/-- What the join of two diagrams is to yield. -/
abbrev JoinOf (a b d : Diagram K V) (s : Store K V) : Prop := s.Has d ∧ ∀ m, m ∈ d ↔ JoinMember a b m

/-! ### The steps -/

/-- A node, all of whose parts are joined with a diagram above its key. -/
private theorem ensures_joinBranches {go : Diagram K V → Diagram K V → StoreM K V (Diagram K V)} {i : Nat} {k : K}
    {t : List (V × Diagram K V)} {q b : Diagram K V} {x : StoreM K V (Diagram K V)} (hs : s.Sound)
    (ha : s.Has (node i k t q)) (hb : s.Has b) (hbk : b.IsAbove k)
    (hgo : ∀ c ∈ t, ∀ s', s.Grows s' → s'.Sound → Ensures (go c.2 b) s' (JoinOf c.2 b))
    (hx : ∀ s', s.Grows s' → s'.Sound → Ensures x s' (JoinOf q b)) :
    Ensures (do
      let take ← joinBranches go t b
      mkNode k take (← x)) s (JoinOf (node i k t q) b) := by
  have hf := hs.fits_of_has ha
  have hna := hs.normal ha
  have hbabove : ∀ y ∈ b, y.IsAbove k := fun y hy => (hs.normal hb).isAbove_of_mem hbk hy
  unfold joinBranches
  refine (ensures_branches (fun _ c => JoinMember c b) hs fun c hc s' hg hs' => ?_).bind ?_
  · exact (hgo c hc s' hg hs').bind fun d s'' _ hs'' ⟨hd, hm⟩ => .pure hs'' ⟨rfl, hd, hm⟩
  · intro take s' hg hs' htake
    refine (hx s' hg hs').bind fun skip s'' hg' hs'' ⟨hskip, hm⟩ => ?_
    refine ((htake.mono hg').ensures_mkNode (k := k) hs'' hf.sorted hskip (fun v c hc m hmc => ?_)
      fun m hmskip => ?_).imp fun d s₃ _ _ ⟨hd, hmem⟩ => ⟨hd, fun m => ?_⟩
    · exact hmc.isAbove (fun x hx => hna.branch_isAbove hc hx) hbabove
    · exact ((hm m).1 hmskip).isAbove (fun x hx => hna.skip_isAbove hx) hbabove
    · rw [hmem, hm, joinMember_node_iff hna hbabove]

theorem ensures_joinMerged {go : Diagram K V → Diagram K V → StoreM K V (Diagram K V)} {q r : Diagram K V}
    {e : Merged (Diagram K V)} (hs : s.Sound)
    (hgo : ∀ x y s', s.Grows s' → s'.Sound → JoinCall q r e x y → Ensures (go x y) s' (JoinOf x y)) :
    Ensures (joinMerged go q r e) s fun d s' => s'.Has d ∧ ∀ m, m ∈ d ↔ JoinMerged q r e m := by
  cases e with
  | left x => exact hgo x r s (.refl s) hs ⟨rfl, rfl⟩
  | right y => exact hgo q y s (.refl s) hs ⟨rfl, rfl⟩
  | both x y =>
    unfold joinMerged
    refine (hgo x y s (.refl s) hs (.inl ⟨rfl, rfl⟩)).bind fun both s₁ hg₁ hs₁ ⟨hboth, hm₁⟩ => ?_
    refine (hgo x r s₁ hg₁ hs₁ (.inr (.inl ⟨rfl, rfl⟩))).bind fun xr s₂ hg₂ hs₂ ⟨hxr, hm₂⟩ => ?_
    refine (ensures_union hs₂ (hboth.mono hg₂) hxr).bind fun left s₃ hg₃ hs₃ ⟨hleft, hm₃⟩ => ?_
    have hg := (hg₁.trans hg₂).trans hg₃
    refine (hgo q y s₃ hg hs₃ (.inr (.inr ⟨rfl, rfl⟩))).bind fun qy s₄ hg₄ hs₄ ⟨hqy, hm₄⟩ => ?_
    refine (ensures_union hs₄ (hleft.mono hg₄) hqy).imp fun d s₅ _ _ ⟨hd, hm₅⟩ => ⟨hd, fun m => ?_⟩
    rw [hm₅, hm₃, hm₁, hm₂, hm₄]
    rfl

omit [Std.LawfulEqOrd K] in
/-- The diagrams that are joined for a merged branch have indices below those of the nodes. -/
theorem joinMerged_calls {i j : Nat} {k l : K} {t u : List (V × Diagram K V)} {q r : Diagram K V}
    {C : Diagram K V → Diagram K V → Store K V → Prop} (hfa : s.Fits i k t q) (hfb : s.Fits j l u r)
    {c : V × Merged (Diagram K V)} (hc : c ∈ merge t u)
    (hgo : ∀ x y s', s.Grows s' → s'.Sound → s'.Has x → s'.Has y → x.index + y.index < i + j → C x y s') :
    ∀ x y s', s.Grows s' → s'.Sound → JoinCall q r c.2 x y → C x y s' := by
  intro x y s' hg hs' hxy
  have hqi := hfa.skip_lt
  have hrj := hfb.skip_lt
  have hq := hfa.skip_has.mono hg
  have hr := hfb.skip_has.mono hg
  have hside := mem_of_mem_merge hfa.sorted hfb.sorted hc
  obtain ⟨v, e⟩ := c
  cases e with
  | left z =>
    obtain ⟨rfl, rfl⟩ := hxy
    have hzi := hfa.branch_lt _ hside
    exact hgo _ _ s' hg hs' ((hfa.branch_has _ hside).mono hg) hr (by simp only at hzi; omega)
  | right z =>
    obtain ⟨rfl, rfl⟩ := hxy
    have hzj := hfb.branch_lt _ hside
    exact hgo _ _ s' hg hs' hq ((hfb.branch_has _ hside).mono hg) (by simp only at hzj; omega)
  | both z w =>
    have hzi := hfa.branch_lt _ hside.1
    have hwj := hfb.branch_lt _ hside.2
    have hz := (hfa.branch_has _ hside.1).mono hg
    have hw := (hfb.branch_has _ hside.2).mono hg
    simp only at hzi hwj
    rcases hxy with ⟨rfl, rfl⟩ | ⟨rfl, rfl⟩ | ⟨rfl, rfl⟩
    · exact hgo _ _ s' hg hs' hz hw (by omega)
    · exact hgo _ _ s' hg hs' hz hr (by omega)
    · exact hgo _ _ s' hg hs' hq hw (by omega)

/-- Two nodes with the same key: the branches are merged by their values. -/
private theorem ensures_joinNodes {go : Diagram K V → Diagram K V → StoreM K V (Diagram K V)} {i j : Nat} {k : K}
    {t u : List (V × Diagram K V)} {q r : Diagram K V} (hs : s.Sound) (ha : s.Has (node i k t q))
    (hb : s.Has (node j k u r))
    (hgo : ∀ x y s', s.Grows s' → s'.Sound → s'.Has x → s'.Has y → x.index + y.index < i + j →
      Ensures (go x y) s' (JoinOf x y)) :
    Ensures (joinStep go (node i k t q) (node j k u r)) s (JoinOf (node i k t q) (node j k u r)) := by
  have hfa := hs.fits_of_has ha
  have hfb := hs.fits_of_has hb
  have hqi := hfa.skip_lt
  have hrj := hfb.skip_lt
  have hna := hs.normal ha
  have hnb := hs.normal hb
  have hq : ∀ x ∈ q, x.IsAbove k := fun x hx => hna.skip_isAbove hx
  have hr : ∀ y ∈ r, y.IsAbove k := fun y hy => hnb.skip_isAbove hy
  simp only [joinStep, Std.ReflOrd.compare_self]
  refine (ensures_branches (fun _ => JoinMerged q r) hs fun c hc s' hg hs' => ?_).bind fun take s' hg hs' htake => ?_
  · refine (ensures_joinMerged (q := q) (r := r) hs' fun x y s'' hg' hs'' hxy => ?_).bind
      fun d s'' _ hs'' ⟨hd, hm⟩ => .pure hs'' ⟨rfl, hd, hm⟩
    exact joinMerged_calls hfa hfb hc hgo x y s'' (hg.trans hg') hs'' hxy
  · refine (hgo q r s' hg hs' (hfa.skip_has.mono hg) (hfb.skip_has.mono hg) (by omega)).bind ?_
    intro skip s'' hg' hs'' ⟨hskip, hm⟩
    refine ((htake.mono hg').ensures_mkNode (k := k) hs'' (pairwise_merge hfa.sorted hfb.sorted) hskip
      (fun v e he m hme => ?_) fun m hmskip => ?_).imp fun d s₃ _ _ ⟨hd, hmem⟩ => ⟨hd, fun m => ?_⟩
    · have hside := mem_of_mem_merge hfa.sorted hfb.sorted he
      cases e with
      | left x => exact hme.isAbove (fun z hz => hna.branch_isAbove hside hz) hr
      | right y => exact hme.isAbove hq fun z hz => hnb.branch_isAbove hside hz
      | both x y =>
        have hx : ∀ z ∈ x, z.IsAbove k := fun z hz => hna.branch_isAbove hside.1 hz
        have hy : ∀ z ∈ y, z.IsAbove k := fun z hz => hnb.branch_isAbove hside.2 hz
        rcases hme with (hme | hme) | hme
        · exact hme.isAbove hx hy
        · exact hme.isAbove hx hr
        · exact hme.isAbove hq hy
    · exact ((hm m).1 hmskip).isAbove hq hr
    · rw [hmem, join_branches_iff hfa.sorted hfb.sorted, hm, joinMember_node_node_iff hna hnb]

theorem ensures_joinStep {go : Diagram K V → Diagram K V → StoreM K V (Diagram K V)} {i j : Nat} {k l : K}
    {t u : List (V × Diagram K V)} {q r : Diagram K V} (hs : s.Sound) (ha : s.Has (node i k t q))
    (hb : s.Has (node j l u r))
    (hgo : ∀ x y s', s.Grows s' → s'.Sound → s'.Has x → s'.Has y → x.index + y.index < i + j →
      Ensures (go x y) s' (JoinOf x y)) :
    Ensures (joinStep go (node i k t q) (node j l u r)) s (JoinOf (node i k t q) (node j l u r)) := by
  have hfa := hs.fits_of_has ha
  have hfb := hs.fits_of_has hb
  have hqi := hfa.skip_lt
  have hrj := hfb.skip_lt
  cases hkl : compare k l with
  | lt =>
    simp only [joinStep, hkl]
    refine ensures_joinBranches hs ha hb hkl (fun c hc s' hg hs' => ?_) fun s' hg hs' => ?_
    · have hci := hfa.branch_lt c hc
      exact hgo _ _ s' hg hs' ((hfa.branch_has c hc).mono hg) (hb.mono hg) (by simp only [index_node]; omega)
    · exact hgo _ _ s' hg hs' (hfa.skip_has.mono hg) (hb.mono hg) (by simp only [index_node]; omega)
  | eq =>
    obtain rfl := Std.LawfulEqCmp.eq_of_compare hkl
    exact ensures_joinNodes hs ha hb hgo
  | gt =>
    simp only [joinStep, hkl]
    refine (ensures_joinBranches (q := r) hs hb ha (Std.OrientedCmp.lt_of_gt hkl) (fun c hc s' hg hs' => ?_)
      fun s' hg hs' => ?_).imp fun d s' _ _ ⟨hd, hm⟩ => ⟨hd, fun m => (hm m).trans joinMember_comm⟩
    · have hcj := hfb.branch_lt c hc
      exact hgo _ _ s' hg hs' ((hfb.branch_has c hc).mono hg) (ha.mono hg) (by simp only [index_node]; omega)
    · exact hgo _ _ s' hg hs' (hfb.skip_has.mono hg) (ha.mono hg) (by simp only [index_node]; omega)

theorem ensures_joinBelow (n : Nat) {a b : Diagram K V} (hs : s.Sound) (ha : s.Has a) (hb : s.Has b)
    (hn : a.index + b.index < n) : Ensures (joinBelow n a b) s (JoinOf a b) := by
  induction n generalizing a b s with
  | zero => omega
  | succ n ih =>
    match a, b with
    | .emptySet, b => exact .pure hs ⟨has_emptySet, fun m => by simp [JoinMember, not_mem_emptySet]⟩
    | .emptyMap, .emptySet => exact .pure hs ⟨has_emptySet, fun m => by simp [JoinMember, not_mem_emptySet]⟩
    | .node i k t q, .emptySet => exact .pure hs ⟨has_emptySet, fun m => by simp [JoinMember, not_mem_emptySet]⟩
    | .emptyMap, .emptyMap => exact .pure hs ⟨hb, fun m => joinMember_emptyMap_left.symm⟩
    | .emptyMap, .node j l u r => exact .pure hs ⟨hb, fun m => joinMember_emptyMap_left.symm⟩
    | .node i k t q, .emptyMap =>
      exact .pure hs ⟨ha, fun m => joinMember_emptyMap_left.symm.trans joinMember_comm⟩
    | .node i k t q, .node j l u r =>
      refine ensures_memoized .join hs ha hb fun x y hxy s' hg hs' => ?_
      simp only [index_node] at hn
      rcases hxy with ⟨rfl, rfl⟩ | ⟨rfl, rfl⟩
      · exact ensures_joinStep hs' (ha.mono hg) (hb.mono hg) fun x y s'' _ hs'' hx hy hlt => ih hs'' hx hy (by omega)
      · exact ensures_joinStep hs' (hb.mono hg) (ha.mono hg) fun x y s'' _ hs'' hx hy hlt => ih hs'' hx hy (by omega)

/-- The join denotes what a map of one diagram and a map of the other join to. -/
theorem ensures_join {a b : Diagram K V} (hs : s.Sound) (ha : s.Has a) (hb : s.Has b) :
    Ensures (join a b) s (JoinOf a b) :=
  ensures_joinBelow _ hs ha hb (Nat.lt_succ_self _)

end TokenNet.Diagram
