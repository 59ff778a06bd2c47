import TokenNet.Proofs.Diagram.Making

/-!
# Branches

Merging sorted branches keeps them sorted and says of each value where its branches come from: `pairwise_merge`,
`mem_merge_iff`.  `Denotes s den l r` says that the branches `r` have the values of the list `l` and denote what `den`
says of its elements; `ensures_branches` is how such branches are computed.
-/

namespace TokenNet.Diagram

/-! ### Merging branches -/

section Merge

variable {V D : Type} [Ord V] {t u : List (V × D)}

/-- What becomes of the branches of a value. -/
def Merged.of? : Option D → Option D → Option (Merged D)
  | none, none => none
  | some x, none => some (.left x)
  | none, some y => some (.right y)
  | some x, some y => some (.both x y)

theorem merge_nil (u : List (V × D)) : merge [] u = u.map fun y => (y.1, .right y.2) := rfl

theorem merge_cons_nil (v : V) (x : D) (t : List (V × D)) : merge ((v, x) :: t) [] = (v, .left x) :: merge t [] := rfl

theorem merge_cons_cons (v w : V) (x y : D) (t u : List (V × D)) :
    merge ((v, x) :: t) ((w, y) :: u) = match compare v w with
      | .lt => (v, .left x) :: merge t ((w, y) :: u)
      | .eq => (v, .both x y) :: merge t u
      | .gt => (w, .right y) :: merge ((v, x) :: t) u := rfl

private theorem lookup_cons (a v : V) {E : Type} (e : E) (l : List (V × E)) :
    FinMap.lookup a ((v, e) :: l) = if compare a v = .eq then some e else FinMap.lookup a l := rfl

/-- The values of merged branches are those of the branches. -/
theorem exists_mem_of_mem_merge {b : V × Merged D} (hb : b ∈ merge t u) :
    (∃ x, (b.1, x) ∈ t) ∨ ∃ y, (b.1, y) ∈ u := by
  induction t generalizing u with
  | nil =>
    obtain ⟨y, hy, rfl⟩ := List.mem_map.1 hb
    exact .inr ⟨y.2, hy⟩
  | cons a t iht =>
    obtain ⟨v, x⟩ := a
    have hlift : ∀ {w : V}, (∃ x, (w, x) ∈ t) → ∃ y, (w, y) ∈ (v, x) :: t :=
      fun ⟨y, hy⟩ => ⟨y, List.mem_cons_of_mem _ hy⟩
    induction u with
    | nil =>
      rw [merge_cons_nil] at hb
      rcases List.mem_cons.1 hb with rfl | hb
      · exact .inl ⟨x, List.mem_cons_self⟩
      · exact (iht hb).imp_left hlift
    | cons c u ihu =>
      obtain ⟨w, y⟩ := c
      rw [merge_cons_cons] at hb
      split at hb
      · rcases List.mem_cons.1 hb with rfl | hb
        · exact .inl ⟨x, List.mem_cons_self⟩
        · exact (iht hb).imp_left hlift
      · rcases List.mem_cons.1 hb with rfl | hb
        · exact .inl ⟨x, List.mem_cons_self⟩
        · exact (iht hb).imp hlift fun ⟨z, hz⟩ => ⟨z, List.mem_cons_of_mem _ hz⟩
      · rcases List.mem_cons.1 hb with rfl | hb
        · exact .inr ⟨y, List.mem_cons_self⟩
        · exact (ihu hb).imp_right fun ⟨z, hz⟩ => ⟨z, List.mem_cons_of_mem _ hz⟩

variable [Std.TransOrd V]

theorem pairwise_merge (ht : t.Pairwise fun a b => compare a.1 b.1 = .lt)
    (hu : u.Pairwise fun a b => compare a.1 b.1 = .lt) : (merge t u).Pairwise fun a b => compare a.1 b.1 = .lt := by
  induction t generalizing u with
  | nil => exact List.pairwise_map.2 hu
  | cons a t iht =>
    obtain ⟨v, x⟩ := a
    obtain ⟨hv, ht'⟩ := List.pairwise_cons.1 ht
    -- the values behind the first one are greater in either list
    have hcons : ∀ {e : Merged D} {w : V} {t u : List (V × D)}, (∀ b ∈ t, compare w b.1 = .lt) →
        (∀ b ∈ u, compare w b.1 = .lt) → (merge t u).Pairwise (fun a b => compare a.1 b.1 = .lt) →
        ((w, e) :: merge t u).Pairwise fun a b => compare a.1 b.1 = .lt := by
      intro e w t u hwt hwu hp
      refine List.pairwise_cons.2 ⟨fun b hb => ?_, hp⟩
      rcases exists_mem_of_mem_merge hb with ⟨z, hz⟩ | ⟨z, hz⟩
      · exact hwt _ hz
      · exact hwu _ hz
    induction u with
    | nil => exact hcons hv (by simp) (iht ht' hu)
    | cons c u ihu =>
      obtain ⟨w, y⟩ := c
      obtain ⟨hw, hu'⟩ := List.pairwise_cons.1 hu
      rw [merge_cons_cons]
      split
      · rename_i hvw
        exact hcons hv (FinMap.lt_of_mem_cons hvw hw) (iht ht' hu)
      · rename_i hvw
        exact hcons hv (fun b hb => Std.TransCmp.lt_of_eq_of_lt hvw (hw b hb)) (iht ht' hu')
      · rename_i hvw
        exact hcons (FinMap.lt_of_mem_cons (Std.OrientedCmp.lt_of_gt hvw) hv) hw (ihu hu')

variable [Std.LawfulEqOrd V]

theorem lookup_merge (ht : t.Pairwise fun a b => compare a.1 b.1 = .lt)
    (hu : u.Pairwise fun a b => compare a.1 b.1 = .lt) (a : V) :
    FinMap.lookup a (merge t u) = Merged.of? (FinMap.lookup a t) (FinMap.lookup a u) := by
  induction t generalizing u with
  | nil =>
    rw [merge_nil]
    induction u with
    | nil => rfl
    | cons c u ih =>
      rw [List.map_cons, lookup_cons, lookup_cons, ih (List.pairwise_cons.1 hu).2]
      split <;> rfl
  | cons b t iht =>
    obtain ⟨v, x⟩ := b
    obtain ⟨hv, ht'⟩ := List.pairwise_cons.1 ht
    have hvt := FinMap.lookup_eq_none_of_lt hv
    induction u with
    | nil =>
      rw [merge_cons_nil, lookup_cons, lookup_cons, iht ht' hu]
      split <;> rfl
    | cons c u ihu =>
      obtain ⟨w, y⟩ := c
      obtain ⟨hw, hu'⟩ := List.pairwise_cons.1 hu
      have hwu := FinMap.lookup_eq_none_of_lt hw
      rw [merge_cons_cons]
      split
      · rename_i hvw
        have hvu := FinMap.lookup_eq_none_of_lt (FinMap.lt_of_mem_cons (w := y) hvw hw)
        rw [lookup_cons, iht ht' hu, lookup_cons a v]
        split
        · rename_i hav
          rw [Std.LawfulEqCmp.eq_of_compare hav, hvu]
          rfl
        · rfl
      · rename_i hvw
        obtain rfl := Std.LawfulEqCmp.eq_of_compare hvw
        rw [lookup_cons, iht ht' hu', lookup_cons a v, lookup_cons a v]
        split <;> rfl
      · rename_i hvw
        have hwt := FinMap.lookup_eq_none_of_lt (FinMap.lt_of_mem_cons (w := x) (Std.OrientedCmp.lt_of_gt hvw) hv)
        rw [lookup_cons, ihu hu', lookup_cons a w]
        split
        · rename_i haw
          rw [Std.LawfulEqCmp.eq_of_compare haw, hwt]
          rfl
        · rfl

/-- The branches of two lists, value by value. -/
theorem mem_merge_iff (ht : t.Pairwise fun a b => compare a.1 b.1 = .lt)
    (hu : u.Pairwise fun a b => compare a.1 b.1 = .lt) {v : V} {e : Merged D} :
    (v, e) ∈ merge t u ↔ Merged.of? (FinMap.lookup v t) (FinMap.lookup v u) = some e := by
  rw [← lookup_merge ht hu]
  exact FinMap.mem_entries_iff (m := ⟨merge t u, pairwise_merge ht hu⟩)

/-- The branches that a merged branch comes from. -/
theorem mem_of_mem_merge (ht : t.Pairwise fun a b => compare a.1 b.1 = .lt)
    (hu : u.Pairwise fun a b => compare a.1 b.1 = .lt) {v : V} {e : Merged D} (h : (v, e) ∈ merge t u) :
    match e with
    | .left x => (v, x) ∈ t
    | .right y => (v, y) ∈ u
    | .both x y => (v, x) ∈ t ∧ (v, y) ∈ u := by
  have hmt : ∀ {c : D}, FinMap.lookup v t = some c → (v, c) ∈ t :=
    fun h => (FinMap.mem_entries_iff (m := ⟨t, ht⟩)).2 h
  have hmu : ∀ {c : D}, FinMap.lookup v u = some c → (v, c) ∈ u :=
    fun h => (FinMap.mem_entries_iff (m := ⟨u, hu⟩)).2 h
  rw [mem_merge_iff ht hu] at h
  cases hx : FinMap.lookup v t <;> cases hy : FinMap.lookup v u <;> simp only [hx, hy, Merged.of?] at h
  · cases h
  · cases h
    exact hmu hy
  · cases h
    exact hmt hx
  · cases h
    exact ⟨hmt hx, hmu hy⟩

end Merge

/-! ### Branches of the diagrams of a store -/

variable {K V : Type} [Ord K] [Ord V] [Std.TransOrd K]

/-- The branches have the values of a list, and denote what is said of its elements. -/
def Denotes {E : Type} (s : Store K V) (den : V → E → FinMap K V → Prop) (l : List (V × E))
    (r : List (V × Diagram K V)) : Prop :=
  List.Forall₂ (fun b d => d.1 = b.1 ∧ s.Has d.2 ∧ ∀ m, m ∈ d.2 ↔ den b.1 b.2 m) l r

section Denotes

variable {E : Type} {s s' : Store K V} {den : V → E → FinMap K V → Prop} {l : List (V × E)} {r : List (V × Diagram K V)}

theorem Denotes.mono (h : Denotes s den l r) (hg : s.Grows s') : Denotes s' den l r :=
  List.Forall₂.imp (fun _ _ ⟨hv, hd, hm⟩ => ⟨hv, hd.mono hg, hm⟩) h

theorem Denotes.values_eq (h : Denotes s den l r) : r.map Prod.fst = l.map Prod.fst := by
  induction h with
  | nil => rfl
  | cons hb _ ih => rw [List.map_cons, List.map_cons, hb.1, ih]

theorem Denotes.pairwise (h : Denotes s den l r) (hl : l.Pairwise fun a b => compare a.1 b.1 = .lt) :
    r.Pairwise fun a b => compare a.1 b.1 = .lt := by
  have hv : (l.map Prod.fst).Pairwise fun a b => compare a b = .lt := List.pairwise_map.2 hl
  rw [← h.values_eq] at hv
  exact List.pairwise_map.1 hv

theorem Denotes.exists_of_mem (h : Denotes s den l r) {d : V × Diagram K V} (hd : d ∈ r) :
    s.Has d.2 ∧ ∃ e, (d.1, e) ∈ l ∧ ∀ m, m ∈ d.2 ↔ den d.1 e m := by
  induction h with
  | nil => simp at hd
  | @cons b c l r hb _ ih =>
    rcases List.mem_cons.1 hd with rfl | hd
    · rw [hb.1]
      exact ⟨hb.2.1, b.2, List.mem_cons_self, hb.2.2⟩
    · obtain ⟨hs, e, he, hm⟩ := ih hd
      exact ⟨hs, e, List.mem_cons_of_mem _ he, hm⟩

theorem Denotes.exists_branch (h : Denotes s den l r) {v : V} {e : E} (he : (v, e) ∈ l) :
    ∃ d, (v, d) ∈ r ∧ ∀ m, m ∈ d ↔ den v e m := by
  induction h with
  | nil => simp at he
  | @cons b c l r hb _ ih =>
    rcases List.mem_cons.1 he with rfl | he
    · obtain rfl : c.1 = v := hb.1
      exact ⟨c.2, List.mem_cons_self, hb.2.2⟩
    · obtain ⟨d, hd, hm⟩ := ih he
      exact ⟨d, List.mem_cons_of_mem _ hd, hm⟩

theorem Denotes.inBranches_iff (h : Denotes s den l r) {k : K} {m : FinMap K V} :
    InBranches k r m ↔ ∃ v e n, (v, e) ∈ l ∧ den v e n ∧ m = n.insert k v := by
  constructor
  · rintro ⟨v, d, n, hd, hn, rfl⟩
    obtain ⟨-, e, he, hm⟩ := h.exists_of_mem hd
    exact ⟨v, e, n, he, (hm n).1 hn, rfl⟩
  · rintro ⟨v, e, n, he, hn, rfl⟩
    obtain ⟨d, hd, hm⟩ := h.exists_branch he
    exact ⟨v, d, n, hd, (hm n).2 hn, rfl⟩

theorem ensures_branches (den : V → E → FinMap K V → Prop) {f : V × E → StoreM K V (V × Diagram K V)} (hs : s.Sound)
    (hf : ∀ b ∈ l, ∀ s', s.Grows s' → s'.Sound →
      Ensures (f b) s' fun d s'' => d.1 = b.1 ∧ s''.Has d.2 ∧ ∀ m, m ∈ d.2 ↔ den b.1 b.2 m) :
    Ensures (l.mapM f) s fun r s' => Denotes s' den l r :=
  ensures_mapM (fun _ _ _ _ hg ⟨hv, hd, hm⟩ => ⟨hv, hd.mono hg, hm⟩) hs hf

end Denotes

section Making

variable [Std.LawfulEqOrd V]

theorem nodup_values {D : Type} {t : List (V × D)} (ht : t.Pairwise fun a b => compare a.1 b.1 = .lt)
    (p : V × D → Bool) : ((t.filter p).map Prod.fst).Nodup := by
  refine List.pairwise_map.2 ((ht.filter p).imp fun {a b} hab heq => ?_)
  rw [heq] at hab
  simp at hab

variable [Std.LawfulEqOrd K] {s : Store K V} {k : K}

/-- Branches and a skip diagram whose maps lie above a key can be made into a node. -/
theorem accepts_of_isAbove (hs : s.Sound) {take : List (V × Diagram K V)} {skip : Diagram K V}
    (hsort : take.Pairwise fun a b => compare a.1 b.1 = .lt) (htake : ∀ b ∈ take, s.Has b.2) (hskip : s.Has skip)
    (habove : ∀ b ∈ take, ∀ m ∈ b.2, m.IsAbove k) (hsa : ∀ m ∈ skip, m.IsAbove k) : s.Accepts k take skip where
  distinct := nodup_values hsort _
  branch_has := htake
  branch_above b hb := (hs.normal (htake b hb)).isAbove_iff.2 (habove b hb)
  skip_has := hskip
  skip_above := (hs.normal hskip).isAbove_iff.2 hsa

variable [Std.TransOrd V]

/-- A node is made of branches that denote maps above its key. -/
theorem Denotes.ensures_mkNode {E : Type} {den : V → E → FinMap K V → Prop} {l : List (V × E)}
    {take : List (V × Diagram K V)} {skip : Diagram K V} (h : Denotes s den l take) (hs : s.Sound)
    (hl : l.Pairwise fun a b => compare a.1 b.1 = .lt) (hskip : s.Has skip)
    (habove : ∀ v e, (v, e) ∈ l → ∀ m, den v e m → m.IsAbove k) (hsa : ∀ m ∈ skip, m.IsAbove k) :
    Ensures (mkNode k take skip) s fun d s' => s'.Has d ∧
      ∀ m, m ∈ d ↔ (∃ v e n, (v, e) ∈ l ∧ den v e n ∧ m = n.insert k v) ∨ m ∈ skip := by
  have hacc : s.Accepts k take skip := by
    refine accepts_of_isAbove hs (h.pairwise hl) (fun b hb => (h.exists_of_mem hb).1) hskip (fun b hb m hm => ?_) hsa
    obtain ⟨-, e, he, hden⟩ := h.exists_of_mem hb
    exact habove b.1 e he m ((hden m).1 hm)
  refine (ensures_mkNode_mem hs hacc).imp fun d s' _ _ ⟨hd, hm⟩ => ⟨hd, fun m => ?_⟩
  rw [hm, h.inBranches_iff]

end Making

end TokenNet.Diagram
