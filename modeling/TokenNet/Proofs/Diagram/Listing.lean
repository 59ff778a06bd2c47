import TokenNet.Proofs.Diagram.Family

/-!
# The list of the maps of a diagram

For a diagram in normal form `maps` lists the maps of the family, each as its entries: `Normal.mem_maps_iff`.  The list
is sorted, `Normal.pairwise_maps`: at the first difference the smaller entry comes first, and a map comes behind its
extensions.  So no map is listed twice, `Normal.nodup_maps`, and diagrams with the same family have the same list,
`Normal.maps_eq`.
-/

namespace TokenNet.Diagram

variable {K V : Type}

theorem mem_branchMaps_iff {k : K} {take : List (V × Diagram K V)} {l : List (K × V)} :
    l ∈ branchMaps k take ↔ ∃ v c r, (v, c) ∈ take ∧ r ∈ c.maps ∧ l = (k, v) :: r := by
  induction take with
  | nil => simp [branchMaps]
  | cons b take ih =>
    obtain ⟨v, c⟩ := b
    rw [branchMaps, List.mem_append, ih, List.mem_map]
    constructor
    · rintro (⟨r, hr, rfl⟩ | ⟨w, d, r, hd, hr, rfl⟩)
      · exact ⟨v, c, r, List.mem_cons_self, hr, rfl⟩
      · exact ⟨w, d, r, List.mem_cons_of_mem _ hd, hr, rfl⟩
    · rintro ⟨w, d, r, hd, hr, rfl⟩
      rcases List.mem_cons.1 hd with heq | hd
      · cases heq
        exact .inl ⟨r, hr, rfl⟩
      · exact .inr ⟨w, d, r, hd, hr, rfl⟩

variable [Ord K] [Ord V]

/-- At the first difference the smaller entry comes first, and a map comes behind its extensions. -/
def Precedes : List (K × V) → List (K × V) → Prop
  | _ :: _, [] => True
  | a :: x, b :: y => compare a b = .lt ∨ a = b ∧ Precedes x y
  | [], _ => False

theorem not_precedes_self [Std.TransOrd K] [Std.TransOrd V] (l : List (K × V)) : ¬ Precedes l l := by
  induction l with
  | nil => exact id
  | cons a l ih =>
    rintro (h | ⟨-, h⟩)
    · simp at h
    · exact ih h

theorem Precedes.asymm [Std.TransOrd K] [Std.TransOrd V] {x y : List (K × V)} (hxy : Precedes x y) : ¬ Precedes y x := by
  induction x generalizing y with
  | nil => cases hxy
  | cons a x ih =>
    cases y with
    | nil => exact id
    | cons b y =>
      rintro (h | ⟨rfl, h⟩)
      · rcases hxy with h' | ⟨rfl, -⟩
        · rw [Std.OrientedCmp.gt_of_lt h'] at h
          cases h
        · simp at h
      · rcases hxy with h' | ⟨-, h'⟩
        · simp at h'
        · exact ih h' h

section Members

variable [Std.TransOrd K]

/-- The list has the entries of the maps of the family. -/
theorem Normal.mem_maps_iff {d : Diagram K V} (hd : d.Normal) {l : List (K × V)} :
    l ∈ d.maps ↔ ∃ m ∈ d, m.entries = l := by
  induction hd generalizing l with
  | emptySet => simp [maps, not_mem_emptySet]
  | emptyMap =>
    simp only [maps, List.mem_singleton, mem_emptyMap_iff, exists_eq_left]
    exact eq_comm
  | @node i k take skip hi ht hsort hne habove hbranch hsa hs ihb ihs =>
    have hd : (Diagram.node i k take skip).Normal := .node hi ht hsort hne habove hbranch hsa hs
    rw [maps, List.mem_append, mem_branchMaps_iff, ihs]
    constructor
    · rintro (⟨v, c, r, hc, hr, rfl⟩ | ⟨m, hm, rfl⟩)
      · obtain ⟨n, hn, rfl⟩ := (ihb (v, c) hc).1 hr
        exact ⟨n.insert k v, .take hc hn, FinMap.entries_insert_of_isAbove (hd.branch_isAbove hc hn) v⟩
      · exact ⟨m, .skip hm, rfl⟩
    · rintro ⟨m, hm, rfl⟩
      rcases mem_node_iff.1 hm with ⟨v, c, n, hc, hn, rfl⟩ | hm
      · refine .inl ⟨v, c, n.entries, hc, (ihb (v, c) hc).2 ⟨n, hn, rfl⟩, ?_⟩
        exact FinMap.entries_insert_of_isAbove (hd.branch_isAbove hc hn) v
      · exact .inr ⟨m, hm, rfl⟩

theorem Normal.entries_mem_maps_iff {d : Diagram K V} (hd : d.Normal) {m : FinMap K V} : m.entries ∈ d.maps ↔ m ∈ d := by
  rw [hd.mem_maps_iff]
  constructor
  · rintro ⟨n, hn, heq⟩
    rwa [FinMap.entries_injective heq] at hn
  · exact fun hm => ⟨m, hm, rfl⟩

end Members

/-! ### The order of the list -/

private theorem compare_pair_of_lt {k l : K} (h : compare k l = .lt) (v w : V) : compare (k, v) (l, w) = .lt := by
  change (compare k l).then (compare v w) = .lt
  rw [h]
  rfl

variable [Std.TransOrd K]

private theorem compare_pair_same_key (k : K) (v w : V) : compare (k, v) (k, w) = compare v w := by
  change (compare k k).then (compare v w) = compare v w
  simp

private theorem pairwise_branchMaps {k : K} {take : List (V × Diagram K V)}
    (hsort : take.Pairwise fun a b => compare a.1 b.1 = .lt) (hmaps : ∀ b ∈ take, b.2.maps.Pairwise Precedes) :
    (branchMaps k take).Pairwise Precedes := by
  induction take with
  | nil => exact .nil
  | cons b take ih =>
    obtain ⟨v, c⟩ := b
    obtain ⟨hv, hsort⟩ := List.pairwise_cons.1 hsort
    rw [branchMaps]
    refine List.pairwise_append.2 ⟨?_, ih hsort fun b hb => hmaps b (List.mem_cons_of_mem _ hb), ?_⟩
    · exact List.pairwise_map.2 ((hmaps (v, c) List.mem_cons_self).imp fun h => .inr ⟨rfl, h⟩)
    · intro x hx y hy
      obtain ⟨r, -, rfl⟩ := List.mem_map.1 hx
      obtain ⟨w, d, s, hd, -, rfl⟩ := mem_branchMaps_iff.1 hy
      refine .inl ?_
      rw [compare_pair_same_key]
      exact hv (w, d) hd

theorem Normal.pairwise_maps {d : Diagram K V} (hd : d.Normal) : d.maps.Pairwise Precedes := by
  induction hd with
  | emptySet => exact .nil
  | emptyMap => exact List.pairwise_singleton _ _
  | @node i k take skip hi ht hsort hne habove hbranch hsa hs ihb ihs =>
    have hd : (Diagram.node i k take skip).Normal := .node hi ht hsort hne habove hbranch hsa hs
    rw [maps]
    refine List.pairwise_append.2 ⟨pairwise_branchMaps hsort ihb, ihs, ?_⟩
    intro x hx y hy
    obtain ⟨v, c, r, -, -, rfl⟩ := mem_branchMaps_iff.1 hx
    obtain ⟨m, hm, rfl⟩ := hs.mem_maps_iff.1 hy
    have hmk := hd.skip_isAbove hm
    cases he : m.entries with
    | nil => exact True.intro
    | cons e r' => exact .inl (compare_pair_of_lt (hmk e (by simp [he])) v e.2)

variable [Std.TransOrd V]

private theorem nodup_of_pairwise_precedes {x : List (List (K × V))} (hx : x.Pairwise Precedes) : x.Nodup := by
  refine hx.imp fun {a b} hab heq => ?_
  rw [heq] at hab
  exact not_precedes_self b hab

theorem Normal.nodup_maps {d : Diagram K V} (hd : d.Normal) : d.maps.Nodup :=
  nodup_of_pairwise_precedes hd.pairwise_maps

/-- A sorted list is determined by its members. -/
private theorem eq_of_pairwise_precedes {x y : List (List (K × V))} (hx : x.Pairwise Precedes) (hy : y.Pairwise Precedes)
    (h : ∀ l, l ∈ x ↔ l ∈ y) : x = y := by
  have hp : x.Perm y :=
    (List.perm_ext_iff_of_nodup (nodup_of_pairwise_precedes hx) (nodup_of_pairwise_precedes hy)).2 h
  exact hp.eq_of_pairwise (fun _ _ _ _ hab hba => absurd hba hab.asymm) hx hy

/-- The list depends on the family alone. -/
theorem Normal.maps_eq {a b : Diagram K V} (ha : a.Normal) (hb : b.Normal) (h : ∀ m, m ∈ a ↔ m ∈ b) :
    a.maps = b.maps := by
  refine eq_of_pairwise_precedes ha.pairwise_maps hb.pairwise_maps fun l => ?_
  rw [ha.mem_maps_iff, hb.mem_maps_iff]
  simp only [h]

end TokenNet.Diagram
