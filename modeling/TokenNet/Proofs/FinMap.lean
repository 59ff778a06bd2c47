import TokenNet.FinMap.Lemmas

/-!
# Taking finite maps apart and joining them

A map whose keys are all greater than `k` gets an entry at `k` in front of its entries, and loses nothing by it:
`entries_insert_of_isAbove`, `insert_injective`.  `Joins a b m` says that `m` has the entries of `a` and those of `b`,
which agree on the keys of both; an entry that both maps have, or one that only one of them can have, is joined by
itself (`joins_insert_both`, `joins_insert_left`).

`restrict` keeps the entries at some keys; a map made from a list with distinct keys has the entries of the list,
`get?_ofList_eq_some`.  The `union` of two maps joins them exactly when they agree: `joins_iff`.
-/

namespace TokenNet.FinMap

/-! ### Adding an entry in front -/

section Above

variable {K V : Type} [Ord K]

/-- Every key of the map is greater than `k`. -/
def IsAbove (m : FinMap K V) (k : K) : Prop := ∀ e ∈ m.entries, compare k e.1 = .lt

theorem isAbove_empty (k : K) : (∅ : FinMap K V).IsAbove k := fun _ he => absurd he List.not_mem_nil

variable [Std.TransOrd K]

theorem entries_insert_of_isAbove {m : FinMap K V} {k : K} (h : m.IsAbove k) (v : V) :
    (m.insert k v).entries = (k, v) :: m.entries := by
  obtain ⟨l, hl⟩ := m
  change alterEntries k (fun _ => some v) l = (k, v) :: l
  cases l with
  | nil => rfl
  | cons d l => simp [alterEntries, h d List.mem_cons_self]

theorem IsAbove.get?_eq_none {m : FinMap K V} {k l : K} (h : m.IsAbove k) (hl : (compare l k).isLE) :
    m.get? l = none := by
  refine lookup_eq_none_of_lt fun e he => ?_
  exact Std.TransCmp.lt_of_isLE_of_lt hl (h e he)

theorem IsAbove.insert {m : FinMap K V} {k l : K} (h : m.IsAbove k) (hl : compare k l = .lt) (hm : m.IsAbove l) (v : V) :
    (m.insert l v).IsAbove k := by
  intro e he
  rw [entries_insert_of_isAbove hm] at he
  rcases List.mem_cons.1 he with rfl | he
  · exact hl
  · exact h e he

theorem IsAbove.of_lt {m : FinMap K V} {k l : K} (h : m.IsAbove l) (hk : compare k l = .lt) : m.IsAbove k :=
  fun e he => Std.TransCmp.lt_trans hk (h e he)

end Above

variable {K V : Type} [Ord K] [Std.TransOrd K] [Std.LawfulEqOrd K]

theorem get?_insert_self (m : FinMap K V) (k : K) (v : V) : (m.insert k v).get? k = some v := by
  simp [get?_insert]

theorem get?_insert_of_ne (m : FinMap K V) {k l : K} (h : l ≠ k) (v : V) : (m.insert k v).get? l = m.get? l := by
  rw [get?_insert, if_neg]
  exact fun hc => h (Std.LawfulEqCmp.eq_of_compare hc)

/-- A new entry comes to the others. -/
theorem mem_entries_insert {m : FinMap K V} {k : K} (hk : m.get? k = none) (v : V) {e : K × V} :
    e ∈ (m.insert k v).entries ↔ e = (k, v) ∨ e ∈ m.entries := by
  obtain ⟨l, w⟩ := e
  rw [mem_entries_iff, mem_entries_iff]
  by_cases hl : l = k
  · rw [hl, get?_insert_self, hk]
    simp [eq_comm]
  · rw [get?_insert_of_ne m hl]
    simp [hl]

/-- A new entry can be taken off again. -/
theorem insert_injective {m n : FinMap K V} {k : K} {v w : V} (hm : m.get? k = none) (hn : n.get? k = none)
    (h : m.insert k v = n.insert k w) : v = w ∧ m = n := by
  constructor
  · have hk := congrArg (fun m => m.get? k) h
    simpa [get?_insert_self] using hk
  · refine ext_get? fun l => ?_
    by_cases hl : l = k
    · rw [hl, hm, hn]
    · rw [← get?_insert_of_ne m hl v, h, get?_insert_of_ne n hl w]

/-- Every map is one without the key, with the entry added. -/
theorem insert_erase {m : FinMap K V} {k : K} {v : V} (h : m.get? k = some v) : (m.erase k).insert k v = m := by
  refine ext_get? fun l => ?_
  by_cases hl : l = k
  · rw [hl, get?_insert_self, h]
  · rw [get?_insert_of_ne _ hl, get?_erase, if_neg]
    exact fun hc => hl (Std.LawfulEqCmp.eq_of_compare hc)

theorem get?_erase_self (m : FinMap K V) (k : K) : (m.erase k).get? k = none := by simp [get?_erase]

theorem isAbove_iff {m : FinMap K V} {k : K} : m.IsAbove k ↔ ∀ l v, m.get? l = some v → compare k l = .lt :=
  ⟨fun h l v hl => h (l, v) (mem_entries_iff.2 hl), fun h e he => h e.1 e.2 (mem_entries_iff.1 he)⟩

/-! ### Joining two maps -/

/-- The map `m` has the entries of `a` and those of `b`; on a key of both the two agree. -/
structure Joins (a b m : FinMap K V) : Prop where
  left : ∀ k, m.get? k = (a.get? k).or (b.get? k)
  right : ∀ k, m.get? k = (b.get? k).or (a.get? k)

variable {a b m n : FinMap K V}

omit [Std.TransOrd K] [Std.LawfulEqOrd K] in
theorem Joins.symm (h : Joins a b m) : Joins b a m := ⟨h.right, h.left⟩

theorem joins_empty_left : Joins ∅ b m ↔ m = b := by
  constructor
  · exact fun h => ext_get? fun k => by simp [h.left]
  · rintro rfl
    exact ⟨fun k => by simp, fun k => by simp⟩

omit [Std.TransOrd K] [Std.LawfulEqOrd K] in
theorem Joins.get?_eq_none (h : Joins a b m) {k : K} (ha : a.get? k = none) (hb : b.get? k = none) :
    m.get? k = none := by
  rw [h.left, ha, hb]
  rfl

omit [Std.TransOrd K] [Std.LawfulEqOrd K] in
/-- A key that both maps bind has one value in both. -/
theorem Joins.eq_of_get? (h : Joins a b m) {k : K} {v w : V} (ha : a.get? k = some v) (hb : b.get? k = some w) :
    v = w := by
  have hl := h.left k
  have hr := h.right k
  rw [ha, hb] at hl hr
  exact Option.some.inj (hl.symm.trans hr)

theorem Joins.isAbove (h : Joins a b m) {k : K} (ha : a.IsAbove k) (hb : b.IsAbove k) : m.IsAbove k := by
  rw [isAbove_iff] at ha hb ⊢
  intro l v hl
  rw [h.left, Option.or_eq_some_iff] at hl
  rcases hl with hl | ⟨-, hl⟩
  · exact ha l v hl
  · exact hb l v hl

/-- Maps that agree, without the values that are taken off at one key, still agree. -/
private theorem joins_of_insert {k : K} {v : V} {a' b' : FinMap K V} (ha : a.get? k = none) (hb : b.get? k = none)
    (ha' : ∀ l, l ≠ k → a'.get? l = a.get? l) (hb' : ∀ l, l ≠ k → b'.get? l = b.get? l)
    (hk : m.get? k = some v) (h : Joins a' b' m) :
    ∃ n, n.get? k = none ∧ m = n.insert k v ∧ Joins a b n := by
  have hn : ∀ l, l ≠ k → (m.erase k).get? l = m.get? l := by
    intro l hl
    rw [← get?_insert_of_ne (m.erase k) hl v, insert_erase hk]
  refine ⟨m.erase k, get?_erase_self m k, (insert_erase hk).symm, fun l => ?_, fun l => ?_⟩
  · by_cases hl : l = k
    · rw [hl, get?_erase_self, ha, hb]
      rfl
    · rw [hn l hl, h.left, ha' l hl, hb' l hl]
  · by_cases hl : l = k
    · rw [hl, get?_erase_self, ha, hb]
      rfl
    · rw [hn l hl, h.right, ha' l hl, hb' l hl]

theorem joins_insert_left {k : K} {v : V} (ha : a.get? k = none) (hb : b.get? k = none) :
    Joins (a.insert k v) b m ↔ ∃ n, n.get? k = none ∧ m = n.insert k v ∧ Joins a b n := by
  constructor
  · intro h
    refine joins_of_insert ha hb (fun l hl => get?_insert_of_ne a hl v) (fun _ _ => rfl) ?_ h
    rw [h.left, get?_insert_self]
    rfl
  · rintro ⟨n, hn, rfl, h⟩
    refine ⟨fun l => ?_, fun l => ?_⟩
    · by_cases hl : l = k
      · simp [hl, get?_insert_self]
      · rw [get?_insert_of_ne n hl, get?_insert_of_ne a hl, h.left]
    · by_cases hl : l = k
      · simp [hl, get?_insert_self, hb]
      · rw [get?_insert_of_ne n hl, get?_insert_of_ne a hl, h.right]

theorem joins_insert_both {k : K} {v w : V} (ha : a.get? k = none) (hb : b.get? k = none) :
    Joins (a.insert k v) (b.insert k w) m ↔ v = w ∧ ∃ n, n.get? k = none ∧ m = n.insert k v ∧ Joins a b n := by
  constructor
  · intro h
    obtain rfl := h.eq_of_get? (get?_insert_self a k v) (get?_insert_self b k w)
    refine ⟨rfl, joins_of_insert ha hb (fun l hl => get?_insert_of_ne a hl v)
      (fun l hl => get?_insert_of_ne b hl v) ?_ h⟩
    rw [h.left, get?_insert_self]
    rfl
  · rintro ⟨rfl, n, hn, rfl, h⟩
    refine ⟨fun l => ?_, fun l => ?_⟩
    · by_cases hl : l = k
      · simp [hl, get?_insert_self]
      · rw [get?_insert_of_ne n hl, get?_insert_of_ne a hl, get?_insert_of_ne b hl, h.left]
    · by_cases hl : l = k
      · simp [hl, get?_insert_self]
      · rw [get?_insert_of_ne n hl, get?_insert_of_ne a hl, get?_insert_of_ne b hl, h.right]

/-! ### Some of the entries -/

/-- The entries whose keys satisfy `p`. -/
def restrict (m : FinMap K V) (p : K → Bool) : FinMap K V := ⟨m.entries.filter fun e => p e.1, m.sorted.filter _⟩

theorem get?_restrict (m : FinMap K V) (p : K → Bool) (k : K) :
    (m.restrict p).get? k = if p k then m.get? k else none := by
  refine Option.ext fun v => ?_
  have hmem : (k, v) ∈ (m.restrict p).entries ↔ (k, v) ∈ m.entries ∧ p k = true := List.mem_filter
  rw [← mem_entries_iff, hmem, mem_entries_iff]
  by_cases hk : p k <;> simp [hk]

/-- A map is joined by two parts that together have all its keys. -/
theorem joins_restrict (m : FinMap K V) {p q : K → Bool} (h : ∀ k, (m.get? k).isSome = true → p k = true ∨ q k = true) :
    Joins (m.restrict p) (m.restrict q) m := by
  have hparts : ∀ {p q : K → Bool}, (∀ k, (m.get? k).isSome = true → p k = true ∨ q k = true) →
      ∀ k, m.get? k = ((m.restrict p).get? k).or ((m.restrict q).get? k) := by
    intro p q h k
    rw [get?_restrict, get?_restrict]
    cases hk : m.get? k with
    | none => simp
    | some v =>
      rcases h k (by rw [hk]; rfl) with hp | hq
      · simp [hp]
      · by_cases hp : p k = true <;> simp [hp, hq]
  exact ⟨hparts h, hparts fun k hk => (h k hk).symm⟩

/-! ### Maps from lists -/

omit [Std.LawfulEqOrd K] in
theorem ofList_append_singleton (l : List (K × V)) (e : K × V) :
    ofList (l ++ [e]) = (ofList l).insert e.1 e.2 := by
  rw [ofList, List.foldl_append]
  rfl

theorem contains_ofList (l : List (K × V)) (k : K) : (ofList l).contains k = true ↔ k ∈ l.map Prod.fst := by
  have hfoldl : ∀ m : FinMap K V, (l.foldl (fun m e => m.insert e.1 e.2) m).contains k = true ↔
      m.contains k = true ∨ k ∈ l.map Prod.fst := by
    induction l with
    | nil => simp
    | cons e l ih =>
      intro m
      rw [List.foldl_cons, ih, List.map_cons, List.mem_cons, contains, contains]
      by_cases hk : k = e.1
      · simp [hk, get?_insert_self]
      · simp [hk, get?_insert_of_ne m hk]
  rw [ofList, hfoldl]
  simp [contains]

omit [Std.TransOrd K] in
theorem nodup_keys (m : FinMap K V) : (m.entries.map Prod.fst).Nodup := by
  refine List.pairwise_map.2 (m.sorted.imp fun {a b} hab heq => ?_)
  rw [heq] at hab
  simp at hab

omit [Std.TransOrd K] in
theorem lookup_eq_some_iff {l : List (K × V)} (hl : (l.map Prod.fst).Nodup) {k : K} {v : V} :
    lookup k l = some v ↔ (k, v) ∈ l := by
  refine ⟨mem_of_lookup_eq_some, fun h => ?_⟩
  induction l with
  | nil => cases h
  | cons e l ih =>
    obtain ⟨he, hl'⟩ := List.nodup_cons.1 hl
    unfold lookup
    rcases List.mem_cons.1 h with rfl | h
    · simp
    · have hne : compare k e.1 ≠ .eq := by
        intro hk
        rw [← Std.LawfulEqCmp.eq_of_compare hk] at he
        exact he (List.mem_map.2 ⟨(k, v), h, rfl⟩)
      rw [if_neg hne, ih hl' h]

omit [Std.TransOrd K] in
theorem lookup_eq_none_of_not_mem {l : List (K × V)} {k : K} (h : k ∉ l.map Prod.fst) : lookup k l = none := by
  cases hk : lookup k l with
  | none => rfl
  | some w => exact absurd (List.mem_map.2 ⟨(k, w), mem_of_lookup_eq_some hk, rfl⟩) h

/-- A list that names every key at most once changes the value at each of its keys once. -/
theorem get?_foldl_alter {W : Type} (g : W → Option V → Option V) {l : List (K × W)} (hl : (l.map Prod.fst).Nodup)
    (m : FinMap K V) (k : K) :
    (l.foldl (fun m e => m.alter e.1 (g e.2)) m).get? k = (lookup k l).elim (m.get? k) fun w => g w (m.get? k) := by
  induction l generalizing m with
  | nil => rfl
  | cons e l ih =>
    obtain ⟨he, hl'⟩ := List.nodup_cons.1 hl
    rw [List.foldl_cons, ih hl', get?_alter, lookup]
    by_cases hk : k = e.1
    · -- the rest of the list does not change the value again
      subst hk
      simp [lookup_eq_none_of_not_mem he]
    · simp [hk]

theorem get?_ofList {l : List (K × V)} (hl : (l.map Prod.fst).Nodup) (k : K) : (ofList l).get? k = lookup k l := by
  have hfold : (ofList l).get? k = (lookup k l).elim none some := get?_foldl_alter (fun v _ => some v) hl ∅ k
  rw [hfold]
  cases lookup k l with
  | none => rfl
  | some v => rfl

theorem get?_ofList_eq_some {l : List (K × V)} (hl : (l.map Prod.fst).Nodup) {k : K} {v : V} :
    (ofList l).get? k = some v ↔ (k, v) ∈ l := by
  rw [get?_ofList hl, lookup_eq_some_iff hl]

theorem ofList_entries (m : FinMap K V) : ofList m.entries = m := ext_get? fun k => get?_ofList m.nodup_keys k

/-! ### The union of two maps -/

/-- The entries of both maps; at a key of both, the entry of the first. -/
def union (a b : FinMap K V) : FinMap K V := a.entries.foldl (fun m e => m.alter e.1 fun _ => some e.2) b

/-- The maps have one value at every key of both. -/
def Agrees (a b : FinMap K V) : Prop := ∀ k v w, a.get? k = some v → b.get? k = some w → v = w

theorem get?_union (a b : FinMap K V) (k : K) : (a.union b).get? k = (a.get? k).or (b.get? k) := by
  have hfold : (a.union b).get? k = (a.get? k).elim (b.get? k) some :=
    get?_foldl_alter (fun v _ => some v) a.nodup_keys b k
  rw [hfold]
  cases a.get? k with
  | none => rfl
  | some v => rfl

/-- Two maps that agree are joined by their union, and by nothing else. -/
theorem joins_iff : Joins a b m ↔ a.Agrees b ∧ m = a.union b := by
  constructor
  · intro h
    refine ⟨fun k v w hv hw => h.eq_of_get? hv hw, ext_get? fun k => ?_⟩
    rw [h.left, get?_union]
  · rintro ⟨hagrees, rfl⟩
    refine ⟨get?_union a b, fun k => ?_⟩
    rw [get?_union]
    cases ha : a.get? k with
    | none => simp
    | some v =>
      cases hb : b.get? k with
      | none => rfl
      | some w => rw [hagrees k v w ha hb]

end TokenNet.FinMap
