import TokenNet.FinMap

/-!
# Laws of finite maps

A finite map is known by what it gives at each key: `ext_get?`.  `get?_alter` says what each operation gives, and
`mem_entries_iff` reads the entries off the view.  A finite set is known by its members.
-/

namespace TokenNet

namespace FinMap

variable {K V W : Type} [Ord K]

/-! ### Looking up in sorted entries -/

theorem lookup_eq_none_of_lt {a : K} {l : List (K × V)} (h : ∀ e ∈ l, compare a e.1 = .lt) : lookup a l = none := by
  induction l with
  | nil => rfl
  | cons d rest ih =>
    have hd := h d List.mem_cons_self
    have hrest := ih fun e he => h e (List.mem_cons_of_mem _ he)
    simp [lookup, hd, hrest]

private theorem lookup_optional_append (a k : K) (o : Option V) (l : List (K × V)) :
    lookup a (o.toList.map (k, ·) ++ l) = if compare a k = .eq then o.or (lookup a l) else lookup a l := by
  cases o <;> simp [lookup]

private theorem lookup_map (f : V → W) (k : K) (l : List (K × V)) :
    lookup k (l.map fun e => (e.1, f e.2)) = (lookup k l).map f := by
  induction l with
  | nil => rfl
  | cons d rest ih =>
    simp only [List.map_cons, lookup, ih]
    split <;> rfl

theorem mem_of_lookup_eq_some [Std.LawfulEqOrd K] {a : K} {v : V} {l : List (K × V)} (h : lookup a l = some v) :
    (a, v) ∈ l := by
  induction l with
  | nil => simp [lookup] at h
  | cons d rest ih =>
    unfold lookup at h
    split at h
    · rename_i hd
      cases h
      rw [Std.LawfulEqCmp.eq_of_compare hd]
      exact List.mem_cons_self
    · exact List.mem_cons_of_mem _ (ih h)

variable [Std.TransOrd K]

theorem lookup_eq_some_of_mem {e : K × V} {l : List (K × V)} (hl : l.Pairwise fun a b => compare a.1 b.1 = .lt)
    (h : e ∈ l) : lookup e.1 l = some e.2 := by
  induction l with
  | nil => cases h
  | cons d rest ih =>
    obtain ⟨hd, hrest⟩ := List.pairwise_cons.1 hl
    rcases List.mem_cons.1 h with rfl | h
    · simp [lookup]
    · have hne : compare e.1 d.1 ≠ .eq := by
        rw [Std.OrientedCmp.gt_of_lt (hd e h)]
        decide
      simp [lookup, hne, ih hrest h]

/-- Entries behind a key do not have it. -/
theorem not_mem_keys_of_lt {k : K} {l : List (K × V)} (h : ∀ e ∈ l, compare k e.1 = .lt) : k ∉ l.map Prod.fst := by
  intro hk
  obtain ⟨e, he, rfl⟩ := List.mem_map.1 hk
  simpa using h e he

theorem lookup_alterEntries [Std.LawfulEqOrd K] (a k : K) (f : Option V → Option V) {l : List (K × V)}
    (hl : l.Pairwise fun a b => compare a.1 b.1 = .lt) :
    lookup a (alterEntries k f l) = if compare a k = .eq then f (lookup k l) else lookup a l := by
  induction l with
  | nil =>
    have h := lookup_optional_append a k (f none) []
    simp only [List.append_nil] at h
    rw [alterEntries, h]
    simp [lookup]
  | cons d rest ih =>
    obtain ⟨b, w⟩ := d
    obtain ⟨hb, hrest⟩ := List.pairwise_cons.1 hl
    unfold alterEntries
    split
    · rename_i hkb
      have hk : ∀ e ∈ (b, w) :: rest, compare k e.1 = .lt := lt_of_mem_cons hkb hb
      rw [lookup_optional_append, lookup_eq_none_of_lt hk]
      split
      · rename_i hak
        obtain rfl := Std.LawfulEqCmp.eq_of_compare hak
        rw [lookup_eq_none_of_lt hk, Option.or_none]
      · rfl
    · rename_i hkb
      obtain rfl := Std.LawfulEqCmp.eq_of_compare hkb
      have hk : lookup k ((k, w) :: rest) = some w := by simp [lookup]
      rw [lookup_optional_append, hk]
      split
      · rename_i hak
        obtain rfl := Std.LawfulEqCmp.eq_of_compare hak
        rw [lookup_eq_none_of_lt hb, Option.or_none]
      · rename_i hak
        simp [lookup, hak]
    · rename_i hkb
      have hk : lookup k ((b, w) :: rest) = lookup k rest := by simp [lookup, hkb]
      by_cases hab : compare a b = .eq
      · obtain rfl := Std.LawfulEqCmp.eq_of_compare hab
        have hak : compare a k ≠ .eq := by
          intro h
          rw [Std.LawfulEqCmp.eq_of_compare h] at hkb
          simp at hkb
        simp [lookup, hak]
      · rw [hk, lookup, if_neg hab, ih hrest, lookup, if_neg hab]

/-! ### The view -/

omit [Std.TransOrd K] in
@[simp]
theorem get?_empty (k : K) : (∅ : FinMap K V).get? k = none := rfl

omit [Std.TransOrd K] in
theorem get?_map (f : V → W) (m : FinMap K V) (k : K) : (m.map f).get? k = (m.get? k).map f :=
  lookup_map f k m.entries

variable [Std.LawfulEqOrd K]

theorem get?_alter (m : FinMap K V) (k : K) (f : Option V → Option V) (a : K) :
    (m.alter k f).get? a = if compare a k = .eq then f (m.get? k) else m.get? a :=
  lookup_alterEntries a k f m.sorted

theorem get?_insert (m : FinMap K V) (k : K) (v : V) (a : K) :
    (m.insert k v).get? a = if compare a k = .eq then some v else m.get? a :=
  get?_alter m k _ a

theorem get?_erase (m : FinMap K V) (k a : K) :
    (m.erase k).get? a = if compare a k = .eq then none else m.get? a :=
  get?_alter m k _ a

theorem mem_entries_iff {m : FinMap K V} {k : K} {v : V} : (k, v) ∈ m.entries ↔ m.get? k = some v :=
  ⟨lookup_eq_some_of_mem m.sorted, mem_of_lookup_eq_some⟩

theorem forall_mem_entries {m : FinMap K V} {P : K → V → Prop} :
    (∀ e ∈ m.entries, P e.1 e.2) ↔ ∀ k v, m.get? k = some v → P k v :=
  ⟨fun h k v hk => h (k, v) (mem_entries_iff.2 hk), fun h e he => h e.1 e.2 (mem_entries_iff.1 he)⟩

theorem mem_keys_iff {m : FinMap K V} {k : K} : k ∈ m.keys ↔ ∃ v, m.get? k = some v := by
  unfold keys
  rw [List.mem_map]
  constructor
  · rintro ⟨⟨a, v⟩, ha, rfl⟩
    exact ⟨v, mem_entries_iff.1 ha⟩
  · rintro ⟨v, hv⟩
    exact ⟨(k, v), mem_entries_iff.2 hv, rfl⟩

theorem contains_iff_mem_keys {m : FinMap K V} {k : K} : m.contains k = true ↔ k ∈ m.keys := by
  rw [mem_keys_iff, contains, Option.isSome_iff_exists]

/-! ### Extensionality -/

/-- Sorted entries are determined by their members. -/
private theorem entries_eq_of_mem_iff {l r : List (K × V)} (hl : l.Pairwise fun a b => compare a.1 b.1 = .lt)
    (hr : r.Pairwise fun a b => compare a.1 b.1 = .lt) (h : ∀ e, e ∈ l ↔ e ∈ r) : l = r := by
  induction l generalizing r with
  | nil =>
    cases r with
    | nil => rfl
    | cons d r => exact absurd ((h d).2 List.mem_cons_self) (by simp)
  | cons c l ih =>
    cases r with
    | nil => exact absurd ((h c).1 List.mem_cons_self) (by simp)
    | cons d r =>
      have hcl := (List.pairwise_cons.1 hl).1
      have hdr := (List.pairwise_cons.1 hr).1
      have irrefl : ∀ {x : K × V} {t : List (K × V)}, (∀ e ∈ t, compare x.1 e.1 = .lt) → x ∉ t := by
        intro x t ht hx
        simpa using ht x hx
      have hcd : c = d := by
        rcases List.mem_cons.1 ((h c).1 List.mem_cons_self) with hcd | hcr
        · exact hcd
        · rcases List.mem_cons.1 ((h d).2 List.mem_cons_self) with hdc | hdl
          · exact hdc.symm
          · have hlt := hcl d hdl
            rw [Std.OrientedCmp.gt_of_lt (hdr c hcr)] at hlt
            cases hlt
      subst hcd
      have hmem : ∀ e, e ∈ l ↔ e ∈ r := by
        intro e
        constructor
        · intro he
          rcases List.mem_cons.1 ((h e).1 (List.mem_cons_of_mem _ he)) with rfl | her
          · exact absurd he (irrefl hcl)
          · exact her
        · intro he
          rcases List.mem_cons.1 ((h e).2 (List.mem_cons_of_mem _ he)) with rfl | hel
          · exact absurd he (irrefl hdr)
          · exact hel
      rw [ih (List.pairwise_cons.1 hl).2 (List.pairwise_cons.1 hr).2 hmem]

theorem ext_get? {a b : FinMap K V} (h : ∀ k, a.get? k = b.get? k) : a = b :=
  entries_injective <| entries_eq_of_mem_iff a.sorted b.sorted fun e => by
    rw [mem_entries_iff (m := a) (k := e.1) (v := e.2), mem_entries_iff (m := b) (k := e.1) (v := e.2), h]

end FinMap

/-! ### Sets -/

namespace FinSet

variable {K : Type} [Ord K] [Std.TransOrd K] [Std.LawfulEqOrd K]

theorem contains_add (s : FinSet K) (x y : K) : (s.add x).contains y = true ↔ y = x ∨ s.contains y = true := by
  unfold add FinMap.contains
  rw [FinMap.get?_insert]
  by_cases h : y = x
  · simp [h]
  · have hc : compare y x ≠ .eq := fun hc => h (Std.LawfulEqCmp.eq_of_compare hc)
    simp [h, hc]

private theorem contains_foldl_add (l : List K) (s : FinSet K) (x : K) :
    (l.foldl add s).contains x = true ↔ s.contains x = true ∨ x ∈ l := by
  induction l generalizing s with
  | nil => simp
  | cons y l ih => rw [List.foldl_cons, ih, contains_add, List.mem_cons, or_assoc, or_left_comm]

theorem contains_union (s t : FinSet K) (x : K) :
    (s.union t).contains x = true ↔ s.contains x = true ∨ t.contains x = true := by
  unfold union
  rw [contains_foldl_add, FinMap.contains_iff_mem_keys (m := t)]

theorem contains_ofList (l : List K) (x : K) : (ofList l).contains x = true ↔ x ∈ l := by
  unfold ofList
  rw [contains_foldl_add]
  simp [FinMap.contains]

theorem contains_of_isEmpty {s : FinSet K} (h : s.isEmpty = true) (x : K) : s.contains x = false := by
  apply Bool.eq_false_iff.2
  intro hx
  have hkeys := FinMap.contains_iff_mem_keys.1 hx
  have hnil : s.entries = [] := List.isEmpty_iff.1 h
  simp [FinMap.keys, hnil] at hkeys

end FinSet

end TokenNet
