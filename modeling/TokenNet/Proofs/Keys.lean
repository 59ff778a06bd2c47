import TokenNet.Key.Order

/-!
# Laws of keys

Keys are totally ordered, also those of different orders, and no two of them are equal in this order but those of one
variable and one sequence: `Key.compare_total`.
-/

namespace TokenNet.Key

/-- Variables of the order compare by the positions of their last occurrences, and so does being before. -/
theorem exists_compare_eq {o : KeyOrder} {x y : Variable} (hx : x ∈ o.sequence) (hy : y ∈ o.sequence) :
    ∃ i j, o.LastAt x i ∧ o.LastAt y j ∧ compare (o.key x) (o.key y) = compare i j ∧
      (compare (o.key x) (o.key y) = .lt ↔ o.isBefore x y = true) := by
  obtain ⟨i, hi⟩ := KeyOrder.exists_lastAt hx
  obtain ⟨j, hj⟩ := KeyOrder.exists_lastAt hy
  have hcompare := compare_of_lastAt hi hj
  refine ⟨i, j, hi, hj, hcompare, ?_⟩
  rw [hcompare, hi.isBefore_iff hj, Std.compare_eq_lt]

theorem beq_iff {a b : Key} : (a == b) = true ↔ a.name = b.name ∧ a.order.sequence = b.order.sequence := by
  rw [beq_iff_eq]
  constructor
  · rintro rfl
    exact ⟨rfl, rfl⟩
  · rintro ⟨hname, hsequence⟩
    exact eq_of_name_of_order hname (KeyOrder.sequence_injective hsequence)

/-- The order of keys is total, and it agrees with equality, which is that of names and sequences and is respected by the
hash.  Keys of different sequences compare as the sequences do.  In one sequence, variables compare by the positions of
their last occurrences, and one is less than the other if it is before it; all others come behind, by name. -/
theorem compare_total (a b c : Key) :
    (((compare a b).isLE ∨ (compare b a).isLE) ∧ ((compare a b).isLE → (compare b a).isLE → a = b) ∧
      ((compare a b).isLE → (compare b c).isLE → (compare a c).isLE) ∧ compare b a = (compare a b).swap) ∧
    ((compare a b = .eq ↔ (a == b) = true) ∧
      ((a == b) = true ↔ a.name = b.name ∧ a.order.sequence = b.order.sequence) ∧ ((a == b) = true → hash a = hash b)) ∧
    (a.order.sequence ≠ b.order.sequence →
      compare a b = compare a.order.sequence b.order.sequence ∧ compare a b ≠ .eq) ∧
    (a.order.sequence = b.order.sequence →
      (a.name ∈ a.order.sequence → b.name ∈ a.order.sequence → ∃ i j, a.order.LastAt a.name i ∧ a.order.LastAt b.name j ∧
        compare a b = compare i j ∧ (compare a b = .lt ↔ a.order.isBefore a.name b.name = true)) ∧
      (a.name ∈ a.order.sequence → b.name ∉ a.order.sequence → compare a b = .lt) ∧
      (a.name ∉ a.order.sequence → b.name ∉ a.order.sequence → compare a b = compare a.name b.name)) := by
  have hswap : compare b a = (compare a b).swap := Std.OrientedCmp.eq_swap
  have heq : compare a b = .eq ↔ (a == b) = true := by rw [Std.LawfulEqCmp.compare_eq_iff_eq, beq_iff_eq]
  refine ⟨⟨?_, fun h h' => ?_, Std.TransCmp.isLE_trans, hswap⟩, ⟨heq, beq_iff, fun h => ?_⟩, fun h => ?_, fun h => ?_⟩
  · rw [hswap]
    cases compare a b <;> simp
  · exact Std.LawfulEqCmp.eq_of_compare (Std.OrientedCmp.isLE_antisymm h h')
  · have hname : a.name = b.name := (beq_iff.1 h).1
    show hash a.name = hash b.name
    rw [hname]
  · refine ⟨compare_of_sequence_ne h, fun hc => h ?_⟩
    exact (beq_iff.1 (heq.1 hc)).2
  · have ho : b.order = a.order := (KeyOrder.sequence_injective h).symm
    rw [eq_key a, eq_key b, ho]
    exact ⟨exists_compare_eq, compare_of_mem_of_not_mem, compare_of_not_mem⟩

/-- The later one of two occurrences counts, names count behind the sequence only, and a longer sequence is greater. -/
theorem compare_total_repeated :
    let o : KeyOrder := .mk ["z", "m", "z"]
    let p : KeyOrder := .mk ["z", "m", "z", "a"]
    compare (o.key "m") (o.key "z") = .lt ∧ o.isBefore "m" "z" = true ∧ o.isBefore "z" "m" = false ∧
      compare (o.key "z") (o.key "a") = .lt ∧ compare (o.key "a") (p.key "a") = .lt := by
  intro o p
  obtain ⟨-, -, -, hknown⟩ := compare_total (o.key "m") (o.key "z") (o.key "a")
  obtain ⟨-, -, -, hunknown⟩ := compare_total (o.key "z") (o.key "a") (p.key "a")
  obtain ⟨-, -, hforeign, -⟩ := compare_total (o.key "a") (p.key "a") (p.key "a")
  obtain ⟨i, j, -, -, -, hbefore⟩ := (hknown rfl).1 (by decide) (by decide)
  have hza : compare (o.key "z") (o.key "a") = .lt := (hunknown rfl).2.1 (by decide) (by decide)
  have hop : compare (o.key "a") (p.key "a") = compare o.sequence p.sequence := (hforeign (by decide)).1
  exact ⟨hbefore.2 (by decide), by decide, by decide, hza, hop.trans (by decide)⟩

end TokenNet.Key
