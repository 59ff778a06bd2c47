import TokenNet.FinMap.Lemmas
import TokenNet.Key

/-!
# The order of keys is total

The facts about a variable are those of its last occurrence, `KeyOrder.LastAt`: one variable is before another if its last
occurrence is, `KeyOrder.LastAt.isBefore_iff`.  So keys compare like the triples of the sequence of their order, the place
of their variable in it and their name, `Key.compare_eq_compareOn_sortKey`, where the place of a variable outside the order
is behind all of it.
-/

namespace TokenNet

namespace KeyOrder

variable {o : KeyOrder} {x y : Variable} {i j : Nat} {l before after : List Variable}

/-! ### Last occurrences -/

/-- The last occurrence of the variable in the order is at position `i`. -/
def LastAt (o : KeyOrder) (x : Variable) (i : Nat) : Prop :=
  ∃ before after, o.sequence = before ++ x :: after ∧ x ∉ after ∧ before.length = i

/-- The position of the last occurrence of `x`. -/
def lastPosition (x : Variable) : List Variable → Option Nat
  | [] => none
  | y :: rest =>
    match lastPosition x rest with
    | some i => some (i + 1)
    | none => if y = x then some 0 else none

/-- The place of a variable in the order; behind the end for a variable outside it. -/
def place (o : KeyOrder) (x : Variable) : Nat := (lastPosition x o.sequence).getD o.sequence.length

theorem lastPosition_of_not_mem (h : x ∉ l) : lastPosition x l = none := by
  induction l with
  | nil => rfl
  | cons y l ih =>
    rw [List.mem_cons, not_or] at h
    simp [lastPosition, ih h.2, Ne.symm h.1]

theorem lastPosition_append (h : x ∉ after) : lastPosition x (before ++ x :: after) = some before.length := by
  induction before with
  | nil => simp [lastPosition, lastPosition_of_not_mem h]
  | cons y before ih => simp [lastPosition, ih]

/-- A list with an element splits at its last occurrence. -/
private theorem exists_last_split (h : x ∈ l) : ∃ before after, l = before ++ x :: after ∧ x ∉ after := by
  induction l with
  | nil => cases h
  | cons y l ih =>
    by_cases hl : x ∈ l
    · obtain ⟨before, after, rfl, hafter⟩ := ih hl
      exact ⟨y :: before, after, rfl, hafter⟩
    · obtain rfl : x = y := by simpa [hl] using h
      exact ⟨[], l, rfl, hl⟩

theorem exists_lastAt (h : x ∈ o.sequence) : ∃ i, o.LastAt x i := by
  obtain ⟨before, after, hsplit, hafter⟩ := exists_last_split h
  exact ⟨before.length, before, after, hsplit, hafter, rfl⟩

theorem place_of_not_mem (h : x ∉ o.sequence) : o.place x = o.sequence.length := by
  simp [place, lastPosition_of_not_mem h]

/-! ### Facts -/

/-- Facts that are entered later do not matter to a variable that they are not about. -/
private theorem get?_enter_of_not_mem (h : x ∉ l) (m : FinMap Variable (FinSet Variable)) :
    ((behind l).foldl (fun m e => m.insert e.1 e.2) m).get? x = m.get? x := by
  induction l generalizing m with
  | nil => rfl
  | cons y l ih =>
    rw [List.mem_cons, not_or] at h
    rw [behind, List.foldl_cons, ih h.2, FinMap.get?_insert, if_neg]
    exact fun hc => h.1 (Std.LawfulEqCmp.eq_of_compare hc)

/-- The facts of the last occurrence overwrite all earlier ones. -/
private theorem get?_enter_last (h : x ∉ after) (m : FinMap Variable (FinSet Variable)) :
    ((behind (before ++ x :: after)).foldl (fun m e => m.insert e.1 e.2) m).get? x = some (FinSet.ofList after) := by
  induction before generalizing m with
  | nil =>
    rw [List.nil_append, behind, List.foldl_cons, get?_enter_of_not_mem h, FinMap.get?_insert]
    exact if_pos Std.ReflOrd.compare_self
  | cons y before ih =>
    rw [List.cons_append, behind, List.foldl_cons]
    exact ih _

theorem get?_facts_of_not_mem (h : x ∉ o.sequence) : o.facts.get? x = none := by
  rw [o.facts_eq]
  exact get?_enter_of_not_mem h ∅

theorem get?_facts (hsplit : o.sequence = before ++ x :: after) (h : x ∉ after) :
    o.facts.get? x = some (FinSet.ofList after) := by
  rw [o.facts_eq, hsplit]
  exact get?_enter_last h ∅

theorem isKnown_iff : o.isKnown x = true ↔ x ∈ o.sequence := by
  unfold isKnown FinMap.contains
  by_cases hx : x ∈ o.sequence
  · obtain ⟨before, after, hsplit, hafter⟩ := exists_last_split hx
    simp [get?_facts hsplit hafter, hx]
  · simp [get?_facts_of_not_mem hx, hx]

theorem isKnown_of_not_mem (h : x ∉ o.sequence) : o.isKnown x = false := by
  rw [Bool.eq_false_iff, ne_eq, isKnown_iff]
  exact h

/-- Nothing is known to be behind a variable outside the order. -/
theorem isBefore_of_not_mem_left (h : x ∉ o.sequence) (y : Variable) : o.isBefore x y = false := by
  simp [isBefore, get?_facts_of_not_mem h]

/-- A variable outside the order is not known to be behind any other. -/
theorem isBefore_of_not_mem_right (h : y ∉ o.sequence) (x : Variable) : o.isBefore x y = false := by
  by_cases hx : x ∈ o.sequence
  · obtain ⟨before, after, hsplit, hafter⟩ := exists_last_split hx
    have hy : y ∉ after := by
      intro hy
      apply h
      rw [hsplit]
      exact List.mem_append_right before (List.mem_cons_of_mem x hy)
    rw [isBefore, get?_facts hsplit hafter, Option.any_some, Bool.eq_false_iff, ne_eq, FinSet.contains_ofList]
    exact hy
  · exact isBefore_of_not_mem_left hx y

namespace LastAt

theorem place_eq (h : o.LastAt x i) : o.place x = i := by
  obtain ⟨before, after, hsplit, hafter, rfl⟩ := h
  simp [place, hsplit, lastPosition_append hafter]

theorem lt_length (h : o.LastAt x i) : i < o.sequence.length := by
  obtain ⟨before, after, hsplit, -, rfl⟩ := h
  simp [hsplit]

/-- Behind a position, a variable occurs exactly if its last occurrence is there. -/
theorem mem_drop_iff (h : o.LastAt x i) (n : Nat) : x ∈ o.sequence.drop n ↔ n ≤ i := by
  obtain ⟨before, after, hsplit, hafter, rfl⟩ := h
  rw [hsplit, List.drop_append]
  by_cases hn : n ≤ before.length
  · simp [hn, Nat.sub_eq_zero_of_le hn]
  · obtain ⟨k, hk⟩ : ∃ k, n - before.length = k + 1 := ⟨n - before.length - 1, by omega⟩
    have hempty : before.drop n = [] := List.drop_eq_nil_of_le (by omega)
    simp only [hempty, hk, List.drop_succ_cons, List.nil_append, hn, iff_false]
    exact fun hx => hafter (List.mem_of_mem_drop hx)

/-- It is a fact that one variable is before another one exactly if its last occurrence is. -/
theorem isBefore_iff (hx : o.LastAt x i) (hy : o.LastAt y j) : o.isBefore x y = true ↔ i < j := by
  obtain ⟨before, after, hsplit, hafter, rfl⟩ := hx
  have hdrop : o.sequence.drop (before.length + 1) = after := by simp [hsplit]
  rw [isBefore, get?_facts hsplit hafter, Option.any_some, FinSet.contains_ofList, ← hdrop, hy.mem_drop_iff]
  exact Iff.rfl

/-- Different variables have their last occurrences at different positions. -/
theorem unique (hx : o.LastAt x i) (hy : o.LastAt y i) : x = y := by
  obtain ⟨before, after, hsplit, -, hi⟩ := hx
  obtain ⟨before', after', hsplit', -, hi'⟩ := hy
  have hrest := List.append_inj_right (hsplit.symm.trans hsplit') (hi.trans hi'.symm)
  exact (List.cons.inj hrest).1

end LastAt

end KeyOrder

namespace Key

/-! ### Keys of one order -/

section OneOrder

variable {o : KeyOrder} {x y : Variable}

theorem compare_key_self (o : KeyOrder) (x : Variable) : compare (o.key x) (o.key x) = .eq :=
  (if_pos rfl).trans (if_pos rfl)

theorem compare_key_of_ne (h : x ≠ y) : compare (o.key x) (o.key y) =
    if o.isBefore x y then .lt
    else if o.isBefore y x then .gt
    else (compare (o.isKnown y) (o.isKnown x)).then (compare x y) := by
  have hkey : compare (o.key x) (o.key y) = (if x = y then .eq else _) := if_pos rfl
  rw [hkey, if_neg h]
  rfl

/-- Variables of the order compare by their last occurrences. -/
theorem compare_of_lastAt {i j : Nat} (hx : o.LastAt x i) (hy : o.LastAt y j) :
    compare (o.key x) (o.key y) = compare i j := by
  by_cases hxy : x = y
  · subst hxy
    have hij : i = j := hx.place_eq.symm.trans hy.place_eq
    rw [compare_key_self, hij, Std.ReflOrd.compare_self]
  · rw [compare_key_of_ne hxy]
    have hne : i ≠ j := by
      rintro rfl
      exact hxy (hx.unique hy)
    -- of two different positions, one is before the other
    rcases Nat.lt_or_gt_of_ne hne with hlt | hgt
    · rw [if_pos ((hx.isBefore_iff hy).2 hlt), Std.compare_eq_lt.2 hlt]
    · have hnot : ¬ o.isBefore x y = true := fun h => Nat.lt_asymm hgt ((hx.isBefore_iff hy).1 h)
      rw [if_neg hnot, if_pos ((hy.isBefore_iff hx).2 hgt), Std.compare_eq_gt.2 hgt]

/-- Variables outside the order are in no facts, so whether they are known and their names decide. -/
theorem compare_of_not_mem_right (hxy : x ≠ y) (hy : y ∉ o.sequence) :
    compare (o.key x) (o.key y) = (compare false (o.isKnown x)).then (compare x y) := by
  rw [compare_key_of_ne hxy, KeyOrder.isBefore_of_not_mem_right hy, KeyOrder.isBefore_of_not_mem_left hy,
    KeyOrder.isKnown_of_not_mem hy]
  rfl

/-- Variables of the order come before all others. -/
theorem compare_of_mem_of_not_mem (hx : x ∈ o.sequence) (hy : y ∉ o.sequence) :
    compare (o.key x) (o.key y) = .lt := by
  have hxy : x ≠ y := by
    rintro rfl
    exact hy hx
  rw [compare_of_not_mem_right hxy hy, KeyOrder.isKnown_iff.2 hx]
  rfl

theorem compare_of_not_mem_of_mem (hx : x ∉ o.sequence) (hy : y ∈ o.sequence) :
    compare (o.key x) (o.key y) = .gt := by
  have hxy : x ≠ y := by
    rintro rfl
    exact hx hy
  rw [compare_key_of_ne hxy, KeyOrder.isBefore_of_not_mem_left hx, KeyOrder.isBefore_of_not_mem_right hx,
    KeyOrder.isKnown_of_not_mem hx, KeyOrder.isKnown_iff.2 hy]
  rfl

/-- Variables outside the order compare by name. -/
theorem compare_of_not_mem (hx : x ∉ o.sequence) (hy : y ∉ o.sequence) :
    compare (o.key x) (o.key y) = compare x y := by
  by_cases hxy : x = y
  · subst hxy
    rw [compare_key_self, Std.ReflOrd.compare_self]
  · rw [compare_of_not_mem_right hxy hy, KeyOrder.isKnown_of_not_mem hx]
    rfl

/-- Keys of one order compare by place, then by name. -/
theorem compare_key : compare (o.key x) (o.key y) = (compare (o.place x) (o.place y)).then (compare x y) := by
  by_cases hx : x ∈ o.sequence
  · obtain ⟨i, hi⟩ := KeyOrder.exists_lastAt hx
    by_cases hy : y ∈ o.sequence
    · obtain ⟨j, hj⟩ := KeyOrder.exists_lastAt hy
      rw [compare_of_lastAt hi hj, hi.place_eq, hj.place_eq]
      cases hij : compare i j with
      | lt | gt => rfl
      | eq =>
        -- one position belongs to one variable, so the names do not matter
        obtain rfl := Std.LawfulEqCmp.eq_of_compare hij
        rw [hi.unique hj]
        exact Std.ReflOrd.compare_self.symm
    · rw [compare_of_mem_of_not_mem hx hy, hi.place_eq, KeyOrder.place_of_not_mem hy, Std.compare_eq_lt.2 hi.lt_length]
      rfl
  · rw [KeyOrder.place_of_not_mem hx]
    by_cases hy : y ∈ o.sequence
    · obtain ⟨j, hj⟩ := KeyOrder.exists_lastAt hy
      rw [compare_of_not_mem_of_mem hx hy, hj.place_eq, Std.compare_eq_gt.2 hj.lt_length]
      rfl
    · rw [compare_of_not_mem hx hy, KeyOrder.place_of_not_mem hy, Std.ReflOrd.compare_self]
      rfl

end OneOrder

/-! ### All keys -/

theorem eq_key (a : Key) : a = a.order.key a.name := rfl

/-- Keys of different orders compare by the sequences, which are never the same. -/
theorem compare_of_sequence_ne {a b : Key} (h : a.order.sequence ≠ b.order.sequence) :
    compare a b = compare a.order.sequence b.order.sequence := by
  have horder : compare a b = (compare a.order.sequence b.order.sequence).then (compare a.name b.name) :=
    if_neg fun ho => h (congrArg KeyOrder.sequence ho)
  rw [horder]
  cases hc : compare a.order.sequence b.order.sequence with
  | lt | gt => rfl
  | eq => exact absurd (Std.LawfulEqCmp.eq_of_compare hc) h

/-- The sequence of the order, the place in it, the name. -/
def sortKey (k : Key) : List Variable × Nat × Variable := (k.order.sequence, k.order.place k.name, k.name)

/-- Keys compare as their sort keys do, which makes their order total. -/
theorem compare_eq_compareOn_sortKey : (compare : Key → Key → Ordering) = compareOn sortKey := by
  funext a b
  obtain ⟨x, o⟩ := a
  obtain ⟨y, p⟩ := b
  change compare (o.key x) (p.key y) = (compare o.sequence p.sequence).then
    ((compare (o.place x) (p.place y)).then (compare x y))
  by_cases h : o.sequence = p.sequence
  · obtain rfl : o = p := KeyOrder.sequence_injective h
    have hsequence : compare o.sequence o.sequence = .eq := Std.ReflCmp.compare_self
    rw [compare_key, hsequence]
    rfl
  · have hne : compare (o.key x) (p.key y) = compare o.sequence p.sequence := compare_of_sequence_ne h
    rw [hne]
    cases hc : compare o.sequence p.sequence with
    | lt | gt => rfl
    | eq => exact absurd (Std.LawfulEqCmp.eq_of_compare hc) h

instance : Std.TransOrd Key := by
  change Std.TransCmp compare
  rw [compare_eq_compareOn_sortKey]
  infer_instance

theorem eq_of_name_of_order {a b : Key} (hn : a.name = b.name) (ho : a.order = b.order) : a = b := by
  cases a
  cases b
  simp_all

theorem sortKey_injective {a b : Key} (h : a.sortKey = b.sortKey) : a = b := by
  simp only [sortKey, Prod.mk.injEq] at h
  exact eq_of_name_of_order h.2.2 (KeyOrder.sequence_injective h.1)

instance : Std.LawfulEqOrd Key where
  eq_of_compare {a b} h :=
    have hk : compare a.sortKey b.sortKey = .eq := by
      rw [compare_eq_compareOn_sortKey] at h
      exact h
    sortKey_injective (Std.LawfulEqCmp.eq_of_compare hk)

end Key

end TokenNet
