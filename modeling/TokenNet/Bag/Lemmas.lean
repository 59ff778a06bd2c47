import TokenNet.Bag
import TokenNet.FinMap.Lemmas

/-!
# Laws of bags

A bag is known by its counts: `ext_count`.  Inserting, erasing, union, sum and difference act on the counts one member
at a time, and containment is comparison of the counts.
-/

namespace TokenNet.Bag

variable {α : Type} [Ord α] [Std.TransOrd α] [Std.LawfulEqOrd α]

/-! ### Counts -/

omit [Std.TransOrd α] [Std.LawfulEqOrd α] in
@[simp]
theorem count_empty (x : α) : (∅ : Bag α).count x = 0 := rfl

private theorem getD_positive (n : Nat) : (positive n).getD 0 = n := by
  unfold positive
  split
  · simp_all
  · rfl

theorem count_alter (b : Bag α) (x : α) (f : Nat → Nat) (y : α) :
    (b.alter x f).count y = if compare y x = .eq then f (b.count x) else b.count y := by
  unfold alter count
  rw [FinMap.get?_alter]
  split
  · exact getD_positive _
  · rfl

theorem count_insert (b : Bag α) (x : α) (n : Nat) (y : α) :
    (b.insert x n).count y = if compare y x = .eq then b.count x + n else b.count y :=
  count_alter b x _ y

theorem count_erase (b : Bag α) (x : α) (n : Nat) (y : α) :
    (b.erase x n).count y = if compare y x = .eq then b.count x - n else b.count y :=
  count_alter b x _ y

theorem count_erase_self (b : Bag α) (x : α) (n : Nat) : (b.erase x n).count x = b.count x - n := by
  simp [count_erase]

theorem count_erase_of_ne (b : Bag α) {x y : α} (h : y ≠ x) (n : Nat) : (b.erase x n).count y = b.count y := by
  rw [count_erase, if_neg]
  exact fun hc => h (Std.LawfulEqCmp.eq_of_compare hc)

theorem count_insertAll [DecidableEq α] (b : Bag α) (xs : List α) (y : α) :
    (b.insertAll xs).count y = b.count y + xs.count y := by
  induction xs generalizing b with
  | nil => rfl
  | cons x xs ih =>
    have hrest : (b.insertAll (x :: xs)).count y = ((b.insert x 1).insertAll xs).count y := rfl
    rw [hrest, ih, count_insert, List.count_cons]
    by_cases hyx : y = x
    · subst hyx
      simp
      omega
    · simp [hyx, Ne.symm hyx]

/-- A bag counts the members of its list. -/
theorem count_ofList [DecidableEq α] (xs : List α) (y : α) : (ofList xs).count y = xs.count y := by
  rw [ofList, count_insertAll, count_empty, Nat.zero_add]

theorem mem_toList_iff {b : Bag α} {x : α} {n : Nat} : (x, n) ∈ b.toList ↔ b.count x = n ∧ 0 < n := by
  unfold toList count
  constructor
  · intro h
    rw [FinMap.mem_entries_iff.1 h]
    exact ⟨rfl, b.pos _ h⟩
  · rintro ⟨h, hn⟩
    rw [FinMap.mem_entries_iff]
    cases hx : b.counts.get? x with
    | none =>
      rw [hx] at h
      simp only [Option.getD_none] at h
      omega
    | some m =>
      rw [hx] at h
      exact congrArg some h

theorem ext_count {a b : Bag α} (h : ∀ x, a.count x = b.count x) : a = b := by
  refine counts_injective (FinMap.ext_get? fun x => Option.ext fun n => ?_)
  have ha := mem_toList_iff (b := a) (x := x) (n := n)
  have hb := mem_toList_iff (b := b) (x := x) (n := n)
  rw [← FinMap.mem_entries_iff, ← FinMap.mem_entries_iff]
  exact ha.trans ((by rw [h]) : _ ↔ _) |>.trans hb.symm

/-! ### Combining bags -/

/-- Changing the counts of the members of a bag, each once, changes every count once. -/
private theorem count_foldl_alter (g : Nat → Nat → Nat) {l : List (α × Nat)} (a : Bag α) (x : α)
    (hl : l.Pairwise fun a b => compare a.1 b.1 = .lt) :
    (l.foldl (fun r e => r.alter e.1 (g e.2)) a).count x =
      ((FinMap.lookup x l).map fun n => g n (a.count x)).getD (a.count x) := by
  induction l generalizing a with
  | nil => rfl
  | cons d rest ih =>
    obtain ⟨hd, hrest⟩ := List.pairwise_cons.1 hl
    rw [List.foldl_cons, ih _ hrest, count_alter, FinMap.lookup]
    split
    · rename_i hx
      obtain rfl := Std.LawfulEqCmp.eq_of_compare hx
      rw [FinMap.lookup_eq_none_of_lt hd]
      rfl
    · rfl

private theorem count_foldl_members (g : Nat → Nat → Nat) (a b : Bag α) (x : α) (hg : g 0 (a.count x) = a.count x) :
    (b.toList.foldl (fun r e => r.alter e.1 (g e.2)) a).count x = g (b.count x) (a.count x) := by
  rw [toList, count_foldl_alter g a x b.counts.sorted]
  change ((b.counts.get? x).map _).getD _ = g ((b.counts.get? x).getD 0) _
  cases b.counts.get? x with
  | none => exact hg.symm
  | some n => rfl

theorem count_union (a b : Bag α) (x : α) : (a.union b).count x = max (a.count x) (b.count x) :=
  count_foldl_members (fun n m => max m n) a b x (by simp)

theorem count_sum (a b : Bag α) (x : α) : (a.sum b).count x = a.count x + b.count x :=
  count_foldl_members (fun n m => m + n) a b x (by simp)

theorem count_difference (a b : Bag α) (x : α) : (a.difference b).count x = a.count x - b.count x :=
  count_foldl_members (fun n m => m - n) a b x (by simp)

theorem isSubset_iff {a b : Bag α} : a.isSubset b = true ↔ ∀ x, a.count x ≤ b.count x := by
  unfold isSubset
  simp only [List.all_eq_true, decide_eq_true_eq]
  constructor
  · intro h x
    by_cases hx : a.count x = 0
    · omega
    · exact h (x, a.count x) (mem_toList_iff.2 ⟨rfl, by omega⟩)
  · rintro h ⟨x, n⟩ he
    obtain ⟨rfl, -⟩ := mem_toList_iff.1 he
    exact h x

/-! ### Machine words -/

/-- The counts fit into machine words. -/
def Fits (b : Bag α) : Prop := ∀ e ∈ b.toList, e.2 < wordSize

instance (b : Bag α) : Decidable b.Fits := inferInstanceAs (Decidable (∀ e ∈ b.toList, e.2 < wordSize))

theorem fits_iff {b : Bag α} : b.Fits ↔ ∀ x, b.count x < wordSize := by
  constructor
  · intro h x
    by_cases hx : b.count x = 0
    · rw [hx]
      decide
    · exact h (x, b.count x) (mem_toList_iff.2 ⟨rfl, by omega⟩)
  · rintro h ⟨x, n⟩ he
    obtain ⟨rfl, -⟩ := mem_toList_iff.1 he
    exact h x

/-- The sum in words is the word of the sum. -/
theorem count_wordSum {a : Bag α} (ha : a.Fits) (b : Bag α) (x : α) :
    (a.wordSum b).count x = toWord (a.count x + b.count x) :=
  count_foldl_members (fun n m => toWord (m + n)) a b x (toWord_of_lt (fits_iff.1 ha x))
end TokenNet.Bag
