import TokenNet.Bag.Lemmas
import TokenNet.Bag.Tally

/-!
# Bags are count functions

Any operations on bags, one after the other, are a `Bag.Term`.  The same operations on tallies make the counts of the bag,
`Bag.Term.tally_eq`, so they never leave a zero there; and the count of each member is what the operations make of the
counts of this member alone, `Bag.Term.count_bag`.  So the laws of bags are those of counts: `Bag.Term.pointwise`.
As long as the counts fit, the operations may be done in machine words: `Bag.Term.machine_eq_tally`.
-/

namespace TokenNet

variable {α : Type} [Ord α] [Std.TransOrd α] [Std.LawfulEqOrd α]

/-- What is done to an entry matters only at the value that it has. -/
theorem FinMap.alter_congr {V : Type} {m : FinMap α V} {k : α} {f g : Option V → Option V}
    (h : f (m.get? k) = g (m.get? k)) : m.alter k f = m.alter k g :=
  FinMap.ext_get? fun a => by rw [get?_alter, get?_alter, h]

/-! ### Tallies in machine words -/

namespace Tally

theorem count_insert (t : Tally α) (x : α) (n : Nat) (y : α) :
    (t.insert x n).count y = if compare y x = .eq then t.count x + n else t.count y := by
  unfold insert
  split
  · unfold count
    rw [FinMap.get?_alter]
    split <;> rfl
  · rename_i hn
    split
    · rename_i hy
      rw [Std.LawfulEqCmp.eq_of_compare hy]
      omega
    · rfl

theorem wordInsert_eq_insert {t : Tally α} {x : α} {n : Nat} (h : t.count x + n < wordSize) :
    t.wordInsert x n = t.insert x n := by
  unfold wordInsert insert
  split
  · exact congrArg mk (FinMap.alter_congr (congrArg some (toWord_of_lt h)))
  · rfl

theorem wordInsertAll_eq_insertAll [DecidableEq α] {t : Tally α} {xs : List α}
    (h : ∀ y, t.count y + xs.count y < wordSize) : t.wordInsertAll xs = t.insertAll xs := by
  induction xs generalizing t with
  | nil => rfl
  | cons x xs ih =>
    have hx := h x
    rw [List.count_cons_self] at hx
    have hrest : (t.insert x 1).wordInsertAll xs = (t.insert x 1).insertAll xs := by
      refine ih fun y => ?_
      have hy := h y
      rw [List.count_cons] at hy
      rw [count_insert]
      by_cases hyx : y = x
      · subst hyx
        simp only [beq_self_eq_true, if_true] at hy
        rw [if_pos Std.ReflCmp.compare_self]
        omega
      · rw [if_neg fun hc => hyx (Std.LawfulEqCmp.eq_of_compare hc)]
        omega
    have hstep : t.wordInsert x 1 = t.insert x 1 := wordInsert_eq_insert (by omega)
    unfold wordInsertAll at hrest ⊢
    rw [List.foldl_cons, hstep, hrest]
    rfl

/-- Each member is added once, so no count grows before its turn. -/
private theorem foldl_wordInsert {l : List (α × Nat)} {t : Tally α} (hl : l.Pairwise fun a b => compare a.1 b.1 = .lt)
    (h : ∀ e ∈ l, t.count e.1 + e.2 < wordSize) :
    l.foldl (fun r e => r.wordInsert e.1 e.2) t = l.foldl (fun r e => r.insert e.1 e.2) t := by
  induction l generalizing t with
  | nil => rfl
  | cons d rest ih =>
    obtain ⟨hd, hrest⟩ := List.pairwise_cons.1 hl
    rw [List.foldl_cons, List.foldl_cons, wordInsert_eq_insert (h d List.mem_cons_self)]
    refine ih hrest fun e he => ?_
    rw [count_insert, if_neg fun hc => ?_]
    · exact h e (List.mem_cons_of_mem _ he)
    · have hlt := hd e he
      rw [Std.LawfulEqCmp.eq_of_compare hc] at hlt
      simp at hlt

theorem wordSum_eq_sum {t u : Tally α} (h : ∀ x, t.count x + u.count x < wordSize) : t.wordSum u = t.sum u := by
  refine foldl_wordInsert u.counts.sorted fun e he => ?_
  have hcount : u.count e.1 = e.2 := by
    unfold count
    rw [FinMap.mem_entries_iff.1 he]
    rfl
  rw [← hcount]
  exact h e.1

end Tally

namespace Bag

/-! ### The tally of a bag -/

/-- The counts of a bag, without the knowledge that none is zero. -/
def tally (b : Bag α) : Tally α := ⟨b.counts⟩

private theorem positive_of_pos {n : Nat} (h : 0 < n) : positive n = some n := if_neg (Nat.ne_of_gt h)

theorem tally_insert (b : Bag α) (x : α) (n : Nat) : (b.insert x n).tally = b.tally.insert x n := by
  unfold Tally.insert
  split
  · rename_i hn
    exact congrArg Tally.mk (FinMap.alter_congr (positive_of_pos (Nat.add_pos_right _ hn)))
  · rename_i hn
    obtain rfl : n = 0 := by omega
    refine congrArg tally (ext_count fun y => ?_)
    rw [count_insert]
    split
    · rename_i hy
      rw [Std.LawfulEqCmp.eq_of_compare hy, Nat.add_zero]
    · rfl

theorem tally_remove (b : Bag α) (x : α) (n : Nat) :
    b.tally.remove x n = ((b.remove x n).1, (b.remove x n).2.tally) := by
  have hcount : b.tally.count x = b.count x := rfl
  unfold Tally.remove
  rw [hcount]
  split
  · rename_i hn
    refine Prod.ext (Nat.min_eq_left (Nat.le_of_lt hn)).symm (congrArg Tally.mk (FinMap.alter_congr ?_))
    -- the entry of `x` is there, and something is left of it
    change (b.counts.get? x).map (· - n) = positive ((b.counts.get? x).getD 0 - n)
    unfold count at hn
    cases hx : b.counts.get? x with
    | none => simp [hx] at hn
    | some m =>
      rw [hx, Option.getD_some] at hn
      exact (positive_of_pos (Nat.sub_pos_of_lt hn)).symm
  · rename_i hn
    refine Prod.ext (Nat.min_eq_right (Nat.le_of_not_lt hn)).symm (congrArg Tally.mk (FinMap.alter_congr ?_))
    have hzero : b.count x - n = 0 := by omega
    change none = positive (b.count x - n)
    rw [hzero]
    rfl

theorem tally_insertAll (b : Bag α) (xs : List α) : (b.insertAll xs).tally = b.tally.insertAll xs := by
  induction xs generalizing b with
  | nil => rfl
  | cons x xs ih =>
    have hstep := ih (b.insert x 1)
    rw [tally_insert] at hstep
    exact hstep

omit [Std.TransOrd α] [Std.LawfulEqOrd α] in
/-- An operation that goes through the members of a bag does so on the tallies, if each step does. -/
private theorem tally_foldl {f : Bag α → α × Nat → Bag α} {g : Tally α → α × Nat → Tally α} {l : List (α × Nat)}
    (h : ∀ e ∈ l, ∀ b, (f b e).tally = g b.tally e) (b : Bag α) : (l.foldl f b).tally = l.foldl g b.tally := by
  induction l generalizing b with
  | nil => rfl
  | cons e l ih =>
    rw [List.foldl_cons, List.foldl_cons, ih (fun e he => h e (List.mem_cons_of_mem _ he)), h e List.mem_cons_self]

theorem tally_union (a b : Bag α) : (a.union b).tally = a.tally.union b.tally := by
  refine tally_foldl (fun e he r => congrArg Tally.mk (FinMap.alter_congr ?_)) a
  exact positive_of_pos (Nat.lt_of_lt_of_le (b.pos e he) (Nat.le_max_right _ _))

theorem tally_sum (a b : Bag α) : (a.sum b).tally = a.tally.sum b.tally :=
  tally_foldl (fun e _ r => tally_insert r e.1 e.2) a

theorem tally_difference (a b : Bag α) : (a.difference b).tally = a.tally.difference b.tally := by
  refine tally_foldl (fun e _ r => ?_) a
  rw [tally_remove]
  rfl

/-! ### Counts -/

theorem isSubset_refl (a : Bag α) : a.isSubset a = true := isSubset_iff.2 fun _ => Nat.le_refl _

theorem isSubset_trans {a b c : Bag α} (hab : a.isSubset b = true) (hbc : b.isSubset c = true) :
    a.isSubset c = true := by
  rw [isSubset_iff] at hab hbc ⊢
  exact fun x => Nat.le_trans (hab x) (hbc x)

theorem isSubset_antisymm {a b : Bag α} (hab : a.isSubset b = true) (hba : b.isSubset a = true) : a = b := by
  rw [isSubset_iff] at hab hba
  exact ext_count fun x => Nat.le_antisymm (hab x) (hba x)

/-- The difference is residual to the sum. -/
theorem isSubset_difference_iff {a b c : Bag α} :
    (a.difference b).isSubset c = true ↔ a.isSubset (b.sum c) = true := by
  simp only [isSubset_iff, count_difference, count_sum]
  exact forall_congr' fun x => Nat.sub_le_iff_le_add'

theorem difference_sum_self (a b : Bag α) : (a.sum b).difference b = a :=
  ext_count fun x => by rw [count_difference, count_sum, Nat.add_sub_cancel]

theorem sum_difference_of_isSubset {a b : Bag α} (h : b.isSubset a = true) : (a.difference b).sum b = a :=
  ext_count fun x => by rw [count_sum, count_difference, Nat.sub_add_cancel (isSubset_iff.1 h x)]

section Compare

variable [DecidableEq α]

theorem isStrictSubset_iff {a b : Bag α} : a.isStrictSubset b = true ↔ a.isSubset b = true ∧ b.isSubset a = false := by
  simp only [isStrictSubset, decide_not, Bool.and_eq_true, Bool.not_eq_true', decide_eq_false_iff_not]
  rw [and_comm]
  refine and_congr_right fun hab => ?_
  rw [← Bool.not_eq_true]
  refine not_congr ⟨?_, isSubset_antisymm hab⟩
  rintro rfl
  exact isSubset_refl a

/-- Comparing bags tells whether each is contained in the other. -/
theorem partialCompare_eq (a b : Bag α) : a.partialCompare b = match a.isSubset b, b.isSubset a with
    | true, true => some .eq
    | true, false => some .lt
    | false, true => some .gt
    | false, false => none := by
  unfold partialCompare
  split
  · rename_i h
    subst h
    rw [isSubset_refl]
  · rename_i h
    cases hab : a.isSubset b with
    | false => cases hba : b.isSubset a <;> rfl
    | true =>
      cases hba : b.isSubset a with
      | false => rfl
      | true => exact absurd (isSubset_antisymm hab hba) h

/-- The order of two bags tells whether one is contained in the other, and whether they differ. -/
theorem partialCompare_iff (a b : Bag α) :
    (a.partialCompare b = some .eq ↔ a = b) ∧
    (a.partialCompare b = some .lt ↔ a.isStrictSubset b = true) ∧
    (a.partialCompare b = some .gt ↔ b.isStrictSubset a = true) ∧
    ((a.partialCompare b).any Ordering.isLE = true ↔ a.isSubset b = true) ∧
    ((a.partialCompare b).any Ordering.isGE = true ↔ b.isSubset a = true) ∧
    (a.partialCompare b = none ↔ a.isSubset b = false ∧ b.isSubset a = false) := by
  have heq : a = b ↔ a.isSubset b = true ∧ b.isSubset a = true :=
    ⟨fun h => by rw [h]; exact ⟨isSubset_refl b, isSubset_refl b⟩, fun h => isSubset_antisymm h.1 h.2⟩
  rw [heq, isStrictSubset_iff, isStrictSubset_iff, partialCompare_eq]
  cases a.isSubset b <;> cases b.isSubset a <;> decide

end Compare

/-! ### Sequences of operations -/

/-- A bag as it is made by operations, which begin with bags that are collected from lists. -/
inductive Term (α : Type) where
  | empty
  | collect (xs : List α)
  | insert (t : Term α) (x : α) (n : Nat)
  | remove (t : Term α) (x : α) (n : Nat)
  | extend (t : Term α) (xs : List α)
  | union (t u : Term α)
  | sum (t u : Term α)
  | difference (t u : Term α)

namespace Term

def bag : Term α → Bag α
  | empty => ∅
  | collect xs => ofList xs
  | insert t x n => t.bag.insert x n
  | remove t x n => (t.bag.remove x n).2
  | extend t xs => t.bag.insertAll xs
  | union t u => t.bag.union u.bag
  | sum t u => t.bag.sum u.bag
  | difference t u => t.bag.difference u.bag

/-- The operations on tallies. -/
def tally : Term α → Tally α
  | empty => ∅
  | collect xs => Tally.ofList xs
  | insert t x n => t.tally.insert x n
  | remove t x n => (t.tally.remove x n).2
  | extend t xs => t.tally.insertAll xs
  | union t u => t.tally.union u.tally
  | sum t u => t.tally.sum u.tally
  | difference t u => t.tally.difference u.tally

/-- The operations on tallies in machine words. -/
def machine : Term α → Tally α
  | empty => ∅
  | collect xs => Tally.wordInsertAll ∅ xs
  | insert t x n => t.machine.wordInsert x n
  | remove t x n => (t.machine.remove x n).2
  | extend t xs => t.machine.wordInsertAll xs
  | union t u => t.machine.union u.machine
  | sum t u => t.machine.wordSum u.machine
  | difference t u => t.machine.difference u.machine

/-- What the operations make of the counts of one member. -/
def count [DecidableEq α] (y : α) : Term α → Nat
  | empty => 0
  | collect xs => xs.count y
  | insert t x n => if y = x then t.count y + n else t.count y
  | remove t x n => if y = x then t.count y - n else t.count y
  | extend t xs => t.count y + xs.count y
  | union t u => max (t.count y) (u.count y)
  | sum t u => t.count y + u.count y
  | difference t u => t.count y - u.count y

/-- No operation makes a count that does not fit into a word. -/
def Fits [DecidableEq α] : Term α → Prop
  | empty => True
  | collect xs => ∀ y, xs.count y < wordSize
  | insert t x n => t.Fits ∧ t.count x + n < wordSize
  | remove t _ _ => t.Fits
  | extend t xs => t.Fits ∧ ∀ y, t.count y + xs.count y < wordSize
  | union t u => t.Fits ∧ u.Fits
  | sum t u => t.Fits ∧ u.Fits ∧ ∀ y, t.count y + u.count y < wordSize
  | difference t u => t.Fits ∧ u.Fits

/-- The operations make the counts of the bag out of bare counts, too. -/
theorem tally_eq (t : Term α) : t.tally = t.bag.tally := by
  induction t with
  | empty => rfl
  | collect xs => exact (tally_insertAll ∅ xs).symm
  | insert t x n ih => rw [tally, ih, bag, tally_insert]
  | remove t x n ih => rw [tally, ih, tally_remove, bag]
  | extend t xs ih => rw [tally, ih, bag, tally_insertAll]
  | union t u iht ihu => rw [tally, iht, ihu, bag, tally_union]
  | sum t u iht ihu => rw [tally, iht, ihu, bag, tally_sum]
  | difference t u iht ihu => rw [tally, iht, ihu, bag, tally_difference]

variable [DecidableEq α]

/-- Each member is counted by itself. -/
theorem count_bag (t : Term α) (y : α) : t.bag.count y = t.count y := by
  induction t with
  | empty => rfl
  | collect xs => exact count_ofList xs y
  | insert t x n ih =>
    rw [bag, count_insert, count, ← ih]
    simp only [Std.LawfulEqCmp.compare_eq_iff_eq]
    split
    · rename_i hy
      rw [hy]
    · rfl
  | remove t x n ih =>
    rw [bag, Bag.remove, count_erase, count, ← ih]
    simp only [Std.LawfulEqCmp.compare_eq_iff_eq]
    split
    · rename_i hy
      rw [hy]
    · rfl
  | extend t xs ih => rw [bag, count_insertAll, ih, count]
  | union t u iht ihu => rw [bag, count_union, iht, ihu, count]
  | sum t u iht ihu => rw [bag, count_sum, iht, ihu, count]
  | difference t u iht ihu => rw [bag, count_difference, iht, ihu, count]

theorem count_tally (t : Term α) (y : α) : t.tally.count y = t.count y := by
  rw [tally_eq]
  exact t.count_bag y

/-- In machine words the operations make the same tally, as long as its counts fit. -/
theorem machine_eq_tally {t : Term α} (h : t.Fits) : t.machine = t.tally := by
  induction t with
  | empty => rfl
  | collect xs => exact Tally.wordInsertAll_eq_insertAll fun y => (Nat.zero_add _).symm ▸ h y
  | insert t x n ih =>
    rw [machine, ih h.1, tally]
    exact Tally.wordInsert_eq_insert (by rw [count_tally]; exact h.2)
  | remove t x n ih => rw [machine, ih h, tally]
  | extend t xs ih =>
    rw [machine, ih h.1, tally]
    exact Tally.wordInsertAll_eq_insertAll fun y => by rw [count_tally]; exact h.2 y
  | union t u iht ihu => rw [machine, iht h.1, ihu h.2, tally]
  | sum t u iht ihu =>
    rw [machine, iht h.1, ihu h.2.1, tally]
    exact Tally.wordSum_eq_sum fun y => by rw [count_tally, count_tally]; exact h.2.2 y
  | difference t u iht ihu => rw [machine, iht h.1, ihu h.2, tally]

/-- Whatever operations bags are made by: the stored entries are those of the members with a positive count, and each count
is what the operations make of the counts of this member alone, in machine words as well if no count is too large for a
word; taking occurrences out returns how many of them there were.  Bags are equal if their counts are, and one is contained
in another if its counts are at most those of the other.  This is a partial order, which the comparison decides, and the
difference is residual to the sum. -/
theorem pointwise (t u w : Term α) :
    (t.tally = t.bag.tally ∧ (∀ x n, (x, n) ∈ t.tally.counts.entries ↔ t.count x = n ∧ 0 < n) ∧
      (∀ x, t.bag.count x = t.count x) ∧ (t.Fits → t.machine = t.tally)) ∧
    (∀ x n, t.tally.remove x n = ((t.bag.remove x n).1, (t.bag.remove x n).2.tally) ∧
      (t.bag.remove x n).1 = min n (t.count x)) ∧
    (((t.bag == u.bag) = true ↔ ∀ x, t.count x = u.count x) ∧ (t.tally = u.tally ↔ ∀ x, t.count x = u.count x) ∧
      (t.bag.isSubset u.bag = true ↔ ∀ x, t.count x ≤ u.count x) ∧
      (t.bag.isStrictSubset u.bag = true ↔ (∀ x, t.count x ≤ u.count x) ∧ ∃ x, t.count x < u.count x)) ∧
    ((t.bag.partialCompare u.bag = some .eq ↔ t.bag = u.bag) ∧
      (t.bag.partialCompare u.bag = some .lt ↔ t.bag.isStrictSubset u.bag = true) ∧
      (t.bag.partialCompare u.bag = some .gt ↔ u.bag.isStrictSubset t.bag = true) ∧
      ((t.bag.partialCompare u.bag).any Ordering.isLE = true ↔ t.bag.isSubset u.bag = true) ∧
      ((t.bag.partialCompare u.bag).any Ordering.isGE = true ↔ u.bag.isSubset t.bag = true) ∧
      (t.bag.partialCompare u.bag = none ↔ t.bag.isSubset u.bag = false ∧ u.bag.isSubset t.bag = false)) ∧
    (t.bag.isSubset t.bag = true ∧
      (t.bag.isSubset u.bag = true → u.bag.isSubset t.bag = true → t.bag = u.bag) ∧
      (t.bag.isSubset u.bag = true → u.bag.isSubset w.bag = true → t.bag.isSubset w.bag = true)) ∧
    (((t.bag.difference u.bag).isSubset w.bag = true ↔ t.bag.isSubset (u.bag.sum w.bag) = true) ∧
      (t.bag.sum u.bag).difference u.bag = t.bag ∧
      (u.bag.isSubset t.bag = true → (t.bag.difference u.bag).sum u.bag = t.bag)) := by
  have hsubset : ∀ t u : Term α, t.bag.isSubset u.bag = true ↔ ∀ x, t.count x ≤ u.count x := by
    intro t u
    simp only [isSubset_iff, count_bag]
  have hequal : t.bag = u.bag ↔ ∀ x, t.count x = u.count x := by
    simp only [← count_bag]
    exact ⟨fun h x => by rw [h], ext_count⟩
  refine ⟨⟨t.tally_eq, fun x n => ?_, t.count_bag, machine_eq_tally⟩, fun x n => ⟨?_, ?_⟩, ⟨?_, ?_, hsubset t u, ?_⟩,
    partialCompare_iff _ _, ⟨isSubset_refl _, isSubset_antisymm, isSubset_trans⟩,
    isSubset_difference_iff, difference_sum_self _ _, sum_difference_of_isSubset⟩
  · rw [tally_eq, ← count_bag]
    exact mem_toList_iff
  · rw [tally_eq, tally_remove]
  · rw [← count_bag]
    rfl
  · rw [beq_iff_eq, hequal]
  · rw [tally_eq, tally_eq, ← hequal]
    exact ⟨fun h => counts_injective (Tally.mk.inj h), congrArg Bag.tally⟩
  · rw [isStrictSubset_iff, hsubset, ← Bool.not_eq_true, hsubset]
    simp only [Classical.not_forall, Nat.not_le]

/-- Taking out more than there is, adding nothing, and a difference of which nothing is left. -/
theorem pointwise_floor :
    let t : Term Nat := .insert (.remove (.insert (.collect [1, 2, 1]) 3 0) 1 5) 2 4
    let u : Term Nat := .difference (.union t (.collect [7, 2])) (.extend .empty [2, 2, 2, 2, 2, 7, 7])
    t.bag.toList = [(2, 5)] ∧ u.bag.toList = [] ∧ (∀ x n, (x, n) ∈ t.tally.counts.entries ↔ t.count x = n ∧ 0 < n) ∧
      t.machine = t.tally ∧ ((Term.collect [2, 3]).bag.partialCompare t.bag = none) ∧
      (t.bag.difference u.bag).sum u.bag = t.bag := by
  intro t u
  have hfits : t.Fits :=
    ⟨⟨fun y => Nat.lt_of_le_of_lt List.count_le_length (by decide), by decide⟩, by decide⟩
  obtain ⟨⟨-, hentries, -, hmachine⟩, -, -, -, -, -, -, hrestore⟩ := pointwise t u u
  obtain ⟨-, -, -, ⟨-, -, -, -, -, hnone⟩, -⟩ := pointwise (.collect [2, 3]) t t
  exact ⟨by decide, by decide, hentries, hmachine hfits, hnone.2 ⟨by decide, by decide⟩, hrestore (by decide)⟩

end Term

end Bag

end TokenNet
