/-!
# Sorting

Insertion sort, by recursion on the list.  It is stable, and on a list that is sorted already it takes one comparison an
element; the lists to be sorted here are short or nearly sorted.

Main statements: `sortOn_perm`, `pairwise_sortOn`, `pairwise_sortOn_stable`, `sortOn_eq_self` for a list that is sorted
already, and `sortOnce_eq_sortOn`.
-/

namespace TokenNet

variable {α : Type}

/-- Puts an element in front of the first element that it is not greater than. -/
def insertSorted (le : α → α → Bool) (x : α) : List α → List α
  | [] => [x]
  | y :: ys => if le x y then x :: y :: ys else y :: insertSorted le x ys

def sortBy (le : α → α → Bool) : List α → List α
  | [] => []
  | x :: xs => insertSorted le x (sortBy le xs)

/-- Sorts by what `f` says of the elements. -/
def sortOn {β : Type} [Ord β] (f : α → β) (l : List α) : List α := sortBy (fun a b => (compare (f a) (f b)).isLE) l

/-- `sortOn`, with `f` asked only once about each element. -/
def sortOnce {β : Type} [Ord β] (f : α → β) (l : List α) : List α :=
  (sortOn Prod.fst (l.map fun a => (f a, a))).map Prod.snd

/-! ### Sorting commutes with maps that respect the order -/

private theorem map_insertSorted {β : Type} {le : α → α → Bool} {le' : β → β → Bool} {g : α → β}
    (h : ∀ x y, le' (g x) (g y) = le x y) (x : α) (l : List α) :
    (insertSorted le x l).map g = insertSorted le' (g x) (l.map g) := by
  induction l with
  | nil => rfl
  | cons y ys ih =>
    simp only [insertSorted, List.map_cons, h]
    split
    · rfl
    · rw [List.map_cons, ih]

theorem map_sortBy {β : Type} {le : α → α → Bool} {le' : β → β → Bool} {g : α → β}
    (h : ∀ x y, le' (g x) (g y) = le x y) (l : List α) : (sortBy le l).map g = sortBy le' (l.map g) := by
  induction l with
  | nil => rfl
  | cons x xs ih => rw [sortBy, map_insertSorted h, ih, List.map_cons, sortBy]

theorem sortOnce_eq_sortOn {β : Type} [Ord β] (f : α → β) (l : List α) : sortOnce f l = sortOn f l := by
  rw [sortOnce, sortOn, ← map_sortBy (g := fun a => (f a, a)) fun _ _ => rfl, List.map_map]
  exact List.map_id _

/-! ### The elements stay the same -/

theorem insertSorted_perm (le : α → α → Bool) (x : α) (l : List α) : (insertSorted le x l).Perm (x :: l) := by
  induction l with
  | nil => exact .refl _
  | cons y ys ih =>
    unfold insertSorted
    split
    · exact .refl _
    · exact (ih.cons y).trans (.swap x y ys)

theorem sortBy_perm (le : α → α → Bool) (l : List α) : (sortBy le l).Perm l := by
  induction l with
  | nil => exact .refl _
  | cons x xs ih => exact (insertSorted_perm le x _).trans (ih.cons x)

variable {β : Type} [Ord β]

theorem sortOn_perm (f : α → β) (l : List α) : (sortOn f l).Perm l := sortBy_perm _ l

theorem mem_sortOn {f : α → β} {l : List α} {x : α} : x ∈ sortOn f l ↔ x ∈ l := (sortOn_perm f l).mem_iff

/-! ### The result is sorted -/

theorem sortOn_eq_self {f : α → β} {l : List α} (hl : l.Pairwise fun a b => (compare (f a) (f b)).isLE) :
    sortOn f l = l := by
  unfold sortOn
  induction l with
  | nil => rfl
  | cons x xs ih =>
    obtain ⟨hx, hxs⟩ := List.pairwise_cons.1 hl
    rw [sortBy, ih hxs]
    cases xs with
    | nil => rfl
    | cons y ys => simp [insertSorted, hx y List.mem_cons_self]

variable [Std.TransOrd β]

/-- An element is put behind the elements of lower rank, and in front of those of its own. -/
private theorem pairwise_insertSorted {R : α → α → Prop} (f : α → β) {x : α} {l : List α}
    (hl : l.Pairwise fun a b => compare (f a) (f b) = .lt ∨ compare (f a) (f b) = .eq ∧ R a b) (hx : ∀ y ∈ l, R x y) :
    (insertSorted (fun a b => (compare (f a) (f b)).isLE) x l).Pairwise
      fun a b => compare (f a) (f b) = .lt ∨ compare (f a) (f b) = .eq ∧ R a b := by
  have hle : ∀ {z : α}, (compare (f x) (f z)).isLE → R x z →
      compare (f x) (f z) = .lt ∨ compare (f x) (f z) = .eq ∧ R x z := by
    intro z hz hR
    cases h : compare (f x) (f z) <;> simp_all
  induction l with
  | nil => exact List.pairwise_singleton _ _
  | cons y ys ih =>
    obtain ⟨hy, hys⟩ := List.pairwise_cons.1 hl
    unfold insertSorted
    split
    · rename_i hxy
      refine List.pairwise_cons.2 ⟨fun z hz => hle ?_ (hx z hz), hl⟩
      rcases List.mem_cons.1 hz with rfl | hz
      · exact hxy
      · have hyz : (compare (f y) (f z)).isLE := by rcases hy z hz with h | ⟨h, -⟩ <;> simp [h]
        exact Std.TransCmp.isLE_trans hxy hyz
    · rename_i hxy
      refine List.pairwise_cons.2 ⟨fun z hz => ?_, ih hys fun z hz => hx z (List.mem_cons_of_mem y hz)⟩
      rcases List.mem_cons.1 ((insertSorted_perm _ x ys).mem_iff.1 hz) with rfl | hz
      · have hswap : compare (f y) (f z) = (compare (f z) (f y)).swap := Std.OrientedCmp.eq_swap
        rw [hswap]
        cases h : compare (f z) (f y) <;> simp_all
      · exact hy z hz

/-- The sort is stable: elements of one rank stay in the order that they had. -/
theorem pairwise_sortOn_stable {R : α → α → Prop} (f : α → β) {l : List α} (hl : l.Pairwise R) :
    (sortOn f l).Pairwise fun a b => compare (f a) (f b) = .lt ∨ compare (f a) (f b) = .eq ∧ R a b := by
  unfold sortOn
  induction l with
  | nil => exact .nil
  | cons x xs ih =>
    obtain ⟨hx, hxs⟩ := List.pairwise_cons.1 hl
    exact pairwise_insertSorted f (ih hxs) fun y hy => hx y ((sortBy_perm _ xs).mem_iff.1 hy)

theorem pairwise_sortOn (f : α → β) (l : List α) :
    (sortOn f l).Pairwise fun a b => (compare (f a) (f b)).isLE := by
  have hany : l.Pairwise fun _ _ => True := List.pairwise_of_forall fun _ _ => trivial
  refine (pairwise_sortOn_stable f hany).imp fun {a b} hab => ?_
  rcases hab with h | ⟨h, -⟩ <;> simp [h]

end TokenNet
