import TokenNet.FinMap
import TokenNet.Word

/-!
# Bags

A bag is a finite multiset: a finite map from its members to positive counts.  Two bags are the same value exactly when
every member has the same count in both.  `insert` and `sum` count without a bound; `wordInsert` and `wordSum` count in
machine words, as the tokens of a marking are counted.
-/

namespace TokenNet

/-- A finite map from the members to their counts, none of which is zero. -/
structure Bag (α : Type) [Ord α] where
  counts : FinMap α Nat
  pos : ∀ e ∈ counts.entries, 0 < e.2

namespace Bag

variable {α : Type} [Ord α]

instance [DecidableEq α] : DecidableEq (Bag α) := fun a b =>
  if h : a.counts = b.counts then
    isTrue (by cases a; cases b; simp_all)
  else
    isFalse (by rintro rfl; exact h rfl)

theorem counts_injective {a b : Bag α} (h : a.counts = b.counts) : a = b := by
  cases a
  cases b
  simp_all

/-- Bags compare as the lists of their members and counts. -/
instance : Ord (Bag α) := ⟨fun a b => compare a.counts b.counts⟩

instance [Std.TransOrd α] : Std.TransOrd (Bag α) :=
  inferInstanceAs (Std.TransCmp (compareOn counts))

instance [Std.TransOrd α] [Std.LawfulEqOrd α] : Std.LawfulEqOrd (Bag α) where
  eq_of_compare {a b} h :=
    have hc : compare a.counts b.counts = .eq := h
    counts_injective (Std.LawfulEqCmp.eq_of_compare hc)

instance : EmptyCollection (Bag α) := ⟨⟨∅, by simp [EmptyCollection.emptyCollection]⟩⟩

instance : Inhabited (Bag α) := ⟨∅⟩

/-- The members with their counts, in increasing order. -/
def toList (b : Bag α) : List (α × Nat) := b.counts.entries

def count (b : Bag α) (x : α) : Nat := (b.counts.get? x).getD 0

def contains (b : Bag α) (x : α) : Bool := b.counts.contains x

def isEmpty (b : Bag α) : Bool := b.counts.isEmpty

/-- The number of occurrences of all members, as a machine word. -/
def size (b : Bag α) : Nat := toWord (b.counts.values.foldr (· + ·) 0)

/-- The members, each once, in increasing order. -/
def distinct (b : Bag α) : List α := b.counts.keys

/-! ### Changing the count of one member -/

private theorem pos_alterEntries {k : α} {f : Option Nat → Option Nat} {l : List (α × Nat)}
    (hf : ∀ o n, f o = some n → 0 < n) (hl : ∀ e ∈ l, 0 < e.2) :
    ∀ e ∈ FinMap.alterEntries k f l, 0 < e.2 := by
  induction l with
  | nil =>
    intro e he
    obtain ⟨n, hn, rfl⟩ := List.mem_map.1 he
    exact hf none n (by simpa using hn)
  | cons d rest ih =>
    intro e he
    have hrest : ∀ e ∈ rest, 0 < e.2 := fun e he => hl e (List.mem_cons_of_mem _ he)
    unfold FinMap.alterEntries at he
    split at he
    · rcases List.mem_append.1 he with he | he
      · obtain ⟨n, hn, rfl⟩ := List.mem_map.1 he
        exact hf none n (by simpa using hn)
      · exact hl e he
    · rcases List.mem_append.1 he with he | he
      · obtain ⟨n, hn, rfl⟩ := List.mem_map.1 he
        exact hf _ n (by simpa using hn)
      · exact hrest e he
    · rcases List.mem_cons.1 he with rfl | he
      · exact hl _ List.mem_cons_self
      · exact ih hrest e he

variable [Std.TransOrd α]

/-- A count, unless it is zero. -/
def positive (n : Nat) : Option Nat := if n = 0 then none else some n

/-- The bag in which the count of `x` has been replaced by `f` of it. -/
def alter (b : Bag α) (x : α) (f : Nat → Nat) : Bag α where
  counts := b.counts.alter x fun o => positive (f (o.getD 0))
  pos := by
    refine pos_alterEntries (fun o n h => ?_) b.pos
    unfold positive at h
    split at h
    · cases h
    · cases h
      omega

def insert (b : Bag α) (x : α) (n : Nat) : Bag α := b.alter x (· + n)

/-- Inserts in a machine word: a count that is full starts again. -/
def wordInsert (b : Bag α) (x : α) (n : Nat) : Bag α := b.alter x fun m => toWord (m + n)

/-- The bag without `n` of the occurrences of `x`, or without all of them if there are fewer. -/
def erase (b : Bag α) (x : α) (n : Nat) : Bag α := b.alter x (· - n)

/-- Takes up to `n` occurrences of `x` out of the bag; also returns how many there were to take. -/
def remove (b : Bag α) (x : α) (n : Nat) : Nat × Bag α := (min n (b.count x), b.erase x n)

def insertAll (b : Bag α) (xs : List α) : Bag α := xs.foldl (fun b x => b.insert x 1) b

def ofList (xs : List α) : Bag α := insertAll ∅ xs

/-- The bag with the given members and counts; the counts of equal members add up. -/
def ofCounts (l : List (α × Nat)) : Bag α := l.foldl (fun b e => b.insert e.1 e.2) ∅

/-! ### Combining bags -/

/-- The larger of the two counts of every member. -/
def union (a b : Bag α) : Bag α := b.toList.foldl (fun r e => r.alter e.1 (max · e.2)) a

/-- The sum of the two counts of every member. -/
def sum (a b : Bag α) : Bag α := b.toList.foldl (fun r e => r.insert e.1 e.2) a

/-- The sum of the two counts of every member, in machine words. -/
def wordSum (a b : Bag α) : Bag α := b.toList.foldl (fun r e => r.wordInsert e.1 e.2) a

/-- The count in `a` less the count in `b`, as long as something is left. -/
def difference (a b : Bag α) : Bag α := b.toList.foldl (fun r e => r.erase e.1 e.2) a

omit [Std.TransOrd α]

/-! ### The sub-bag order -/

def isSubset (a b : Bag α) : Bool := a.toList.all fun e => e.2 ≤ b.count e.1

variable [DecidableEq α]

def isStrictSubset (a b : Bag α) : Bool := a ≠ b && a.isSubset b

/-- The sub-bag order; `none` if neither bag is contained in the other. -/
def partialCompare (a b : Bag α) : Option Ordering :=
  if a = b then some .eq
  else if a.isSubset b then some .lt
  else if b.isSubset a then some .gt
  else none

omit [DecidableEq α]

/-! ### Text -/

/-- Every occurrence of every member, in increasing order, between braces. -/
def text (render : α → String) (b : Bag α) : String :=
  "\x7b" ++ ", ".intercalate (b.toList.flatMap fun e => List.replicate e.2 (render e.1)) ++ "\x7d"

end Bag

end TokenNet
