import TokenNet.Bag

/-!
# Tallies

A tally is a finite map from members to counts, which the operations on bags change entry by entry.  Unlike a bag it may
have entries with the count zero, and only the operations keep them out: nothing is entered where nothing is added, and
the entry of a member goes with its last occurrence.  Only in machine words, `wordInsert`, can a count that is full become
zero and stay.
-/

namespace TokenNet

/-- Counts of members, any of which may be zero. -/
structure Tally (α : Type) [Ord α] where
  counts : FinMap α Nat

namespace Tally

variable {α : Type} [Ord α]

instance : EmptyCollection (Tally α) := ⟨⟨∅⟩⟩

def count (t : Tally α) (x : α) : Nat := (t.counts.get? x).getD 0

variable [Std.TransOrd α]

/-- Adds to the count in the entry of `x`, which is made if there is none. -/
def insert (t : Tally α) (x : α) (n : Nat) : Tally α :=
  if 0 < n then ⟨t.counts.alter x fun o => some (o.getD 0 + n)⟩ else t

/-- Lowers the count in the entry of `x`, or erases the entry if none would be left; also returns how many there were to
take. -/
def remove (t : Tally α) (x : α) (n : Nat) : Nat × Tally α :=
  if n < t.count x then (n, ⟨t.counts.alter x fun o => o.map (· - n)⟩)
  else (t.count x, ⟨t.counts.erase x⟩)

def insertAll (t : Tally α) (xs : List α) : Tally α := xs.foldl (fun t x => t.insert x 1) t

def ofList (xs : List α) : Tally α := insertAll ∅ xs

/-- Raises each count to that of the other tally. -/
def union (t u : Tally α) : Tally α :=
  u.counts.entries.foldl (fun r e => ⟨r.counts.alter e.1 fun o => some (max (o.getD 0) e.2)⟩) t

def sum (t u : Tally α) : Tally α := u.counts.entries.foldl (fun r e => r.insert e.1 e.2) t

def difference (t u : Tally α) : Tally α := u.counts.entries.foldl (fun r e => (r.remove e.1 e.2).2) t

/-! ### Machine words -/

/-- Inserts in a machine word: a count that is full starts again. -/
def wordInsert (t : Tally α) (x : α) (n : Nat) : Tally α :=
  if 0 < n then ⟨t.counts.alter x fun o => some (toWord (o.getD 0 + n))⟩ else t

def wordInsertAll (t : Tally α) (xs : List α) : Tally α := xs.foldl (fun t x => t.wordInsert x 1) t

def wordSum (t u : Tally α) : Tally α := u.counts.entries.foldl (fun r e => r.wordInsert e.1 e.2) t

end Tally

end TokenNet
