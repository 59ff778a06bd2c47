import Std.Data.TreeMap.Basic
import TokenNet.Diagram
import TokenNet.Word

/-!
# The store of diagrams

A store makes nodes and keeps them: asked for a node that it has made before, it returns the same one, so that within a
store equal diagrams have equal indices.  It also remembers the results of operations until it is told to forget them;
nodes are never forgotten.
-/

namespace TokenNet

/-- What a node consists of: the index of its skip diagram, the indices of the diagrams on its branches, the values of
its branches, and its key.  Shapes compare in this order, since numbers compare fastest and mostly differ. -/
abbrev Shape (K V : Type) := Nat × List Nat × List V × K

/-- The operations on two diagrams whose results are remembered. -/
inductive Operation where
  | union
  | join
  deriving DecidableEq

structure Store (K V : Type) [Ord K] [Ord V] where
  /-- The nodes in the order of their making; the first has index `2`. -/
  nodes : Array (Diagram K V) := #[]
  unique : Std.TreeMap (Shape K V) (Diagram K V) := ∅
  unions : Std.TreeMap (Nat × Nat) (Diagram K V) := ∅
  joins : Std.TreeMap (Nat × Nat) (Diagram K V) := ∅
  counts : Std.TreeMap Nat Nat := ∅
  /-- How often a remembered result was found. -/
  hits : Nat := 0
  /-- How often a result had to be computed. -/
  misses : Nat := 0

/-- Computations that use and change a store. -/
abbrev StoreM (K V : Type) [Ord K] [Ord V] := StateM (Store K V)

variable {K V : Type} [Ord K] [Ord V]

namespace Store

instance : Inhabited (Store K V) := ⟨{}⟩

/-- The number of remembered results. -/
def cached (s : Store K V) : Nat := s.unions.size + s.joins.size + s.counts.size

/-- Forgets all results. -/
def clearCaches (s : Store K V) : Store K V := { s with unions := ∅, joins := ∅, counts := ∅ }

def hit (s : Store K V) : Store K V := { s with hits := s.hits + 1 }

def miss (s : Store K V) : Store K V := { s with misses := s.misses + 1 }

def result? (s : Store K V) : Operation → Nat × Nat → Option (Diagram K V)
  | .union, p => s.unions[p]?
  | .join, p => s.joins[p]?

def remember (s : Store K V) (op : Operation) (p : Nat × Nat) (d : Diagram K V) : Store K V :=
  match op with
  | .union => { s with unions := s.unions.insert p d }
  | .join => { s with joins := s.joins.insert p d }

end Store

namespace Diagram

/-! ### Making nodes -/

/-- The branches that lead to some map, sorted by value. -/
def tidy (take : List (V × Diagram K V)) : List (V × Diagram K V) :=
  sortOn Prod.fst (take.filter fun b => !b.2.isEmptySet)

def shape (key : K) (take : List (V × Diagram K V)) (skip : Diagram K V) : Shape K V :=
  (skip.index, take.map fun b => b.2.index, take.map Prod.fst, key)

/-- The node with the given key, branches and skip diagram.  Branches to the empty set are dropped, and without any
branch the node would denote the maps of its skip diagram, which is returned then. -/
def mkNode (key : K) (take : List (V × Diagram K V)) (skip : Diagram K V) : StoreM K V (Diagram K V) := do
  let take := tidy take
  if take.isEmpty then
    return skip
  let s ← get
  let p := shape key take skip
  match s.unique[p]? with
  | some d => return d
  | none =>
    let d := node (s.nodes.size + 2) key take skip
    set { s with nodes := s.nodes.push d, unique := s.unique.insert p d }
    return d

/-- The diagram of a single map. -/
def singleton (m : List (K × V)) : StoreM K V (Diagram K V) :=
  (sortMap m).foldrM (fun e d => mkNode e.1 [(e.2, d)] .emptySet) .emptyMap

/-! ### Remembering results -/

/-- The two diagrams, the one with the smaller index first. -/
def ordered (a b : Diagram K V) : Diagram K V × Diagram K V := if a.index < b.index then (a, b) else (b, a)

/-- The remembered result of a commutative operation, or the result of `f`, which is remembered then. -/
def memoized (op : Operation) (f : Diagram K V → Diagram K V → StoreM K V (Diagram K V)) (a b : Diagram K V) :
    StoreM K V (Diagram K V) := do
  let (a, b) := ordered a b
  match (← get).result? op (a.index, b.index) with
  | some d =>
    modify Store.hit
    return d
  | none =>
    modify Store.miss
    let d ← f a b
    modify (·.remember op (a.index, b.index) d)
    return d

/-! ### Merging branches -/

/-- Where the branch of a value comes from when the branches of two nodes are merged. -/
inductive Merged (D : Type) where
  | left (x : D)
  | right (y : D)
  | both (x y : D)

/-- Merges a branch into the branches on the right, and then, by `rest`, those that follow it on the left. -/
def mergeBranch {D : Type} (v : V) (x : D) (rest : List (V × D) → List (V × Merged D)) :
    List (V × D) → List (V × Merged D)
  | [] => (v, .left x) :: rest []
  | (w, y) :: ys =>
    match compare v w with
    | .lt => (v, .left x) :: rest ((w, y) :: ys)
    | .eq => (v, .both x y) :: rest ys
    | .gt => (w, .right y) :: mergeBranch v x rest ys

/-- Merges two lists of branches that are sorted by value. -/
def merge {D : Type} : List (V × D) → List (V × D) → List (V × Merged D)
  | [] => List.map fun y => (y.1, .right y.2)
  | (v, x) :: xs => mergeBranch v x (merge xs)

/-! ### Counting maps -/

mutual

/-- The number of maps of a diagram, in a word; the numbers of all nodes are remembered. -/
def count : Diagram K V → StoreM K V Nat
  | emptySet => return 0
  | emptyMap => return 1
  | node i _ take skip => do
    match (← get).counts[i]? with
    | some n =>
      modify Store.hit
      return n
    | none =>
      modify Store.miss
      let n ← countBranches take
      let m ← count skip
      modify fun s => { s with counts := s.counts.insert i (toWord (n + m)) }
      return toWord (n + m)

def countBranches : List (V × Diagram K V) → StoreM K V Nat
  | [] => return 0
  | (_, c) :: rest => do
    let n ← count c
    let m ← countBranches rest
    return toWord (n + m)

end

end Diagram

end TokenNet
