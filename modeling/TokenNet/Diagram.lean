import TokenNet.FinMap
import TokenNet.Sort

/-!
# Keyed decision diagrams

A diagram denotes a family of finite maps from ordered keys to values:

* the empty set denotes no map;
* the empty map denotes the map without entries alone;
* a node denotes, for each of its branches `(v, c)`, the maps of `c` with the entry `key ↦ v` added, and the maps of
  its skip diagram.

Along every path the keys increase.  Each node carries its index in the table of the store that made it; the indices `0`
and `1` stand for the two terminals.  Nodes are shared, so diagrams are compared by their indices alone.
-/

namespace TokenNet

inductive Diagram (K V : Type) where
  | emptySet
  | emptyMap
  | node (index : Nat) (key : K) (take : List (V × Diagram K V)) (skip : Diagram K V)

namespace Diagram

variable {K V : Type}

instance : Inhabited (Diagram K V) := ⟨emptySet⟩

def index : Diagram K V → Nat
  | emptySet => 0
  | emptyMap => 1
  | node i _ _ _ => i

def isEmptySet (d : Diagram K V) : Bool := d.index = 0

/-- How a diagram is called by its index. -/
def handleText (d : Diagram K V) : String :=
  match d.index with
  | 0 => "empty set"
  | 1 => "empty map"
  | i => s!"index: {i}"

/-! ### The maps of a diagram -/

mutual

/-- The maps of a diagram, branch by branch and then those of the skip diagram; each map in key order. -/
def maps : Diagram K V → List (List (K × V))
  | emptySet => []
  | emptyMap => [[]]
  | node _ k take skip => branchMaps k take ++ skip.maps

/-- The maps of the branches of a node. -/
def branchMaps (k : K) : List (V × Diagram K V) → List (List (K × V))
  | [] => []
  | (v, c) :: rest => c.maps.map ((k, v) :: ·) ++ branchMaps k rest

end

mutual

/-- The first `n` maps of a diagram, without listing the others. -/
def firstMaps (n : Nat) : Diagram K V → List (List (K × V))
  | emptySet => []
  | emptyMap => if n = 0 then [] else [[]]
  | node _ k take skip =>
    if n = 0 then [] else
      let found := firstBranchMaps n k take
      found ++ firstMaps (n - found.length) skip

def firstBranchMaps (n : Nat) (k : K) : List (V × Diagram K V) → List (List (K × V))
  | [] => []
  | (v, c) :: rest =>
    if n = 0 then [] else
      let found := (firstMaps n c).map ((k, v) :: ·)
      found ++ firstBranchMaps (n - found.length) k rest

end

/-! ### Going through the maps -/

section Fold

variable {β : Type} {m : Type → Type} [Monad m]

mutual

/-- Goes through the maps of a diagram, each behind the entries `path` of the nodes above, the last one first. -/
@[specialize] def foldBelow (f : β → List (K × V) → m β) (path : List (K × V)) (b : β) : Diagram K V → m β
  | emptySet => pure b
  | emptyMap => f b path.reverse
  | node _ k take skip => do
    let b ← foldBranches f path k b take
    foldBelow f path b skip

/-- Goes through the maps of the branches of a node. -/
@[specialize] def foldBranches (f : β → List (K × V) → m β) (path : List (K × V)) (k : K) (b : β) :
    List (V × Diagram K V) → m β
  | [] => pure b
  | (v, c) :: rest => do
    let b ← foldBelow f ((k, v) :: path) b c
    foldBranches f path k b rest

end

/-- Goes through the maps of a diagram in their order.  The maps behind the one where `f` fails are never made, and
neither is the list of all maps. -/
@[inline] def foldlM (f : β → List (K × V) → m β) (b : β) (d : Diagram K V) : m β := foldBelow f [] b d

end Fold

/-! ### Membership -/

section Membership

variable [Ord K] [Ord V]

/-- A map in key order. -/
def sortMap (m : List (K × V)) : List (K × V) := sortOn Prod.fst m

mutual

/-- Follows the entries of a map, given in key order, down the diagram. -/
def containsSorted : Diagram K V → List (K × V) → Bool
  | emptySet, _ => false
  | emptyMap, m => m.isEmpty
  | node _ _ _ skip, [] => skip.containsSorted []
  | node _ k take skip, (a, v) :: m =>
    match compare a k with
    | .lt => false
    | .eq => branchContains v m take
    | .gt => skip.containsSorted ((a, v) :: m)

def branchContains (v : V) (m : List (K × V)) : List (V × Diagram K V) → Bool
  | [] => false
  | (w, c) :: rest => if compare v w = .eq then c.containsSorted m else branchContains v m rest

end

/-- Whether a map, its entries in any order, is one of the maps of the diagram. -/
def contains (d : Diagram K V) (m : List (K × V)) : Bool := d.containsSorted (sortMap m)

end Membership

/-! ### Nodes -/

mutual

/-- Adds the nodes of a diagram to those already visited, the last one first. -/
def visit (seen : List (Diagram K V)) : Diagram K V → List (Diagram K V)
  | emptySet => seen
  | emptyMap => seen
  | node i k take skip =>
    if seen.any fun d => d.index == i then seen
    else node i k take skip :: visit (visitBranches seen take) skip

def visitBranches (seen : List (Diagram K V)) : List (V × Diagram K V) → List (Diagram K V)
  | [] => seen
  | (_, c) :: rest => visitBranches (visit seen c) rest

end

/-- The nodes of a diagram, each once and behind those below it. -/
def nodes (d : Diagram K V) : List (Diagram K V) := (visit [] d).reverse

/-! ### Text -/

def mapText (showKey : K → String) (showValue : V → String) (m : List (K × V)) : String :=
  "\x7b" ++ ", ".intercalate (m.map fun e => showKey e.1 ++ ": " ++ showValue e.2) ++ "\x7d"

/-- The maps of a diagram, one a line, between lines with braces. -/
def text (showKey : K → String) (showValue : V → String) (d : Diagram K V) : String :=
  "\x7b\n" ++ String.join (d.maps.map fun m => mapText showKey showValue m ++ "\n") ++ "\x7d"

end Diagram

end TokenNet
