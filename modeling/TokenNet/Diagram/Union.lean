import TokenNet.Diagram.Store

/-!
# The union of two diagrams

The union denotes the maps of either diagram.  A step descends to the diagrams below one of the two nodes, whose indices
are smaller, so the sum of the two indices bounds the depth of the recursion.
-/

namespace TokenNet.Diagram

variable {K V : Type} [Ord K] [Ord V]

/-- The union of two different diagrams, neither of them the empty set, with `go` for the diagrams below.  The empty map
is on no branch, so it ends up in a skip diagram. -/
def unionStep (go : Diagram K V → Diagram K V → StoreM K V (Diagram K V)) (a b : Diagram K V) :
    StoreM K V (Diagram K V) :=
  match a, b with
  | node _ k t s, node _ l u r =>
    match compare k l with
    | .lt => do mkNode k t (← go s b)
    | .eq => do
      let take ← (merge t u).mapM fun (v, m) => do
        match m with
        | .left x => return (v, x)
        | .right y => return (v, y)
        | .both x y => return (v, ← go x y)
      mkNode k take (← go s r)
    | .gt => do mkNode l u (← go a r)
  | a, node _ l u r => do mkNode l u (← go a r)
  | node _ k t s, b => do mkNode k t (← go b s)
  | a, _ => return a

/-- The union of two diagrams whose indices have a sum below the bound. -/
def unionBelow : Nat → Diagram K V → Diagram K V → StoreM K V (Diagram K V)
  | 0, a, _ => return a
  | n + 1, a, b => do
    if a.index = b.index then return a
    else if a.isEmptySet then return b
    else if b.isEmptySet then return a
    else memoized .union (unionStep (unionBelow n)) a b

def union (a b : Diagram K V) : StoreM K V (Diagram K V) := unionBelow (a.index + b.index + 1) a b

/-- The diagram of the given maps. -/
def ofMaps (ms : List (List (K × V))) : StoreM K V (Diagram K V) :=
  ms.foldlM (fun d m => do union d (← singleton m)) .emptySet

end TokenNet.Diagram
