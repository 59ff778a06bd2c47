import TokenNet.Diagram.Union

/-!
# The join of two diagrams

The join denotes the unions of a map of one diagram with a map of the other that agree on every key bound by both.  As
for the union, the sum of the indices bounds the depth of the recursion.
-/

namespace TokenNet.Diagram

variable {K V : Type} [Ord K] [Ord V]

/-- The join of each branch of a node with a diagram that binds no key as small as that of the node. -/
def joinBranches (go : Diagram K V → Diagram K V → StoreM K V (Diagram K V)) (take : List (V × Diagram K V))
    (b : Diagram K V) : StoreM K V (List (V × Diagram K V)) :=
  take.mapM fun (v, c) => return (v, ← go c b)

/-- The maps that bind the common key of two nodes to one value: both maps bind it, or only one of them does. -/
def joinMerged (go : Diagram K V → Diagram K V → StoreM K V (Diagram K V)) (s r : Diagram K V) :
    Merged (Diagram K V) → StoreM K V (Diagram K V)
  | .left x => go x r
  | .right y => go s y
  | .both x y => do
    let both ← go x y
    let left ← union both (← go x r)
    union left (← go s y)

/-- The join of two nodes, with `go` for the diagrams below. -/
def joinStep (go : Diagram K V → Diagram K V → StoreM K V (Diagram K V)) (a b : Diagram K V) :
    StoreM K V (Diagram K V) :=
  match a, b with
  | node _ k t s, node _ l u r =>
    match compare k l with
    | .lt => do
      let take ← joinBranches go t b
      mkNode k take (← go s b)
    | .eq => do
      let take ← (merge t u).mapM fun (v, m) => return (v, ← joinMerged go s r m)
      mkNode k take (← go s r)
    | .gt => do
      let take ← joinBranches go u a
      mkNode l take (← go r a)
  | _, _ => return .emptySet

/-- The join of two diagrams whose indices have a sum below the bound. -/
def joinBelow : Nat → Diagram K V → Diagram K V → StoreM K V (Diagram K V)
  | 0, _, _ => return .emptySet
  | n + 1, a, b =>
    match a, b with
    | emptySet, _ => return .emptySet
    | _, emptySet => return .emptySet
    | emptyMap, b => return b
    | a, emptyMap => return a
    | a, b => memoized .join (joinStep (joinBelow n)) a b

def join (a b : Diagram K V) : StoreM K V (Diagram K V) := joinBelow (a.index + b.index + 1) a b

end TokenNet.Diagram
