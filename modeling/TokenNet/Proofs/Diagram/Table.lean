import TokenNet.Diagram.Filter
import TokenNet.Diagram.Join

/-!
# Operations that look nodes up in the table

The operations again, this time on diagrams as mere indices: a node has to be looked up in the table of the store before
its key, its branches or its skip diagram are known.  Such an operation fails where it looks up a terminal or an index
that is not in the table, where it makes a node whose branches have equal values or whose key is not below those of its
parts, and where its recursion goes deeper than the indices allow.
-/

namespace TokenNet

variable {K V ε : Type} [Ord K] [Ord V]

/-- Key, branches and skip diagram of a node. -/
abbrev Parts (K V : Type) := K × List (V × Diagram K V) × Diagram K V

/-- The parts of the node at an index; a terminal has none. -/
def Store.parts? (s : Store K V) (i : Nat) : Option (Parts K V) :=
  if i < 2 then none else
    match s.nodes[i - 2]? with
    | some (.node _ k take skip) => some (k, take, skip)
    | _ => none

/-- Computations that fail where they look up what is not there. -/
abbrev TableM (K V : Type) [Ord K] [Ord V] := OptionT (StoreM K V)

namespace Table

def read (d : Diagram K V) : TableM K V (Parts K V) := OptionT.mk fun s => (s.parts? d.index, s)

/-! ### Making nodes -/

/-- Fails unless a diagram is a terminal or its key is greater than `k`. -/
def checkAbove (k : K) (d : Diagram K V) : TableM K V Unit := do
  if 2 ≤ d.index then
    let (l, _, _) ← read d
    unless compare k l = .lt do failure

/-- Whether no two neighbours in a list of branches have the same value. -/
def hasDistinctNeighbours (take : List (V × Diagram K V)) : Bool :=
  (take.zip take.tail).all fun (b, c) => compare b.1 c.1 != .eq

def mkNode (k : K) (take : List (V × Diagram K V)) (skip : Diagram K V) : TableM K V (Diagram K V) := do
  let parts := Diagram.tidy take
  unless parts.isEmpty do
    unless hasDistinctNeighbours parts do failure
    (parts.map Prod.snd ++ [skip]).forM (checkAbove k)
  monadLift (Diagram.mkNode k take skip)

def singleton (m : List (K × V)) : TableM K V (Diagram K V) :=
  (Diagram.sortMap m).foldrM (fun e d => mkNode e.1 [(e.2, d)] .emptySet) .emptyMap

/-! ### Union and join -/

def memoized (op : Operation) (f : Diagram K V → Diagram K V → TableM K V (Diagram K V)) (a b : Diagram K V) :
    TableM K V (Diagram K V) := do
  let (a, b) := Diagram.ordered a b
  match (← monadLift (get : StoreM K V (Store K V))).result? op (a.index, b.index) with
  | some d =>
    monadLift (modify Store.hit : StoreM K V Unit)
    return d
  | none =>
    monadLift (modify Store.miss : StoreM K V Unit)
    let d ← f a b
    monadLift (modify (·.remember op (a.index, b.index) d) : StoreM K V Unit)
    return d

def unionStep (go : Diagram K V → Diagram K V → TableM K V (Diagram K V)) (a b : Diagram K V) :
    TableM K V (Diagram K V) := do
  if a.index = 1 then
    let (l, u, r) ← read b
    mkNode l u (← go a r)
  else if b.index = 1 then
    let (k, t, q) ← read a
    mkNode k t (← go b q)
  else
    let (k, t, q) ← read a
    let (l, u, r) ← read b
    match compare k l with
    | .lt => mkNode k t (← go q b)
    | .eq =>
      let take ← (Diagram.merge t u).mapM fun (v, m) => do
        match m with
        | .left x => return (v, x)
        | .right y => return (v, y)
        | .both x y => return (v, ← go x y)
      mkNode k take (← go q r)
    | .gt => mkNode l u (← go a r)

def unionBelow : Nat → Diagram K V → Diagram K V → TableM K V (Diagram K V)
  | 0, _, _ => failure
  | n + 1, a, b =>
    if a.index = b.index then return a
    else if a.isEmptySet then return b
    else if b.isEmptySet then return a
    else memoized .union (unionStep (unionBelow n)) a b

def union (a b : Diagram K V) : TableM K V (Diagram K V) := unionBelow (a.index + b.index + 1) a b

def ofMaps (ms : List (List (K × V))) : TableM K V (Diagram K V) :=
  ms.foldlM (fun d m => do union d (← singleton m)) .emptySet

def joinBranches (go : Diagram K V → Diagram K V → TableM K V (Diagram K V)) (take : List (V × Diagram K V))
    (b : Diagram K V) : TableM K V (List (V × Diagram K V)) :=
  take.mapM fun (v, c) => return (v, ← go c b)

def joinMerged (go : Diagram K V → Diagram K V → TableM K V (Diagram K V)) (q r : Diagram K V) :
    Diagram.Merged (Diagram K V) → TableM K V (Diagram K V)
  | .left x => go x r
  | .right y => go q y
  | .both x y => do
    let both ← go x y
    let left ← union both (← go x r)
    union left (← go q y)

def joinStep (go : Diagram K V → Diagram K V → TableM K V (Diagram K V)) (a b : Diagram K V) :
    TableM K V (Diagram K V) := do
  let (k, t, q) ← read a
  let (l, u, r) ← read b
  match compare k l with
  | .lt =>
    let take ← joinBranches go t b
    mkNode k take (← go q b)
  | .eq =>
    let take ← (Diagram.merge t u).mapM fun (v, m) => return (v, ← joinMerged go q r m)
    mkNode k take (← go q r)
  | .gt =>
    let take ← joinBranches go u a
    mkNode l take (← go r a)

def joinBelow : Nat → Diagram K V → Diagram K V → TableM K V (Diagram K V)
  | 0, _, _ => failure
  | n + 1, a, b =>
    if a.isEmptySet || b.isEmptySet then return .emptySet
    else if a.index = 1 then return b
    else if b.index = 1 then return a
    else memoized .join (joinStep (joinBelow n)) a b

def join (a b : Diagram K V) : TableM K V (Diagram K V) := joinBelow (a.index + b.index + 1) a b

/-! ### Counting -/

/-- The sum of what `go` says of the branches, in a word. -/
def sumBranches (go : Diagram K V → TableM K V Nat) : List (V × Diagram K V) → TableM K V Nat
  | [] => return 0
  | (_, c) :: rest => do
    let n ← go c
    let m ← sumBranches go rest
    return toWord (n + m)

def countBelow : Nat → Diagram K V → TableM K V Nat
  | 0, _ => failure
  | n + 1, d => do
    if d.index = 0 then return 0
    if d.index = 1 then return 1
    match (← monadLift (get : StoreM K V (Store K V))).counts[d.index]? with
    | some m =>
      monadLift (modify Store.hit : StoreM K V Unit)
      return m
    | none =>
      monadLift (modify Store.miss : StoreM K V Unit)
      let (_, take, skip) ← read d
      let m ← sumBranches (countBelow n) take
      let m' ← countBelow n skip
      let total := toWord (m + m')
      monadLift (modify fun s => { s with counts := s.counts.insert d.index total } : StoreM K V Unit)
      return total

def count (d : Diagram K V) : TableM K V Nat := countBelow (d.index + 1) d

/-! ### Filtering -/

/-- A filter that fails where it looks up what is not there; the failure of its test is part of the result. -/
abbrev FilterTableM (ε K V : Type) [Ord K] [Ord V] := OptionT (Diagram.FilterM ε K V)

/-- A computation on the table, as part of a filter. -/
def liftTable {α : Type} (x : TableM K V α) : FilterTableM ε K V α := OptionT.mk (Diagram.liftStore x.run)

def rememberVerdict (i : Nat) (chosen : List (K × V)) (x : FilterTableM ε K V (Diagram K V)) :
    FilterTableM ε K V (Diagram K V) := do
  match (← monadLift (get : Diagram.FilterM ε K V (Diagram.FilterState K V))).verdicts[Diagram.matter i chosen]? with
  | some d => return d
  | none =>
    let d ← x
    monadLift (modify (fun f => { f with verdicts := f.verdicts.insert (Diagram.matter i chosen) d }) :
      Diagram.FilterM ε K V Unit)
    return d

/-- The branches of a node with key `k`, each after `go` with the entries chosen on the way to it. -/
def filterBranches (go : List (K × V) → Diagram K V → FilterTableM ε K V (Diagram K V)) (keys : List K)
    (chosen : List (K × V)) (k : K) : List (V × Diagram K V) → FilterTableM ε K V (List (V × Diagram K V))
  | [] => return []
  | (v, c) :: rest => do
    let d ← go (if Diagram.isChosen keys k then chosen ++ [(k, v)] else chosen) c
    let ds ← filterBranches go keys chosen k rest
    return (v, d) :: ds

def filterBelow (keys : List K) (test : Diagram.Test ε K V) :
    Nat → List (K × V) → Diagram K V → FilterTableM ε K V (Diagram K V)
  | 0, _, _ => failure
  | n + 1, chosen, d =>
    if d.index = 0 then return d else rememberVerdict d.index chosen do
      if d.index = 1 then monadLift (Diagram.judge test chosen d) else
        let (k, take, skip) ← liftTable (read d)
        if Diagram.isDecided keys chosen k then monadLift (Diagram.judge test chosen d) else
          let take' ← filterBranches (filterBelow keys test n) keys chosen k take
          let skip' ← filterBelow keys test n chosen skip
          liftTable (mkNode k take' skip')

def filter (keys : List K) (test : Diagram.Test ε K V) (d : Diagram K V) :
    TableM K V (Diagram.Filtered ε K V) := OptionT.mk fun s =>
  match (filterBelow keys test (d.index + 1) [] d).run.run.run { store := s } with
  | (.error e, f) => (some ⟨.error e, f.calls.reverse⟩, f.store)
  | (.ok none, f) => (none, f.store)
  | (.ok (some d'), f) => (some ⟨.ok d', f.calls.reverse⟩, f.store)

end Table

end TokenNet
