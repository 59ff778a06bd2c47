import TokenNet.Diagram.Store

/-!
# Filtering a diagram

A filter keeps the maps whose values of some chosen keys satisfy a test.  The test is asked as soon as a path has bound
all the chosen keys that it can still bind, and its verdict holds for everything below.  Verdicts are remembered for the
time of one filter, by the node and the values chosen so far.
-/

namespace TokenNet.Diagram

variable {K V ε : Type} [Ord K] [Ord V]

/-- What a verdict is about: the index of a node, and the values chosen on the way to it with their keys. -/
abbrev Matter (K V : Type) := Nat × List V × List K

def matter (i : Nat) (chosen : List (K × V)) : Matter K V := (i, chosen.map Prod.snd, chosen.map Prod.fst)

/-- What one filter works on and remembers; the calls of the test are recorded, the last one first. -/
structure FilterState (K V : Type) [Ord K] [Ord V] where
  store : Store K V
  verdicts : Std.TreeMap (Matter K V) (Diagram K V) := ∅
  calls : List (List (K × V)) := []

abbrev FilterM (ε K V : Type) [Ord K] [Ord V] := ExceptT ε (StateM (FilterState K V))

/-- A test of the values of the chosen keys, which may fail. -/
abbrev Test (ε K V : Type) := List (K × V) → Except ε Bool

def liftStore {α : Type} (x : StoreM K V α) : FilterM ε K V α := fun f =>
  let (a, s) := x.run f.store
  (.ok a, { f with store := s })

/-- The diagram as a whole or the empty set, as the test says. -/
def judge (test : Test ε K V) (chosen : List (K × V)) (d : Diagram K V) : FilterM ε K V (Diagram K V) := do
  modify fun f => { f with calls := chosen :: f.calls }
  match test chosen with
  | .ok true => return d
  | .ok false => return .emptySet
  | .error e => throw e

/-- The remembered verdict on a node, or the result of the computation, which is remembered then. -/
def rememberVerdict (i : Nat) (chosen : List (K × V)) (x : FilterM ε K V (Diagram K V)) :
    FilterM ε K V (Diagram K V) := do
  match (← get).verdicts[matter i chosen]? with
  | some d => return d
  | none =>
    let d ← x
    modify fun f => { f with verdicts := f.verdicts.insert (matter i chosen) d }
    return d

/-- Whether no key that is still to be chosen can occur at a node with key `k` or below it. -/
def isDecided (keys : List K) (chosen : List (K × V)) (k : K) : Bool :=
  keys.all fun a => (compare a k).isLT || chosen.any fun e => compare e.1 a = .eq

def isChosen (keys : List K) (k : K) : Bool := keys.any fun a => compare a k = .eq

mutual

def filterFrom (keys : List K) (test : Test ε K V) (chosen : List (K × V)) :
    Diagram K V → FilterM ε K V (Diagram K V)
  | emptySet => return .emptySet
  | emptyMap => rememberVerdict 1 chosen (judge test chosen .emptyMap)
  | node i k take skip =>
    rememberVerdict i chosen <|
      if isDecided keys chosen k then
        judge test chosen (node i k take skip)
      else do
        let take' ← filterBranches keys test chosen k take
        let skip' ← filterFrom keys test chosen skip
        liftStore (mkNode k take' skip')

def filterBranches (keys : List K) (test : Test ε K V) (chosen : List (K × V)) (k : K) :
    List (V × Diagram K V) → FilterM ε K V (List (V × Diagram K V))
  | [] => return []
  | (v, c) :: rest => do
    let d ← filterFrom keys test (if isChosen keys k then chosen ++ [(k, v)] else chosen) c
    let ds ← filterBranches keys test chosen k rest
    return (v, d) :: ds

end

/-- The result of a filter, and the values of the chosen keys in the order in which the test was asked about them. -/
structure Filtered (ε K V : Type) where
  result : Except ε (Diagram K V)
  calls : List (List (K × V))

/-- Keeps the maps whose values of the given keys satisfy the test, or reports its first failure.  Nodes that were made
before a failure stay in the store. -/
def filter (keys : List K) (test : Test ε K V) (d : Diagram K V) : StoreM K V (Filtered ε K V) := do
  let (result, f) := (filterFrom keys test [] d).run.run { store := ← get }
  set f.store
  return ⟨result, f.calls.reverse⟩

end TokenNet.Diagram
