import TokenNet.Beside
import TokenNet.Diagram.Filter

/-!
# Filtering a diagram by a test with a state

The test of a filter may have a state, which it changes each time it is asked.  The filter works as it does for a test
without one; the state of the test is beside its own.
-/

namespace TokenNet.Diagram.Asking

open BesideM

variable {K V ε T : Type} [Ord K] [Ord V]

/-- A test of the values of the chosen keys, which has a state and may fail. -/
abbrev Question (ε K V T : Type) := List (K × V) → ExceptT ε (StateM T) Bool

/-- The diagram as a whole or the empty set, as the test says. -/
def judge (test : Question ε K V T) (chosen : List (K × V)) (d : Diagram K V) :
    BesideM ε (FilterState K V) T (Diagram K V) := do
  onMain (modify fun f => { f with calls := chosen :: f.calls })
  if ← onSide (test chosen) then return d else return .emptySet

/-- The remembered verdict on a node, or the result of the computation, which is remembered then. -/
def rememberVerdict (i : Nat) (chosen : List (K × V)) (x : BesideM ε (FilterState K V) T (Diagram K V)) :
    BesideM ε (FilterState K V) T (Diagram K V) := do
  match (← onMain get).verdicts[matter i chosen]? with
  | some d => return d
  | none =>
    let d ← x
    onMain (modify fun f => { f with verdicts := f.verdicts.insert (matter i chosen) d })
    return d

mutual

def filterFrom (keys : List K) (test : Question ε K V T) (chosen : List (K × V)) :
    Diagram K V → BesideM ε (FilterState K V) T (Diagram K V)
  | emptySet => return .emptySet
  | emptyMap => rememberVerdict 1 chosen (judge test chosen .emptyMap)
  | node i k take skip =>
    rememberVerdict i chosen <|
      if isDecided keys chosen k then
        judge test chosen (node i k take skip)
      else do
        let take' ← filterBranches keys test chosen k take
        let skip' ← filterFrom keys test chosen skip
        onMain (liftStore (mkNode k take' skip'))

def filterBranches (keys : List K) (test : Question ε K V T) (chosen : List (K × V)) (k : K) :
    List (V × Diagram K V) → BesideM ε (FilterState K V) T (List (V × Diagram K V))
  | [] => return []
  | (v, c) :: rest => do
    let d ← filterFrom keys test (if isChosen keys k then chosen ++ [(k, v)] else chosen) c
    let ds ← filterBranches keys test chosen k rest
    return (v, d) :: ds

end

/-- Keeps the maps whose values of the given keys satisfy the test, or reports its first failure. -/
def filter (keys : List K) (test : Question ε K V T) (d : Diagram K V) :
    StateM (Beside (Store K V) T) (Filtered ε K V) := fun b =>
  let (result, f) := (filterFrom keys test [] d).run.run ⟨{ store := b.main }, b.side⟩
  (⟨result, f.main.calls.reverse⟩, ⟨f.main.store, f.side⟩)

end TokenNet.Diagram.Asking
