import Std.Data.TreeSet.Basic
import TokenNet.Enabling
import TokenNet.Firing
import TokenNet.Simplified

/-!
# Exploration

The markings that a net can reach are found breadth first: each iteration fires every enabled binding of every
transition at every marking that the iteration before has found.
-/

namespace TokenNet

/-- The markings after firing each binding of a diagram that can be fired, in the order of the bindings. -/
def Net.fireAll (net : Net) (t : TransitionName) (m : Marking) (d : BindingDiagram) : Except Error (List Marking) := do
  let found ← foldBindings (fun found b => return (← net.fire t m b).toList ++ found) [] d
  return found.reverse

/-- The markings after firing each enabled binding of a transition, in the order of the bindings. -/
def Net.successors (net : Net) (t : TransitionName) (m : Marking) : SessionM (List Marking) := do
  let d ← net.enabledBindings t m
  SessionM.ofExcept (net.fireAll t m d)

/-- When an exploration gives up, and when it makes the session forget results. -/
structure Limits where
  iterations : Nat := 0xffffffffffffffff
  /-- The number of markings that may be found; no limit if there is none. -/
  states : Option Nat := none
  /-- The number of remembered results that are kept from one iteration to the next. -/
  cached : Nat := 0x400000

/-- Makes the session forget its results if they are too many. -/
def Limits.trimCaches (limits : Limits) : SessionM Unit :=
  modify fun s : Session => if limits.cached < s.cached then s.clearCaches else s

/-- What has been found: all markings, and those of the current iteration, the last one first. -/
structure Found where
  seen : Std.TreeSet Marking
  next : List Marking := []

namespace Found

/-- Adds a marking if it is new, unless that makes too many. -/
def add (limits : Limits) (f : Found) (m : Marking) : Except Error Found :=
  if f.seen.contains m then .ok f
  else
    let seen := f.seen.insert m
    if limits.states.any (· < seen.size) then .error (.cancelled .states) else .ok ⟨seen, m :: f.next⟩

end Found

namespace Net

/-- Adds what firing one binding leads to. -/
def followBinding (net : Net) (limits : Limits) (t : TransitionName) (m : Marking) (f : Found) (b : Binding) :
    Except Error Found := do
  match ← net.fire t m b with
  | some m' => f.add limits m'
  | none => return f

/-- Adds what firing one transition leads to. -/
def followTransition (net : Net) (limits : Limits) (m : Marking) (f : Found) (t : TransitionName) : SessionM Found := do
  let d ← net.enabledBindings t m
  SessionM.ofExcept (foldBindings (net.followBinding limits t m) f d)

/-- Adds what firing any transition leads to. -/
def followMarking (net : Net) (limits : Limits) (f : Found) (m : Marking) : SessionM Found :=
  net.transitions.keys.foldlM (net.followTransition limits m) f

/-- Explores from a frontier, in at most `n` iterations. -/
def exploreFrom (net : Net) (limits : Limits) : Nat → Std.TreeSet Marking → List Marking →
    SessionM (Std.TreeSet Marking)
  | _, seen, [] => return seen
  | 0, _, _ :: _ => throw (.cancelled .iterations)
  | n + 1, seen, frontier => do
    let f ← frontier.foldlM (net.followMarking limits) { seen := seen }
    limits.trimCaches
    exploreFrom net limits n f.seen f.next.reverse

/-- The markings that the net reaches from an initial one, which is among them.  The net is simplified first. -/
def explore (net : Net) (initial : Marking) (limits : Limits) : SessionM (Std.TreeSet Marking) := do
  let s ← SessionM.ofExcept net.simplify
  s.net.exploreFrom limits limits.iterations (Std.TreeSet.empty.insert initial) [initial]

end Net

end TokenNet
