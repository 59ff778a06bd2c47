import TokenNet.Exploration.Lemmas

/-!
# The iterations of an exploration

One iteration takes the markings that have been seen, and among them the frontier, to those that have been seen after
all of the frontier has been followed, and the new ones among them.  An exploration is its iterations followed by the
question whether the frontier is empty: `Net.explore_eq_iterations`.
-/

namespace TokenNet

/-- What has been seen before an iteration, and the frontier that it follows. -/
structure Progress where
  seen : Std.TreeSet Marking
  frontier : List Marking

namespace Progress

/-- Only the initial marking has been seen. -/
def start (initial : Marking) : Progress := ⟨Std.TreeSet.empty.insert initial, [initial]⟩

/-- The result of an exploration that may not go on; it has failed if there is something left to follow. -/
def finish (r : Progress) : SessionM (Std.TreeSet Marking) :=
  if r.frontier.isEmpty then return r.seen else throw (.cancelled .iterations)

theorem run_finish (r : Progress) (s : Session) :
    (r.finish.run.run s).1 = if r.frontier.isEmpty then .ok r.seen else .error (.cancelled .iterations) := by
  unfold finish
  split <;> rfl

end Progress

namespace Net

/-- Follows the frontier, if there is one. -/
def iteration (net : Net) (limits : Limits) (r : Progress) : SessionM Progress :=
  if r.frontier.isEmpty then return r
  else do
    let f ← r.frontier.foldlM (net.followMarking limits) { seen := r.seen }
    limits.trimCaches
    return ⟨f.seen, f.next.reverse⟩

/-- The progress after `k` iterations. -/
def iterations (net : Net) (limits : Limits) (r : Progress) : Nat → SessionM Progress
  | 0 => return r
  | k + 1 => do
    let r' ← iterations net limits r k
    net.iteration limits r'

variable {net : Net} {limits : Limits} {r : Progress}

theorem iterations_succ (k : Nat) : net.iterations limits r (k + 1) =
    (do let r' ← net.iteration limits r; net.iterations limits r' k) := by
  induction k with
  | zero =>
    unfold iterations
    rw [bind_pure]
    exact pure_bind _ _
  | succ k ih =>
    rw [iterations, ih, bind_assoc]
    rfl

theorem iterations_of_isEmpty (h : r.frontier = []) (k : Nat) : net.iterations limits r k = pure r := by
  induction k with
  | zero => rfl
  | succ k ih =>
    rw [iterations, ih, pure_bind, iteration, h]
    rfl

/-- The exploration from a frontier is its iterations, and then there is nothing left, or there have been too many. -/
theorem exploreFrom_eq_iterations (n : Nat) (r : Progress) : net.exploreFrom limits n r.seen r.frontier =
    (do let r' ← net.iterations limits r n; r'.finish) := by
  induction n generalizing r with
  | zero =>
    obtain ⟨seen, frontier⟩ := r
    rw [iterations, pure_bind]
    cases frontier with
    | nil => rfl
    | cons m frontier => rfl
  | succ n ih =>
    obtain ⟨seen, frontier⟩ := r
    cases frontier with
    | nil =>
      rw [iterations_of_isEmpty rfl, pure_bind]
      rfl
    | cons m frontier =>
      rw [iterations_succ, bind_assoc]
      unfold exploreFrom iteration
      simp only [List.isEmpty_cons, Bool.false_eq_true, if_false, bind_assoc, pure_bind, ← ih]

theorem explore_eq_iterations (initial : Marking) (limits : Limits) : net.explore initial limits = (do
    let s ← SessionM.ofExcept net.simplify
    let r ← s.net.iterations limits (.start initial) limits.iterations
    r.finish) := by
  unfold explore
  refine bind_congr fun s => ?_
  exact exploreFrom_eq_iterations limits.iterations (.start initial)

/-- The exploration of a net that can be simplified is that of the simplified one. -/
theorem explore_of_simplify {simplified : Simplified} (hsimplify : net.simplify = .ok simplified) (initial : Marking)
    (limits : Limits) : net.explore initial limits = (do
      let r ← simplified.net.iterations limits (.start initial) limits.iterations
      r.finish) := by
  rw [explore_eq_iterations, hsimplify]
  exact pure_bind simplified _

end Net

end TokenNet
