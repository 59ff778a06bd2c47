import TokenNet.Diagram

/-!
# Cursors

A cursor goes through the maps of a diagram one after the other, without a list of all of them.  It keeps the diagrams on
the way down to where it stands, with the branch of each that comes next, and the entries that were bound on the way.
Every step is one of five, `Moves`, and leaves one step less, `steps_of_moves`; so the search for the next map ends.
-/

namespace TokenNet.Diagram

variable {K V : Type}

/-- A diagram on the way down. -/
structure Frame (K V : Type) where
  diagram : Diagram K V
  /-- The branch that comes next; the skip diagram comes behind all branches. -/
  position : Nat := 0
  /-- Whether an entry was bound on the way to the diagram. -/
  bound : Bool := false

/-- The entries that are bound once the diagram is left. -/
def Frame.unbind (f : Frame K V) (path : List (K × V)) : List (K × V) := if f.bound then path.tail else path

structure Cursor (K V : Type) where
  /-- The entries that are bound, the last one first. -/
  path : List (K × V) := []
  /-- The diagrams on the way down, the lowest one first. -/
  frames : List (Frame K V) := []

/-! ### How many steps are left -/

mutual

/-- The number of steps that it takes to go through a diagram and to leave it. -/
def steps : Diagram K V → Nat
  | emptySet => 1
  | emptyMap => 1
  | node _ _ take skip => branchSteps take + (skip.steps + 1) + 1

def branchSteps : List (V × Diagram K V) → Nat
  | [] => 0
  | (_, c) :: rest => c.steps + 1 + branchSteps rest

end

theorem branchSteps_drop {take : List (V × Diagram K V)} {i : Nat} {v : V} {c : Diagram K V} (h : take[i]? = some (v, c)) :
    branchSteps (take.drop i) = c.steps + 1 + branchSteps (take.drop (i + 1)) := by
  obtain ⟨hi, hc⟩ := List.getElem?_eq_some_iff.1 h
  rw [List.drop_eq_getElem_cons hi, hc, branchSteps]

/-- The steps that are left in a diagram, without those below a branch that was entered already. -/
def Frame.steps (f : Frame K V) : Nat :=
  match f.diagram with
  | node _ _ take skip =>
    branchSteps (take.drop f.position) + (if f.position ≤ take.length then skip.steps + 1 else 0) + 1
  | _ => 1

theorem Frame.steps_start (d : Diagram K V) (b : Bool) : Frame.steps ⟨d, 0, b⟩ = d.steps := by
  cases d <;> simp [Frame.steps, Diagram.steps]

theorem Frame.steps_node (i : Nat) (k : K) (take : List (V × Diagram K V)) (skip : Diagram K V) (p : Nat) (b : Bool) :
    Frame.steps ⟨node i k take skip, p, b⟩ =
      branchSteps (take.drop p) + (if p ≤ take.length then skip.steps + 1 else 0) + 1 := rfl

namespace Cursor

/-- In front of all maps of a diagram. -/
def start (d : Diagram K V) : Cursor K V := if d.isEmptySet then {} else { frames := [{ diagram := d }] }

/-- The cursor after one step, with the map that the step has reached, if it has reached one. -/
def step (c : Cursor K V) : Option (Option (List (K × V)) × Cursor K V) :=
  match c.frames with
  | [] => none
  | f :: rest =>
    match f.diagram with
    | emptySet => some (none, ⟨f.unbind c.path, rest⟩)
    | emptyMap => some (some c.path.reverse, ⟨f.unbind c.path, rest⟩)
    | node _ k take skip =>
      let onwards := { f with position := f.position + 1 } :: rest
      match take[f.position]? with
      | some (v, d) => some (none, ⟨(k, v) :: c.path, { diagram := d, bound := true } :: onwards⟩)
      | none =>
        if f.position = take.length then some (none, ⟨c.path, { diagram := skip } :: onwards⟩)
        else some (none, ⟨f.unbind c.path, rest⟩)

/-- What one step can do. -/
inductive Moves (path : List (K × V)) (rest : List (Frame K V)) :
    Frame K V → Option (List (K × V)) → Cursor K V → Prop where
  | emptySet (p : Nat) (b : Bool) : Moves path rest ⟨.emptySet, p, b⟩ none ⟨Frame.unbind ⟨.emptySet, p, b⟩ path, rest⟩
  | emptyMap (p : Nat) (b : Bool) :
      Moves path rest ⟨.emptyMap, p, b⟩ (some path.reverse) ⟨Frame.unbind ⟨.emptyMap, p, b⟩ path, rest⟩
  | branch {i : Nat} {k : K} {take : List (V × Diagram K V)} {skip : Diagram K V} {p : Nat} {v : V} {d : Diagram K V}
      (b : Bool) (h : take[p]? = some (v, d)) :
      Moves path rest ⟨.node i k take skip, p, b⟩ none
        ⟨(k, v) :: path, ⟨d, 0, true⟩ :: ⟨.node i k take skip, p + 1, b⟩ :: rest⟩
  | skip {i : Nat} {k : K} {take : List (V × Diagram K V)} {skip : Diagram K V} {p : Nat} (b : Bool) (h : p = take.length) :
      Moves path rest ⟨.node i k take skip, p, b⟩ none
        ⟨path, ⟨skip, 0, false⟩ :: ⟨.node i k take skip, p + 1, b⟩ :: rest⟩
  | leave {i : Nat} {k : K} {take : List (V × Diagram K V)} {skip : Diagram K V} {p : Nat} (b : Bool) (h : take.length < p) :
      Moves path rest ⟨.node i k take skip, p, b⟩ none ⟨Frame.unbind ⟨.node i k take skip, p, b⟩ path, rest⟩

theorem step_cases (c : Cursor K V) :
    c.frames = [] ∧ c.step = none ∨
      ∃ f rest o c', c.frames = f :: rest ∧ c.step = some (o, c') ∧ Moves c.path rest f o c' := by
  obtain ⟨path, frames⟩ := c
  cases frames with
  | nil => exact .inl ⟨rfl, rfl⟩
  | cons f rest =>
    refine .inr ⟨f, rest, ?_⟩
    obtain ⟨d, p, b⟩ := f
    cases d with
    | emptySet => exact ⟨_, _, rfl, rfl, .emptySet p b⟩
    | emptyMap => exact ⟨_, _, rfl, rfl, .emptyMap p b⟩
    | node i k take skip =>
      cases hp : take[p]? with
      | some e => exact ⟨_, _, rfl, by simp [step, hp], .branch b hp⟩
      | none =>
        have hle := List.getElem?_eq_none_iff.1 hp
        by_cases hend : p = take.length
        · exact ⟨_, _, rfl, by simp [step, hend], .skip b hend⟩
        · exact ⟨_, _, rfl, by simp [step, hp, hend], .leave b (by omega)⟩

theorem moves_of_step {c c' : Cursor K V} {o : Option (List (K × V))} (h : c.step = some (o, c')) :
    ∃ f rest, c.frames = f :: rest ∧ Moves c.path rest f o c' := by
  obtain ⟨-, hstep⟩ | ⟨f, rest, o', c'', hframes, hstep, hmoves⟩ := c.step_cases
  · rw [hstep] at h
    cases h
  · rw [hstep] at h
    cases h
    exact ⟨f, rest, hframes, hmoves⟩

def steps (c : Cursor K V) : Nat := c.frames.foldr (fun f n => f.steps + n) 0

/-- Every step leaves one step less. -/
theorem steps_of_moves {path : List (K × V)} {rest : List (Frame K V)} {f : Frame K V} {o : Option (List (K × V))}
    {c' : Cursor K V} (h : Moves path rest f o c') : steps ⟨path, f :: rest⟩ = c'.steps + 1 := by
  simp only [steps, List.foldr_cons]
  cases h with
  | emptySet p b =>
    rw [Frame.steps, Nat.add_comm]
  | emptyMap p b =>
    rw [Frame.steps, Nat.add_comm]
  | @branch i k take skip p v d b hp =>
    have hlt := (List.getElem?_eq_some_iff.1 hp).1
    rw [List.foldr_cons, List.foldr_cons, Frame.steps_start, Frame.steps_node, Frame.steps_node, branchSteps_drop hp,
      if_pos (Nat.le_of_lt hlt), if_pos (Nat.succ_le_of_lt hlt)]
    omega
  | @skip i k take skip p b hp =>
    -- all branches are behind the cursor, before the step and after it
    have hdrop : take.drop (p + 1) = take.drop p := by
      rw [List.drop_eq_nil_of_le (by omega), List.drop_eq_nil_of_le (by omega)]
    rw [List.foldr_cons, List.foldr_cons, Frame.steps_start, Frame.steps_node, Frame.steps_node, hdrop,
      if_pos (Nat.le_of_eq hp), if_neg (by omega)]
    omega
  | @leave i k take skip p b hp =>
    rw [Frame.steps_node, List.drop_eq_nil_of_le (Nat.le_of_lt hp), branchSteps, if_neg (Nat.not_le_of_lt hp)]
    exact Nat.add_comm 1 _

theorem steps_of_step {c c' : Cursor K V} {o : Option (List (K × V))} (h : c.step = some (o, c')) :
    c'.steps < c.steps := by
  obtain ⟨f, rest, hc, hmoves⟩ := moves_of_step h
  obtain ⟨path, frames⟩ := c
  subst hc
  rw [steps_of_moves hmoves]
  exact Nat.lt_succ_self _

/-- The next map, and the cursor behind it. -/
def next (c : Cursor K V) : Option (List (K × V) × Cursor K V) :=
  match _hstep : c.step with
  | none => none
  | some (some m, c') => some (m, c')
  | some (none, c') => c'.next
termination_by c.steps
decreasing_by exact steps_of_step _hstep

theorem steps_of_next {c c' : Cursor K V} {m : List (K × V)} (h : c.next = some (m, c')) : c'.steps < c.steps := by
  fun_induction next c with
  | case1 c hstep => cases h
  | case2 c m₁ c₁ hstep =>
    cases h
    exact steps_of_step hstep
  | case3 c c₁ hstep ih => exact Nat.lt_trans (ih h) (steps_of_step hstep)

/-- All maps that are still to come. -/
def toList (c : Cursor K V) : List (List (K × V)) :=
  match _hnext : c.next with
  | none => []
  | some (m, c') => m :: c'.toList
termination_by c.steps
decreasing_by exact steps_of_next _hnext

end Cursor

end TokenNet.Diagram
