import TokenNet.Diagram.Cursor
import TokenNet.Proofs.Diagram.Families

/-!
# Listing, finding and counting the maps of a diagram

Three algorithms say which maps a diagram has: a cursor that goes through them, a search for a given map, and the
recursion that counts them.  They agree on every diagram of a store: `Store.Runs.enumeration`.

What is still to come of a cursor is read off its frames, `Cursor.remaining`.  No step changes it, except that a map
that is reached is taken off its front, `Cursor.remaining_of_moves`.
-/

namespace TokenNet

open Diagram Store

namespace Diagram

variable {K V : Type}

/-! ### What a cursor still has to list -/

theorem branchMaps_drop {k : K} {take : List (V × Diagram K V)} {i : Nat} {v : V} {c : Diagram K V}
    (h : take[i]? = some (v, c)) :
    branchMaps k (take.drop i) = c.maps.map ((k, v) :: ·) ++ branchMaps k (take.drop (i + 1)) := by
  obtain ⟨hi, hc⟩ := List.getElem?_eq_some_iff.1 h
  rw [List.drop_eq_getElem_cons hi, hc, branchMaps]

/-- The maps that are left in a diagram, without those of a branch that was entered already. -/
def Frame.maps (f : Frame K V) : List (List (K × V)) :=
  match f.diagram with
  | node _ k take skip => branchMaps k (take.drop f.position) ++ if f.position ≤ take.length then skip.maps else []
  | d => d.maps

theorem Frame.maps_start (d : Diagram K V) (b : Bool) : Frame.maps ⟨d, 0, b⟩ = d.maps := by
  cases d <;> simp [Frame.maps, Diagram.maps]

theorem Frame.maps_node (i : Nat) (k : K) (take : List (V × Diagram K V)) (skip : Diagram K V) (p : Nat) (b : Bool) :
    Frame.maps ⟨node i k take skip, p, b⟩ =
      branchMaps k (take.drop p) ++ if p ≤ take.length then skip.maps else [] := rfl

/-- What is left of the frames, the lowest one first, each map behind the entries that are bound there. -/
def remainingMaps (path : List (K × V)) : List (Frame K V) → List (List (K × V))
  | [] => []
  | f :: rest => f.maps.map (path.reverse ++ ·) ++ remainingMaps (f.unbind path) rest

namespace Cursor

def remaining (c : Cursor K V) : List (List (K × V)) := remainingMaps c.path c.frames

theorem remaining_start {d : Diagram K V} (hd : d.index = 0 → d.maps = []) : (start d).remaining = d.maps := by
  unfold start
  split
  · rename_i h
    exact (hd (isEmptySet_iff.1 h)).symm
  · simp [remaining, remainingMaps, Frame.maps_start]

theorem remaining_of_moves {path : List (K × V)} {rest : List (Frame K V)} {f : Frame K V} {o : Option (List (K × V))}
    {c' : Cursor K V} (h : Moves path rest f o c') : remainingMaps path (f :: rest) = o.toList ++ c'.remaining := by
  cases h with
  | emptySet p b => simp [remaining, remainingMaps, Frame.maps, Diagram.maps]
  | emptyMap p b => simp [remaining, remainingMaps, Frame.maps, Diagram.maps]
  | @branch i k take skip p v d b hp =>
    have hlt := (List.getElem?_eq_some_iff.1 hp).1
    have hle : p + 1 ≤ take.length := hlt
    simp [remaining, remainingMaps, Frame.maps_start, Frame.maps_node, Frame.unbind, branchMaps_drop hp, hle,
      Nat.le_of_lt hlt]
  | @skip i k take skip p b hp =>
    subst hp
    have hdrop : take.drop (take.length + 1) = [] := List.drop_eq_nil_of_le (Nat.le_succ _)
    have hgt := Nat.not_succ_le_self take.length
    simp [remaining, remainingMaps, Frame.maps_start, Frame.maps_node, Frame.unbind, hdrop, hgt, branchMaps]
  | @leave i k take skip p b hp =>
    have hdrop : take.drop p = [] := List.drop_eq_nil_of_le (Nat.le_of_lt hp)
    have hgt := Nat.not_le_of_lt hp
    simp [remaining, remainingMaps, Frame.maps_node, hdrop, hgt, branchMaps]

theorem remaining_of_step {c c' : Cursor K V} {o : Option (List (K × V))} (h : c.step = some (o, c')) :
    c.remaining = o.toList ++ c'.remaining := by
  obtain ⟨f, rest, hframes, hmoves⟩ := moves_of_step h
  rw [← remaining_of_moves hmoves, ← hframes]
  rfl

/-- Without a step nothing is left. -/
theorem remaining_of_step_eq_none {c : Cursor K V} (h : c.step = none) : c.remaining = [] := by
  obtain ⟨hframes, -⟩ | ⟨_, _, _, _, -, hstep, -⟩ := c.step_cases
  · rw [remaining, hframes, remainingMaps]
  · rw [hstep] at h
    cases h

/-- The next map is the first of those that are left. -/
theorem remaining_eq (c : Cursor K V) : c.remaining = c.next.elim [] fun p => p.1 :: p.2.remaining := by
  fun_induction next c with
  | case1 c hstep => exact remaining_of_step_eq_none hstep
  | case2 c m c' hstep => exact remaining_of_step hstep
  | case3 c c' hstep ih => exact (remaining_of_step hstep).trans ih

theorem toList_eq_remaining (c : Cursor K V) : c.toList = c.remaining := by
  fun_induction toList c with
  | case1 c hnext =>
    rw [remaining_eq, hnext]
    rfl
  | case2 c m c' hnext ih =>
    rw [remaining_eq, hnext, ih]
    rfl

end Cursor

/-! ### Finding a map -/

variable [Ord K] [Ord V]

/-- The first branch with the given value is the only one. -/
theorem branchContains_iff [Std.LawfulEqOrd V] {k : K} {take : List (V × Diagram K V)} {v : V} {l : List (K × V)}
    (hsort : take.Pairwise fun a b => compare a.1 b.1 = .lt)
    (hfound : ∀ b ∈ take, b.2.containsSorted l = true ↔ l ∈ b.2.maps) :
    branchContains v l take = true ↔ (k, v) :: l ∈ branchMaps k take := by
  induction take with
  | nil => simp [branchContains, branchMaps]
  | cons b take ih =>
    obtain ⟨w, c⟩ := b
    obtain ⟨hw, hsort⟩ := List.pairwise_cons.1 hsort
    have hrest := ih hsort fun b hb => hfound b (List.mem_cons_of_mem _ hb)
    have hc := hfound (w, c) List.mem_cons_self
    rw [branchContains, branchMaps, List.mem_append, ← hrest]
    by_cases hvw : v = w
    · subst hvw
      -- the walk stops at the value, so no later branch may have it
      have hlater : ¬ (k, v) :: l ∈ branchMaps k take := by
        intro hmem
        obtain ⟨v', d, r, hd, -, heq⟩ := mem_branchMaps_iff.1 hmem
        cases heq
        have hlt := hw (v, d) hd
        simp at hlt
      simp [hc, hrest, hlater]
    · simp [hvw, Ne.symm hvw]

variable [Std.TransOrd K]

/-- A cursor goes through the maps of a diagram in the order of their list. -/
theorem Normal.toList_start {d : Diagram K V} (hd : d.Normal) : (Cursor.start d).toList = d.maps := by
  rw [Cursor.toList_eq_remaining]
  apply Cursor.remaining_start
  intro h
  apply List.eq_nil_iff_forall_not_mem.2
  intro l hl
  obtain ⟨m, hm, -⟩ := hd.mem_maps_iff.1 hl
  exact hd.not_mem_of_index_eq_zero h m hm

/-- The keys of the maps of the skip diagram lie behind that of the node. -/
theorem Normal.lt_of_mem_skip_maps {i : Nat} {k : K} {take : List (V × Diagram K V)} {skip : Diagram K V}
    (hd : (Diagram.node i k take skip).Normal) (hskip : skip.Normal) {e : K × V} {l : List (K × V)}
    (hl : e :: l ∈ skip.maps) : compare k e.1 = .lt := by
  obtain ⟨m, hm, heq⟩ := hskip.mem_maps_iff.1 hl
  apply hd.skip_isAbove hm e
  rw [heq]
  exact List.mem_cons_self

/-- A list of entries in key order is found if and only if it is listed. -/
theorem Normal.containsSorted_iff [Std.LawfulEqOrd K] [Std.LawfulEqOrd V] {d : Diagram K V} (hd : d.Normal)
    {l : List (K × V)} : d.containsSorted l = true ↔ l ∈ d.maps := by
  induction hd generalizing l with
  | emptySet => simp [containsSorted, maps]
  | emptyMap => simp [containsSorted, maps]
  | @node i k take skip hi ht hsort hne habove hbranch hsa hs ihb ihs =>
    have hd : (Diagram.node i k take skip).Normal := .node hi ht hsort hne habove hbranch hsa hs
    rw [maps, List.mem_append]
    cases l with
    | nil =>
      have hbranches : ¬ [] ∈ branchMaps k take := by simp [mem_branchMaps_iff]
      simp [containsSorted, ihs, hbranches]
    | cons e l =>
      obtain ⟨a, v⟩ := e
      have hskip : (a, v) :: l ∈ skip.maps → compare k a = .lt := hd.lt_of_mem_skip_maps hs
      have hbranches : (a, v) :: l ∈ branchMaps k take → a = k := by
        intro hmem
        obtain ⟨_, _, _, _, _, heq⟩ := mem_branchMaps_iff.1 hmem
        cases heq
        rfl
      rw [containsSorted]
      cases hak : compare a k with
      | lt =>
        have hka := Std.OrientedCmp.gt_of_lt hak
        have hne : a ≠ k := fun h => by simp [h] at hak
        simp only [Bool.false_eq_true, false_iff]
        rintro (h | h)
        · exact hne (hbranches h)
        · rw [hskip h] at hka
          cases hka
      | eq =>
        obtain rfl := Std.LawfulEqCmp.eq_of_compare hak
        have hno : ¬ (a, v) :: l ∈ skip.maps := by simpa using hskip
        simp only [hno, or_false]
        exact branchContains_iff hsort fun b hb => ihb b hb
      | gt =>
        have hne : a ≠ k := fun h => by simp [h] at hak
        have hno : ¬ (a, v) :: l ∈ branchMaps k take := fun h => hne (hbranches h)
        simp only [hno, false_or]
        exact ihs

end Diagram

/-! ### Agreement -/

variable {K V : Type} [Ord K] [Ord V] [Std.TransOrd K] [Std.LawfulEqOrd K] [Std.TransOrd V] [Std.LawfulEqOrd V]

/-- A cursor goes through the maps of the family, each of them once and with its entries in key order; at the first
difference of two maps the one with the smaller entry comes first, and a map comes behind its extensions.  A map, its
entries in any order, is found if and only if the cursor comes to it, and the number of maps is how many it comes to, as
far as a word can hold it, whatever numbers the store remembers. -/
theorem Store.Runs.enumeration {s : Store K V} (h : Runs {} s) {d : Diagram K V} (hd : s.Has d) :
    let listed := (Cursor.start d).toList
    (∀ l, l ∈ listed ↔ ∃ m ∈ d, m.entries = l) ∧ listed.Nodup ∧ listed.Pairwise Precedes ∧
      (∀ l ∈ listed, l.Pairwise fun a b => compare a.1 b.1 = .lt) ∧
      (∀ m, d.contains m = true ↔ sortMap m ∈ listed) ∧
      ((count d).run s).1 = toWord listed.length ∧ (listed.length < wordSize → ((count d).run s).1 = listed.length) := by
  intro listed
  have hnormal := h.sound.normal hd
  have hlisted : listed = d.maps := hnormal.toList_start
  rw [hlisted]
  refine ⟨fun l => hnormal.mem_maps_iff, hnormal.nodup_maps, hnormal.pairwise_maps, fun l hl => ?_, fun m => ?_, ?_, fun hfits => ?_⟩
  · obtain ⟨m, -, rfl⟩ := hnormal.mem_maps_iff.1 hl
    exact m.sorted
  · exact hnormal.containsSorted_iff
  · exact (ensures_count d s h.sound hd).2.2
  · exact (ensures_count d s h.sound hd).2.2.trans (toWord_of_lt hfits)

/-- Partial maps, two of them behind more than one skip diagram, of a store that remembers the number of maps. -/
theorem Store.Runs.enumeration_partial_maps :
    let x := (ofMaps [[(2, 5), (1, 3)], [(3, 1)], [(1, 2)], [], [(1, 2), (3, 0)]]).run ({} : Store Nat Nat)
    let y := (count x.1).run x.2
    let listed := (Cursor.start x.1).toList
    listed = [[(1, 2), (3, 0)], [(1, 2)], [(1, 3), (2, 5)], [(3, 1)], []] ∧ listed.Pairwise Precedes ∧
      x.1.contains [(3, 0), (1, 2)] = true ∧ x.1.contains [(2, 5)] ≠ true ∧ ((count x.1).run y.2).1 = 5 := by
  intro x y listed
  have hmaps : x.1.maps = [[(1, 2), (3, 0)], [(1, 2)], [(1, 3), (2, 5)], [(3, 1)], []] := by decide +kernel
  have hx : (ofMaps _).run _ = x := rfl
  have hy : (count _).run _ = y := rfl
  clear_value x y
  have hkeys : ∀ l ∈ [[(2, 5), (1, 3)], [(3, 1)], [(1, 2)], [], [(1, 2), (3, 0)]],
      (l.map (Prod.fst : Nat × Nat → Nat)).Nodup := by decide
  obtain ⟨hrx, -, hx⟩ := (Runs.refl {}).of_run (.ofMaps _ : Call Empty Nat Nat) hkeys rfl hx
  have hd := hx _ rfl
  obtain ⟨hry, hxy, -⟩ := hrx.of_run (.count _ : Call Empty Nat Nat) hd rfl hy
  obtain ⟨-, -, hsorted, -, hcontains, -, hcount⟩ := Store.Runs.enumeration hry (hd.mono hxy)
  have hlisted := (hrx.sound.normal hd).toList_start.trans hmaps
  rw [hlisted] at hcontains hcount
  exact ⟨hlisted, hsorted, (hcontains _).2 (by decide), fun hfound => absurd ((hcontains _).1 hfound) (by decide),
    hcount (by decide)⟩

end TokenNet
