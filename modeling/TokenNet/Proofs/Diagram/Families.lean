import TokenNet.Proofs.Diagram.Calls

/-!
# Families after any calls

What unions, joins and filters return, whatever calls have been made before and whatever they have left in the caches.

The union of two diagrams has the maps of both, and the diagram of a list of maps has these, `Store.Runs.mem_union_iff`.
The join of two diagrams has the unions of their maps that agree, `Store.Runs.mem_join_iff`.  A filter keeps the maps
whose entries at the given keys pass the test, and fails where the test first fails on the listed maps,
`Store.Runs.filter_eq_sifted`; it asks about some of the maps, each at most once and in their order.
-/

namespace TokenNet

open Diagram Store

/-! ### The entries of a map -/

section Entries

variable {K V : Type} [Ord K] [Std.LawfulEqOrd K]

/-- The entries at the given keys. -/
def entriesAt [DecidableEq K] (keys : List K) (l : List (K × V)) : List (K × V) := l.filter fun e => e.1 ∈ keys

theorem restrict_eq_entriesAt [DecidableEq K] (keys : List K) : restrict (V := V) keys = entriesAt keys := by
  funext l
  refine List.filter_congr fun e _ => ?_
  unfold isChosen
  rw [Bool.eq_iff_iff, List.any_eq_true, decide_eq_true_iff]
  constructor
  · rintro ⟨k, hk, hke⟩
    rwa [← Std.LawfulEqCmp.eq_of_compare (of_decide_eq_true hke)]
  · exact fun he => ⟨e.1, he, by simp⟩

/-- The entries of a map that binds no key twice are sorted by their keys. -/
theorem FinMap.entries_ofList [Std.TransOrd K] {l : List (K × V)} (hl : (l.map Prod.fst).Nodup) :
    (ofList l).entries = sortMap l := by
  let m : FinMap K V := ⟨sortMap l, sorted_sortMap hl⟩
  have hm : ofList l = m := by
    refine ext_get? fun k => Option.ext fun v => ?_
    rw [get?_ofList_eq_some hl, ← mem_entries_iff]
    exact mem_sortOn.symm
  rw [hm]

end Entries

variable {K V : Type} [Ord K] [Ord V] [Std.TransOrd K] [Std.LawfulEqOrd K] [Std.TransOrd V] [Std.LawfulEqOrd V]
  {s s' : Store K V}

/-! ### One more call -/

/-- Running an operation is one more call: its store has the earlier diagrams, and the diagram it answers with. -/
theorem Store.Runs.of_run (h : Runs {} s) {ε α : Type} (c : Call ε K V) (hc : c.Admissible s) {x : StoreM K V α}
    {f : α → Answer ε K V} (hcx : c.run = do return f (← x)) {p : α × Store K V} (hrun : x.run s = p) :
    Runs {} p.2 ∧ s.Grows p.2 ∧ ∀ d, (f p.1).diagram? = some d → p.2.Has d := by
  obtain ⟨a, s'⟩ := p
  have hcall : c.run.run s = (f a, s') := by
    rw [hcx]
    exact run_bind_of_run hrun
  have hruns := h.call c hc
  rw [hcall] at hruns
  obtain ⟨hg, -, hd⟩ := (Call.ensures h.sound hc).of_run hcall
  exact ⟨hruns, hg, hd⟩

/-! ### Unions -/

/-- The union has the maps of both diagrams, and the diagram of a list of maps that bind no key twice has just these. -/
theorem Store.Runs.mem_union_iff (h : Runs {} s) :
    (∀ a b d s', s.Has a → s.Has b → (Diagram.union a b).run s = (d, s') →
      s'.Has d ∧ ∀ m, m ∈ d ↔ m ∈ a ∨ m ∈ b) ∧
    ∀ ms d s', (∀ l ∈ ms, (l.map Prod.fst).Nodup) → (Diagram.ofMaps ms).run s = (d, s') →
      s'.Has d ∧ ∀ m, m ∈ d ↔ ∃ l ∈ ms, m = FinMap.ofList l := by
  constructor
  · intro a b d s' ha hb hrun
    exact ((ensures_union h.sound ha hb).of_run hrun).2.2
  · intro ms d s' hms hrun
    obtain ⟨-, -, hd, hmem⟩ := (ensures_ofMaps h.sound hms).of_run hrun
    refine ⟨hd, fun m => ?_⟩
    rw [hmem]
    refine exists_congr fun l => and_congr_right fun hl => ?_
    rw [← FinMap.entries_ofList (hms l hl)]
    exact ⟨FinMap.entries_injective, congrArg FinMap.entries⟩

/-- Two families of partial maps over different keys, both of which have the empty map, after the same union has been
computed the other way round. -/
theorem Store.Runs.mem_union_iff_partial_maps :
    let xs := [[(2, 5), (1, 3)], [(1, 2)], []]
    let ys := [[], [(1, 3), (2, 5)], [(2, 4)]]
    let x := (ofMaps xs).run ({} : Store Nat Nat)
    let y := (ofMaps ys).run x.2
    let z := (union y.1 x.1).run y.2
    let w := (union x.1 y.1).run z.2
    w.1.maps = [[(1, 2)], [(1, 3), (2, 5)], [(2, 4)], []] ∧ (∀ m, m ∈ w.1 ↔ m ∈ x.1 ∨ m ∈ y.1) ∧
      ∀ m, m ∈ y.1 ↔ ∃ l ∈ ys, m = FinMap.ofList l := by
  intro xs ys x y z w
  refine ⟨by decide +kernel, ?_⟩
  have hx : (ofMaps _).run _ = x := rfl
  have hy : (ofMaps _).run _ = y := rfl
  have hz : (union _ _).run _ = z := rfl
  have hw : (union _ _).run _ = w := rfl
  have hkx : ∀ l ∈ xs, (l.map (Prod.fst : Nat × Nat → Nat)).Nodup := by decide
  have hky : ∀ l ∈ ys, (l.map (Prod.fst : Nat × Nat → Nat)).Nodup := by decide
  clear_value x y z w
  obtain ⟨hrx, -, hx⟩ := (Runs.refl {}).of_run (.ofMaps _ : Call Empty Nat Nat) hkx rfl hx
  obtain ⟨-, hmaps⟩ := (Store.Runs.mem_union_iff hrx).2 ys _ _ hky hy
  obtain ⟨hry, hxy, hy⟩ := hrx.of_run (.ofMaps _ : Call Empty Nat Nat) hky rfl hy
  have ha := (hx _ rfl).mono hxy
  have hb := hy _ rfl
  obtain ⟨hrz, hyz, -⟩ := hry.of_run (.union _ _ : Call Empty Nat Nat) ⟨hb, ha⟩ rfl hz
  exact ⟨((Store.Runs.mem_union_iff hrz).1 _ _ _ _ (ha.mono hyz) (hb.mono hyz) hw).2, hmaps⟩

/-! ### Joins -/

/-- The join has the unions of those maps of the two diagrams that agree on every key of both, each of them once. -/
theorem Store.Runs.mem_join_iff (h : Runs {} s) {a b : Diagram K V} (ha : s.Has a) (hb : s.Has b) {d : Diagram K V}
    (hrun : (Diagram.join a b).run s = (d, s')) :
    s'.Has d ∧ (∀ m, m ∈ d ↔ ∃ x ∈ a, ∃ y ∈ b, x.Agrees y ∧ m = x.union y) ∧
      d.maps.Nodup ∧ ∀ m, m.entries ∈ d.maps ↔ m ∈ d := by
  obtain ⟨-, hs', hd, hmem⟩ := (ensures_join h.sound ha hb).of_run hrun
  have hnormal := hs'.normal hd
  refine ⟨hd, fun m => ?_, hnormal.nodup_maps, fun m => hnormal.entries_mem_maps_iff⟩
  have hjoins : m ∈ d ↔ ∃ x ∈ a, ∃ y ∈ b, x.Joins y m := hmem m
  simp only [hjoins, FinMap.joins_iff]

/-- Two families of partial maps, joined a second time, the other way round. -/
theorem Store.Runs.mem_join_iff_partial_maps :
    let x := (ofMaps [[(1, 2)], [(1, 3), (2, 4)], []]).run ({} : Store Nat Nat)
    let y := (ofMaps [[(2, 4)], [(1, 2), (2, 5)]]).run x.2
    let z := (join x.1 y.1).run y.2
    let w := (join y.1 x.1).run z.2
    w.1.maps = [[(1, 2), (2, 4)], [(1, 2), (2, 5)], [(1, 3), (2, 4)], [(2, 4)]] ∧
      ∀ m, m ∈ w.1 ↔ ∃ u ∈ y.1, ∃ v ∈ x.1, u.Agrees v ∧ m = u.union v := by
  intro x y z w
  refine ⟨by decide +kernel, ?_⟩
  have hx : (ofMaps _).run _ = x := rfl
  have hy : (ofMaps _).run _ = y := rfl
  have hz : (join _ _).run _ = z := rfl
  have hw : (join _ _).run _ = w := rfl
  clear_value x y z w
  have hkx : ∀ l ∈ [[(1, 2)], [(1, 3), (2, 4)], []], (l.map (Prod.fst : Nat × Nat → Nat)).Nodup := by decide
  have hky : ∀ l ∈ [[(2, 4)], [(1, 2), (2, 5)]], (l.map (Prod.fst : Nat × Nat → Nat)).Nodup := by decide
  obtain ⟨hrx, -, hx⟩ := (Runs.refl {}).of_run (.ofMaps _ : Call Empty Nat Nat) hkx rfl hx
  obtain ⟨hry, hxy, hy⟩ := hrx.of_run (.ofMaps _ : Call Empty Nat Nat) hky rfl hy
  have ha := (hx _ rfl).mono hxy
  have hb := hy _ rfl
  obtain ⟨hrz, hyz, -⟩ := hry.of_run (.join _ _ : Call Empty Nat Nat) ⟨ha, hb⟩ rfl hz
  exact (Store.Runs.mem_join_iff hrz (hb.mono hyz) (ha.mono hyz) hw).2.1

/-! ### Filters -/

/-- If the test has a verdict on every map, the filter has the maps that pass; and it fails exactly as the test does on
the first map that has none.  The test is asked about some of the maps, in their order, and about each at most once, so there
are at most as many calls as maps. -/
theorem Store.Runs.filter_eq_sifted [DecidableEq K] (h : Runs {} s) {d : Diagram K V} (hd : s.Has d) {ε : Type}
    (keys : List K) (test : Test ε K V) {r : Filtered ε K V} (hrun : (Diagram.filter keys test d).run s = (r, s')) :
    ((∀ m ∈ d, ∃ keep, test (entriesAt keys m.entries) = .ok keep) → ∃ d', r.result = .ok d' ∧ s'.Has d' ∧
      ∀ m, m ∈ d' ↔ m ∈ d ∧ test (entriesAt keys m.entries) = .ok true) ∧
    (∀ e, r.result = .error e ↔ ∃ before l after, d.maps = before ++ l :: after ∧
      (∀ l' ∈ before, ∃ keep, test (entriesAt keys l') = .ok keep) ∧ test (entriesAt keys l) = .error e) ∧
    r.calls.Sublist (d.maps.map (entriesAt keys)) ∧ r.calls.length ≤ d.maps.length ∧
      (d.maps.length < wordSize → r.calls.length ≤ ((count d).run s).1) := by
  obtain ⟨-, hs', hsift, hhas, hcalls⟩ := (ensures_filter keys test h.sound hd).of_run hrun
  have hnormal := h.sound.normal hd
  rw [restrict_eq_entriesAt] at hsift hcalls
  have hle : r.calls.length ≤ d.maps.length := by
    have hlength := hcalls.length_le
    rwa [List.length_map] at hlength
  refine ⟨fun htest => ?_, fun e => ?_, hcalls, hle, fun hfits => ?_⟩
  · have hverdicts : ∀ l ∈ d.maps, ∃ keep, test (entriesAt keys l) = .ok keep := by
      intro l hl
      obtain ⟨m, hm, rfl⟩ := hnormal.mem_maps_iff.1 hl
      exact htest m hm
    obtain ⟨kept, hkept⟩ := exists_sift hverdicts
    rw [hkept] at hsift
    cases hr : r.result with
    | error e => simp [hr, Except.map] at hsift
    | ok d' =>
      have hd' := hhas d' hr
      have hmaps : d'.maps = kept := by simpa [hr, Except.map] using hsift
      refine ⟨d', rfl, hd', fun m => ?_⟩
      rw [← (hs'.normal hd').entries_mem_maps_iff, hmaps, mem_of_sift hkept, hnormal.entries_mem_maps_iff]
  · rw [← sift_eq_error_iff, ← hsift]
    cases r.result <;> simp [Except.map]
  · have hcount : ((count d).run s).1 = toWord d.maps.length := (ensures_count d s h.sound hd).2.2
    rwa [hcount, toWord_of_lt hfits]

/-- A filter that fails on the third of four partial maps, and one after it that does not fail. -/
theorem Store.Runs.filter_eq_sifted_partial_maps :
    let test : Test String Nat Nat := fun l => if l = [(3, 5)] then .error "five" else .ok (l.length = 2)
    let x := (ofMaps [[(1, 2), (3, 4)], [(1, 2), (2, 0)], [(3, 5)], []]).run ({} : Store Nat Nat)
    let y := (Diagram.filter [3, 1, 3, 9] test x.1).run x.2
    let lacks : Test String Nat Nat := fun l => .ok l.isEmpty
    let z := (Diagram.filter [9, 1] lacks x.1).run y.2
    y.1.calls = [[(1, 2)], [(1, 2), (3, 4)], [(3, 5)]] ∧ y.1.result = .error "five" ∧
      ∃ d', z.1.result = .ok d' ∧ ∀ m, m ∈ d' ↔ m ∈ x.1 ∧ lacks (entriesAt [9, 1] m.entries) = .ok true := by
  intro test x y lacks z
  have hmaps : x.1.maps = [[(1, 2), (2, 0)], [(1, 2), (3, 4)]] ++ [(3, 5)] :: [[]] := by decide +kernel
  have hcalls : y.1.calls = [[(1, 2)], [(1, 2), (3, 4)], [(3, 5)]] := by decide +kernel
  have hx : (ofMaps _).run _ = x := rfl
  have hy : (Diagram.filter _ _ _).run _ = y := rfl
  have hz : (Diagram.filter _ _ _).run _ = z := rfl
  clear_value x y z
  have hkx : ∀ l ∈ [[(1, 2), (3, 4)], [(1, 2), (2, 0)], [(3, 5)], []], (l.map (Prod.fst : Nat × Nat → Nat)).Nodup := by
    decide
  obtain ⟨hrx, -, hx⟩ := (Runs.refl {}).of_run (.ofMaps _ : Call Empty Nat Nat) hkx rfl hx
  have hd := hx _ rfl
  obtain ⟨hry, hxy, -⟩ := hrx.of_run (.filter _ _ _) hd rfl hy
  have hfailed := (Store.Runs.filter_eq_sifted hrx hd _ test hy).2.1 "five"
  obtain ⟨d', hd', -, hmem⟩ := (Store.Runs.filter_eq_sifted hry (hd.mono hxy) _ lacks hz).1 fun m _ => ⟨_, rfl⟩
  refine ⟨hcalls, hfailed.2 ⟨_, _, _, hmaps, fun l hl => ?_, by decide⟩, d', hd', hmem⟩
  rcases List.mem_pair.1 hl with rfl | rfl <;> exact ⟨_, rfl⟩

end TokenNet
