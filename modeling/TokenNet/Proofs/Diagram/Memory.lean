import Mathlib.Data.List.DropRight
import TokenNet.Proofs.Diagram.Clearing
import TokenNet.Proofs.Diagram.Learning

/-!
# Each result is computed once

After any calls on an empty store, what the store remembers is right, the recursions of the operations end, and the
number of remembered results is the number of misses since the caches were cleared last: `Store.memoizes_after`.  So a
result that has been computed is found from then on until the caches are cleared.
-/

namespace TokenNet

open Diagram Store

variable {K V ε : Type} [Ord K] [Ord V]

/-! ### The operations and their steps -/

/-- The operation on two diagrams. -/
def Operation.on (op : Operation) (a b : Diagram K V) : StoreM K V (Diagram K V) :=
  match op with
  | .union => Diagram.union a b
  | .join => Diagram.join a b

/-- The operation, with a bound on the depth of its recursion. -/
def Operation.below (op : Operation) (n : Nat) (a b : Diagram K V) : StoreM K V (Diagram K V) :=
  match op with
  | .union => unionBelow n a b
  | .join => joinBelow n a b

/-- What is computed if the result of the operation is not remembered. -/
def Operation.step (op : Operation) (a b : Diagram K V) : StoreM K V (Diagram K V) :=
  match op with
  | .union => unionStep Diagram.union a b
  | .join => joinStep Diagram.join a b

/-! ### Clearing the caches -/

namespace Store

/-- The calls up to the last one that clears the caches; none if no call does. -/
def untilClear (l : List (AnyCall K V)) : List (AnyCall K V) := l.rdropWhile fun c => !c.2.isClear

theorem cached_after_untilClear (l : List (AnyCall K V)) : (({} : Store K V).after (untilClear l)).cached = 0 := by
  induction l using List.reverseRecOn with
  | nil => rfl
  | append_singleton l c ih =>
    obtain ⟨ε, c⟩ := c
    unfold untilClear
    rw [List.rdropWhile_concat]
    cases c with
    | clearCaches =>
      change (({} : Store K V).after (l ++ [_])).cached = 0
      rw [after_append]
      rfl
    | _ => exact ih

end Store

/-! ### Sound stores -/

theorem Store.Sound.has_of_diagram? [Std.TransOrd K] {s : Store K V} {a : Diagram K V} (hs : s.Sound) {i : Nat}
    (h : s.diagram? i = some a) : s.Has a := by
  match i, h with
  | 0, h =>
    cases h
    exact has_emptySet
  | 1, h =>
    cases h
    exact has_emptyMap
  | i + 2, h =>
    obtain ⟨k, take, skip, rfl, -⟩ := hs.fits i a h
    exact h

variable [Std.TransOrd K] [Std.LawfulEqOrd K] [Std.TransOrd V] [Std.LawfulEqOrd V] {s s' : Store K V}
  {a b : Diagram K V}

theorem ensures_on (op : Operation) (hs : s.Sound) (ha : s.Has a) (hb : s.Has b) :
    Ensures (op.on a b) s fun d s' => s'.Has d ∧ ∀ m, m ∈ d ↔ op.Yields a b m := by
  cases op with
  | union => exact ensures_union hs ha hb
  | join => exact ensures_join hs ha hb

omit [Std.LawfulEqOrd K] in
theorem below_eq_on (op : Operation) (hs : s.Sound) (ha : s.Has a) (hb : s.Has b) {n : Nat}
    (hn : a.index + b.index < n) : op.below n a b = op.on a b := by
  cases op with
  | union => exact unionBelow_eq_union hs ha hb hn
  | join => exact joinBelow_eq_join hs ha hb hn

/-- A step asks only questions of a smaller rank than the one it answers. -/
theorem learns_step (op : Operation) (hs : s.Sound) (ha : s.Has a) (hb : s.Has b) :
    Learns (op.step a b) s {q | q.rank < op.rank (a.index + b.index)} := by
  cases op with
  | union =>
    exact learns_unionStep hs ha hb fun x y s' hg hs' hxy =>
      learns_union hs' (hxy.left_has.mono hg) (hxy.right_has.mono hg)
  | join =>
    exact learns_joinStep hs ha hb fun x y s' hg hs' hxy =>
      learns_join hs' (hxy.left_has.mono hg) (hxy.right_has.mono hg)

/-! ### What a store remembers -/

/-- What a store remembers is right, and what it has to compute is computed once: the recursion ends, and does not come
back to the question that it answers. -/
structure Store.Memoizes (s : Store K V) : Prop where
  /-- A result is remembered under the indices of the operands, the smaller one first.  It is what the operation returns
  on them, now and after any further calls, also after the result has been forgotten. -/
  results : ∀ op i j d, s.result? op (i, j) = some d → i ≤ j ∧ s.Has d ∧
    ∃ a b, s.diagram? i = some a ∧ s.diagram? j = some b ∧ (∀ m, m ∈ d ↔ op.Yields a b m) ∧
      ∀ s', Runs s s' → ((op.on a b).run s').1 = d
  /-- A number is that of the maps, unless it does not fit into a word. -/
  counts : ∀ i n, s.counts[i]? = some n → ∃ d, s.diagram? i = some d ∧ n = toWord d.maps.length ∧
    (d.maps.length < wordSize → n = d.maps.length)
  /-- No bound above the sum of the indices is used up. -/
  terminates : ∀ (op : Operation) a b n, s.Has a → s.Has b → a.index + b.index < n → op.below n a b = op.on a b
  /-- The steps towards a missing answer do not ask for it. -/
  step : ∀ (op : Operation) a b, s.Has a → s.Has b → s.result? op (a.index, b.index) = none →
    ((op.step a b).run s).2.result? op (a.index, b.index) = none
  countParts : ∀ i k take skip, s.Has (node i k take skip) → s.counts[i]? = none →
    ((countParts take skip).run s).2.counts[i]? = none

/-- In every later store, an operation returns the diagram that denotes its result. -/
theorem Store.Sound.on_eq (hs : s.Sound) (op : Operation) (ha : s.Has a) (hb : s.Has b) {d : Diagram K V}
    (hd : s.Has d) (hm : ∀ m, m ∈ d ↔ op.Yields a b m) (h : Runs s s') : ((op.on a b).run s').1 = d := by
  obtain ⟨hs', hg⟩ := h.sound_grows hs
  obtain ⟨hg', hs'', he, hem⟩ := ensures_on op hs' (ha.mono hg) (hb.mono hg)
  exact hs''.eq_of_mem_iff he ((hd.mono hg).mono hg') fun m => (hem m).trans (hm m).symm

theorem Store.Sound.memoizes (hs : s.Sound) : s.Memoizes where
  results op i j d h := by
    obtain ⟨hd, hij, a, b, ha, hb, hm⟩ := hs.results op (i, j) d h
    exact ⟨hij, hd, a, b, ha, hb, hm, fun s' => hs.on_eq op (hs.has_of_diagram? ha) (hs.has_of_diagram? hb) hd hm⟩
  counts i n h := by
    obtain ⟨d, hd, hlen⟩ := hs.counts i n h
    exact ⟨d, hd, hlen.symm, fun hfits => hlen.symm.trans (toWord_of_lt hfits)⟩
  terminates op a b n ha hb hn := below_eq_on op hs ha hb hn
  step op a b ha hb h := by
    have hq : ¬ s.Recalls (.operation op a.index b.index) := by simp [Recalls, h]
    have hq' := Learned.not_recalls (learns_step op hs ha hb) hq (lt_irrefl (op.rank _))
    exact Option.eq_none_iff_forall_not_mem.2 fun d hd => hq' ⟨d, hd⟩
  countParts i k take skip hd h := by
    have hq : ¬ s.Recalls (.count i) := by simp [Recalls, h]
    have hq' := Learned.not_recalls (learns_countParts hs hd) hq (lt_irrefl (Question.count i).rank)
    exact Option.eq_none_iff_forall_not_mem.2 fun n hn => hq' ⟨n, hn⟩

/-! ### Calls -/

theorem Call.learns {c : Call ε K V} (hs : s.Sound) (hc : c.Admissible s) (hclear : ¬ c.isClear) :
    Learns c.run s Set.univ := by
  have hreturn : ∀ {α : Type} {x : StoreM K V α} (g : α → Answer ε K V) {A : Set Question}, Learns x s A →
      Learns (do return g (← x)) s Set.univ :=
    fun g _ h => (h.mono (Set.subset_univ _)).bind fun a s' _ => learns_pure (g a)
  cases c with
  | node k take skip => exact hreturn .diagram (learns_mkNode k take skip s Set.univ)
  | singleton m => exact hreturn .diagram (learns_singleton m s Set.univ)
  | ofMaps ms => exact hreturn .diagram (learns_ofMaps hs hc)
  | union a b => exact hreturn .diagram (learns_union hs hc.1 hc.2)
  | join a b => exact hreturn .diagram (learns_join hs hc.1 hc.2)
  | filter keys test d => exact hreturn .filtered (learns_filter keys test d s Set.univ)
  | count d => exact hreturn .number (learns_count hs d hc s)
  | clearCaches => exact absurd rfl hclear

namespace Store

/-- Calls that do not clear the caches keep the answers, and each miss is for an answer that was missing. -/
theorem learned_after {l : List (AnyCall K V)} (hs : s.Sound) (hl : s.Admits l) (hproper : ∀ c ∈ l, ¬ c.2.isClear) :
    s.Learned Set.univ (s.after l) := by
  induction l generalizing s with
  | nil => exact .refl _ s
  | cons c l ih =>
    have hcall := Call.learns hs hl.1 (hproper c List.mem_cons_self)
    exact hcall.trans (ih (Call.ensures hs hl.1).2.1 hl.2 fun d hd => hproper d (List.mem_cons_of_mem c hd))

/-- After any calls on an empty store: what the store remembers is right; and there are as many remembered results as
there have been misses since the last call that cleared the caches, or since the first call if none did.  Further calls
keep what is remembered until the caches are cleared, and only answers that were missing are computed. -/
theorem memoizes_after {l : List (AnyCall K V)} (hl : ({} : Store K V).Admits l) :
    (({} : Store K V).after l).Memoizes ∧
    (({} : Store K V).after l).cached + (({} : Store K V).after (untilClear l)).misses =
      (({} : Store K V).after l).misses ∧
    ∀ l', (({} : Store K V).after l).Admits l' → (∀ c ∈ l', ¬ c.2.isClear) →
      (({} : Store K V).after l).Learned Set.univ ((({} : Store K V).after l).after l') := by
  have hs := (runs_after hl).sound
  refine ⟨hs.memoizes, ?_, fun l' hl' hproper => learned_after hs hl' hproper⟩
  -- what is left of the calls clears nothing, and starts where nothing is remembered
  have hsplit : untilClear l ++ l.rtakeWhile (fun c => !c.2.isClear) = l := List.rdropWhile_append_rtakeWhile
  have hproper : ∀ c ∈ l.rtakeWhile (fun c => !c.2.isClear), ¬ c.2.isClear := fun c hc => by
    simpa using List.mem_rtakeWhile_imp hc
  generalize l.rtakeWhile _ = l' at hsplit hproper
  have hzero := cached_after_untilClear l
  generalize untilClear l = done at hsplit hzero ⊢
  obtain rfl := hsplit
  obtain ⟨hdone, hl'⟩ := admits_append.1 hl
  have hbalance := (learned_after (runs_after hdone).sound hl' hproper).balance
  rw [← after_append] at hbalance
  omega

/-- Joins and counts of two diagrams before and after the caches are cleared; of the three joins, the last is found. -/
theorem memoizes_after_join :
    let x := (ofMaps [[(1, 2)], [(2, 4)]]).run ({} : Store Nat Nat)
    let y := (ofMaps [[(1, 2), (2, 5)], [(3, 4)]]).run x.2
    let call (c : Call Empty Nat Nat) : AnyCall Nat Nat := ⟨Empty, c⟩
    let l := [call (.ofMaps [[(1, 2)], [(2, 4)]]), call (.ofMaps [[(1, 2), (2, 5)], [(3, 4)]]), call (.join x.1 y.1),
      call (.count y.1), call .clearCaches, call (.join y.1 x.1), call (.join x.1 y.1), call (.count x.1)]
    let s := ({} : Store Nat Nat).after l
    s.hits = 1 ∧ s.misses = 15 ∧ s.cached + 9 = s.misses ∧ s.Memoizes := by
  intro x y call l s
  have hhits : s.hits = 1 := by decide +kernel
  have hmisses : s.misses = 15 := by decide +kernel
  have hcleared : (({} : Store Nat Nat).after (untilClear l)).misses = 9 := by decide +kernel
  have hadmits : ({} : Store Nat Nat).Admits l := by
    have hx : (ofMaps _).run _ = x := rfl
    have hy : (ofMaps _).run _ = y := rfl
    clear hhits hmisses hcleared s
    clear_value x y
    have hkx : ∀ l ∈ [[(1, 2)], [(2, 4)]], (l.map (Prod.fst : Nat × Nat → Nat)).Nodup := by decide
    have hky : ∀ l ∈ [[(1, 2), (2, 5)], [(3, 4)]], (l.map (Prod.fst : Nat × Nat → Nat)).Nodup := by decide
    obtain ⟨hrx, -, hx'⟩ := (Runs.refl {}).of_run (.ofMaps _ : Call Empty Nat Nat) hkx rfl hx
    obtain ⟨hry, hxy, hy'⟩ := hrx.of_run (.ofMaps _ : Call Empty Nat Nat) hky rfl hy
    have ha := (hx' _ rfl).mono hxy
    have hb := hy' _ rfl
    refine admits_cons hkx (run_bind_of_run hx) (admits_cons hky (run_bind_of_run hy) ?_)
    refine admits_of_forall hry.sound ?_
    simp [call, Call.Admissible, ha, hb]
  obtain ⟨hmemoizes, hbalance, -⟩ := memoizes_after hadmits
  rw [hcleared] at hbalance
  exact ⟨hhits, hmisses, hbalance, hmemoizes⟩

end Store

end TokenNet
