import TokenNet.Proofs.Diagram.Families
import TokenNet.Proofs.Diagram.Forgetting

/-!
# Clearing the caches

Every call mirrors one that remembers nothing, `Call.mirrors`.  So two sequences of calls that are the same but for the
places where the caches are cleared get the same answers and make the same nodes, `Store.answers_eq_of_clearing`.
-/

namespace TokenNet

open Diagram Store

variable {K V ε : Type} [Ord K] [Ord V]

/-! ### Counting and filtering -/

/-- The computation changes neither nodes nor results. -/
private def CountsOnly {α : Type} (x : StoreM K V α) : Prop :=
  ∀ s, (x.run s).2.bare = s.bare ∧ ∀ op, (x.run s).2.result? op = s.result? op

private theorem CountsOnly.bind {α β : Type} {x : StoreM K V α} {f : α → StoreM K V β} (hx : CountsOnly x)
    (hf : ∀ a, CountsOnly (f a)) : CountsOnly (x >>= f) := by
  intro s
  obtain ⟨hbare, hresult⟩ := hx s
  obtain ⟨hbare', hresult'⟩ := hf (x.run s).1 (x.run s).2
  exact ⟨hbare'.trans hbare, fun op => (hresult' op).trans (hresult op)⟩

private theorem countsOnly_pure {α : Type} (a : α) : CountsOnly (pure a : StoreM K V α) := fun _ => ⟨rfl, fun _ => rfl⟩

private theorem countsOnly_get : CountsOnly (get : StoreM K V (Store K V)) := fun _ => ⟨rfl, fun _ => rfl⟩

private theorem countsOnly_hit : CountsOnly (modify Store.hit : StoreM K V Unit) :=
  fun _ => ⟨rfl, fun op => by cases op <;> rfl⟩

private theorem countsOnly_miss : CountsOnly (modify Store.miss : StoreM K V Unit) :=
  fun _ => ⟨rfl, fun op => by cases op <;> rfl⟩

mutual

private theorem countsOnly_count (d : Diagram K V) : CountsOnly (count d) := by
  match d with
  | .emptySet => exact countsOnly_pure 0
  | .emptyMap => exact countsOnly_pure 1
  | .node i k take skip =>
    unfold count
    refine countsOnly_get.bind fun s => ?_
    split
    · exact countsOnly_hit.bind fun _ => countsOnly_pure _
    · refine countsOnly_miss.bind fun _ => (countsOnly_countBranches take).bind fun n => ?_
      refine (countsOnly_count skip).bind fun m => CountsOnly.bind (fun s => ⟨rfl, fun op => ?_⟩) fun _ => countsOnly_pure _
      cases op <;> rfl

private theorem countsOnly_countBranches (take : List (V × Diagram K V)) : CountsOnly (countBranches take) := by
  match take with
  | [] => exact countsOnly_pure 0
  | (_, c) :: rest =>
    unfold countBranches
    exact (countsOnly_count c).bind fun n => (countsOnly_countBranches rest).bind fun m => countsOnly_pure (toWord (n + m))

end

namespace Diagram

/-- The state of a filter, with a store that remembers nothing. -/
def FilterState.bare (f : FilterState K V) : FilterState K V := { f with store := f.store.bare }

/-- A part of a filter uses and changes the nodes of the store only. -/
def BlindFilter {α : Type} (x : FilterM ε K V α) : Prop :=
  ∀ f, x.run.run f.bare = ((x.run.run f).1, (x.run.run f).2.bare) ∧
    ∀ op, (x.run.run f).2.store.result? op = f.store.result? op

section Blind

variable {α β : Type}

private theorem blindFilter_pure (a : α) : BlindFilter (pure a : FilterM ε K V α) := fun _ => ⟨rfl, fun _ => rfl⟩

private theorem BlindFilter.bind {x : FilterM ε K V α} {g : α → FilterM ε K V β} (hx : BlindFilter x)
    (hg : ∀ a, BlindFilter (g a)) : BlindFilter (x >>= g) := by
  intro f
  obtain ⟨hrun, hresult⟩ := hx f
  rw [run_bind, run_bind, hrun]
  rcases hxf : x.run.run f with ⟨_ | a, f'⟩
  · rw [hxf] at hresult
    exact ⟨rfl, hresult⟩
  · rw [hxf] at hresult
    obtain ⟨hrun', hresult'⟩ := hg a f'
    exact ⟨hrun', fun op => (hresult' op).trans (hresult op)⟩

private theorem blindFilter_judge (test : Test ε K V) (chosen : List (K × V)) (d : Diagram K V) :
    BlindFilter (judge test chosen d) := by
  intro f
  rw [run_judge, run_judge]
  exact ⟨rfl, fun _ => rfl⟩

private theorem BlindFilter.rememberVerdict {x : FilterM ε K V (Diagram K V)} (hx : BlindFilter x) (i : Nat)
    (chosen : List (K × V)) : BlindFilter (Diagram.rememberVerdict i chosen x) := by
  intro f
  have hverdicts : f.bare.verdicts = f.verdicts := rfl
  obtain ⟨hrun, hresult⟩ := hx f
  rw [run_rememberVerdict, run_rememberVerdict, hverdicts]
  cases f.verdicts[matter i chosen]? with
  | some d => exact ⟨rfl, fun _ => rfl⟩
  | none =>
    rw [hrun]
    rcases hxf : x.run.run f with ⟨_ | d, f'⟩
    · rw [hxf] at hresult
      exact ⟨rfl, hresult⟩
    · rw [hxf] at hresult
      exact ⟨rfl, hresult⟩

private theorem BlindFilter.liftStore {x : StoreM K V α} (hx : Blind x) :
    BlindFilter (Diagram.liftStore x : FilterM ε K V α) := by
  intro f
  obtain ⟨hrun, hresult⟩ := hx f.store
  rw [run_liftStore, run_liftStore]
  have hstore : f.bare.store = f.store.bare := rfl
  rw [hstore, hrun]
  exact ⟨rfl, hresult⟩

end Blind

private theorem blindFilter_closed : FilterClosed fun {_} (x : FilterM ε K V _) => BlindFilter x where
  pure := blindFilter_pure
  bind hx hg := hx.bind hg
  judge := blindFilter_judge
  rememberVerdict hx i chosen := hx.rememberVerdict i chosen
  mkNode k take skip := .liftStore (blind_mkNode k take skip)

theorem blind_filter (keys : List K) (test : Test ε K V) (d : Diagram K V) : Blind (filter keys test d) := by
  intro s
  obtain ⟨hrun, hresult⟩ := blindFilter_closed.filterFrom keys test [] d { store := s }
  have hfilter : ∀ s : Store K V, (filter keys test d).run s =
      (⟨((filterFrom keys test [] d).run.run { store := s }).1,
        ((filterFrom keys test [] d).run.run { store := s }).2.calls.reverse⟩,
        ((filterFrom keys test [] d).run.run { store := s }).2.store) := fun _ => rfl
  have hstart : ({ store := s.bare } : FilterState K V) = FilterState.bare { store := s } := rfl
  rw [hfilter, hfilter, hstart, hrun]
  exact ⟨rfl, hresult⟩

end Diagram

/-! ### One call -/

/-- The call, computed without remembered results. -/
def Call.recompute : Call ε K V → StoreM K V (Answer ε K V)
  | .node k take skip => return .diagram (← mkNode k take skip)
  | .singleton m => return .diagram (← Diagram.singleton m)
  | .ofMaps ms => return .diagram (← Recompute.ofMaps ms)
  | .union a b => return .diagram (← Recompute.union a b)
  | .join a b => return .diagram (← Recompute.join a b)
  | .filter keys test d => return .filtered (← Diagram.filter keys test d)
  | .count d => return .number (toWord d.maps.length)
  | .clearCaches => return .done

def Call.isClear : Call ε K V → Bool
  | .clearCaches => true
  | _ => false

/-! ### Sequences of calls -/

/-- A call, with the type of the errors of its test. -/
abbrev AnyCall (K V : Type) := (ε : Type) × Call ε K V

abbrev AnyAnswer (K V : Type) := (ε : Type) × Answer ε K V

namespace Store

/-- The store after calls, one after another. -/
def after (s : Store K V) (l : List (AnyCall K V)) : Store K V := l.foldl (fun s c => (c.2.run.run s).2) s

/-- The answers to calls, one after another; those that clear the caches have none. -/
def answers (s : Store K V) : List (AnyCall K V) → List (AnyAnswer K V)
  | [] => []
  | c :: l =>
    if c.2.isClear then answers (c.2.run.run s).2 l
    else ⟨c.1, (c.2.run.run s).1⟩ :: answers (c.2.run.run s).2 l

/-- Each call is admissible in the store in which it is made. -/
def Admits (s : Store K V) : List (AnyCall K V) → Prop
  | [] => True
  | c :: l => c.2.Admissible s ∧ Admits (c.2.run.run s).2 l

variable {s s' : Store K V}

theorem admits_cons {c : Call ε K V} {l : List (AnyCall K V)} {a : Answer ε K V} (hc : c.Admissible s)
    (hrun : c.run.run s = (a, s')) (hl : s'.Admits l) : s.Admits (⟨ε, c⟩ :: l) := by
  refine ⟨hc, ?_⟩
  rwa [hrun]

theorem after_append (s : Store K V) (l l' : List (AnyCall K V)) : s.after (l ++ l') = (s.after l).after l' :=
  List.foldl_append

theorem admits_append {l l' : List (AnyCall K V)} : s.Admits (l ++ l') ↔ s.Admits l ∧ (s.after l).Admits l' := by
  induction l generalizing s with
  | nil => exact (iff_of_eq (true_and _)).symm
  | cons c l ih => exact (and_congr_right fun _ => ih).trans and_assoc.symm

theorem runs_after {l : List (AnyCall K V)} (h : s.Admits l) : Runs s (s.after l) := by
  induction l generalizing s with
  | nil => exact .refl s
  | cons c l ih => exact ((Runs.refl s).call c.2 h.1).trans (ih h.2)

end Store

/-! ### Sound stores -/

/-- In a sound store, the unique table finds what an earlier one has found. -/
theorem Store.Sound.extendsTo [Std.TransOrd K] {s s' : Store K V} (hs : s.Sound) (hs' : s'.Sound)
    (hg : s.Grows s') : s.ExtendsTo s' := by
  refine ⟨hg, fun p d hd => ?_⟩
  obtain ⟨hhas, hshape⟩ := (hs.unique_iff p d).1 hd
  exact (hs'.unique_iff p d).2 ⟨hhas.mono hg, hshape⟩

theorem Call.admissible_congr [Std.TransOrd K] {s s' : Store K V} {c : Call ε K V}
    (h : s'.nodes = s.nodes) : c.Admissible s' ↔ c.Admissible s :=
  ⟨fun hc => hc.mono (grows_of_nodes_eq h.symm), fun hc => hc.mono (grows_of_nodes_eq h)⟩

variable [Std.TransOrd K] [Std.LawfulEqOrd K] [Std.TransOrd V] [Std.LawfulEqOrd V] {s s' : Store K V}

theorem Call.mirrors {c : Call ε K V} (hs : s.Sound) (hf : s.Faithful) (hc : c.Admissible s) :
    Mirrors c.run c.recompute s := by
  have hreturn : ∀ {α : Type} {x y : StoreM K V α} (g : α → Answer ε K V), Mirrors x y s →
      Mirrors (do return g (← x)) (do return g (← y)) s :=
    fun g h => h.bind fun a _ _ hf' => mirrors_pure hf' (g a)
  cases c with
  | node k take skip => exact hreturn .diagram (mirrors_mkNode hf k take skip)
  | singleton m => exact hreturn .diagram (mirrors_singleton hf m)
  | ofMaps ms => exact hreturn .diagram (mirrors_ofMaps hs hf hc)
  | union a b => exact hreturn .diagram (mirrors_union hs hf hc.1 hc.2)
  | join a b => exact hreturn .diagram (mirrors_join hs hf hc.1 hc.2)
  | filter keys test d =>
    obtain ⟨hg, hs', -⟩ := ensures_filter keys test hs hc
    exact hreturn .filtered ((blind_filter keys test d).mirrors hf (hs.extendsTo hs' hg))
  | count d =>
    obtain ⟨hg, hs', hlen⟩ := ensures_count d s hs hc
    obtain ⟨hbare, hresult⟩ := countsOnly_count d s
    have hmirrors : Mirrors (Diagram.count d) (pure (toWord d.maps.length)) s := by
      refine ⟨?_, hf.mono (hs.extendsTo hs' hg) hresult⟩
      rw [hlen, hbare]
      rfl
    exact hreturn .number hmirrors
  | clearCaches =>
    refine ⟨rfl, faithful_of_forgotten fun op p => ?_⟩
    change s.clearCaches.result? op p = none
    cases op <;> simp [Store.clearCaches, Store.result?]

/-! ### The answers without the calls that clear the caches -/

namespace Store

/-- Calls that are admissible in a store can be made there one after another, in any order. -/
theorem admits_of_forall {l : List (AnyCall K V)} (hs : s.Sound) (h : ∀ c ∈ l, c.2.Admissible s) : s.Admits l := by
  induction l generalizing s with
  | nil => exact trivial
  | cons c l ih =>
    have hc := h c List.mem_cons_self
    obtain ⟨hg, hs', -⟩ := Call.ensures hs hc
    exact ⟨hc, ih hs' fun d hd => (h d (List.mem_cons_of_mem c hd)).mono hg⟩

/-- The calls of a sequence that do not clear the caches. -/
def proper (l : List (AnyCall K V)) : List (AnyCall K V) := l.filter fun c => !c.2.isClear

/-- One call in two stores with the same nodes. -/
private theorem run_of_bare_eq {t : Store K V} {c : Call ε K V} (hs : s.Sound ∧ s.Faithful) (ht : t.Sound ∧ t.Faithful)
    (hbare : s.bare = t.bare) (hc : c.Admissible s) :
    (c.run.run s).1 = (c.run.run t).1 ∧ (c.run.run s).2.bare = (c.run.run t).2.bare ∧
      ((c.run.run s).2.Sound ∧ (c.run.run s).2.Faithful) ∧ (c.run.run t).2.Sound ∧ (c.run.run t).2.Faithful := by
  have hct : c.Admissible t := (Call.admissible_congr (nodes_eq_of_bare_eq hbare)).1 hc
  obtain ⟨hrun, hfaithful⟩ := Call.mirrors hs.1 hs.2 hc
  obtain ⟨hrun', hfaithful'⟩ := Call.mirrors ht.1 ht.2 hct
  rw [hbare, hrun'] at hrun
  obtain ⟨hanswer, hstore⟩ := Prod.mk.inj hrun
  exact ⟨hanswer.symm, hstore.symm, ⟨(Call.ensures hs.1 hc).2.1, hfaithful⟩, (Call.ensures ht.1 hct).2.1, hfaithful'⟩

/-- Without the calls that clear the caches, a sequence has the same answers and makes the same nodes. -/
private theorem answers_proper {t : Store K V} (l : List (AnyCall K V)) (hs : s.Sound ∧ s.Faithful)
    (ht : t.Sound ∧ t.Faithful) (hbare : s.bare = t.bare) :
    (s.Admits l ↔ t.Admits (proper l)) ∧
      (s.Admits l → s.answers l = t.answers (proper l) ∧ (s.after l).bare = (t.after (proper l)).bare) := by
  induction l generalizing s t with
  | nil => exact ⟨Iff.rfl, fun _ => ⟨rfl, hbare⟩⟩
  | cons c l ih =>
    obtain ⟨ε, c⟩ := c
    by_cases hclear : c.isClear
    · -- clearing is always admissible, and leaves the nodes as they are
      have hproper : proper (⟨ε, c⟩ :: l) = proper l := List.filter_cons_of_neg (by simp [hclear])
      have hstep : c.Admissible s ∧ (c.run.run s).2.bare = s.bare := by
        cases c with
        | clearCaches => exact ⟨trivial, rfl⟩
        | _ => cases hclear
      have hnext := (Call.mirrors hs.1 hs.2 hstep.1).2
      obtain ⟨hiff, hsame⟩ := ih ⟨(Call.ensures hs.1 hstep.1).2.1, hnext⟩ ht (hstep.2.trans hbare)
      rw [hproper]
      refine ⟨⟨fun h => hiff.1 h.2, fun h => ⟨hstep.1, hiff.2 h⟩⟩, fun h => ?_⟩
      have hanswers : s.answers (⟨ε, c⟩ :: l) = (c.run.run s).2.answers l := if_pos hclear
      rw [hanswers]
      exact hsame h.2
    · have hproper : proper (⟨ε, c⟩ :: l) = ⟨ε, c⟩ :: proper l := List.filter_cons_of_pos (by simp [hclear])
      have hadmissible : c.Admissible s ↔ c.Admissible t := Call.admissible_congr (nodes_eq_of_bare_eq hbare)
      have hanswers : ∀ (s : Store K V) (l : List (AnyCall K V)),
          s.answers (⟨ε, c⟩ :: l) = ⟨ε, (c.run.run s).1⟩ :: (c.run.run s).2.answers l := fun s l => if_neg hclear
      rw [hproper]
      by_cases hc : c.Admissible s
      · obtain ⟨hanswer, hbare', hs', ht'⟩ := run_of_bare_eq hs ht hbare hc
        obtain ⟨hiff, hsame⟩ := ih hs' ht' hbare'
        refine ⟨and_congr hadmissible hiff, fun h => ?_⟩
        rw [hanswers, hanswers, hanswer, (hsame h.2).1]
        exact ⟨rfl, (hsame h.2).2⟩
      · exact ⟨⟨fun h => absurd h.1 hc, fun h => absurd (hadmissible.2 h.1) hc⟩, fun h => absurd h.1 hc⟩

/-- Where the caches are cleared makes no difference: two sequences with the same calls otherwise are both admissible on
an empty store or both not, their calls have the same answers, and they leave the same table of nodes. -/
theorem answers_eq_of_clearing {l l' : List (AnyCall K V)} (hl : ({} : Store K V).Admits l)
    (h : proper l = proper l') :
    ({} : Store K V).Admits l' ∧ ({} : Store K V).answers l = ({} : Store K V).answers l' ∧
      (({} : Store K V).after l).nodes = (({} : Store K V).after l').nodes ∧
      (({} : Store K V).after l).unique = (({} : Store K V).after l').unique := by
  have hempty : ({} : Store K V).Sound ∧ ({} : Store K V).Faithful := by
    refine ⟨sound_empty, faithful_of_forgotten fun op p => ?_⟩
    cases op <;> simp [result?]
  obtain ⟨hiff, hsame⟩ := answers_proper l hempty hempty rfl
  obtain ⟨hiff', hsame'⟩ := answers_proper l' hempty hempty rfl
  rw [h] at hiff hsame
  have hl' := hiff'.2 (hiff.1 hl)
  obtain ⟨hanswers, hbare⟩ := hsame hl
  obtain ⟨hanswers', hbare'⟩ := hsame' hl'
  have hstores := hbare.trans hbare'.symm
  exact ⟨hl', hanswers.trans hanswers'.symm, nodes_eq_of_bare_eq hstores, unique_eq_of_bare_eq hstores⟩

/-- Two joins of the same diagrams and a count, with the caches cleared in between or never. -/
theorem answers_eq_of_clearing_join :
    let x := (ofMaps [[(1, 2)], [(2, 4)]]).run ({} : Store Nat Nat)
    let y := (ofMaps [[(1, 2), (2, 5)], [(3, 4)]]).run x.2
    let call (c : Call Empty Nat Nat) : AnyCall Nat Nat := ⟨Empty, c⟩
    let made := [call (.ofMaps [[(1, 2)], [(2, 4)]]), call (.ofMaps [[(1, 2), (2, 5)], [(3, 4)]])]
    let once := made ++ [call (.join x.1 y.1), call (.join y.1 x.1), call (.count x.1)]
    let cleared := made ++ [call .clearCaches, call (.join x.1 y.1), call .clearCaches, call (.join y.1 x.1),
      call (.count x.1)]
    (({} : Store Nat Nat).after once).nodes.size = 10 ∧
      ({} : Store Nat Nat).answers once = ({} : Store Nat Nat).answers cleared ∧
      (({} : Store Nat Nat).after once).nodes = (({} : Store Nat Nat).after cleared).nodes := by
  intro x y call made once cleared
  have hsize : (({} : Store Nat Nat).after once).nodes.size = 10 := by decide +kernel
  have hadmits : ({} : Store Nat Nat).Admits once := by
    have hx : (ofMaps _).run _ = x := rfl
    have hy : (ofMaps _).run _ = y := rfl
    clear hsize
    clear_value x y
    have hkx : ∀ l ∈ [[(1, 2)], [(2, 4)]], (l.map (Prod.fst : Nat × Nat → Nat)).Nodup := by decide
    have hky : ∀ l ∈ [[(1, 2), (2, 5)], [(3, 4)]], (l.map (Prod.fst : Nat × Nat → Nat)).Nodup := by decide
    obtain ⟨hrx, -, hx'⟩ := (Runs.refl {}).of_run (.ofMaps _ : Call Empty Nat Nat) hkx rfl hx
    obtain ⟨hry, hxy, hy'⟩ := hrx.of_run (.ofMaps _ : Call Empty Nat Nat) hky rfl hy
    have ha := (hx' _ rfl).mono hxy
    have hb := hy' _ rfl
    -- the operands are still there after each join
    have hjoin : ∀ {s : Store Nat Nat} {d e : Diagram Nat Nat}, s.Sound → s.Has d → s.Has e →
        s.Grows ((Call.join d e : Call Empty Nat Nat).run.run s).2 ∧
          ((Call.join d e : Call Empty Nat Nat).run.run s).2.Sound := by
      intro s d e hs hd he
      obtain ⟨hg, hs', -⟩ := Call.ensures (c := (.join d e : Call Empty Nat Nat)) hs ⟨hd, he⟩
      exact ⟨hg, hs'⟩
    obtain ⟨hg, hs⟩ := hjoin hry.sound ha hb
    obtain ⟨hg', -⟩ := hjoin hs (hb.mono hg) (ha.mono hg)
    refine admits_cons hkx (run_bind_of_run hx) (admits_cons hky (run_bind_of_run hy) ⟨⟨ha, hb⟩, ?_, ?_, trivial⟩)
    · exact ⟨hb.mono hg, ha.mono hg⟩
    · exact (ha.mono hg).mono hg'
  have hproper : proper once = proper cleared := rfl
  obtain ⟨-, hanswers, hnodes, -⟩ := answers_eq_of_clearing hadmits hproper
  exact ⟨hsize, hanswers, hnodes⟩

end Store

end TokenNet
