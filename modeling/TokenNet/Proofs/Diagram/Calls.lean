import TokenNet.Proofs.Diagram.LookupFilter

/-!
# Sequences of calls

`Runs s s'` says that calls of the operations, in any order, lead from the store `s` to the store `s'`.  Each call has to
meet the conditions of its operation, `Call.Admissible`: its operands are diagrams of the store, the maps it is given
bind no key twice, and the parts of a node it is given fit together.

Every call keeps a store sound, so all stores that calls lead to are: `Runs.sound`.  What that means for the table of
nodes is `Runs.canonical`.
-/

namespace TokenNet

open Diagram Store

/-- A call of an operation; tests fail with errors of type `ε`. -/
inductive Call (ε K V : Type) where
  | node (k : K) (take : List (V × Diagram K V)) (skip : Diagram K V)
  | singleton (m : List (K × V))
  | ofMaps (ms : List (List (K × V)))
  | union (a b : Diagram K V)
  | join (a b : Diagram K V)
  | filter (keys : List K) (test : Test ε K V) (d : Diagram K V)
  | count (d : Diagram K V)
  | clearCaches

/-- What a call returns. -/
inductive Answer (ε K V : Type) where
  | diagram (d : Diagram K V)
  | filtered (r : Filtered ε K V)
  | number (n : Nat)
  | done

variable {ε K V : Type}

/-- The diagram that a call returns, if it returns one. -/
def Answer.diagram? : Answer ε K V → Option (Diagram K V)
  | .diagram d => some d
  | .filtered r => r.result.toOption
  | _ => none

namespace Call

variable [Ord K] [Ord V]

def run : Call ε K V → StoreM K V (Answer ε K V)
  | .node k take skip => return .diagram (← mkNode k take skip)
  | .singleton m => return .diagram (← Diagram.singleton m)
  | .ofMaps ms => return .diagram (← Diagram.ofMaps ms)
  | .union a b => return .diagram (← Diagram.union a b)
  | .join a b => return .diagram (← Diagram.join a b)
  | .filter keys test d => return .filtered (← Diagram.filter keys test d)
  | .count d => return .number (← Diagram.count d)
  | .clearCaches => do
    modify Store.clearCaches
    return .done

/-- The call, with every node looked up in the table. -/
def runOnTable : Call ε K V → TableM K V (Answer ε K V)
  | .node k take skip => return .diagram (← Table.mkNode k take skip)
  | .singleton m => return .diagram (← Table.singleton m)
  | .ofMaps ms => return .diagram (← Table.ofMaps ms)
  | .union a b => return .diagram (← Table.union a b)
  | .join a b => return .diagram (← Table.join a b)
  | .filter keys test d => return .filtered (← Table.filter keys test d)
  | .count d => return .number (← Table.count d)
  | .clearCaches => do
    monadLift (modify Store.clearCaches : StoreM K V Unit)
    return .done

/-- What a call relies on. -/
def Admissible (s : Store K V) : Call ε K V → Prop
  | .node k take skip => s.Accepts k take skip
  | .singleton m => (m.map Prod.fst).Nodup
  | .ofMaps ms => ∀ m ∈ ms, (m.map Prod.fst).Nodup
  | .union a b => s.Has a ∧ s.Has b
  | .join a b => s.Has a ∧ s.Has b
  | .filter _ _ d => s.Has d
  | .count d => s.Has d
  | .clearCaches => True

theorem Admissible.mono [Std.TransOrd K] {s s' : Store K V} {c : Call ε K V} (hc : c.Admissible s)
    (hg : s.Grows s') : c.Admissible s' := by
  cases c with
  | node k take skip =>
    exact ⟨hc.distinct, fun b hb => (hc.branch_has b hb).mono hg, hc.branch_above, hc.skip_has.mono hg, hc.skip_above⟩
  | union a b => exact ⟨hc.1.mono hg, hc.2.mono hg⟩
  | join a b => exact ⟨hc.1.mono hg, hc.2.mono hg⟩
  | filter keys test d => exact Has.mono hc hg
  | count d => exact Has.mono hc hg
  | _ => exact hc

end Call

namespace Store

variable [Ord K] [Ord V]

/-- Calls lead from one store to another. -/
inductive Runs : Store K V → Store K V → Prop where
  | refl (s : Store K V) : Runs s s
  | call {s s' : Store K V} {ε : Type} (h : Runs s s') (c : Call ε K V) (hc : c.Admissible s') :
      Runs s (c.run.run s').2

theorem Runs.trans {s s' s'' : Store K V} (h : Runs s s') (h' : Runs s' s'') : Runs s s'' := by
  induction h' with
  | refl => exact h
  | call _ c hc ih => exact ih.call c hc

end Store

variable [Ord K] [Ord V] [Std.TransOrd K] [Std.LawfulEqOrd K] [Std.TransOrd V] [Std.LawfulEqOrd V] {s s' : Store K V}

/-! ### One call -/

/-- A call keeps a store sound, and a diagram that it returns is one of the store. -/
theorem Call.ensures {c : Call ε K V} (hs : s.Sound) (hc : c.Admissible s) :
    Ensures c.run s fun a s' => ∀ d, a.diagram? = some d → s'.Has d := by
  have hreturn : ∀ {x : StoreM K V (Diagram K V)} {P : Diagram K V → Prop},
      Ensures x s (fun d s' => s'.Has d ∧ P d) →
      Ensures (do return .diagram (← x)) s fun (a : Answer ε K V) s' => ∀ d, a.diagram? = some d → s'.Has d := by
    intro x P h
    refine h.bind fun d s' _ hs' hd => .pure hs' ?_
    rintro _ ⟨⟩
    exact hd.1
  cases c with
  | node k take skip => exact hreturn (ensures_mkNode hs hc)
  | singleton m => exact hreturn (ensures_singleton hs hc)
  | ofMaps ms => exact hreturn (ensures_ofMaps hs hc)
  | union a b => exact hreturn (ensures_union hs hc.1 hc.2)
  | join a b => exact hreturn (ensures_join hs hc.1 hc.2)
  | filter keys test d =>
    refine (ensures_filter keys test hs hc).bind fun r s' _ hs' ⟨_, hd, _⟩ => .pure hs' fun d' hd' => hd d' ?_
    rcases r with ⟨_ | d, calls⟩
    · cases hd'
    · cases hd'
      rfl
  | count d => exact (ensures_count d s hs hc).bind fun n s' _ hs' _ => .pure hs' nofun
  | clearCaches =>
    exact (ensures_modify (grows_of_nodes_eq rfl) hs.clearCaches).bind fun _ s' _ hs' _ => .pure hs' nofun

/-- Every lookup that a call makes finds a node. -/
theorem Call.follows {c : Call ε K V} (hs : s.Sound) (hc : c.Admissible s) : Follows c.runOnTable c.run s := by
  cases c with
  | node k take skip =>
    have hsound := (ensures_mkNode hs hc).2.1
    exact (follows_mkNode hs hc.branch_has hc.skip_has hsound).bind fun _ _ _ => follows_pure _
  | singleton m => exact (follows_singleton hs hc).bind fun _ _ _ => follows_pure _
  | ofMaps ms => exact (follows_ofMaps hs hc).bind fun _ _ _ => follows_pure _
  | union a b => exact (follows_union hs hc.1 hc.2).bind fun _ _ _ => follows_pure _
  | join a b => exact (follows_join hs hc.1 hc.2).bind fun _ _ _ => follows_pure _
  | filter keys test d => exact (follows_filter keys test hs hc).bind fun _ _ _ => follows_pure _
  | count d => exact (follows_count hs hc).bind fun _ _ _ => follows_pure _
  | clearCaches => exact (follows_monadLift _).bind fun _ _ _ => follows_pure _

/-! ### Any number of calls -/

theorem Store.Runs.sound_grows (h : Runs s s') (hs : s.Sound) : s'.Sound ∧ s.Grows s' := by
  induction h with
  | refl => exact ⟨hs, .refl _⟩
  | call _ c hc ih =>
    obtain ⟨hg, hs', -⟩ := Call.ensures ih.1 hc
    exact ⟨hs', ih.2.trans hg⟩

theorem Store.Runs.sound (h : Runs {} s) : s.Sound := (h.sound_grows sound_empty).1

/-- After any calls on an empty store: the unique table holds the nodes of the table, each under its shape, and no two of
them have the same shape; every node fits its place; a further call looks up nodes only, makes them of parts that fit,
and returns diagrams of the store; no diagram changes; and two diagrams have the same index if and only if they denote
the same maps. -/
theorem Store.Runs.canonical (h : Runs {} s) :
    ((∀ p d, s.unique[p]? = some d ↔ ∃ i, s.nodes[i]? = some d ∧ d.index = i + 2 ∧ d.shape? = some p) ∧
      ∀ (i j : Nat) (d e : Diagram K V), s.nodes[i]? = some d → s.nodes[j]? = some e → d.shape? = e.shape? → i = j) ∧
    (∀ i d, s.nodes[i]? = some d → ∃ k take skip, d = .node (i + 2) k take skip ∧ s.Fits (i + 2) k take skip) ∧
    (∀ (ε : Type) (c : Call ε K V), c.Admissible s →
      c.runOnTable.run.run s = (some (c.run.run s).1, (c.run.run s).2) ∧
      ∀ d, (c.run.run s).1.diagram? = some d → (c.run.run s).2.Has d) ∧
    (∀ s', Runs s s' → ∀ i d, s.diagram? i = some d → s'.diagram? i = some d) ∧
    ∀ a b, s.Has a → s.Has b → (a.index = b.index ↔ ∀ m, m ∈ a ↔ m ∈ b) := by
  have hs := h.sound
  have hunique : ∀ p d, s.unique[p]? = some d ↔ ∃ i, s.nodes[i]? = some d ∧ d.index = i + 2 ∧ d.shape? = some p := by
    intro p d
    rw [hs.unique_iff]
    constructor
    · rintro ⟨hd, hp⟩
      cases d with
      | node i k take skip =>
        have hi := two_le_of_has hd
        obtain ⟨j, rfl⟩ : ∃ j, i = j + 2 := ⟨i - 2, by omega⟩
        exact ⟨j, hd, rfl, hp⟩
      | _ => cases hp
    · rintro ⟨i, hd, hi, hp⟩
      refine ⟨?_, hp⟩
      unfold Has
      rw [hi]
      exact hd
  refine ⟨⟨hunique, fun i j d e hd he hshape => ?_⟩, hs.fits, fun ε c hc => ?_, fun s' hs' => ?_, fun a b ha hb => ?_⟩
  · obtain ⟨k, take, skip, rfl, -⟩ := hs.fits i d hd
    obtain ⟨l, take', skip', rfl, -⟩ := hs.fits j e he
    have hd' := (hunique _ _).2 ⟨i, hd, rfl, rfl⟩
    have he' := (hunique _ _).2 ⟨j, he, rfl, hshape.symm⟩
    have heq := congrArg index (Option.some.inj (hd'.symm.trans he'))
    simp only [index_node] at heq
    omega
  · exact ⟨Call.follows hs hc, (Call.ensures hs hc).2.2⟩
  · exact (hs'.sound_grows hs).2
  · constructor
    · intro hab m
      rw [ha.eq_of_index hb hab]
    · exact fun hm => congrArg index (hs.eq_of_mem_iff ha hb hm)

theorem Store.Runs.canonical_two_maps :
    let s := ((Call.ofMaps [[(1, 2)], []] : Call Empty Nat Nat).run.run {}).2
    s.nodes.size = 2 ∧ ∀ a b, s.Has a → s.Has b → (a.index = b.index ↔ ∀ m, m ∈ a ↔ m ∈ b) := by
  refine ⟨by decide +kernel, ?_⟩
  exact (Store.Runs.canonical (.call (.refl _) _ (by simp [Call.Admissible]))).2.2.2.2

end TokenNet
