import TokenNet.Proofs.Diagram.Lookup
import TokenNet.Proofs.Diagram.Recomputing
import TokenNet.Proofs.Diagram.Steps

/-!
# Remembered results are what computing anew returns

A store is `Faithful` if each result that it remembers is what the operation, computed anew here or in a later store,
returns without making a node.  `Mirrors x y s` says that `y`, started without remembered results, does to the nodes
what `x` does that uses them, and that `x` leaves a faithful store.

A remembered result that `x` finds has no part in the nodes: `y` computes it anew and makes none.  A result that `x`
adds has just been mirrored, and recomputing is steady, so it is faithful from then on.  This is `mirrors_memoized`,
on which `mirrors_union` and `mirrors_join` rest.
-/

namespace TokenNet

open Diagram Store

variable {K V : Type} [Ord K] [Ord V]

/-- Each remembered result is what the operation returns when it is computed anew, without making a node. -/
def Store.Faithful (s : Store K V) : Prop :=
  ∀ (op : Operation) (p : Nat × Nat) (d : Diagram K V), s.result? op p = some d → ∃ a b,
    s.diagram? p.1 = some a ∧ s.diagram? p.2 = some b ∧
    ∀ n, p.1 + p.2 < n → ∀ s', s.ExtendsTo s' → (Recompute.below op n a b).run s' = (d, s')

theorem Store.Faithful.mono [Std.TransOrd K] {s s' : Store K V} (hf : s.Faithful) (hext : s.ExtendsTo s')
    (hr : ∀ op, s'.result? op = s.result? op) : s'.Faithful := by
  intro op p d hd
  rw [hr] at hd
  obtain ⟨a, b, ha, hb, hagain⟩ := hf op p d hd
  exact ⟨a, b, hext.grows _ _ ha, hext.grows _ _ hb, fun n hn s'' hs'' => hagain n hn s'' (hext.trans hs'')⟩

theorem Store.Faithful.hit [Std.TransOrd K] {s : Store K V} (hf : s.Faithful) : s.hit.Faithful :=
  hf.mono (extendsTo_of_eq rfl rfl) fun op => by cases op <;> rfl

theorem Store.Faithful.miss [Std.TransOrd K] {s : Store K V} (hf : s.Faithful) : s.miss.Faithful :=
  hf.mono (extendsTo_of_eq rfl rfl) fun op => by cases op <;> rfl

theorem Store.faithful_of_forgotten {s : Store K V} (h : ∀ op p, s.result? op p = none) : s.Faithful := by
  intro op p d hd
  rw [h] at hd
  cases hd

/-! ### Mirroring a computation -/

/-- Without the remembered results of `s`, the computation `y` does what `x` does; and `x` leaves a faithful store. -/
def Mirrors {α : Type} (x y : StoreM K V α) (s : Store K V) : Prop :=
  y.run s.bare = ((x.run s).1, (x.run s).2.bare) ∧ (x.run s).2.Faithful

/-- The computation uses and changes the nodes of a store only. -/
def Blind {α : Type} (x : StoreM K V α) : Prop :=
  ∀ s, x.run s.bare = ((x.run s).1, (x.run s).2.bare) ∧ ∀ op, (x.run s).2.result? op = s.result? op

section Mirrors

variable {α β : Type} {s : Store K V}

theorem mirrors_pure (hf : s.Faithful) (a : α) : Mirrors (pure a) (pure a) s := ⟨rfl, hf⟩

theorem Mirrors.bind {x y : StoreM K V α} {f g : α → StoreM K V β} (h : Mirrors x y s)
    (hfg : ∀ a s', x.run s = (a, s') → s'.Faithful → Mirrors (f a) (g a) s') : Mirrors (x >>= f) (y >>= g) s := by
  obtain ⟨hrun, hfaithful⟩ := h
  have hrest := hfg _ _ rfl hfaithful
  unfold Mirrors at hrest ⊢
  rw [run_bind_of_run hrun, StateT.run_bind]
  exact hrest

variable [Std.TransOrd K]

/-- A computation that uses the nodes only mirrors itself. -/
theorem Blind.mirrors {x : StoreM K V α} (hx : Blind x) (hf : s.Faithful) (hext : s.ExtendsTo (x.run s).2) :
    Mirrors x x s :=
  ⟨(hx s).1, hf.mono hext (hx s).2⟩

theorem mirrors_mapM {f g : α → StoreM K V β} {P : β → Store K V → Prop} {l : List α} (hs : s.Sound) (hf : s.Faithful)
    (hfg : ∀ a ∈ l, ∀ s', s.Grows s' → s'.Sound → (s'.Faithful → Mirrors (f a) (g a) s') ∧ Ensures (f a) s' P) :
    Mirrors (l.mapM f) (l.mapM g) s := by
  induction l generalizing s with
  | nil =>
    rw [List.mapM_nil, List.mapM_nil]
    exact mirrors_pure hf []
  | cons a l ih =>
    rw [List.mapM_cons, List.mapM_cons]
    obtain ⟨hmirrors, hensures⟩ := hfg a List.mem_cons_self s (.refl s) hs
    refine (hmirrors hf).bind fun b s' hrun hf' => ?_
    obtain ⟨hg, hs', -⟩ := hensures.of_run hrun
    refine (ih hs' hf' fun c hc s'' hg' => hfg c (List.mem_cons_of_mem a hc) s'' (hg.trans hg')).bind ?_
    exact fun r s'' _ hf'' => mirrors_pure hf'' (b :: r)

end Mirrors

variable {s : Store K V}

/-! ### Remembering results -/

theorem run_memoized_some {op : Operation} {f : Diagram K V → Diagram K V → StoreM K V (Diagram K V)}
    {a b x y d : Diagram K V} (hxy : ordered a b = (x, y)) (hd : s.result? op (x.index, y.index) = some d) :
    (memoized op f a b).run s = (d, s.hit) := by
  have hget : (get : StoreM K V (Store K V)).run s = (s, s) := rfl
  unfold memoized
  rw [hxy]
  dsimp only
  rw [run_bind_of_run hget, hd]
  rfl

theorem run_memoized_none {op : Operation} {f : Diagram K V → Diagram K V → StoreM K V (Diagram K V)}
    {a b x y : Diagram K V} (hxy : ordered a b = (x, y)) (hd : s.result? op (x.index, y.index) = none) :
    (memoized op f a b).run s = (((f x y).run s.miss).1,
      ((f x y).run s.miss).2.remember op (x.index, y.index) ((f x y).run s.miss).1) := by
  have hget : (get : StoreM K V (Store K V)).run s = (s, s) := rfl
  unfold memoized
  rw [hxy]
  dsimp only
  rw [run_bind_of_run hget, hd]
  rfl

private theorem bare_remember (s : Store K V) (op : Operation) (p : Nat × Nat) (d : Diagram K V) :
    (s.remember op p d).bare = s.bare := by
  cases op <;> rfl

/-- Two diagrams in the order in which they are operated on. -/
private theorem exists_ordered {a b : Diagram K V} (ha : s.Has a) (hb : s.Has b) :
    ∃ x y, ordered a b = (x, y) ∧ ordered x y = (x, y) ∧ (x = a ∧ y = b ∨ x = b ∧ y = a) := by
  by_cases hlt : a.index < b.index
  · have h : ordered a b = (a, b) := if_pos hlt
    exact ⟨a, b, h, h, .inl ⟨rfl, rfl⟩⟩
  · have h : ordered a b = (b, a) := if_neg hlt
    refine ⟨b, a, h, ?_, .inr ⟨rfl, rfl⟩⟩
    by_cases hlt' : b.index < a.index
    · exact if_pos hlt'
    · obtain rfl := ha.eq_of_index hb (by omega)
      exact h

/-! ### Making nodes -/

theorem blind_mkNode (k : K) (take : List (V × Diagram K V)) (skip : Diagram K V) : Blind (mkNode k take skip) := by
  intro s
  have hbare : s.bare.unique = s.unique := rfl
  rw [run_mkNode, run_mkNode, hbare]
  by_cases ht : (tidy take).isEmpty
  · rw [if_pos ht, if_pos ht]
    exact ⟨rfl, fun _ => rfl⟩
  · rw [if_neg ht, if_neg ht]
    cases s.unique[shape k (tidy take) skip]? with
    | some d => exact ⟨rfl, fun _ => rfl⟩
    | none => exact ⟨rfl, fun op => by cases op <;> rfl⟩

variable [Std.TransOrd K] [Std.LawfulEqOrd K] [Std.TransOrd V] [Std.LawfulEqOrd V]

theorem mirrors_mkNode (hf : s.Faithful) (k : K) (take : List (V × Diagram K V)) (skip : Diagram K V) :
    Mirrors (mkNode k take skip) (mkNode k take skip) s :=
  (blind_mkNode k take skip).mirrors hf (steady_mkNode k take skip s).1

/-- A node whose skip diagram is computed. -/
private theorem Mirrors.mkNode {x y : StoreM K V (Diagram K V)} (h : Mirrors x y s) (k : K)
    (take : List (V × Diagram K V)) :
    Mirrors (do Diagram.mkNode k take (← x)) (do Diagram.mkNode k take (← y)) s :=
  h.bind fun d _ _ hf => mirrors_mkNode hf k take d

/-- A node whose branches are computed, and then its skip diagram. -/
private theorem mirrors_nodeOf {D : Type} {l : List (V × D)} {f g : V × D → StoreM K V (Diagram K V)}
    {x y : StoreM K V (Diagram K V)} {P : V × D → Diagram K V → Store K V → Prop} (k : K) (hs : s.Sound)
    (hf : s.Faithful)
    (hfg : ∀ c ∈ l, ∀ s', s.Grows s' → s'.Sound → (s'.Faithful → Mirrors (f c) (g c) s') ∧ Ensures (f c) s' (P c))
    (hxy : ∀ s', s.Grows s' → s'.Sound → s'.Faithful → Mirrors x y s') :
    Mirrors (nodeOf k l f x) (nodeOf k l g y) s := by
  have hbranch : ∀ c ∈ l, ∀ s', s.Grows s' → s'.Sound →
      (s'.Faithful → Mirrors (do return (c.1, ← f c)) (do return (c.1, ← g c)) s') ∧
      Ensures (do return (c.1, ← f c)) s' fun _ _ => True := by
    intro c hc s' hg hs'
    obtain ⟨hmirrors, hensures⟩ := hfg c hc s' hg hs'
    constructor
    · exact fun hf' => (hmirrors hf').bind fun d _ _ hf'' => mirrors_pure hf'' (c.1, d)
    · exact hensures.bind fun d _ _ hs'' _ => .pure hs'' trivial
  refine (mirrors_mapM hs hf hbranch).bind fun take s' hrun hf' => ?_
  have hmap := ensures_mapM_all (fun _ _ _ _ _ => trivial) hs fun c hc s' hg hs' => (hbranch c hc s' hg hs').2
  obtain ⟨hg, hs', -⟩ := hmap.of_run hrun
  exact (hxy s' hg hs' hf').mkNode k take

theorem mirrors_singleton (hf : s.Faithful) (m : List (K × V)) :
    Mirrors (Diagram.singleton m) (Diagram.singleton m) s := by
  unfold Diagram.singleton
  generalize sortMap m = l
  induction l with
  | nil => exact mirrors_pure hf emptyMap
  | cons e l ih =>
    rw [List.foldrM_cons]
    exact ih.bind fun d s' _ hf' => mirrors_mkNode hf' e.1 [(e.2, d)] emptySet

/-! ### Operations that remember -/

/-- If an operation is mirrored when its result is not remembered, it is mirrored. -/
theorem mirrors_memoized {op : Operation} {f : Diagram K V → Diagram K V → StoreM K V (Diagram K V)}
    {a b x y : Diagram K V} (hxy : ordered a b = (x, y)) (hf : s.Faithful) (hx : s.Has x) (hy : s.Has y)
    (hmiss : ∀ n, x.index + y.index < n → Mirrors (f x y) (Recompute.below op n x y) s.miss) {n : Nat}
    (hn : x.index + y.index < n) : Mirrors (memoized op f a b) (Recompute.below op n x y) s := by
  have hbare : ∀ s : Store K V, s.ExtendsTo s.bare := fun s => extendsTo_of_eq rfl rfl
  cases hd : s.result? op (x.index, y.index) with
  | some d =>
    obtain ⟨a', b', ha', hb', hagain⟩ := hf op _ d hd
    obtain rfl : x = a' := Option.some.inj (hx.symm.trans ha')
    obtain rfl : y = b' := Option.some.inj (hy.symm.trans hb')
    unfold Mirrors
    rw [run_memoized_some hxy hd, hagain n hn s.bare (hbare s)]
    exact ⟨rfl, hf.hit⟩
  | none =>
    obtain ⟨hrun, hfaithful⟩ := hmiss n hn
    have hsame : s.miss.bare = s.bare := rfl
    unfold Mirrors
    rw [run_memoized_none hxy hd, bare_remember, ← hsame]
    refine ⟨hrun, fun op' p d hp => ?_⟩
    rw [result?_remember] at hp
    have hext : ((f x y).run s.miss).2.ExtendsTo
        (((f x y).run s.miss).2.remember op (x.index, y.index) ((f x y).run s.miss).1) :=
      extendsTo_of_eq (remember_nodes _ op _ _) (by cases op <;> rfl)
    split at hp
    · -- the new result: the mirror has just computed it, and to compute it again changes nothing
      rename_i hop
      obtain ⟨rfl, rfl⟩ := hop
      obtain rfl : ((f x y).run s.miss).1 = d := Option.some.inj hp
      have hgrows : s.Grows ((f x y).run s.miss).2 := by
        have hsteady := (Recompute.steady_below op n x y s.bare).1.grows
        rw [← hsame, hrun] at hsteady
        exact fun i d hd => hsteady i d hd
      refine ⟨x, y, hext.grows _ _ (hgrows _ _ hx), hext.grows _ _ (hgrows _ _ hy), fun m hm s' hs' => ?_⟩
      have hagain := (Recompute.steady_below op m x y s.miss.bare).2 s'
      rw [(hmiss m hm).1] at hagain
      exact hagain ⟨(hext.trans hs').grows, (hext.trans hs').finds⟩
    · obtain ⟨a', b', ha', hb', hagain⟩ := hfaithful op' p d hp
      exact ⟨a', b', hext.grows _ _ ha', hext.grows _ _ hb', fun m hm s' hs' => hagain m hm s' (hext.trans hs')⟩

/-! ### The union -/

/-- What a step has to know of the operation on the diagrams below. -/
private abbrev Below (bound : Nat) (go go' : Diagram K V → Diagram K V → StoreM K V (Diagram K V))
    (R : Diagram K V → Diagram K V → Diagram K V → Store K V → Prop) (s : Store K V) : Prop :=
  ∀ x y s', s.Grows s' → s'.Sound → s'.Has x → s'.Has y → x.index + y.index < bound →
    (s'.Faithful → Mirrors (go x y) (go' x y) s') ∧ Ensures (go x y) s' (R x y)

private theorem mirrors_unionStep {go go' : Diagram K V → Diagram K V → StoreM K V (Diagram K V)} {a b : Diagram K V}
    (hs : s.Sound) (hf : s.Faithful) (ha : s.Has a) (hb : s.Has b)
    (hgo : Below (a.index + b.index) go go' UnionOf s) : Mirrors (unionStep go a b) (unionStep go' a b) s := by
  have hbelow : ∀ x y s', s.Grows s' → s'.Sound → Descends s a b x y →
      (s'.Faithful → Mirrors (go x y) (go' x y) s') ∧ Ensures (go x y) s' (UnionOf x y) :=
    fun x y s' hg hs' hxy => hgo x y s' hg hs' (hxy.left_has.mono hg) (hxy.right_has.mono hg) hxy.lt
  rcases unionStep_cases hs ha hb with h | ⟨k, t, x, y, hxy, h⟩ | ⟨k, l, q, r, hqr, hl, h⟩
  · rw [h, h]
    exact mirrors_pure hf a
  · rw [h, h]
    exact ((hbelow x y s (.refl s) hs hxy).1 hf).mkNode k t
  · rw [h, h]
    refine mirrors_nodeOf (P := fun _ _ _ => True) k hs hf (fun c hc s' hg hs' => ?_)
      fun s' hg hs' => (hbelow q r s' hg hs' hqr).1
    obtain ⟨v, e⟩ := c
    cases e with
    | left x => exact ⟨fun hf' => mirrors_pure hf' x, .pure hs' trivial⟩
    | right y => exact ⟨fun hf' => mirrors_pure hf' y, .pure hs' trivial⟩
    | both x y =>
      obtain ⟨hmirrors, hensures⟩ := hbelow x y s' hg hs' (hl v x y hc)
      exact ⟨hmirrors, hensures.imp fun _ _ _ _ _ => trivial⟩

theorem mirrors_unionBelow (n : Nat) {a b : Diagram K V} (hs : s.Sound) (hf : s.Faithful) (ha : s.Has a) (hb : s.Has b)
    (hn : a.index + b.index < n) {m : Nat} (hm : a.index + b.index < m) :
    Mirrors (unionBelow n a b) (Recompute.unionBelow m a b) s := by
  induction n generalizing a b s m with
  | zero => omega
  | succ n ih =>
    obtain ⟨m, rfl⟩ : ∃ m', m = m' + 1 := ⟨m - 1, by omega⟩
    unfold unionBelow Recompute.unionBelow
    by_cases hab : a.index = b.index
    · rw [if_pos hab, if_pos hab]
      exact mirrors_pure hf a
    · rw [if_neg hab, if_neg hab]
      by_cases ha0 : a.isEmptySet
      · rw [if_pos ha0, if_pos ha0]
        exact mirrors_pure hf b
      · rw [if_neg ha0, if_neg ha0]
        by_cases hb0 : b.isEmptySet
        · rw [if_pos hb0, if_pos hb0]
          exact mirrors_pure hf a
        · rw [if_neg hb0, if_neg hb0]
          obtain ⟨x, y, hxy, hself, hcase⟩ := exists_ordered ha hb
          -- in either order, both are diagrams of the store, neither of them the empty set
          have hx : s.Has x ∧ ¬ x.isEmptySet := by
            rcases hcase with ⟨rfl, -⟩ | ⟨rfl, -⟩
            · exact ⟨ha, ha0⟩
            · exact ⟨hb, hb0⟩
          have hy : s.Has y ∧ ¬ y.isEmptySet := by
            rcases hcase with ⟨-, rfl⟩ | ⟨-, rfl⟩
            · exact ⟨hb, hb0⟩
            · exact ⟨ha, ha0⟩
          have hindex : x.index ≠ y.index ∧ x.index + y.index = a.index + b.index := by
            rcases hcase with ⟨rfl, rfl⟩ | ⟨rfl, rfl⟩
            · exact ⟨hab, rfl⟩
            · exact ⟨Ne.symm hab, Nat.add_comm _ _⟩
          have hstep : ∀ m, Recompute.below .union (m + 1) x y = unionStep (Recompute.unionBelow m) x y := by
            intro m
            change Recompute.unionBelow (m + 1) x y = _
            unfold Recompute.unionBelow
            rw [if_neg hindex.1, if_neg hx.2, if_neg hy.2, hself]
          rw [hxy, ← hstep]
          refine mirrors_memoized hxy hf hx.1 hy.1 (fun m hm => ?_) (by omega)
          obtain ⟨m, rfl⟩ : ∃ m', m = m' + 1 := ⟨m - 1, by omega⟩
          rw [hstep]
          refine mirrors_unionStep hs.miss hf.miss hx.1 hy.1 fun x' y' s' _ hs' hx' hy' hlt => ⟨fun hf' => ?_, ?_⟩
          · exact ih hs' hf' hx' hy' (by omega) (by omega)
          · exact ensures_unionBelow n hs' hx' hy' (by omega)

theorem mirrors_union {a b : Diagram K V} (hs : s.Sound) (hf : s.Faithful) (ha : s.Has a) (hb : s.Has b) :
    Mirrors (Diagram.union a b) (Recompute.union a b) s :=
  mirrors_unionBelow _ hs hf ha hb (Nat.lt_succ_self _) (Nat.lt_succ_self _)

theorem mirrors_ofMaps {ms : List (List (K × V))} (hs : s.Sound) (hf : s.Faithful)
    (hms : ∀ l ∈ ms, (l.map Prod.fst).Nodup) : Mirrors (ofMaps ms) (Recompute.ofMaps ms) s := by
  unfold ofMaps Recompute.ofMaps
  have hd : s.Has (emptySet : Diagram K V) := has_emptySet
  generalize (emptySet : Diagram K V) = d at hd
  induction ms generalizing d s with
  | nil => exact mirrors_pure hf d
  | cons l ms ih =>
    have hl := hms l List.mem_cons_self
    rw [List.foldlM_cons, List.foldlM_cons]
    have hstep : Mirrors (do Diagram.union d (← Diagram.singleton l)) (do Recompute.union d (← Diagram.singleton l)) s ∧
        Ensures (do Diagram.union d (← Diagram.singleton l)) s fun e s' => s'.Has e := by
      constructor
      · refine (mirrors_singleton hf l).bind fun c s' hrun hf' => ?_
        obtain ⟨hg, hs', hc, -⟩ := (ensures_singleton hs hl).of_run hrun
        exact mirrors_union hs' hf' (hd.mono hg) hc
      · refine (ensures_singleton hs hl).bind fun c s' hg hs' hc => ?_
        exact (ensures_union hs' (hd.mono hg) hc.1).imp fun _ _ _ _ h => h.1
    refine hstep.1.bind fun e s' hrun hf' => ?_
    obtain ⟨-, hs', he⟩ := hstep.2.of_run hrun
    exact ih hs' hf' (fun l hl => hms l (List.mem_cons_of_mem _ hl)) e he

/-! ### The join -/

private theorem mirrors_joinMerged {go go' : Diagram K V → Diagram K V → StoreM K V (Diagram K V)} {q r : Diagram K V}
    {e : Merged (Diagram K V)} (hs : s.Sound) (hf : s.Faithful)
    (hgo : ∀ x y s', s.Grows s' → s'.Sound → JoinCall q r e x y →
      (s'.Faithful → Mirrors (go x y) (go' x y) s') ∧ Ensures (go x y) s' (JoinOf x y)) :
    Mirrors (joinMerged go q r e) (Recompute.joinMerged go' q r e) s := by
  cases e with
  | left x => exact (hgo x r s (.refl s) hs ⟨rfl, rfl⟩).1 hf
  | right y => exact (hgo q y s (.refl s) hs ⟨rfl, rfl⟩).1 hf
  | both x y =>
    unfold joinMerged Recompute.joinMerged
    obtain ⟨hm₁, he₁⟩ := hgo x y s (.refl s) hs (.inl ⟨rfl, rfl⟩)
    refine (hm₁ hf).bind fun both s₁ hrun hf₁ => ?_
    obtain ⟨hg₁, hs₁, hboth, -⟩ := he₁.of_run hrun
    obtain ⟨hm₂, he₂⟩ := hgo x r s₁ hg₁ hs₁ (.inr (.inl ⟨rfl, rfl⟩))
    refine (hm₂ hf₁).bind fun xr s₂ hrun hf₂ => ?_
    obtain ⟨hg₂, hs₂, hxr, -⟩ := he₂.of_run hrun
    refine (mirrors_union hs₂ hf₂ (hboth.mono hg₂) hxr).bind fun left s₃ hrun hf₃ => ?_
    obtain ⟨hg₃, hs₃, hleft, -⟩ := (ensures_union hs₂ (hboth.mono hg₂) hxr).of_run hrun
    obtain ⟨hm₄, he₄⟩ := hgo q y s₃ ((hg₁.trans hg₂).trans hg₃) hs₃ (.inr (.inr ⟨rfl, rfl⟩))
    refine (hm₄ hf₃).bind fun qy s₄ hrun hf₄ => ?_
    obtain ⟨hg₄, hs₄, hqy, -⟩ := he₄.of_run hrun
    exact mirrors_union hs₄ hf₄ (hleft.mono hg₄) hqy

private theorem mirrors_joinStep {go go' : Diagram K V → Diagram K V → StoreM K V (Diagram K V)} {i j : Nat} {k l : K}
    {t u : List (V × Diagram K V)} {q r : Diagram K V} (hs : s.Sound) (hf : s.Faithful) (ha : s.Has (node i k t q))
    (hb : s.Has (node j l u r)) (hgo : Below (i + j) go go' JoinOf s) :
    Mirrors (joinStep go (node i k t q) (node j l u r)) (Recompute.joinStep go' (node i k t q) (node j l u r)) s := by
  have hfa := hs.fits_of_has ha
  have hfb := hs.fits_of_has hb
  have hqi := hfa.skip_lt
  have hrj := hfb.skip_lt
  unfold joinStep Recompute.joinStep
  cases hkl : compare k l with
  | lt =>
    simp only [hkl]
    refine mirrors_nodeOf (f := fun c => go c.2 (node j l u r)) (g := fun c => go' c.2 (node j l u r))
      (P := fun c => JoinOf c.2 (node j l u r)) k hs hf (fun c hc s' hg hs' => ?_) fun s' hg hs' => ?_
    · have hci := hfa.branch_lt c hc
      exact hgo _ _ s' hg hs' ((hfa.branch_has c hc).mono hg) (hb.mono hg) (by simp only [index_node]; omega)
    · exact (hgo _ _ s' hg hs' (hfa.skip_has.mono hg) (hb.mono hg) (by simp only [index_node]; omega)).1
  | gt =>
    simp only [hkl]
    refine mirrors_nodeOf (f := fun c => go c.2 (node i k t q)) (g := fun c => go' c.2 (node i k t q))
      (P := fun c => JoinOf c.2 (node i k t q)) l hs hf (fun c hc s' hg hs' => ?_) fun s' hg hs' => ?_
    · have hcj := hfb.branch_lt c hc
      exact hgo _ _ s' hg hs' ((hfb.branch_has c hc).mono hg) (ha.mono hg) (by simp only [index_node]; omega)
    · exact (hgo _ _ s' hg hs' (hfb.skip_has.mono hg) (ha.mono hg) (by simp only [index_node]; omega)).1
  | eq =>
    simp only [hkl]
    refine mirrors_nodeOf (f := fun c => joinMerged go q r c.2) (g := fun c => Recompute.joinMerged go' q r c.2)
      (P := fun c d s' => s'.Has d ∧ ∀ m, m ∈ d ↔ JoinMerged q r c.2 m) k hs hf (fun c hc s' hg hs' => ?_)
      fun s' hg hs' => ?_
    · have hgo' := joinMerged_calls hfa hfb hc hgo
      constructor
      · exact fun hf' => mirrors_joinMerged hs' hf' fun x y s'' hg' => hgo' x y s'' (hg.trans hg')
      · exact ensures_joinMerged hs' fun x y s'' hg' hs'' hxy => (hgo' x y s'' (hg.trans hg') hs'' hxy).2
    · exact (hgo q r s' hg hs' (hfa.skip_has.mono hg) (hfb.skip_has.mono hg) (by omega)).1

theorem mirrors_joinBelow (n : Nat) {a b : Diagram K V} (hs : s.Sound) (hf : s.Faithful) (ha : s.Has a) (hb : s.Has b)
    (hn : a.index + b.index < n) {m : Nat} (hm : a.index + b.index < m) :
    Mirrors (joinBelow n a b) (Recompute.joinBelow m a b) s := by
  induction n generalizing a b s m with
  | zero => omega
  | succ n ih =>
    obtain ⟨m, rfl⟩ : ∃ m', m = m' + 1 := ⟨m - 1, by omega⟩
    match a, b with
    | .emptySet, b => exact mirrors_pure hf emptySet
    | .emptyMap, .emptySet => exact mirrors_pure hf emptySet
    | .node i k t q, .emptySet => exact mirrors_pure hf emptySet
    | .emptyMap, .emptyMap => exact mirrors_pure hf emptyMap
    | .emptyMap, .node j l u r => exact mirrors_pure hf _
    | .node i k t q, .emptyMap => exact mirrors_pure hf _
    | .node i k t q, .node j l u r =>
      simp only [index_node] at hn hm
      -- the two nodes in the order in which they are joined
      have hnodes : ∃ (i' j' : Nat) (k' l' : K) (t' u' : List (V × Diagram K V)) (q' r' : Diagram K V),
          ordered (node i k t q) (node j l u r) = (node i' k' t' q', node j' l' u' r') ∧
          ordered (node i' k' t' q') (node j' l' u' r') = (node i' k' t' q', node j' l' u' r') ∧
          s.Has (node i' k' t' q') ∧ s.Has (node j' l' u' r') ∧ i' + j' = i + j := by
        obtain ⟨x, y, hxy, hself, ⟨rfl, rfl⟩ | ⟨rfl, rfl⟩⟩ := exists_ordered ha hb
        · exact ⟨i, j, k, l, t, u, q, r, hxy, hself, ha, hb, rfl⟩
        · exact ⟨j, i, l, k, u, t, r, q, hxy, hself, hb, ha, Nat.add_comm j i⟩
      obtain ⟨i', j', k', l', t', u', q', r', hxy, hself, hx, hy, hindex⟩ := hnodes
      have hstep : ∀ m, Recompute.below .join (m + 1) (node i' k' t' q') (node j' l' u' r') =
          Recompute.joinStep (Recompute.joinBelow m) (node i' k' t' q') (node j' l' u' r') := by
        intro m
        change Recompute.joinStep _ (ordered _ _).1 (ordered _ _).2 = _
        rw [hself]
      change Mirrors (memoized .join (joinStep (joinBelow n)) _ _)
        (Recompute.joinStep (Recompute.joinBelow m) (ordered _ _).1 (ordered _ _).2) s
      rw [hxy, ← hstep]
      refine mirrors_memoized hxy hf hx hy (fun m hm => ?_) (by simp only [index_node]; omega)
      simp only [index_node] at hm
      obtain ⟨m, rfl⟩ : ∃ m', m = m' + 1 := ⟨m - 1, by omega⟩
      rw [hstep]
      refine mirrors_joinStep hs.miss hf.miss hx hy fun x' y' s' _ hs' hx' hy' hlt => ⟨fun hf' => ?_, ?_⟩
      · exact ih hs' hf' hx' hy' (by omega) (by omega)
      · exact ensures_joinBelow n hs' hx' hy' (by omega)

theorem mirrors_join {a b : Diagram K V} (hs : s.Sound) (hf : s.Faithful) (ha : s.Has a) (hb : s.Has b) :
    Mirrors (Diagram.join a b) (Recompute.join a b) s :=
  mirrors_joinBelow _ hs hf ha hb (Nat.lt_succ_self _) (Nat.lt_succ_self _)

end TokenNet
