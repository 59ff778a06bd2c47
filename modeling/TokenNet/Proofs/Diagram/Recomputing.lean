import TokenNet.Diagram.Join
import TokenNet.Proofs.Diagram.Making

/-!
# Operations that remember nothing

The union and the join again, computed anew each time.  All they change in a store is its nodes, and they need no node
twice: a computation is `Steady` if it only adds nodes and if, run once more in a later store, it returns the same and
adds none.  Both operations are steady, `steady_unionBelow` and `steady_joinBelow`, for any diagrams and any store.
-/

namespace TokenNet

variable {K V : Type} [Ord K] [Ord V]

/-! ### The operations -/

namespace Recompute

open Diagram

def unionBelow : Nat → Diagram K V → Diagram K V → StoreM K V (Diagram K V)
  | 0, a, _ => return a
  | n + 1, a, b => do
    if a.index = b.index then return a
    else if a.isEmptySet then return b
    else if b.isEmptySet then return a
    else unionStep (unionBelow n) (ordered a b).1 (ordered a b).2

def union (a b : Diagram K V) : StoreM K V (Diagram K V) := unionBelow (a.index + b.index + 1) a b

def ofMaps (ms : List (List (K × V))) : StoreM K V (Diagram K V) :=
  ms.foldlM (fun d m => do union d (← singleton m)) .emptySet

def joinMerged (go : Diagram K V → Diagram K V → StoreM K V (Diagram K V)) (q r : Diagram K V) :
    Merged (Diagram K V) → StoreM K V (Diagram K V)
  | .left x => go x r
  | .right y => go q y
  | .both x y => do
    let both ← go x y
    let left ← union both (← go x r)
    union left (← go q y)

def joinStep (go : Diagram K V → Diagram K V → StoreM K V (Diagram K V)) (a b : Diagram K V) :
    StoreM K V (Diagram K V) :=
  match a, b with
  | .node _ k t q, .node _ l u r =>
    match compare k l with
    | .lt => do
      let take ← joinBranches go t b
      mkNode k take (← go q b)
    | .eq => do
      let take ← (merge t u).mapM fun (v, m) => return (v, ← joinMerged go q r m)
      mkNode k take (← go q r)
    | .gt => do
      let take ← joinBranches go u a
      mkNode l take (← go r a)
  | _, _ => return .emptySet

def joinBelow : Nat → Diagram K V → Diagram K V → StoreM K V (Diagram K V)
  | 0, _, _ => return .emptySet
  | n + 1, a, b =>
    match a, b with
    | .emptySet, _ => return .emptySet
    | _, .emptySet => return .emptySet
    | .emptyMap, b => return b
    | a, .emptyMap => return a
    | a, b => joinStep (joinBelow n) (ordered a b).1 (ordered a b).2

def join (a b : Diagram K V) : StoreM K V (Diagram K V) := joinBelow (a.index + b.index + 1) a b

/-- The operations whose results a store remembers. -/
def below : Operation → Nat → Diagram K V → Diagram K V → StoreM K V (Diagram K V)
  | .union => unionBelow
  | .join => joinBelow

end Recompute

/-! ### Later stores -/

namespace Store

/-- The nodes of a store, without anything it remembers. -/
def bare (s : Store K V) : Store K V := { nodes := s.nodes, unique := s.unique }

theorem nodes_eq_of_bare_eq {s s' : Store K V} (h : s.bare = s'.bare) : s.nodes = s'.nodes := (mk.inj h).1

theorem unique_eq_of_bare_eq {s s' : Store K V} (h : s.bare = s'.bare) : s.unique = s'.unique := (mk.inj h).2.1

/-- The later store has the diagrams of the earlier one, and finds its nodes under their shapes. -/
structure ExtendsTo (s s' : Store K V) : Prop where
  grows : s.Grows s'
  finds : ∀ (p : Shape K V) (d : Diagram K V), s.unique[p]? = some d → s'.unique[p]? = some d

theorem ExtendsTo.refl (s : Store K V) : s.ExtendsTo s := ⟨.refl s, fun _ _ h => h⟩

theorem ExtendsTo.trans {s s' s'' : Store K V} (h : s.ExtendsTo s') (h' : s'.ExtendsTo s'') : s.ExtendsTo s'' :=
  ⟨h.grows.trans h'.grows, fun p d hd => h'.finds p d (h.finds p d hd)⟩

theorem extendsTo_of_eq {s s' : Store K V} (hn : s'.nodes = s.nodes) (hu : s'.unique = s.unique) : s.ExtendsTo s' :=
  ⟨grows_of_nodes_eq hn, fun p d hd => by rwa [hu]⟩

end Store

/-! ### Steady computations -/

/-- The computation only adds nodes, and run again, in its own store or in a later one, it returns the same and adds
nothing. -/
def Steady {α : Type} (x : StoreM K V α) : Prop :=
  ∀ s, s.ExtendsTo (x.run s).2 ∧ ∀ s', (x.run s).2.ExtendsTo s' → x.run s' = ((x.run s).1, s')

section Steady

variable {α β : Type}

theorem Steady.pure (a : α) : Steady (pure a : StoreM K V α) := fun s => ⟨.refl s, fun _ _ => rfl⟩

theorem Steady.bind {x : StoreM K V α} {f : α → StoreM K V β} (hx : Steady x) (hf : ∀ a, Steady (f a)) :
    Steady (x >>= f) := by
  intro s
  obtain ⟨hext, hagain⟩ := hx s
  obtain ⟨hext', hagain'⟩ := hf (x.run s).1 (x.run s).2
  refine ⟨hext.trans hext', fun s' hs' => ?_⟩
  -- the first part has run, and the second part has not taken anything away since
  have hx' : x.run s' = ((x.run s).1, s') := hagain s' (hext'.trans hs')
  rw [StateT.run_bind, hx']
  exact hagain' s' hs'

theorem Steady.mapM {f : α → StoreM K V β} (hf : ∀ a, Steady (f a)) (l : List α) : Steady (l.mapM f) := by
  induction l with
  | nil =>
    rw [List.mapM_nil]
    exact .pure []
  | cons a l ih =>
    rw [List.mapM_cons]
    exact (hf a).bind fun b => ih.bind fun r => .pure (b :: r)

end Steady

variable [Std.TransOrd K] [Std.LawfulEqOrd K] [Std.TransOrd V] [Std.LawfulEqOrd V]

namespace Diagram

open Store

private theorem push_finds {s : Store K V} {k : K} {take : List (V × Diagram K V)} {skip : Diagram K V}
    (hnew : s.unique[shape k take skip]? = none) : s.ExtendsTo (s.push k take skip) ∧
      (s.push k take skip).unique[shape k take skip]? = some (node (s.nodes.size + 2) k take skip) := by
  have hinsert : (s.push k take skip).unique =
      s.unique.insert (shape k take skip) (node (s.nodes.size + 2) k take skip) := rfl
  refine ⟨⟨grows_push, fun p d hd => ?_⟩, ?_⟩
  · have hne : compare (shape k take skip) p ≠ .eq := by
      intro heq
      rw [Std.LawfulEqCmp.eq_of_compare heq, hd] at hnew
      cases hnew
    rw [hinsert, Std.TreeMap.getElem?_insert, if_neg hne]
    exact hd
  · rw [hinsert]
    simp

theorem steady_mkNode (k : K) (take : List (V × Diagram K V)) (skip : Diagram K V) : Steady (mkNode k take skip) := by
  intro s
  by_cases ht : (tidy take).isEmpty
  · have hrun : ∀ s : Store K V, (mkNode k take skip).run s = (skip, s) := fun s => by rw [run_mkNode, if_pos ht]
    rw [hrun]
    exact ⟨.refl s, fun s' _ => hrun s'⟩
  · -- a later store finds under the shape what this one has found or made
    have hagain : ∀ (s' : Store K V) (d : Diagram K V), s'.unique[shape k (tidy take) skip]? = some d →
        (mkNode k take skip).run s' = (d, s') := fun s' d hd => by rw [run_mkNode, if_neg ht, hd]
    cases hu : s.unique[shape k (tidy take) skip]? with
    | some d =>
      rw [hagain s d hu]
      exact ⟨.refl s, fun s' hs' => hagain s' d (hs'.finds _ d hu)⟩
    | none =>
      have hrun : (mkNode k take skip).run s =
          (node (s.nodes.size + 2) k (tidy take) skip, s.push k (tidy take) skip) := by
        rw [run_mkNode, if_neg ht, hu]
      obtain ⟨hext, hfound⟩ := push_finds hu
      rw [hrun]
      exact ⟨hext, fun s' hs' => hagain s' _ (hs'.finds _ _ hfound)⟩

end Diagram

namespace Recompute

open Diagram

variable {go : Diagram K V → Diagram K V → StoreM K V (Diagram K V)}

private theorem steady_unionStep (hgo : ∀ a b, Steady (go a b)) (a b : Diagram K V) : Steady (unionStep go a b) := by
  have hskip : ∀ (k : K) (t : List (V × Diagram K V)) (a b : Diagram K V), Steady (do mkNode k t (← go a b)) :=
    fun k t a b => (hgo a b).bind fun d => steady_mkNode k t d
  unfold unionStep
  split
  · split
    · exact hskip _ _ _ _
    · refine (Steady.mapM (fun c => ?_) _).bind fun take => hskip _ _ _ _
      obtain ⟨v, e⟩ := c
      cases e with
      | left x => exact .pure (v, x)
      | right y => exact .pure (v, y)
      | both x y => exact (hgo x y).bind fun d => .pure (v, d)
    · exact hskip _ _ _ _
  · exact hskip _ _ _ _
  · exact hskip _ _ _ _
  · exact .pure _

theorem steady_unionBelow (n : Nat) (a b : Diagram K V) : Steady (unionBelow n a b) := by
  induction n generalizing a b with
  | zero => exact .pure a
  | succ n ih =>
    unfold unionBelow
    split
    · exact .pure a
    · split
      · exact .pure b
      · split
        · exact .pure a
        · exact steady_unionStep ih _ _

private theorem steady_joinMerged (hgo : ∀ a b, Steady (go a b)) (q r : Diagram K V) (e : Merged (Diagram K V)) :
    Steady (joinMerged go q r e) := by
  have hunion : ∀ a b : Diagram K V, Steady (union a b) := fun a b => steady_unionBelow _ a b
  cases e with
  | left x => exact hgo x r
  | right y => exact hgo q y
  | both x y =>
    refine (hgo x y).bind fun both => (hgo x r).bind fun xr => (hunion both xr).bind fun left => ?_
    exact (hgo q y).bind fun qy => hunion left qy

private theorem steady_joinStep (hgo : ∀ a b, Steady (go a b)) (a b : Diagram K V) : Steady (joinStep go a b) := by
  have hskip : ∀ (k : K) (t : List (V × Diagram K V)) (a b : Diagram K V), Steady (do mkNode k t (← go a b)) :=
    fun k t a b => (hgo a b).bind fun d => steady_mkNode k t d
  have hbranches : ∀ (t : List (V × Diagram K V)) (b : Diagram K V), Steady (joinBranches go t b) := by
    intro t b
    unfold joinBranches
    exact .mapM (fun c => (hgo c.2 b).bind fun d => .pure (c.1, d)) t
  unfold joinStep
  split
  · split
    · exact (hbranches _ _).bind fun take => hskip _ _ _ _
    · refine (Steady.mapM (fun c => ?_) _).bind fun take => hskip _ _ _ _
      exact (steady_joinMerged hgo _ _ c.2).bind fun d => .pure (c.1, d)
    · exact (hbranches _ _).bind fun take => hskip _ _ _ _
  · exact .pure _

theorem steady_joinBelow (n : Nat) (a b : Diagram K V) : Steady (joinBelow n a b) := by
  induction n generalizing a b with
  | zero => exact .pure _
  | succ n ih =>
    unfold joinBelow
    split
    · exact .pure _
    · exact .pure _
    · exact .pure _
    · exact .pure _
    · exact steady_joinStep ih _ _

theorem steady_below (op : Operation) (n : Nat) (a b : Diagram K V) : Steady (below op n a b) := by
  cases op with
  | union => exact steady_unionBelow n a b
  | join => exact steady_joinBelow n a b

end Recompute

end TokenNet
