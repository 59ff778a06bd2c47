import Mathlib.Algebra.Ring.Defs
import Mathlib.Data.Set.Basic
import TokenNet.Proofs.Diagram.Families

/-!
# The semiring of diagrams

The families of finite maps are a commutative semiring: the sum of two families is their union, the product has what a
map of one and a map of the other join to, zero is the empty family and one has the empty map alone.  Sums are
idempotent, `Family.add_self`.

A `Term` combines diagrams of a store and diagrams of given maps by unions and joins.  It computes the diagram of its
family, `Term.ensures_run`, and a store has one diagram for a family.  So two terms return the same diagram if and only
if they have the same family: `Term.coincide_iff`.  The laws of the semiring hold of the returned diagrams,
`Store.Runs.semiringLaws_ofMaps`, whatever calls come between the computations of the two sides.
-/

namespace TokenNet

open Diagram Store
open FinMap (Joins)

/-! ### Joining three maps -/

section Joins

variable {K V : Type} [Ord K] [Std.TransOrd K] [Std.LawfulEqOrd K]

/-- If the first two of three maps agree, and their union agrees with the third, then the last two agree, and the first
agrees with their union. -/
theorem FinMap.Joins.assoc {x y z n m : FinMap K V} (hn : Joins x y n) (hm : Joins n z m) :
    ∃ w, Joins y z w ∧ Joins x w m := by
  have hagrees : y.Agrees z := by
    intro k v w hv hw
    have hk : n.get? k = some v := by
      rw [hn.right, hv]
      rfl
    exact hm.eq_of_get? hk hw
  have hw : Joins y z (y.union z) := joins_iff.2 ⟨hagrees, rfl⟩
  refine ⟨y.union z, hw, fun k => ?_, fun k => ?_⟩
  · rw [hm.left, hn.left, hw.left, Option.or_assoc]
  · rw [hm.right, hn.right, hw.right, Option.or_assoc]

end Joins

/-! ### Families of maps -/

/-- A family of finite maps. -/
def Family (K V : Type) [Ord K] : Type := Set (FinMap K V)

namespace Family

variable {K V : Type} [Ord K]

instance : Membership (FinMap K V) (Family K V) := inferInstanceAs (Membership (FinMap K V) (Set (FinMap K V)))

@[ext]
theorem ext {F G : Family K V} (h : ∀ m, m ∈ F ↔ m ∈ G) : F = G := Set.ext h

/-- The family of the maps with a property. -/
def of (p : FinMap K V → Prop) : Family K V := {m | p m}

instance : Zero (Family K V) := ⟨of fun _ => False⟩

instance : One (Family K V) := ⟨of fun m => m = ∅⟩

instance : Add (Family K V) := ⟨fun F G => of fun m => m ∈ F ∨ m ∈ G⟩

instance : Mul (Family K V) := ⟨fun F G => of fun m => ∃ x ∈ F, ∃ y ∈ G, Joins x y m⟩

theorem add_self (F : Family K V) : F + F = F := ext fun _ => or_self_iff

protected theorem mul_comm (F G : Family K V) : F * G = G * F := by
  ext m
  constructor
  · rintro ⟨x, hx, y, hy, h⟩
    exact ⟨y, hy, x, hx, h.symm⟩
  · rintro ⟨x, hx, y, hy, h⟩
    exact ⟨y, hy, x, hx, h.symm⟩

protected theorem zero_mul (F : Family K V) : 0 * F = 0 := by
  ext m
  constructor
  · rintro ⟨x, hx, -⟩
    exact hx
  · exact False.elim

protected theorem mul_add (F G H : Family K V) : F * (G + H) = F * G + F * H := by
  ext m
  constructor
  · rintro ⟨x, hx, y, hy | hy, h⟩
    · exact .inl ⟨x, hx, y, hy, h⟩
    · exact .inr ⟨x, hx, y, hy, h⟩
  · rintro (⟨x, hx, y, hy, h⟩ | ⟨x, hx, y, hy, h⟩)
    · exact ⟨x, hx, y, .inl hy, h⟩
    · exact ⟨x, hx, y, .inr hy, h⟩

variable [Std.TransOrd K] [Std.LawfulEqOrd K]

protected theorem one_mul (F : Family K V) : 1 * F = F := by
  ext m
  constructor
  · rintro ⟨x, rfl, y, hy, h⟩
    rwa [FinMap.joins_empty_left.1 h]
  · exact fun hm => ⟨∅, rfl, m, hm, FinMap.joins_empty_left.2 rfl⟩

protected theorem mul_assoc (F G H : Family K V) : F * G * H = F * (G * H) := by
  ext m
  constructor
  · rintro ⟨n, ⟨x, hx, y, hy, hn⟩, z, hz, hm⟩
    obtain ⟨w, hw, hxw⟩ := hn.assoc hm
    exact ⟨x, hx, w, ⟨y, hy, z, hz, hw⟩, hxw⟩
  · rintro ⟨x, hx, w, ⟨y, hy, z, hz, hw⟩, hm⟩
    obtain ⟨n, hn, hzn⟩ := hw.symm.assoc hm.symm
    exact ⟨n, ⟨x, hx, y, hy, hn.symm⟩, z, hz, hzn.symm⟩

instance : CommSemiring (Family K V) where
  add_assoc F G H := ext fun m => or_assoc
  add_comm F G := ext fun m => or_comm
  zero_add F := ext fun m => or_iff_right id
  add_zero F := ext fun m => or_iff_left id
  mul_assoc := Family.mul_assoc
  mul_comm := Family.mul_comm
  one_mul := Family.one_mul
  mul_one F := (Family.mul_comm F 1).trans (Family.one_mul F)
  zero_mul := Family.zero_mul
  mul_zero F := (Family.mul_comm F 0).trans (Family.zero_mul F)
  left_distrib := Family.mul_add
  right_distrib F G H := by rw [Family.mul_comm, Family.mul_add, Family.mul_comm H F, Family.mul_comm H G]
  nsmul := nsmulRec

end Family

section Families

variable {K V : Type} [Ord K] [Std.TransOrd K]

/-! ### The families of diagrams -/

/-- The maps that a diagram denotes. -/
def Diagram.family (d : Diagram K V) : Family K V := .of fun m => m ∈ d

/-- The maps in a list, the entries of each in any order. -/
def familyOf (ms : List (List (K × V))) : Family K V := .of fun m => ∃ l ∈ ms, m.entries = sortMap l

theorem family_emptySet : (emptySet : Diagram K V).family = 0 :=
  Family.ext fun m => iff_false_intro (not_mem_emptySet m)

theorem family_emptyMap : (emptyMap : Diagram K V).family = 1 := Family.ext fun _ => mem_emptyMap_iff

variable [Std.LawfulEqOrd K]

/-- Maps that bind no key twice are the same in key order if and only if they have the same entries. -/
theorem sortMap_eq_iff {l l' : List (K × V)} (hl : (l.map Prod.fst).Nodup) : sortMap l = sortMap l' ↔ l.Perm l' := by
  constructor
  · intro h
    have hperm : (sortMap l).Perm l' := by
      rw [h]
      exact sortOn_perm Prod.fst l'
    exact (sortOn_perm Prod.fst l).symm.trans hperm
  · intro h
    have hperm : (sortMap l).Perm (sortMap l') :=
      ((sortOn_perm Prod.fst l).trans h).trans (sortOn_perm Prod.fst l').symm
    have hl' : (l'.map Prod.fst).Nodup := (h.map Prod.fst).nodup_iff.1 hl
    refine hperm.eq_of_pairwise (fun e e' _ _ hlt hgt => ?_) (sorted_sortMap hl) (sorted_sortMap hl')
    rw [Std.OrientedCmp.gt_of_lt hlt] at hgt
    cases hgt

/-- Reordering and repeating maps, and nothing else, leaves their family as it is. -/
theorem familyOf_eq_iff {ms ms' : List (List (K × V))} (hms : ∀ l ∈ ms, (l.map Prod.fst).Nodup)
    (hms' : ∀ l ∈ ms', (l.map Prod.fst).Nodup) :
    familyOf ms = familyOf ms' ↔ ∀ l : List (K × V), (∃ l' ∈ ms, l.Perm l') ↔ ∃ l' ∈ ms', l.Perm l' := by
  -- a list of entries has a permutation among the maps exactly if, in key order, it is in the family
  have hmem : ∀ {ms : List (List (K × V))} {l : List (K × V)} (hl : (l.map Prod.fst).Nodup),
      (⟨sortMap l, sorted_sortMap hl⟩ : FinMap K V) ∈ familyOf ms ↔ ∃ l' ∈ ms, l.Perm l' := by
    intro ms l hl
    refine exists_congr fun l' => and_congr_right fun _ => ?_
    exact sortMap_eq_iff hl
  have hnodup : ∀ {ms : List (List (K × V))} {l : List (K × V)}, (∀ l ∈ ms, (l.map Prod.fst).Nodup) →
      (∃ l' ∈ ms, l.Perm l') → (l.map Prod.fst).Nodup := by
    rintro ms l hms ⟨l', hl', hperm⟩
    exact (hperm.map Prod.fst).nodup_iff.2 (hms l' hl')
  constructor
  · intro h l
    constructor
    · intro hl
      have hkeys := hnodup hms hl
      exact (hmem hkeys).1 (h ▸ (hmem hkeys).2 hl)
    · intro hl
      have hkeys := hnodup hms' hl
      exact (hmem hkeys).1 (h ▸ (hmem hkeys).2 hl)
  · intro h
    ext m
    have hkeys := m.nodup_keys
    have hm : m = ⟨sortMap m.entries, sorted_sortMap hkeys⟩ :=
      FinMap.entries_injective (sortOn_eq_self (m.sorted.imp fun hlt => by simp [hlt])).symm
    rw [hm, hmem hkeys, hmem hkeys, h]

end Families

/-! ### Terms -/

section Terms

variable {K V : Type} [Ord K] [Ord V] {s s' : Store K V}

/-- Diagrams of a store and diagrams of given maps, combined. -/
inductive Diagram.Term (K V : Type) where
  | diagram (d : Diagram K V)
  | ofMaps (ms : List (List (K × V)))
  | union (t u : Term K V)
  | join (t u : Term K V)

namespace Diagram.Term

/-- Computes the diagram of a term, from left to right. -/
def run : Term K V → StoreM K V (Diagram K V)
  | diagram d => return d
  | ofMaps ms => Diagram.ofMaps ms
  | union t u => do
    let d ← t.run
    let e ← u.run
    Diagram.union d e
  | join t u => do
    let d ← t.run
    let e ← u.run
    Diagram.join d e

/-- The diagrams of the term are those of the store, and its maps bind no key twice. -/
def Admissible (s : Store K V) : Term K V → Prop
  | diagram d => s.Has d
  | ofMaps ms => ∀ l ∈ ms, (l.map Prod.fst).Nodup
  | union t u => t.Admissible s ∧ u.Admissible s
  | join t u => t.Admissible s ∧ u.Admissible s

theorem Admissible.mono {t : Term K V} (ht : t.Admissible s) (h : s.Grows s') : t.Admissible s' := by
  induction t with
  | diagram d => exact Has.mono ht h
  | ofMaps ms => exact ht
  | union t u iht ihu => exact ⟨iht ht.1, ihu ht.2⟩
  | join t u iht ihu => exact ⟨iht ht.1, ihu ht.2⟩

variable [Std.TransOrd K]

def family : Term K V → Family K V
  | diagram d => d.family
  | ofMaps ms => familyOf ms
  | union t u => t.family + u.family
  | join t u => t.family * u.family

/-- Where an operation gives the diagram of a combined family, it does so with the results of two computations. -/
private theorem ensures_combine {op : Diagram K V → Diagram K V → StoreM K V (Diagram K V)}
    {combine : Family K V → Family K V → Family K V} {x y : StoreM K V (Diagram K V)} {F G : Family K V}
    (hop : ∀ {s : Store K V} {d e : Diagram K V}, s.Sound → s.Has d → s.Has e →
      Ensures (op d e) s fun r s' => s'.Has r ∧ r.family = combine d.family e.family)
    (hx : Ensures x s fun d s' => s'.Has d ∧ d.family = F)
    (hy : ∀ s', s.Grows s' → s'.Sound → Ensures y s' fun e s'' => s''.Has e ∧ e.family = G) :
    Ensures (do let d ← x; let e ← y; op d e) s fun r s' => s'.Has r ∧ r.family = combine F G := by
  refine hx.bind fun d s' hg hs' ⟨hd, hdF⟩ => (hy s' hg hs').bind fun e s'' hg' hs'' ⟨he, heG⟩ => ?_
  rw [← hdF, ← heG]
  exact hop hs'' (hd.mono hg') he

variable [Std.LawfulEqOrd K] [Std.TransOrd V] [Std.LawfulEqOrd V]

/-- A term computes the diagram of its family. -/
theorem ensures_run {t : Term K V} (hs : s.Sound) (ht : t.Admissible s) :
    Ensures t.run s fun d s' => s'.Has d ∧ d.family = t.family := by
  induction t generalizing s with
  | diagram d => exact .pure hs ⟨ht, rfl⟩
  | ofMaps ms => exact (ensures_ofMaps hs ht).imp fun d s' _ _ ⟨hd, hm⟩ => ⟨hd, Family.ext hm⟩
  | union t u iht ihu =>
    refine ensures_combine (fun hs hd he => ?_) (iht hs ht.1) fun s' hg hs' => ihu hs' (ht.2.mono hg)
    exact (ensures_union hs hd he).imp fun r _ _ _ ⟨hr, hm⟩ => ⟨hr, Family.ext hm⟩
  | join t u iht ihu =>
    refine ensures_combine (fun hs hd he => ?_) (iht hs ht.1) fun s' hg hs' => ihu hs' (ht.2.mono hg)
    exact (ensures_join hs hd he).imp fun r _ _ _ ⟨hr, hm⟩ => ⟨hr, Family.ext hm⟩

end Diagram.Term

end Terms

variable {K V : Type} [Ord K] [Ord V] [Std.TransOrd K] [Std.LawfulEqOrd K] [Std.TransOrd V] [Std.LawfulEqOrd V]
  {s s' : Store K V} {a b c d : Diagram K V}

/-! ### Equal handles -/

/-- Computed in the store one after the other, in either order and with any calls in between, the two return the same
diagram. -/
def Store.Coincide (s : Store K V) (x y : StoreM K V (Diagram K V)) : Prop :=
  (∀ s', Runs (x.run s).2 s' → (y.run s').1 = (x.run s).1) ∧ ∀ s', Runs (y.run s).2 s' → (x.run s').1 = (y.run s).1

/-- A store has one diagram for a family. -/
theorem Store.Sound.eq_of_family (hs : s.Sound) (ha : s.Has a) (hb : s.Has b) (h : a.family = b.family) : a = b :=
  hs.eq_of_mem_iff ha hb fun m => by
    have hm : m ∈ a.family ↔ m ∈ b.family := by rw [h]
    exact hm

/-- The term that is computed second returns the diagram of the first one if and only if it has its family. -/
private theorem run_eq_iff {t u : Term K V} (hs : s.Sound) (ht : t.Admissible s) (hu : u.Admissible s)
    (hruns : Runs (t.run.run s).2 s') : (u.run.run s').1 = (t.run.run s).1 ↔ u.family = t.family := by
  obtain ⟨hg, hst, hd, hdt⟩ := t.ensures_run hs ht
  obtain ⟨hs', hg'⟩ := hruns.sound_grows hst
  obtain ⟨hg'', hs'', he, heu⟩ := u.ensures_run hs' (hu.mono (hg.trans hg'))
  have hd'' := hd.mono (hg'.trans hg'')
  rw [← hdt, ← heu]
  constructor
  · exact fun h => by rw [h]
  · exact hs''.eq_of_family he hd''

/-- Two terms return the same diagram if and only if they have the same family. -/
theorem Diagram.Term.coincide_iff {t u : Term K V} (hs : s.Sound) (ht : t.Admissible s) (hu : u.Admissible s) :
    s.Coincide t.run u.run ↔ t.family = u.family := by
  constructor
  · exact fun h => ((run_eq_iff hs ht hu (.refl _)).1 (h.1 _ (.refl _))).symm
  · intro h
    exact ⟨fun _ hruns => (run_eq_iff hs ht hu hruns).2 h.symm, fun _ hruns => (run_eq_iff hs hu ht hruns).2 h⟩

/-- The laws of a commutative semiring with idempotent sums, for the union as the sum and the join as the product of
three diagrams. -/
structure Store.SemiringLaws (s : Store K V) (a b c : Diagram K V) : Prop where
  union_assoc : s.Coincide (do union (← union a b) c) (do union a (← union b c))
  union_comm : s.Coincide (union a b) (union b a)
  union_self : s.Coincide (union a a) (return a)
  union_emptySet : s.Coincide (union a emptySet) (return a)
  join_assoc : s.Coincide (do join (← join a b) c) (do join a (← join b c))
  join_comm : s.Coincide (join a b) (join b a)
  join_emptyMap : s.Coincide (join a emptyMap) (return a)
  join_emptySet : s.Coincide (join a emptySet) (return emptySet)
  join_union : s.Coincide (do join a (← union b c)) (do union (← join a b) (← join a c))

theorem Store.Sound.semiringLaws (hs : s.Sound) (ha : s.Has a) (hb : s.Has b) (hc : s.Has c) :
    s.SemiringLaws a b c := by
  have hlaw : ∀ {t u : Term K V}, t.Admissible s → u.Admissible s → t.family = u.family → s.Coincide t.run u.run :=
    fun ht hu => (Term.coincide_iff hs ht hu).2
  have hzero : a.family + emptySet.family = a.family := by rw [family_emptySet, add_zero]
  have hone : a.family * emptyMap.family = a.family := by rw [family_emptyMap, mul_one]
  have hnone : a.family * emptySet.family = emptySet.family := by rw [family_emptySet, mul_zero]
  let x : Term K V := .diagram a
  let y : Term K V := .diagram b
  let z : Term K V := .diagram c
  let zero : Term K V := .diagram emptySet
  let one : Term K V := .diagram emptyMap
  exact
    { union_assoc := hlaw (t := .union (.union x y) z) (u := .union x (.union y z)) ⟨⟨ha, hb⟩, hc⟩ ⟨ha, hb, hc⟩
        (add_assoc _ _ _)
      union_comm := hlaw (t := .union x y) (u := .union y x) ⟨ha, hb⟩ ⟨hb, ha⟩ (add_comm _ _)
      union_self := hlaw (t := .union x x) (u := x) ⟨ha, ha⟩ ha (Family.add_self _)
      union_emptySet := hlaw (t := .union x zero) (u := x) ⟨ha, has_emptySet⟩ ha hzero
      join_assoc := hlaw (t := .join (.join x y) z) (u := .join x (.join y z)) ⟨⟨ha, hb⟩, hc⟩ ⟨ha, hb, hc⟩
        (mul_assoc _ _ _)
      join_comm := hlaw (t := .join x y) (u := .join y x) ⟨ha, hb⟩ ⟨hb, ha⟩ (mul_comm _ _)
      join_emptyMap := hlaw (t := .join x one) (u := x) ⟨ha, has_emptyMap⟩ ha hone
      join_emptySet := hlaw (t := .join x zero) (u := zero) ⟨ha, has_emptySet⟩ has_emptySet hnone
      join_union := hlaw (t := .join x (.union y z)) (u := .union (.join x y) (.join x z)) ⟨ha, hb, hc⟩
        ⟨⟨ha, hb⟩, ha, hc⟩ (mul_add _ _ _) }

/-- After any calls on an empty store: unions and joins of diagrams of the store obey the laws of a commutative semiring
with idempotent sums, and the diagrams of two lists of maps are the same if and only if the lists are, up to the order
and repetition of maps and the order of the entries of each. -/
theorem Store.Runs.semiringLaws_ofMaps (h : Runs {} s) (ha : s.Has a) (hb : s.Has b) (hc : s.Has c) :
    s.SemiringLaws a b c ∧
    ∀ ms ms' : List (List (K × V)), (∀ l ∈ ms, (l.map Prod.fst).Nodup) → (∀ l ∈ ms', (l.map Prod.fst).Nodup) →
      (s.Coincide (ofMaps ms) (ofMaps ms') ↔ ∀ l : List (K × V), (∃ l' ∈ ms, l.Perm l') ↔ ∃ l' ∈ ms', l.Perm l') := by
  refine ⟨h.sound.semiringLaws ha hb hc, fun ms ms' hms hms' => ?_⟩
  rw [← familyOf_eq_iff hms hms']
  exact Term.coincide_iff (t := .ofMaps ms) (u := .ofMaps ms') h.sound hms hms'

/-- Three families of partial maps, some of which agree; and two maps, in another order and repeated. -/
theorem Store.Runs.semiringLaws_ofMaps_partial_maps :
    let x := (ofMaps [[(1, 2)], [(1, 3), (2, 4)], []]).run ({} : Store Nat Nat)
    let y := (ofMaps [[(2, 4)], [(1, 2), (2, 5)]]).run x.2
    let z := (ofMaps [[(2, 5)], [(3, 6)]]).run y.2
    ((do join x.1 (← union y.1 z.1)).run z.2).1.maps = [[(1, 2), (2, 4)], [(1, 2), (2, 5)], [(1, 2), (3, 6)],
        [(1, 3), (2, 4), (3, 6)], [(1, 3), (2, 4)], [(2, 4)], [(2, 5)], [(3, 6)]] ∧
      z.2.SemiringLaws x.1 y.1 z.1 ∧
      z.2.Coincide (ofMaps [[(1, 2), (2, 5)], []]) (ofMaps [[], [(2, 5), (1, 2)], []]) := by
  intro x y z
  refine ⟨by decide +kernel, ?_⟩
  have hx : (ofMaps _).run _ = x := rfl
  have hy : (ofMaps _).run _ = y := rfl
  have hz : (ofMaps _).run _ = z := rfl
  clear_value x y z
  have hkx : ∀ l ∈ [[(1, 2)], [(1, 3), (2, 4)], []], (l.map (Prod.fst : Nat × Nat → Nat)).Nodup := by decide
  have hky : ∀ l ∈ [[(2, 4)], [(1, 2), (2, 5)]], (l.map (Prod.fst : Nat × Nat → Nat)).Nodup := by decide
  have hkz : ∀ l ∈ [[(2, 5)], [(3, 6)]], (l.map (Prod.fst : Nat × Nat → Nat)).Nodup := by decide
  obtain ⟨hrx, -, hx⟩ := (Runs.refl {}).of_run (.ofMaps _ : Call Empty Nat Nat) hkx rfl hx
  obtain ⟨hry, hxy, hy⟩ := hrx.of_run (.ofMaps _ : Call Empty Nat Nat) hky rfl hy
  obtain ⟨hrz, hyz, hz⟩ := hry.of_run (.ofMaps _ : Call Empty Nat Nat) hkz rfl hz
  obtain ⟨hlaws, hmaps⟩ :=
    Store.Runs.semiringLaws_ofMaps hrz ((hx _ rfl).mono (hxy.trans hyz)) ((hy _ rfl).mono hyz) (hz _ rfl)
  refine ⟨hlaws, (hmaps _ _ (by decide) (by decide)).2 fun l => ?_⟩
  have hswap : l.Perm [(1, 2), (2, 5)] ↔ l.Perm [(2, 5), (1, 2)] :=
    ⟨fun h => h.trans (.swap _ _ _), fun h => h.trans (.swap _ _ _)⟩
  simp [hswap, or_comm]

end TokenNet
