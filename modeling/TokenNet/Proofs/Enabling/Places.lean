import TokenNet.Proofs.Enabling.Chain
import TokenNet.Proofs.Session

/-!
# Joining the places

The join of diagrams of bindings describes the bindings of all their variables that satisfy what both describe, as long
as neither condition depends on the variables that only the other side binds: `Describes.join`.  So joining the places
of a demand gives the bindings that fit all places, those whose variables are independent left aside,
`ensures_joinPlaces`, and joining these as well gives the bindings that fit every place, `ensures_joinDeferred`.
-/

namespace TokenNet

open Diagram Store
open FinMap (Joins)

/-- The condition does not depend on the values of the given variables. -/
def Ignores (P : Binding → Prop) (vars : Variable → Prop) : Prop :=
  ∀ B C : Binding, (∀ x, ¬ vars x → B.get? x = C.get? x) → (P B ↔ P C)

theorem Binding.ignores_fits (vars : List Variable) (tokens : Bag Value) :
    Ignores (fun B => B.Fits vars tokens) fun x => x ∉ vars := by
  intro B C h
  have hget : ∀ x ∈ vars, B.get? x = C.get? x := fun x hx => h x (not_not_intro hx)
  have hcontains : (∀ x ∈ vars, B.contains x = true) ↔ ∀ x ∈ vars, C.contains x = true := by
    refine forall_congr' fun x => forall_congr' fun hx => ?_
    unfold FinMap.contains
    rw [hget x hx]
  have hcount : ∀ v, vars.countP (fun x => B.get? x = some v) = vars.countP fun x => C.get? x = some v := by
    intro v
    refine List.countP_congr fun x hx => ?_
    rw [hget x hx]
  change (_ ∧ _) ↔ (_ ∧ _)
  rw [hcontains]
  simp only [hcount]

theorem Ignores.mono {P : Binding → Prop} {u w : Variable → Prop} (h : Ignores P w) (hu : ∀ x, u x → w x) :
    Ignores P u := fun B C hBC => h B C fun x hx => hBC x (mt (hu x) hx)

theorem Ignores.and {P Q : Binding → Prop} {u : Variable → Prop} (hP : Ignores P u) (hQ : Ignores Q u) :
    Ignores (fun B => P B ∧ Q B) u := fun B C h => and_congr (hP B C h) (hQ B C h)

section Join

variable {o : KeyOrder} {X Y : List Variable} {P Q : Binding → Prop} {a b d : BindingDiagram}

/-- The part of a map at the keys of some variables. -/
private theorem bindsKeys_restrict {m : FinMap Key Value} (hm : BindsKeys o (X ++ Y) m) {Z : List Variable}
    (hZ : ∀ x ∈ Z, x ∈ X ++ Y) : BindsKeys o Z (m.restrict fun k => Z.any fun x => k = o.key x) := by
  have hvars : ∀ x, x ∈ (X ++ Y).filter (fun x => Z.any fun z => decide (o.key x = o.key z)) ↔ x ∈ Z := by
    intro x
    rw [List.mem_filter, List.any_eq_true]
    constructor
    · rintro ⟨-, z, hz, heq⟩
      rwa [KeyOrder.key_injective (of_decide_eq_true heq)]
    · exact fun hx => ⟨hZ x hx, x, hx, by simp⟩
  intro k
  rw [hm.restrict _ k]
  simp only [hvars]

/-- Joined maps of two sets of variables bind the variables of both. -/
private theorem bindsKeys_of_joins {x y m : FinMap Key Value} (hx : BindsKeys o X x) (hy : BindsKeys o Y y)
    (hj : Joins x y m) : BindsKeys o (X ++ Y) m := by
  intro k
  rw [hj.left, Option.isSome_or, Bool.or_eq_true, hx k, hy k]
  constructor
  · rintro (⟨z, hz, hk⟩ | ⟨z, hz, hk⟩)
    · exact ⟨z, List.mem_append_left _ hz, hk⟩
    · exact ⟨z, List.mem_append_right _ hz, hk⟩
  · rintro ⟨z, hz, hk⟩
    rcases List.mem_append.1 hz with hz | hz
    · exact .inl ⟨z, hz, hk⟩
    · exact .inr ⟨z, hz, hk⟩

/-- A joined map has the binding of its left part on all variables that not only the right part binds. -/
private theorem get?_ofPath_of_joins {x y m : FinMap Key Value} (hx : BindsKeys o X x) (hy : BindsKeys o Y y)
    (hj : Joins x y m) {z : Variable} (hz : ¬ (z ∈ Y ∧ z ∉ X)) :
    (Binding.ofPath x.entries).get? z = (Binding.ofPath m.entries).get? z := by
  rw [hx.get?_ofPath, (bindsKeys_of_joins hx hy hj).get?_ofPath, hj.left]
  by_cases hzX : z ∈ X
  · obtain ⟨v, hv⟩ := Option.isSome_iff_exists.1 ((hx (o.key z)).2 ⟨z, hzX, rfl⟩)
    rw [hv]
    rfl
  · have hnone : ∀ {W : List Variable} {n : FinMap Key Value}, BindsKeys o W n → z ∉ W → n.get? (o.key z) = none := by
      intro W n hn hzW
      cases hget : n.get? (o.key z) with
      | none => rfl
      | some v =>
        obtain ⟨w, hw, hkey⟩ := (hn (o.key z)).1 (by rw [hget]; rfl)
        rw [KeyOrder.key_injective hkey] at hzW
        exact absurd hw hzW
    have hzY : z ∉ Y := fun h => hz ⟨h, hzX⟩
    rw [hnone hx hzX, hnone hy hzY]
    rfl

theorem Describes.join (ha : Describes o X P a) (hb : Describes o Y Q b) (hP : Ignores P fun x => x ∈ Y ∧ x ∉ X)
    (hQ : Ignores Q fun x => x ∈ X ∧ x ∉ Y) (hd : ∀ m, m ∈ d ↔ JoinMember a b m) :
    Describes o (X ++ Y) (fun B => P B ∧ Q B) d := by
  have hcond : ∀ {x y m : FinMap Key Value}, BindsKeys o X x → BindsKeys o Y y → Joins x y m →
      (P (Binding.ofPath x.entries) ↔ P (Binding.ofPath m.entries)) ∧
      (Q (Binding.ofPath y.entries) ↔ Q (Binding.ofPath m.entries)) := fun hx hy hj =>
    ⟨hP _ _ fun z hz => get?_ofPath_of_joins hx hy hj hz, hQ _ _ fun z hz => get?_ofPath_of_joins hy hx hj.symm hz⟩
  intro m
  rw [hd]
  constructor
  · rintro ⟨x, hx, y, hy, hj⟩
    obtain ⟨hkx, hpx⟩ := (ha x).1 hx
    obtain ⟨hky, hqy⟩ := (hb y).1 hy
    obtain ⟨hp, hq⟩ := hcond hkx hky hj
    exact ⟨bindsKeys_of_joins hkx hky hj, hp.1 hpx, hq.1 hqy⟩
  · rintro ⟨hm, hpm, hqm⟩
    have hkx := bindsKeys_restrict hm (Z := X) fun x hx => List.mem_append_left _ hx
    have hky := bindsKeys_restrict hm (Z := Y) fun y hy => List.mem_append_right _ hy
    have hj : Joins (m.restrict fun k => X.any fun x => k = o.key x) (m.restrict fun k => Y.any fun x => k = o.key x)
        m := by
      refine m.joins_restrict fun k hk => ?_
      obtain ⟨z, hz, hkz⟩ := (hm k).1 hk
      rcases List.mem_append.1 hz with hz | hz
      · exact .inl (List.any_eq_true.2 ⟨z, hz, by simpa using hkz⟩)
      · exact .inr (List.any_eq_true.2 ⟨z, hz, by simpa using hkz⟩)
    obtain ⟨hp, hq⟩ := hcond hkx hky hj
    exact ⟨_, (ha _).2 ⟨hkx, hp.2 hpm⟩, _, (hb _).2 ⟨hky, hq.2 hqm⟩, hj⟩

theorem Describes.congr (h : Describes o X P d) (hvars : ∀ x, x ∈ X ↔ x ∈ Y)
    (hcond : ∀ B : Binding, B.Binds X → (P B ↔ Q B)) : Describes o Y Q d := by
  intro m
  have hkeys : BindsKeys o X m ↔ BindsKeys o Y m := by
    unfold BindsKeys
    simp only [hvars]
  rw [h m, ← hkeys]
  exact and_congr_right fun hm => hcond _ hm.binds_ofPath

/-- A diagram without maps describes bindings that do not exist. -/
theorem describes_emptySet (o : KeyOrder) (hP : ∀ B : Binding, B.Binds X → ¬ P B) :
    Describes o X P .emptySet := by
  intro m
  constructor
  · exact fun hm => absurd hm (not_mem_emptySet m)
  · rintro ⟨hm, hp⟩
    exact absurd hp (hP _ hm.binds_ofPath)

theorem Describes.not_of_emptySet (h : Describes o X P .emptySet) (B : Binding)
    (hB : B.Binds X) : ¬ P B := by
  obtain ⟨m, hm, rfl⟩ := exists_bindsKeys o hB
  exact fun hP => not_mem_emptySet m ((h m).2 ⟨hm, hP⟩)

end Join

/-! ### The places of a demand -/

/-- The binding fits the places of the given arcs. -/
def Demand.Fits (d : Demand) (l : List (Place × List Variable)) (B : Binding) : Prop :=
  ∀ e ∈ l, B.Fits e.2 ((d.marking.get? e.1).getD ∅)

theorem Demand.ignores_fits (d : Demand) (l : List (Place × List Variable)) :
    Ignores (d.Fits l) fun x => x ∉ l.flatMap Prod.snd := by
  intro B C h
  refine forall_congr' fun e => forall_congr' fun he => ?_
  refine Binding.ignores_fits e.2 _ B C fun x hx => h x (not_not_intro ?_)
  exact List.mem_flatMap.2 ⟨e, he, Decidable.not_not.1 hx⟩

theorem Demand.fits_append {d : Demand} {l l' : List (Place × List Variable)} {B : Binding} :
    d.Fits (l ++ l') B ↔ d.Fits l B ∧ d.Fits l' B := List.forall_mem_append

theorem Demand.fits_singleton {d : Demand} {e : Place × List Variable} {B : Binding} :
    d.Fits [e] B ↔ B.Fits e.2 ((d.marking.get? e.1).getD ∅) := List.forall_mem_singleton

namespace Enabling

variable {s : Session} {o : KeyOrder} {d : Demand} {G : Binding → Prop}

/-- What the diagram of one place describes. -/
def PlaceDescribed (o : KeyOrder) (d : Demand) (s : Session) (e : Place × List Variable) (c : BindingDiagram) : Prop :=
  s.Has c ∧ Describes o e.2 (fun B => B.Fits e.2 ((d.marking.get? e.1).getD ∅)) c

theorem PlaceDescribed.mono {s' : Session} {e : Place × List Variable} {c : BindingDiagram}
    (h : PlaceDescribed o d s e c) (hg : s.Grows s') : PlaceDescribed o d s' e c := ⟨h.1.mono hg, h.2⟩

/-- Joining the diagram of one more place to those of the places before. -/
theorem ensures_joinPlace {l : List (Place × List Variable)} {e : Place × List Variable} {r c : BindingDiagram}
    (hs : s.Sound) (hr : s.Has r) (hdesc : Describes o (l.flatMap Prod.snd) (fun B => d.Fits l B ∧ G B) r)
    (hc : PlaceDescribed o d s e c) (hG : Ignores G fun x => x ∈ e.2 ∧ x ∉ l.flatMap Prod.snd) :
    Ensures (Diagram.join r c) s fun r' s' =>
      s'.Has r' ∧ Describes o ((l ++ [e]).flatMap Prod.snd) (fun B => d.Fits (l ++ [e]) B ∧ G B) r' := by
  refine (ensures_join hs hr hc.1).imp fun r' s' _ _ ⟨hr', hm⟩ => ⟨hr', ?_⟩
  have hP : Ignores (fun B => d.Fits l B ∧ G B) fun x => x ∈ e.2 ∧ x ∉ l.flatMap Prod.snd :=
    ((d.ignores_fits l).mono fun x hx => hx.2).and hG
  have hQ : Ignores (fun B => B.Fits e.2 ((d.marking.get? e.1).getD ∅)) fun x => x ∈ l.flatMap Prod.snd ∧ x ∉ e.2 :=
    (Binding.ignores_fits e.2 _).mono fun x hx => hx.2
  refine (hdesc.join hc.2 hP hQ hm).congr (fun x => by simp) fun B _ => ?_
  rw [Demand.fits_append, Demand.fits_singleton]
  exact and_right_comm

/-- Whether the arc has independent variables only. -/
def isDeferred (d : Demand) (guards : List (Guard × FinSet Variable)) (e : Place × List Variable) : Bool :=
  e.2.all (isIndependent d guards)

/-- The diagrams `joined` and `deferred` for the places so far. -/
private structure JoinedSoFar (o : KeyOrder) (d : Demand) (deferred : Place × List Variable → Bool)
    (l : List (Place × List Variable)) (r : BindingDiagram × List BindingDiagram) (s : Session) : Prop where
  joined : s.Has r.1
  describes : Describes o ((l.filter fun e => !deferred e).flatMap Prod.snd)
    (fun B => d.Fits (l.filter fun e => !deferred e) B ∧ True) r.1
  places : List.Forall₂ (PlaceDescribed o d s) (l.filter deferred) r.2

/-- The places with a variable that is not independent are joined, the others are deferred. -/
theorem ensures_joinPlaces (o : KeyOrder) (d : Demand) (guards : List (Guard × FinSet Variable)) (hs : s.Sound) :
    Ensures (joinPlaces o d guards) s fun r s' =>
      s'.Has r.1 ∧
      Describes o ((d.input.entries.filter fun e => !isDeferred d guards e).flatMap Prod.snd)
        (d.Fits (d.input.entries.filter fun e => !isDeferred d guards e)) r.1 ∧
      List.Forall₂ (PlaceDescribed o d s') (d.input.entries.filter (isDeferred d guards)) r.2 := by
  have hempty : Describes o [] (fun B => d.Fits [] B ∧ True) .emptyMap := by
    intro m
    rw [mem_emptyMap_iff]
    constructor
    · rintro rfl
      exact ⟨fun k => by simp, fun e he => absurd he List.not_mem_nil, trivial⟩
    · rintro ⟨hm, -⟩
      refine FinMap.ext_get? fun k => ?_
      have hk := hm k
      simpa using hk
  have hfold : Ensures (joinPlaces o d guards) s
      (JoinedSoFar o d (isDeferred d guards) d.input.entries) := by
    refine ensures_foldlM d.input.entries hs ⟨has_emptyMap, hempty, .nil⟩ ?_
    intro l e r s₁ hs₁ h
    refine (ensures_placeChain o e.2 ((d.marking.get? e.1).getD ∅) hs₁).bind fun c s₂ hg hs₂ hc => ?_
    have hplaces := h.places.imp fun e c hec => hec.mono hg
    by_cases hfree : isDeferred d guards e = true
    · have hall : e.2.all (isIndependent d guards) = true := hfree
      rw [if_pos hall]
      refine .pure hs₂ ⟨h.joined.mono hg, ?_, ?_⟩
      · rw [List.filter_append, List.filter_cons_of_neg (by simpa using hfree), List.filter_nil, List.append_nil]
        exact h.describes
      · rw [List.filter_append, List.filter_cons_of_pos hfree, List.filter_nil]
        exact List.rel_append hplaces (.cons hc .nil)
    · have hall : ¬ e.2.all (isIndependent d guards) = true := hfree
      rw [if_neg hall]
      have hjoin := ensures_joinPlace hs₂ (h.joined.mono hg) h.describes hc fun B C _ => Iff.rfl
      refine hjoin.bind fun r' s₃ hg' hs₃ ⟨hr', hdesc⟩ => .pure hs₃ ⟨hr', ?_, ?_⟩
      · rw [List.filter_append, List.filter_cons_of_pos (by simpa using hfree), List.filter_nil]
        exact hdesc
      · rw [List.filter_append, List.filter_cons_of_neg hfree, List.filter_nil, List.append_nil]
        exact hplaces.imp fun e c hec => hec.mono hg'
  refine hfold.imp fun r s' _ _ h => ⟨h.joined, h.describes.congr (fun x => Iff.rfl) fun B _ => ?_, h.places⟩
  exact and_iff_left trivial

/-- Joining the deferred places as well: their variables do not matter to what `G` says of the others. -/
theorem keeps_joinDeferred {l free : List (Place × List Variable)} {deferred : List BindingDiagram} {r : BindingDiagram}
    (hs : s.Sound) (hr : s.Has r) (hdesc : Describes o (l.flatMap Prod.snd) (fun B => d.Fits l B ∧ G B) r)
    (hdeferred : List.Forall₂ (PlaceDescribed o d s) free deferred)
    (hG : Ignores G fun x => x ∈ free.flatMap Prod.snd) :
    Keeps (deferred.foldlM (fun r c => (liftM (Diagram.join r c) : SessionM BindingDiagram)) r) s fun r' s' =>
      s'.Has r' ∧ Describes o ((l ++ free).flatMap Prod.snd) (fun B => d.Fits (l ++ free) B ∧ G B) r' := by
  induction deferred generalizing l free r s with
  | nil =>
    cases hdeferred
    refine .pure hs ⟨hr, ?_⟩
    rw [List.append_nil]
    exact hdesc
  | cons c deferred ih =>
    obtain ⟨e, free, hc, hrest, rfl⟩ := List.forall₂_cons_right_iff.1 hdeferred
    have hGe : Ignores G fun x => x ∈ e.2 ∧ x ∉ l.flatMap Prod.snd :=
      hG.mono fun x hx => List.mem_flatMap.2 ⟨e, List.mem_cons_self, hx.1⟩
    have hGrest : Ignores G fun x => x ∈ free.flatMap Prod.snd := by
      refine hG.mono fun x hx => ?_
      obtain ⟨e', he', hx'⟩ := List.mem_flatMap.1 hx
      exact List.mem_flatMap.2 ⟨e', List.mem_cons_of_mem e he', hx'⟩
    rw [List.foldlM_cons]
    refine (keeps_lift (ensures_joinPlace hs hr hdesc hc hGe)).bind fun r' s' hg hs' ⟨hr', hdesc'⟩ => ?_
    have hind := ih hs' hr' hdesc' (hrest.imp fun e c hec => hec.mono hg) hGrest
    rwa [List.append_assoc] at hind

end Enabling

end TokenNet
