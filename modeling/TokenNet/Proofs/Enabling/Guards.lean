import TokenNet.Proofs.Enabling.Places

/-!
# The guards of a transition

Filtering by a guard keeps the bindings under which it holds, and the guard has a verdict on all of them:
`keeps_applyGuard`.  So after the filters of all guards, every binding before them is settled, `Guard.Settles`: either
all guards hold under it or one of them is false.  A guard without variables holds under every binding or under none, so
it is settled before: `openGuards_some`, `openGuards_none`.
-/

namespace TokenNet

open Diagram Store

/-- Either all guards hold under the binding, or one of them is false; in particular, one of them is not just an error. -/
def Guard.Settles (guards : List Guard) (B : Binding) : Prop :=
  (∀ g ∈ guards, g.holds B = .ok true) ∨ ∃ g ∈ guards, g.holds B = .ok false

namespace Enabling

/-! ### Guards without variables -/

/-- A guard without variables does not depend on the binding. -/
theorem holds_of_isEmpty {g : Guard} {vars : FinSet Variable} (hv : g.vars = .ok vars) (hempty : vars.isEmpty = true)
    (B : Binding) : g.holds B = g.holds ∅ := by
  refine Guard.holds_congr hv fun x hx => ?_
  rw [FinSet.contains_of_isEmpty hempty x] at hx
  cases hx

/-- A guard that can be read is asked if it has no variables, and kept for later otherwise. -/
theorem openGuards_cons {g : Guard} {rest : List Guard} {vars : FinSet Variable} (hv : g.vars = .ok vars) :
    openGuards (g :: rest) = if vars.isEmpty then
      g.holds ∅ >>= fun keep => if keep then openGuards rest else .ok none
      else (openGuards rest).map fun r => r.map ((g, vars) :: ·) := by
  rw [openGuards, hv]
  change (if vars.isEmpty = true then _ else _) = _
  by_cases hempty : vars.isEmpty = true
  · rw [if_pos hempty, if_pos hempty]
    rfl
  · rw [if_neg hempty, if_neg hempty]
    cases openGuards rest <;> rfl

/-- The cases of a list of guards of which the first is given. -/
private theorem openGuards_cons_eq_ok {g : Guard} {rest : List Guard} {r : Option (List (Guard × FinSet Variable))}
    (h : openGuards (g :: rest) = .ok r) : ∃ vars, g.vars = .ok vars ∧
      ((vars.isEmpty = true ∧ g.holds ∅ = .ok true ∧ openGuards rest = .ok r) ∨
        (vars.isEmpty = true ∧ g.holds ∅ = .ok false ∧ r = none) ∨
        (vars.isEmpty = false ∧ ∃ r', openGuards rest = .ok r' ∧ r = r'.map ((g, vars) :: ·))) := by
  obtain ⟨vars, hv, -⟩ := bind_eq_ok.1 h
  refine ⟨vars, hv, ?_⟩
  rw [openGuards_cons hv] at h
  by_cases hempty : vars.isEmpty = true
  · rw [if_pos hempty] at h
    obtain ⟨keep, hkeep, h⟩ := bind_eq_ok.1 h
    cases keep with
    | true => exact .inl ⟨hempty, hkeep, h⟩
    | false =>
      cases h
      exact .inr (.inl ⟨hempty, hkeep, rfl⟩)
  · rw [if_neg hempty] at h
    obtain ⟨r', hr', rfl⟩ := map_eq_ok.1 h
    exact .inr (.inr ⟨by simpa using hempty, r', hr', rfl⟩)

theorem openGuards_none {guards : List Guard} (h : openGuards guards = .ok none) :
    ∃ g ∈ guards, ∀ B, g.holds B = .ok false := by
  induction guards with
  | nil => cases h
  | cons g rest ih =>
    obtain ⟨vars, hv, ⟨-, -, hrest⟩ | ⟨hempty, hg, -⟩ | ⟨-, r', hrest, hr⟩⟩ := openGuards_cons_eq_ok h
    · obtain ⟨g', hg', hfalse⟩ := ih hrest
      exact ⟨g', List.mem_cons_of_mem g hg', hfalse⟩
    · refine ⟨g, List.mem_cons_self, fun B => ?_⟩
      rw [holds_of_isEmpty hv hempty, hg]
    · cases r' with
      | some r' => cases hr
      | none =>
        obtain ⟨g', hg', hfalse⟩ := ih hrest
        exact ⟨g', List.mem_cons_of_mem g hg', hfalse⟩

theorem openGuards_some {guards : List Guard} {r : List (Guard × FinSet Variable)}
    (h : openGuards guards = .ok (some r)) : (∀ e ∈ r, e.1 ∈ guards ∧ e.1.vars = .ok e.2) ∧
      ∀ g ∈ guards, (∃ e ∈ r, e.1 = g) ∨ ∀ B, g.holds B = .ok true := by
  induction guards generalizing r with
  | nil =>
    cases h
    exact ⟨fun e he => absurd he List.not_mem_nil, fun g hg => absurd hg List.not_mem_nil⟩
  | cons g rest ih =>
    obtain ⟨vars, hv, ⟨hempty, hg, hrest⟩ | ⟨-, -, hr⟩ | ⟨-, r', hrest, hr⟩⟩ := openGuards_cons_eq_ok h
    · obtain ⟨hvars, hall⟩ := ih hrest
      refine ⟨fun e he => ⟨List.mem_cons_of_mem g (hvars e he).1, (hvars e he).2⟩, fun g' hg' => ?_⟩
      rcases List.mem_cons.1 hg' with rfl | hg'
      · refine .inr fun B => ?_
        rw [holds_of_isEmpty hv hempty, hg]
      · exact hall g' hg'
    · cases hr
    · cases r' with
      | none => cases hr
      | some r' =>
        cases hr
        obtain ⟨hvars, hall⟩ := ih hrest
        refine ⟨fun e he => ?_, fun g' hg' => ?_⟩
        · rcases List.mem_cons.1 he with rfl | he
          · exact ⟨List.mem_cons_self, hv⟩
          · exact ⟨List.mem_cons_of_mem g (hvars e he).1, (hvars e he).2⟩
        · rcases List.mem_cons.1 hg' with rfl | hg'
          · exact .inl ⟨(g', vars), List.mem_cons_self, rfl⟩
          · rcases hall g' hg' with ⟨e, he, heq⟩ | htrue
            · exact .inl ⟨e, List.mem_cons_of_mem _ he, heq⟩
            · exact .inr htrue

/-! ### Filtering by the guards -/

variable {s : Session} {o : KeyOrder} {X : List Variable} {P : Binding → Prop} {d : BindingDiagram}

/-- The part of a map that the guard is asked about has the same values for the variables of the guard. -/
theorem holds_restrict {g : Guard} {vars : FinSet Variable} (hv : g.vars = .ok vars) {m : FinMap Key Value}
    (hm : BindsKeys o X m) : g.holds (Binding.ofPath (restrict (sortOn id (vars.keys.map o.key)) m.entries)) =
      g.holds (Binding.ofPath m.entries) := by
  have hpart := hm.restrict fun k => isChosen (sortOn id (vars.keys.map o.key)) k
  refine Guard.holds_congr hv fun x hx => ?_
  have hchosen : isChosen (sortOn id (vars.keys.map o.key)) (o.key x) = true := by
    refine List.any_eq_true.2 ⟨o.key x, mem_sortOn.2 (List.mem_map.2 ⟨x, ?_, rfl⟩), by simp⟩
    exact FinMap.contains_iff_mem_keys.1 hx
  have hget := hpart.get?_ofPath x
  rw [FinMap.get?_restrict, if_pos hchosen, ← hm.get?_ofPath] at hget
  exact hget

theorem keeps_applyGuard {g : Guard} {vars : FinSet Variable} (hv : g.vars = .ok vars) (hs : s.Sound) (hd : s.Has d)
    (h : Describes o X P d) : Keeps (applyGuard o g vars d) s fun d' s' => s'.Has d' ∧
      Describes o X (fun B => P B ∧ g.holds B = .ok true) d' ∧
      ∀ B : Binding, B.Binds X → P B → ∃ keep, g.holds B = .ok keep := by
  unfold applyGuard
  refine (keeps_lift (ensures_filter _ _ hs hd)).bind fun f s' _ hs' hf => ?_
  obtain ⟨hresult, hhas, -⟩ := hf
  refine keeps_ofEvaluation hs' fun d' hd' => ?_
  have hsift : sift (fun l => g.holds (Binding.ofPath (restrict (sortOn id (vars.keys.map o.key)) l))) d.maps =
      .ok d'.maps := by
    rw [← hresult, hd']
    rfl
  have hnormal := hs.normal hd
  have hnormal' := hs'.normal (hhas d' hd')
  refine ⟨hhas d' hd', fun m => ?_, fun B hB hP => ?_⟩
  · rw [← hnormal'.entries_mem_maps_iff, mem_of_sift hsift, hnormal.entries_mem_maps_iff, h m, and_assoc]
    refine and_congr_right fun hm => ?_
    rw [holds_restrict hv hm]
  · obtain ⟨m, hm, rfl⟩ := exists_bindsKeys o hB
    have hmem := hnormal.entries_mem_maps_iff.2 ((h m).2 ⟨hm, hP⟩)
    rw [← holds_restrict hv hm]
    exact exists_of_sift hsift hmem

/-- A diagram without paths is not filtered, and a guard has a verdict on all of its bindings, as there are none. -/
theorem keeps_applyGuard_unless {g : Guard} {vars : FinSet Variable} (hv : g.vars = .ok vars) (hs : s.Sound)
    (hd : s.Has d) (h : Describes o X P d) :
    Keeps (if d.isEmptySet then return d else applyGuard o g vars d) s fun d' s' => s'.Has d' ∧
      Describes o X (fun B => P B ∧ g.holds B = .ok true) d' ∧
      ∀ B : Binding, B.Binds X → P B → ∃ keep, g.holds B = .ok keep := by
  by_cases hempty : d.isEmptySet = true
  · rw [if_pos hempty]
    obtain rfl := hd.isEmptySet_iff.1 hempty
    have hnone := h.not_of_emptySet
    refine .pure hs ⟨hd, describes_emptySet o fun B hB hP => hnone B hB hP.1, fun B hB hP => ?_⟩
    exact absurd hP (hnone B hB)
  · rw [if_neg hempty]
    exact keeps_applyGuard hv hs hd h

/-- The bindings under which all open guards hold; every other one makes one of them false. -/
theorem keeps_applyGuards {guards : List (Guard × FinSet Variable)} (hv : ∀ e ∈ guards, e.1.vars = .ok e.2)
    (hs : s.Sound) (hd : s.Has d) (h : Describes o X P d) :
    Keeps (guards.foldlM (fun r (g, vars) => if r.isEmptySet then return r else applyGuard o g vars r) d) s
      fun d' s' => s'.Has d' ∧ Describes o X (fun B => P B ∧ ∀ g ∈ guards.map Prod.fst, g.holds B = .ok true) d' ∧
        ∀ B : Binding, B.Binds X → P B → Guard.Settles (guards.map Prod.fst) B := by
  induction guards generalizing s d P with
  | nil =>
    refine .pure hs ⟨hd, h.congr (fun x => Iff.rfl) fun B _ => by simp, fun B _ _ => .inl ?_⟩
    exact fun g hg => absurd hg List.not_mem_nil
  | cons e guards ih =>
    obtain ⟨g, vars⟩ := e
    have hfirst := keeps_applyGuard_unless (hv (g, vars) List.mem_cons_self) hs hd h
    rw [List.foldlM_cons]
    refine hfirst.bind fun d₁ s₁ _ hs₁ ⟨hd₁, hdesc, hdecided⟩ => ?_
    have hrest := ih (fun e he => hv e (List.mem_cons_of_mem _ he)) hs₁ hd₁ hdesc
    refine hrest.imp fun d₂ s₂ _ _ ⟨hd₂, hdesc₂, hsettled⟩ => ⟨hd₂, ?_, fun B hB hP => ?_⟩
    · refine hdesc₂.congr (fun x => Iff.rfl) fun B _ => ?_
      rw [List.map_cons, List.forall_mem_cons, and_assoc]
    · obtain ⟨keep, hkeep⟩ := hdecided B hB hP
      cases keep with
      | false => exact .inr ⟨g, List.mem_cons_self, hkeep⟩
      | true =>
        rcases hsettled B hB ⟨hP, hkeep⟩ with hall | ⟨g', hg', hfalse⟩
        · exact .inl (List.forall_mem_cons.2 ⟨hkeep, hall⟩)
        · exact .inr ⟨g', List.mem_cons_of_mem g hg', hfalse⟩

end Enabling

end TokenNet
