import TokenNet.Proofs.SessionCalls

/-!
# The past of a session does not matter

Two sessions have different diagrams and remember different results, so what one computation returns in both has
different indices.  But it has the same maps: `Agree x y s t R` says that `x` in the session `s` and `y` in the session `t`
fail with the same error, or return what `R` relates.  The enabled bindings agree, `agree_enabledBindings`, and
whatever is computed from the bindings of a diagram alone is the same, so sessions that were used differently give the
same results: `agree_listBindings`, `agree_successors`, `agree_explore`.
-/

namespace TokenNet

open Diagram Store Enabling

/-! ### Two computations -/

/-- Started in `s` and in `t`, the computations leave sound sessions with the same diagrams as before; they fail with the
same error, or succeed with results that are related. -/
structure Agree {α β : Type} (x : SessionM α) (y : SessionM β) (s t : Session)
    (R : α → β → Session → Session → Prop) : Prop where
  left : Keeps x s fun _ _ => True
  right : Keeps y t fun _ _ => True
  outcome : (∃ e, (x.run.run s).1 = .error e ∧ (y.run.run t).1 = .error e) ∨
    ∃ a b, (x.run.run s).1 = .ok a ∧ (y.run.run t).1 = .ok b ∧ R a b (x.run.run s).2 (y.run.run t).2

section Agree

variable {α β γ δ : Type} {x : SessionM α} {y : SessionM β} {f : α → SessionM γ} {g : β → SessionM δ} {s t : Session}
  {R : α → β → Session → Session → Prop} {Q : γ → δ → Session → Session → Prop}

theorem agree_pure {a : α} {b : β} (hs : s.Sound) (ht : t.Sound) (h : R a b s t) : Agree (pure a) (pure b) s t R :=
  ⟨.pure hs trivial, .pure ht trivial, .inr ⟨a, b, rfl, rfl, h⟩⟩

theorem agree_ofExcept {r : Except Error α} (hs : s.Sound) (ht : t.Sound) :
    Agree (SessionM.ofExcept r) (SessionM.ofExcept r) s t fun a b _ _ => a = b ∧ r = .ok a := by
  refine ⟨keeps_ofExcept hs fun _ _ => trivial, keeps_ofExcept ht fun _ _ => trivial, ?_⟩
  cases r with
  | error e => exact .inl ⟨e, rfl, rfl⟩
  | ok a => exact .inr ⟨a, a, rfl, rfl, rfl, rfl⟩

/-- Computations on the store cannot fail. -/
theorem agree_lift {x : StoreM Key Value α} {y : StoreM Key Value β} {P : α → Session → Prop} {P' : β → Session → Prop}
    (hx : Ensures x s P) (hy : Ensures y t P') :
    Agree (liftM x) (liftM y) s t fun a b s' t' => P a s' ∧ P' b t' := by
  have hright : ∀ {γ : Type} {z : StoreM Key Value γ} {u : Session},
      (liftM z : SessionM γ).run.run u = (.ok (z.run u).1, (z.run u).2) := rfl
  refine ⟨(keeps_lift hx).imp fun _ _ _ _ _ => trivial, (keeps_lift hy).imp fun _ _ _ _ _ => trivial, .inr ?_⟩
  rw [hright, hright]
  exact ⟨_, _, rfl, rfl, hx.2.2, hy.2.2⟩

theorem Agree.bind (h : Agree x y s t R)
    (hfg : ∀ a b s' t', s.Grows s' → s'.Sound → t.Grows t' → t'.Sound → R a b s' t' → Agree (f a) (g b) s' t' Q) :
    Agree (x >>= f) (y >>= g) s t Q := by
  obtain ⟨⟨hg, hs', -⟩, ⟨hg', ht', -⟩, houtcome⟩ := h
  have hx := run_bind_state x f s
  have hy := run_bind_state y g t
  rcases hxs : x.run.run s with ⟨ra, s'⟩
  rcases hyt : y.run.run t with ⟨rb, t'⟩
  rw [hxs] at hg hs' hx houtcome
  rw [hyt] at hg' ht' hy houtcome
  rcases houtcome with ⟨e, rfl, rfl⟩ | ⟨a, b, rfl, rfl, hR⟩
  · refine ⟨⟨?_, ?_, fun _ _ => trivial⟩, ⟨?_, ?_, fun _ _ => trivial⟩, .inl ⟨e, ?_, ?_⟩⟩
    · rwa [hx]
    · rwa [hx]
    · rwa [hy]
    · rwa [hy]
    · rw [hx]
    · rw [hy]
  · have hrest := hfg a b s' t' hg hs' hg' ht' hR
    refine ⟨⟨?_, ?_, fun _ _ => trivial⟩, ⟨?_, ?_, fun _ _ => trivial⟩, ?_⟩
    · rw [hx]
      exact hg.trans hrest.left.grows
    · rw [hx]
      exact hrest.left.sound
    · rw [hy]
      exact hg'.trans hrest.right.grows
    · rw [hy]
      exact hrest.right.sound
    · rw [hx, hy]
      exact hrest.outcome

theorem Agree.imp {R' : α → β → Session → Session → Prop} (h : Agree x y s t R)
    (hR : ∀ a b s' t', s'.Sound → t'.Sound → R a b s' t' → R' a b s' t') : Agree x y s t R' := by
  refine ⟨h.left, h.right, h.outcome.imp_right ?_⟩
  rintro ⟨a, b, hxa, hyb, hab⟩
  exact ⟨a, b, hxa, hyb, hR a b _ _ h.left.sound h.right.sound hab⟩

/-- Where the results are equal, so are the outcomes. -/
theorem Agree.eq {x y : SessionM α} (h : Agree x y s t fun a b _ _ => a = b) :
    (x.run.run s).1 = (y.run.run t).1 := by
  rcases h.outcome with ⟨e, hx, hy⟩ | ⟨a, b, hx, hy, rfl⟩
  · rw [hx, hy]
  · rw [hx, hy]

/-- Folding the same list, one step like the other. -/
theorem agree_foldlM {ι : Type} {R : α → β → Session → Session → Prop} {f : α → ι → SessionM α} {g : β → ι → SessionM β}
    {l : List ι} {a : α} {b : β} (hs : s.Sound) (ht : t.Sound) (hab : R a b s t)
    (hfg : ∀ c ∈ l, ∀ a b s t, s.Sound → t.Sound → R a b s t → Agree (f a c) (g b c) s t R) :
    Agree (l.foldlM f a) (l.foldlM g b) s t R := by
  induction l generalizing a b s t with
  | nil => exact agree_pure hs ht hab
  | cons c l ih =>
    rw [List.foldlM_cons, List.foldlM_cons]
    refine (hfg c List.mem_cons_self a b s t hs ht hab).bind fun a' b' s' t' _ hs' _ ht' hab' => ?_
    exact ih hs' ht' hab' fun c' hc' => hfg c' (List.mem_cons_of_mem c hc')

end Agree

/-! ### Diagrams with the same maps -/

/-- Each of the two diagrams is in its session, and their maps are the same. -/
structure SameMaps (d e : BindingDiagram) (s t : Session) : Prop where
  left : s.Has d
  right : t.Has e
  maps_eq : d.maps = e.maps

section SameMaps

variable {s t s' t' : Session} {d e d' e' : BindingDiagram}

theorem SameMaps.mono (h : SameMaps d e s t) (hg : s.Grows s') (hg' : t.Grows t') : SameMaps d e s' t' :=
  ⟨h.left.mono hg, h.right.mono hg', h.maps_eq⟩

theorem sameMaps_of_mem_iff (hs : s.Sound) (ht : t.Sound) (hd : s.Has d) (he : t.Has e) (h : ∀ m, m ∈ d ↔ m ∈ e) :
    SameMaps d e s t :=
  ⟨hd, he, (hs.normal hd).maps_eq (ht.normal he) h⟩

theorem SameMaps.mem_iff (h : SameMaps d e s t) (hs : s.Sound) (ht : t.Sound) {m : FinMap Key Value} :
    m ∈ d ↔ m ∈ e := by
  rw [← (hs.normal h.left).entries_mem_maps_iff, h.maps_eq, (ht.normal h.right).entries_mem_maps_iff]

theorem SameMaps.isEmptySet_eq (h : SameMaps d e s t) (hs : s.Sound) (ht : t.Sound) : d.isEmptySet = e.isEmptySet := by
  rw [Bool.eq_iff_iff, isEmptySet_iff, isEmptySet_iff, (hs.normal h.left).index_eq_zero_iff,
    (ht.normal h.right).index_eq_zero_iff]
  exact forall_congr' fun m => not_congr (h.mem_iff hs ht)

theorem SameMaps.bindings_eq (h : SameMaps d e s t) : bindings d = bindings e := congrArg (List.map Binding.ofPath) h.maps_eq

theorem agree_join (hs : s.Sound) (ht : t.Sound) (h : SameMaps d e s t) (h' : SameMaps d' e' s t) :
    Agree (liftM (Diagram.join d d') : SessionM BindingDiagram) (liftM (Diagram.join e e')) s t SameMaps := by
  refine (agree_lift (ensures_join hs h.left h'.left) (ensures_join ht h.right h'.right)).imp ?_
  intro r r' s' t' hs' ht' ⟨⟨hr, hm⟩, ⟨hr', hm'⟩⟩
  refine sameMaps_of_mem_iff hs' ht' hr hr' fun m => ?_
  rw [hm, hm']
  unfold JoinMember
  simp only [h.mem_iff hs ht, h'.mem_iff hs ht]

/-- A filter sees the maps only, also where its test fails. -/
theorem agree_applyGuard (o : KeyOrder) (g : Guard) (vars : FinSet Variable) (hs : s.Sound) (ht : t.Sound)
    (h : SameMaps d e s t) : Agree (applyGuard o g vars d) (applyGuard o g vars e) s t SameMaps := by
  unfold applyGuard
  refine (agree_lift (ensures_filter _ _ hs h.left) (ensures_filter _ _ ht h.right)).bind ?_
  rintro f f' s' t' - hs' - ht' ⟨⟨hsift, hhas, -⟩, ⟨hsift', hhas', -⟩⟩
  rw [h.maps_eq, ← hsift'] at hsift
  refine ⟨keeps_ofEvaluation hs' fun _ _ => trivial, keeps_ofEvaluation ht' fun _ _ => trivial, ?_⟩
  rcases hf : f.result with err | r
  · rcases hf' : f'.result with err' | r'
    · rw [hf, hf'] at hsift
      cases hsift
      exact .inl ⟨.evaluation err, rfl, rfl⟩
    · rw [hf, hf'] at hsift
      cases hsift
  · rcases hf' : f'.result with err' | r'
    · rw [hf, hf'] at hsift
      cases hsift
    · rw [hf, hf'] at hsift
      exact .inr ⟨r, r', rfl, rfl, hhas r hf, hhas' r' hf', Except.ok.inj hsift⟩

end SameMaps

/-! ### Enabled bindings -/

section Enabled

variable {s t : Session}

/-- The joined places have the same maps, and so has each of the deferred ones. -/
theorem agree_joinPlaces (o : KeyOrder) (d : Demand) (guards : List (Guard × FinSet Variable)) (hs : s.Sound)
    (ht : t.Sound) :
    Agree (liftM (joinPlaces o d guards) : SessionM _) (liftM (joinPlaces o d guards)) s t fun r r' s' t' =>
      SameMaps r.1 r'.1 s' t' ∧ List.Forall₂ (fun c c' => SameMaps c c' s' t') r.2 r'.2 := by
  refine (agree_lift (ensures_joinPlaces o d guards hs) (ensures_joinPlaces o d guards ht)).imp ?_
  intro r r' s' t' hs' ht' ⟨⟨hr, hdesc, hplaces⟩, ⟨hr', hdesc', hplaces'⟩⟩
  refine ⟨sameMaps_of_mem_iff hs' ht' hr hr' fun m => (hdesc m).trans (hdesc' m).symm, ?_⟩
  -- both lists describe the deferred places, one by one
  generalize d.input.entries.filter (isDeferred d guards) = places at hplaces hplaces'
  generalize r.2 = deferred at hplaces
  generalize r'.2 = deferred' at hplaces'
  induction hplaces generalizing deferred' with
  | nil =>
    cases hplaces'
    exact .nil
  | cons hc _ ih =>
    cases hplaces' with
    | cons hc' hrest =>
      refine .cons (sameMaps_of_mem_iff hs' ht' hc.1 hc'.1 fun m => ?_) (ih _ hrest)
      exact (hc.2 m).trans (hc'.2 m).symm

private theorem agree_joinDeferred {r r' : BindingDiagram} {deferred deferred' : List BindingDiagram} (hs : s.Sound)
    (ht : t.Sound) (hr : SameMaps r r' s t) (h : List.Forall₂ (fun c c' => SameMaps c c' s t) deferred deferred') :
    Agree (deferred.foldlM (fun r c => (liftM (Diagram.join r c) : SessionM BindingDiagram)) r)
      (deferred'.foldlM (fun r c => (liftM (Diagram.join r c) : SessionM BindingDiagram)) r') s t SameMaps := by
  induction deferred generalizing deferred' r r' s t with
  | nil =>
    cases h
    exact agree_pure hs ht hr
  | cons c deferred ih =>
    cases h with
    | cons hc hrest =>
      rw [List.foldlM_cons, List.foldlM_cons]
      refine (agree_join hs ht hr hc).bind fun d e s' t' hg hs' hg' ht' hd => ?_
      exact ih hs' ht' hd (hrest.imp fun c c' h => h.mono hg hg')

/-- The enabled bindings of a transition agree in any two sessions. -/
theorem agree_enabledBindings (net : Net) (tn : TransitionName) (m : Marking) (hs : s.Sound) (ht : t.Sound) :
    Agree (net.enabledBindings tn m) (net.enabledBindings tn m) s t SameMaps := by
  have hempty : ∀ {s t : Session}, s.Sound → t.Sound →
      Agree (pure .emptySet : SessionM BindingDiagram) (pure .emptySet) s t SameMaps :=
    fun hs ht => agree_pure hs ht ⟨has_emptySet, has_emptySet, rfl⟩
  unfold Net.enabledBindings
  refine (agree_ofExcept hs ht).bind ?_
  rintro d? _ s₁ t₁ - hs₁ - ht₁ ⟨rfl, -⟩
  cases d? with
  | none => exact hempty hs₁ ht₁
  | some d =>
    dsimp only
    by_cases hd : (d.input.keys.any fun p => ((d.marking.get? p).getD ∅).isEmpty) = true
    · rw [if_pos hd]
      exact hempty hs₁ ht₁
    · rw [if_neg hd]
      refine (agree_ofExcept hs₁ ht₁).bind ?_
      rintro tr _ s₂ t₂ - hs₂ - ht₂ ⟨rfl, -⟩
      refine (agree_ofExcept hs₂ ht₂).bind ?_
      rintro guards? _ s₃ t₃ - hs₃ - ht₃ ⟨rfl, -⟩
      cases guards? with
      | none => exact hempty hs₃ ht₃
      | some guards =>
        refine (agree_ofExcept hs₃ ht₃).bind ?_
        rintro o _ s₄ t₄ - hs₄ - ht₄ ⟨rfl, -⟩
        refine (agree_joinPlaces o d guards hs₄ ht₄).bind ?_
        intro r r' s₅ t₅ _ hs₅ _ ht₅ ⟨hjoined, hdeferred⟩
        have hfilters : Agree
            (guards.foldlM (fun r e => if r.isEmptySet then return r else applyGuard o e.1 e.2 r) r.1)
            (guards.foldlM (fun r e => if r.isEmptySet then return r else applyGuard o e.1 e.2 r) r'.1) s₅ t₅
            SameMaps := by
          refine agree_foldlM hs₅ ht₅ hjoined fun e _ a b s t hs ht hab => ?_
          rw [hab.isEmptySet_eq hs ht]
          by_cases hb : b.isEmptySet = true
          · rw [if_pos hb, if_pos hb]
            exact agree_pure hs ht hab
          · rw [if_neg hb, if_neg hb]
            exact agree_applyGuard o e.1 e.2 hs ht hab
        refine hfilters.bind fun a b s₆ t₆ hg hs₆ hg' ht₆ hab => ?_
        exact agree_joinDeferred hs₆ ht₆ hab (hdeferred.imp fun c c' h => h.mono hg hg')

end Enabled

/-! ### What is computed from the bindings -/

section Computed

variable {s t : Session} (net : Net)

theorem agree_listBindings (tn : TransitionName) (m : Marking) (hs : s.Sound) (ht : t.Sound) :
    Agree (net.listBindings tn m) (net.listBindings tn m) s t fun a b _ _ => a = b := by
  unfold Net.listBindings
  refine (agree_enabledBindings net tn m hs ht).bind fun d e s₁ t₁ _ hs₁ _ ht₁ hde => ?_
  refine (agree_lift (ensures_count d s₁ hs₁ hde.left) (ensures_count e t₁ ht₁ hde.right)).bind ?_
  rintro n n' s₂ t₂ - hs₂ - ht₂ ⟨rfl, rfl⟩
  refine agree_pure hs₂ ht₂ ?_
  rw [hde.bindings_eq, hde.maps_eq]

theorem agree_successors (tn : TransitionName) (m : Marking) (hs : s.Sound) (ht : t.Sound) :
    Agree (net.successors tn m) (net.successors tn m) s t fun a b _ _ => a = b := by
  unfold Net.successors
  refine (agree_enabledBindings net tn m hs ht).bind fun d e s₁ t₁ _ hs₁ _ ht₁ hde => ?_
  have hfire : net.fireAll tn m d = net.fireAll tn m e := by
    rw [Net.fireAll_eq_mapM, Net.fireAll_eq_mapM, hde.bindings_eq]
  rw [hfire]
  exact (agree_ofExcept hs₁ ht₁).imp fun _ _ _ _ _ _ h => h.1

variable {limits limits' : Limits}

/-- One more marking is found alike, whatever the session may remember. -/
private theorem followBinding_congr (h : limits.states = limits'.states) (tn : TransitionName) (m : Marking) :
    net.followBinding limits tn m = net.followBinding limits' tn m := by
  have hadd : Found.add limits = Found.add limits' := by
    funext f m
    unfold Found.add
    rw [h]
  funext f b
  unfold Net.followBinding
  rw [hadd]

private theorem agree_followTransition (h : limits.states = limits'.states) (m : Marking) (f : Found)
    (tn : TransitionName) (hs : s.Sound) (ht : t.Sound) :
    Agree (net.followTransition limits m f tn) (net.followTransition limits' m f tn) s t fun a b _ _ => a = b := by
  unfold Net.followTransition
  refine (agree_enabledBindings net tn m hs ht).bind fun d e s₁ t₁ _ hs₁ _ ht₁ hde => ?_
  rw [foldBindings_eq_foldlM, foldBindings_eq_foldlM, hde.bindings_eq, followBinding_congr net h]
  exact (agree_ofExcept hs₁ ht₁).imp fun _ _ _ _ _ _ h => h.1

private theorem agree_followMarking (h : limits.states = limits'.states) (f : Found) (m : Marking) (hs : s.Sound)
    (ht : t.Sound) :
    Agree (net.followMarking limits f m) (net.followMarking limits' f m) s t fun a b _ _ => a = b := by
  refine agree_foldlM hs ht rfl fun tn _ a b s t hs ht hab => ?_
  rw [hab]
  exact agree_followTransition net h m b tn hs ht

/-- Forgetting results at different times does not change what is found. -/
theorem agree_exploreFrom (h : limits.states = limits'.states) (n : Nat) (seen : Std.TreeSet Marking)
    (frontier : List Marking) (hs : s.Sound) (ht : t.Sound) :
    Agree (net.exploreFrom limits n seen frontier) (net.exploreFrom limits' n seen frontier) s t
      fun a b _ _ => a = b := by
  induction n generalizing seen frontier s t with
  | zero =>
    cases frontier with
    | nil => exact agree_pure hs ht rfl
    | cons m frontier =>
      exact (agree_ofExcept (r := .error (.cancelled .iterations)) hs ht).imp fun _ _ _ _ _ _ h => h.1
  | succ n ih =>
    cases frontier with
    | nil => exact agree_pure hs ht rfl
    | cons m frontier =>
      unfold Net.exploreFrom
      have hiteration : Agree ((m :: frontier).foldlM (net.followMarking limits) { seen := seen })
          ((m :: frontier).foldlM (net.followMarking limits') { seen := seen }) s t fun a b _ _ => a = b := by
        refine agree_foldlM hs ht rfl fun m' _ a b s t hs ht hab => ?_
        rw [hab]
        exact agree_followMarking net h b m' hs ht
      refine hiteration.bind ?_
      rintro f _ s₁ t₁ - hs₁ - ht₁ rfl
      have htrim : Agree limits.trimCaches limits'.trimCaches s₁ t₁ fun _ _ _ _ => True :=
        ⟨keeps_trimCaches hs₁, keeps_trimCaches ht₁, .inr ⟨(), (), rfl, rfl, trivial⟩⟩
      exact htrim.bind fun _ _ s₂ t₂ _ hs₂ _ ht₂ _ => ih f.seen f.next.reverse hs₂ ht₂

theorem agree_explore (hi : limits.iterations = limits'.iterations) (h : limits.states = limits'.states)
    (initial : Marking) (hs : s.Sound) (ht : t.Sound) :
    Agree (net.explore initial limits) (net.explore initial limits') s t fun a b _ _ => a = b := by
  unfold Net.explore
  refine (agree_ofExcept hs ht).bind ?_
  rintro r _ s₁ t₁ - hs₁ - ht₁ ⟨rfl, -⟩
  rw [hi]
  exact agree_exploreFrom r.net h _ _ _ hs₁ ht₁

end Computed

end TokenNet
