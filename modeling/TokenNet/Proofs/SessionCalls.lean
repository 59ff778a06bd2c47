import TokenNet.Proofs.Diagram.Calls
import TokenNet.Proofs.Exploration

/-!
# Using a session

`Session.Reaches s s'` says that the session `s` has become `s'` after any computations on any nets and any operations on
its diagrams.  Sessions stay sound that way, so what has been computed before does not matter to later results: the
bindings that are found are the enabled ones, `Session.Reaches.mem_bindings`, and each of them is found once,
`Session.Reaches.count_bindings`.
-/

namespace TokenNet

open Diagram Store

/-- Using the first session leads to the second one; a computation may have failed on the way. -/
inductive Session.Reaches : Session → Session → Prop where
  | refl (s : Session) : Reaches s s
  | operation {s s' : Session} {ε : Type} (h : Reaches s s') (c : Call ε Key Value) (hc : c.Admissible s') :
      Reaches s (c.run.run s').2
  | enabledBindings {s s' : Session} (h : Reaches s s') (net : Net) (t : TransitionName) (m : Marking) :
      Reaches s ((net.enabledBindings t m).run.run s').2
  | isEnabled {s s' : Session} (h : Reaches s s') (net : Net) (t : TransitionName) (m : Marking) :
      Reaches s ((net.isEnabled t m).run.run s').2
  | successors {s s' : Session} (h : Reaches s s') (net : Net) (t : TransitionName) (m : Marking) :
      Reaches s ((net.successors t m).run.run s').2
  | explore {s s' : Session} (h : Reaches s s') (net : Net) (initial : Marking) (limits : Limits) :
      Reaches s ((net.explore initial limits).run.run s').2

variable {s s' : Session}

theorem Session.Reaches.trans {s s' s'' : Session} (h : Reaches s s') (h' : Reaches s' s'') :
    Reaches s s'' := by
  induction h' with
  | refl => exact h
  | operation _ c hc ih => exact ih.operation c hc
  | enabledBindings _ net t m ih => exact ih.enabledBindings net t m
  | isEnabled _ net t m ih => exact ih.isEnabled net t m
  | successors _ net t m ih => exact ih.successors net t m
  | explore _ net initial limits ih => exact ih.explore net initial limits

theorem Net.keeps_isEnabled (net : Net) (t : TransitionName) (m : Marking) (hs : s.Sound) :
    Keeps (net.isEnabled t m) s fun b _ => ∃ tr, net.transition? t = some tr ∧ (b = true ↔ ∃ B, tr.Enables m B) := by
  refine (net.keeps_enabledBindings t m hs).bind fun d s' _ hs' ⟨hd, tr, o, ht, hlists⟩ => .pure hs' ⟨tr, ht, ?_⟩
  rw [Bool.not_eq_true', ← Bool.not_eq_true, hlists.isEmptySet_iff hs' hd, Classical.not_forall]
  simp

theorem Session.Reaches.sound_grows (h : Reaches s s') (hs : s.Sound) : s'.Sound ∧ s.Grows s' := by
  induction h with
  | refl => exact ⟨hs, .refl _⟩
  | operation _ c hc ih =>
    obtain ⟨hg, hs', -⟩ := Call.ensures ih.1 hc
    exact ⟨hs', ih.2.trans hg⟩
  | enabledBindings _ net t m ih =>
    have hkept := net.keeps_enabledBindings t m ih.1
    exact ⟨hkept.sound, ih.2.trans hkept.grows⟩
  | isEnabled _ net t m ih =>
    have hkept := net.keeps_isEnabled t m ih.1
    exact ⟨hkept.sound, ih.2.trans hkept.grows⟩
  | successors _ net t m ih =>
    have hkept := net.keeps_successors t m ih.1
    exact ⟨hkept.sound, ih.2.trans hkept.grows⟩
  | explore _ net initial limits ih =>
    have hkept := net.keeps_explore initial limits ih.1
    exact ⟨hkept.sound, ih.2.trans hkept.grows⟩

theorem Session.Reaches.sound (h : Reaches {} s) : s.Sound := (h.sound_grows sound_empty).1

/-- If the search for enabled bindings succeeds, then the guards settle all covered bindings, and the enabled ones are
found. -/
theorem Session.Reaches.mem_bindings (hs : Reaches {} s) {net : Net} {t : TransitionName} {m : Marking}
    {d : BindingDiagram} (h : (net.enabledBindings t m).run.run s = (.ok d, s')) :
    ∃ tr, net.transition? t = some tr ∧ tr.Settled m ∧ ∀ B, B ∈ bindings d ↔ tr.Enables m B := by
  have hkept := net.keeps_enabledBindings t m hs.sound
  obtain ⟨hd, tr, o, ht, hlists⟩ := hkept.result d (by rw [h])
  exact ⟨tr, ht, hlists.settled, fun B => hlists.mem_bindings (hkept.sound.normal hd)⟩

/-- If the search for enabled bindings succeeds, its result is the empty set if and only if there are none. -/
theorem Session.Reaches.eq_emptySet_iff (hs : Reaches {} s) {net : Net} {t : TransitionName} {m : Marking}
    {d : BindingDiagram} (h : (net.enabledBindings t m).run.run s = (.ok d, s')) :
    ∃ tr, net.transition? t = some tr ∧ (d = .emptySet ↔ ∀ B, ¬ tr.Enables m B) := by
  have hkept := net.keeps_enabledBindings t m hs.sound
  obtain ⟨hd, tr, o, ht, hlists⟩ := hkept.result d (by rw [h])
  exact ⟨tr, ht, hd.isEmptySet_iff.symm.trans (hlists.isEmptySet_iff hkept.sound hd)⟩

/-- However a session was used, and whatever happens to it later: if the search for enabled bindings succeeds, each of its
bindings is listed once, their number can be counted from then on, and no result but the empty set looks like it. -/
theorem Session.Reaches.count_bindings (hs : Reaches {} s) {net : Net} {t : TransitionName} {m : Marking}
    {d : BindingDiagram} (h : (net.enabledBindings t m).run.run s = (.ok d, s')) {s'' : Session} (hs'' : Reaches s' s'') :
    (bindings d).Nodup ∧ ((Diagram.count d).run s'').1 = toWord (bindings d).length ∧
      (d.isEmptySet = true ↔ d = .emptySet) := by
  have hkept := net.keeps_enabledBindings t m hs.sound
  have hlisted := hkept.result d (by rw [h])
  have hsound := hkept.sound
  rw [h] at hlisted hsound
  obtain ⟨hd, tr, o, -, hlists⟩ := hlisted
  obtain ⟨hsound'', hgrows⟩ := hs''.sound_grows hsound
  refine ⟨hlists.nodup_bindings (hsound.normal hd), ?_, hd.isEmptySet_iff⟩
  rw [(ensures_count d s'' hsound'' (hd.mono hgrows)).2.2, bindings, List.length_map]

end TokenNet
