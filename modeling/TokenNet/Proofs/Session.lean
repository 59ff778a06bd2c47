import TokenNet.Proofs.Diagram.Making
import TokenNet.Proofs.Results
import TokenNet.Session

/-!
# Computations of a session

`Keeps x s P` says that the computation `x`, started in the session `s`, leaves a sound session that still has the
diagrams of `s`, whether it fails or not, and that its result satisfies `P` if it does not fail.
-/

namespace TokenNet

open Store

section Keeps

variable {α β : Type} {x : SessionM α} {f : α → SessionM β} {s : Session} {P : α → Session → Prop}
  {Q : β → Session → Prop}

structure Keeps (x : SessionM α) (s : Session) (P : α → Session → Prop) : Prop where
  grows : s.Grows (x.run.run s).2
  sound : (x.run.run s).2.Sound
  result : ∀ a, (x.run.run s).1 = .ok a → P a (x.run.run s).2

theorem run_bind_of_ok {a : α} (h : (x.run.run s).1 = .ok a) :
    ((x >>= f).run.run s).1 = ((f a).run.run (x.run.run s).2).1 := by
  rw [run_bind_state]
  rcases hrun : x.run.run s with ⟨e | a', s'⟩
  · rw [hrun] at h
    cases h
  · rw [hrun] at h
    cases h
    rfl

theorem run_bind_of_error {e : Error} (h : (x.run.run s).1 = .error e) : ((x >>= f).run.run s).1 = .error e := by
  rw [run_bind_state]
  rcases hrun : x.run.run s with ⟨e' | a, s'⟩
  · rw [hrun] at h
    cases h
    rfl
  · rw [hrun] at h
    cases h

theorem Keeps.pure {a : α} (hs : s.Sound) (h : P a s) : Keeps (pure a) s P := by
  refine ⟨.refl s, hs, fun b hb => ?_⟩
  cases hb
  exact h

theorem Keeps.bind (hx : Keeps x s P)
    (hf : ∀ a s', s.Grows s' → s'.Sound → P a s' → Keeps (f a) s' Q) : Keeps (x >>= f) s Q := by
  obtain ⟨hg, hs, hp⟩ := hx
  rcases hrun : x.run.run s with ⟨e | a, s'⟩
  · have hbind : (x >>= f).run.run s = (.error e, s') := by rw [run_bind_state, hrun]
    rw [hrun] at hg hs
    refine ⟨?_, ?_, ?_⟩
    · rwa [hbind]
    · rwa [hbind]
    · intro b hb
      rw [hbind] at hb
      cases hb
  · have hbind : (x >>= f).run.run s = (f a).run.run s' := by rw [run_bind_state, hrun]
    rw [hrun] at hg hs hp
    obtain ⟨hg', hs', hq⟩ := hf a s' hg hs (hp a rfl)
    refine ⟨?_, ?_, ?_⟩
    · rw [hbind]
      exact hg.trans hg'
    · rwa [hbind]
    · rwa [hbind]

theorem Keeps.imp {P' : α → Session → Prop} (hx : Keeps x s P)
    (h : ∀ a s', s.Grows s' → s'.Sound → P a s' → P' a s') : Keeps x s P' :=
  ⟨hx.grows, hx.sound, fun a ha => h a _ hx.grows hx.sound (hx.result a ha)⟩

/-- A computation on the store cannot fail. -/
theorem keeps_lift {y : StoreM Key Value α} (hy : Ensures y s P) : Keeps (liftM y : SessionM α) s P := by
  have hrun : (liftM y : SessionM α).run.run s = (.ok (y.run s).1, (y.run s).2) := rfl
  obtain ⟨hg, hs, hp⟩ := hy
  refine ⟨?_, ?_, ?_⟩
  · rwa [hrun]
  · rwa [hrun]
  · intro a ha
    rw [hrun] at ha ⊢
    cases ha
    exact hp

theorem keeps_ofExcept {r : Except Error α} (hs : s.Sound) (h : ∀ a, r = .ok a → P a s) :
    Keeps (SessionM.ofExcept r) s P := ⟨.refl s, hs, h⟩

theorem keeps_ofStructural {r : Except StructuralError α} (hs : s.Sound) (h : ∀ a, r = .ok a → P a s) :
    Keeps (SessionM.ofStructural r) s P :=
  keeps_ofExcept hs fun a ha => h a (mapError_eq_ok.1 ha)

theorem keeps_ofEvaluation {r : Except EvaluationError α} (hs : s.Sound) (h : ∀ a, r = .ok a → P a s) :
    Keeps (SessionM.ofEvaluation r) s P :=
  keeps_ofExcept hs fun a ha => h a (mapError_eq_ok.1 ha)

end Keeps

end TokenNet
