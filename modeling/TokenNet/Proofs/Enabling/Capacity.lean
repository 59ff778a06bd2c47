import TokenNet.Proofs.Enabling.Bindings
import TokenNet.Proofs.SessionCalls

/-!
# What the tokens of a place allow

The variables of an arc compete for the tokens of its place: a value that one variable has is no longer there for the
others, and a variable that stands on the arc several times takes its value as often.  `Binding.taken` collects what all
of them take.  The diagram of a place has just the bindings for which that is there, in whatever order the variables
choose: `Session.Reaches.bindings_placeChain`.
-/

namespace TokenNet

open Enabling

/-- The values of the variables of a list, each as often as the list has the variable. -/
def Binding.taken (B : Binding) (vars : List Variable) : Bag Value := .ofList (vars.filterMap B.get?)

theorem Binding.count_taken (B : Binding) (vars : List Variable) (v : Value) :
    (B.taken vars).count v = vars.countP fun x => B.get? x = some v := by
  rw [taken, Bag.count_ofList, List.count_filterMap]
  exact List.countP_congr fun x _ => by simp

/-- A binding fits the tokens if what it takes is contained in them. -/
theorem Binding.Binds.fits_iff {B : Binding} {vars : List Variable} {tokens : Bag Value} (hB : B.Binds vars) :
    B.Fits vars tokens ↔ (B.taken vars).isSubset tokens = true := by
  rw [Bag.isSubset_iff]
  simp only [count_taken]
  exact ⟨fun h => h.2, fun h => ⟨fun x hx => (hB x).2 hx, h⟩⟩

namespace Session.Reaches

variable {s s' t t' : Session} {o o' : KeyOrder} {vars : List Variable} {tokens : Bag Value} {d d' : BindingDiagram}

/-- The bindings of a place's diagram, whatever the session and the order. -/
private theorem placeChain_lists (hs : Reaches {} s) (h : (placeChain o vars tokens).run s = (d, s')) :
    (∀ B, B ∈ bindings d ↔ B.Binds vars ∧ (B.taken vars).isSubset tokens = true) ∧ (bindings d).Nodup ∧
      (d = .emptySet ↔ ∀ B : Binding, B.Binds vars → (B.taken vars).isSubset tokens = false) := by
  obtain ⟨-, hsound, hd, hdescribes⟩ := ensures_placeChain o vars tokens hs.sound
  rw [h] at hsound hd hdescribes
  have htaken := hdescribes.congr (Q := fun B => (B.taken vars).isSubset tokens = true) (fun _ => Iff.rfl)
    fun B hB => hB.fits_iff
  have hnormal := hsound.normal hd
  have hnone := htaken.isEmptySet_iff hsound hd
  simp only [Bool.not_eq_true] at hnone
  refine ⟨fun B => htaken.mem_bindings hnormal, htaken.nodup_bindings hnormal, ?_⟩
  rw [← hnone, hd.isEmptySet_iff]

/-- The diagram of a place lists each binding of the variables of an arc for which the tokens suffice once, and is the
empty set if there is none; another order of the variables, in any session, gives the same bindings. -/
theorem bindings_placeChain (hs : Reaches {} s) (ht : Reaches {} t)
    (h : (placeChain o vars tokens).run s = (d, s')) (h' : (placeChain o' vars tokens).run t = (d', t')) :
    (∀ B, B ∈ bindings d ↔ B.Binds vars ∧ (B.taken vars).isSubset tokens = true) ∧ (bindings d).Nodup ∧
      (d = .emptySet ↔ ∀ B : Binding, B.Binds vars → (B.taken vars).isSubset tokens = false) ∧
      (bindings d').Perm (bindings d) ∧ (d' = .emptySet ↔ d = .emptySet) := by
  obtain ⟨hmem, hnodup, hnone⟩ := placeChain_lists hs h
  obtain ⟨hmem', hnodup', hnone'⟩ := placeChain_lists ht h'
  refine ⟨hmem, hnodup, hnone, ?_, ?_⟩
  · exact (List.perm_ext_iff_of_nodup hnodup' hnodup).2 fun B => by rw [hmem, hmem']
  · rw [hnone, hnone']

theorem bindings_placeChain_competing :
    let tokens : Bag Value := .ofList [.int 1, .int 1, .int 2]
    ∃ d d' s t, (placeChain (.mk ["x", "y"]) ["y", "x", "x"] tokens).run {} = (d, s) ∧
      (placeChain (.mk ["y", "x"]) ["y", "x", "x"] tokens).run {} = (d', t) ∧
      bindings d = [.ofList [("x", .int 1), ("y", .int 2)]] ∧ (bindings d').Perm (bindings d) ∧
      ∀ B, B ∈ bindings d ↔ B.Binds ["y", "x", "x"] ∧ (B.taken ["y", "x", "x"]).isSubset tokens = true := by
  intro tokens
  have hfound : bindings ((placeChain (.mk ["x", "y"]) ["y", "x", "x"] tokens).run {}).1 =
      [.ofList [("x", .int 1), ("y", .int 2)]] := by decide +kernel
  rcases h : (placeChain (.mk ["x", "y"]) ["y", "x", "x"] tokens).run {} with ⟨d, s⟩
  rcases h' : (placeChain (.mk ["y", "x"]) ["y", "x", "x"] tokens).run {} with ⟨d', t⟩
  rw [h] at hfound
  obtain ⟨hmem, -, -, hperm, -⟩ := bindings_placeChain (.refl {}) (.refl {}) h h'
  exact ⟨d, d', s, t, rfl, rfl, hfound, hperm, hmem⟩

end Session.Reaches

end TokenNet
