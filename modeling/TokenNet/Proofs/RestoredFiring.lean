import TokenNet.Proofs.SimplifiedNets
import TokenNet.Proofs.Update

/-!
# Firing under restored bindings

A transition of a simplified net fires under a binding exactly as the transition that it comes from fires under the
restored binding, with the same marking, or none, or the same error: `Simplified.fire_restore`.

`Arcs.Restores` says this of the tokens of arcs.  Every elimination keeps it, since replacing a variable is updating the
binding; so does a simplification, `Transition.restores_of_simplify`, and so do its repetitions,
`Simplified.Restores.repeatSimplify`.  Guards play no part in this.
-/

namespace TokenNet

/-! ### Tokens of arcs -/

namespace Arcs

variable {eliminated eliminated' : Eliminations} {arcs arcs' original : Arcs}

/-- Under every binding that can be restored, the arcs denote the tokens that the original arcs denote under the restored
binding, or the same error. -/
def Restores (eliminated : Eliminations) (arcs original : Arcs) : Prop :=
  ∀ b b', Eliminations.restore eliminated b = .ok b' → Arcs.tokens b arcs = Arcs.tokens b' original

theorem restores_refl (arcs : Arcs) : Restores [] arcs arcs := by
  intro b b' hb
  cases hb
  rfl

theorem Restores.trans (h : Restores eliminated arcs original) (h' : Restores eliminated' arcs' arcs) :
    Restores (eliminated ++ eliminated') arcs' original := by
  intro b b' hb
  rw [Eliminations.restore_append] at hb
  obtain ⟨b₁, hb₁, hb'⟩ := bind_eq_ok.1 hb
  rw [h' b b₁ hb₁, h b₁ b' hb']

theorem restores_substitute {x : Variable} {r : Inscription} (h : Arcs.substitute arcs x r = .ok arcs') :
    Restores [(x, r)] arcs' arcs := by
  intro b b' hb
  obtain ⟨v, hv, rfl⟩ := Eliminations.restore_singleton_eq_ok.1 hb
  exact tokens_substitute hv h

end Arcs

/-! ### Transitions -/

/-- The arcs of the transition denote what those of the original transition denote under the restored binding. -/
structure Transition.Restores (eliminated : Eliminations) (tr original : Transition) : Prop where
  taken : Arcs.Restores eliminated tr.input original.input
  made : Arcs.Restores eliminated tr.output original.output

theorem Transition.Restores.trans {eliminated eliminated' : Eliminations} {tr tr' original : Transition}
    (h : tr.Restores eliminated original) (h' : tr'.Restores eliminated' tr) :
    tr'.Restores (eliminated ++ eliminated') original :=
  ⟨h.taken.trans h'.taken, h.made.trans h'.made⟩

theorem Transition.restores_of_simplify {t : TransitionName} {tr tr' : Transition} {eliminated : Eliminations}
    (h : tr.simplify t = .ok (tr', eliminated)) : tr'.Restores eliminated tr := by
  have hI : Propagation.Invariant fun input output _ eliminated =>
      Arcs.Restores eliminated input tr.input ∧ Arcs.Restores eliminated output tr.output :=
    ⟨fun h _ _ => h, id, fun h _ _ hinput houtput _ =>
      ⟨h.1.trans (Arcs.restores_substitute hinput), h.2.trans (Arcs.restores_substitute houtput)⟩⟩
  obtain ⟨htaken, hmade⟩ := hI.simplify ⟨Arcs.restores_refl tr.input, Arcs.restores_refl tr.output⟩ h
  exact ⟨htaken, hmade⟩

/-! ### Nets -/

variable {net : Net} {s next simplified : Simplified} {t : TransitionName}

/-- The net has the transitions of the original net, and each of them restores its original. -/
structure Simplified.Restores (s : Simplified) (original : Net) : Prop where
  names : ∀ t, (s.net.transition? t).isSome = (original.transition? t).isSome
  transitions : ∀ t tr, original.transition? t = some tr →
    ∃ tr', s.net.transition? t = some tr' ∧ tr'.Restores (s.eliminatedOf t) tr

theorem Net.restores_of_simplify (h : net.simplify = .ok s) : s.Restores net := by
  obtain ⟨hnames, htransitions⟩ := Net.simplify_eq_ok h
  refine ⟨hnames, fun t tr ht => ?_⟩
  obtain ⟨tr', ht', hsimplify⟩ := htransitions t tr ht
  exact ⟨tr', ht', Transition.restores_of_simplify hsimplify⟩

namespace Simplified

theorem eliminatedOf_andThen (s next : Simplified) (t : TransitionName) :
    (s.andThen next).eliminatedOf t = s.eliminatedOf t ++ next.eliminatedOf t := by
  have hfold : (s.andThen next).eliminated.get? t =
      (next.eliminated.get? t).elim (s.eliminated.get? t) fun d => some (s.eliminatedOf t ++ d) :=
    FinMap.get?_foldl_alter (fun (d : Eliminations) o => some (o.getD [] ++ d)) next.eliminated.nodup_keys s.eliminated t
  have hof : ∀ s : Simplified, s.eliminatedOf t = (s.eliminated.get? t).getD [] := fun _ => rfl
  rw [hof, hfold, hof next]
  cases next.eliminated.get? t with
  | some d => rfl
  | none => exact (List.append_nil _).symm

theorem Restores.andThen (h : s.Restores net) (h' : next.Restores s.net) : (s.andThen next).Restores net := by
  refine ⟨fun t => (h'.names t).trans (h.names t), fun t tr ht => ?_⟩
  obtain ⟨tr₁, ht₁, h₁⟩ := h.transitions t tr ht
  obtain ⟨tr₂, ht₂, h₂⟩ := h'.transitions t tr₁ ht₁
  rw [eliminatedOf_andThen]
  exact ⟨tr₂, ht₂, h₁.trans h₂⟩

theorem Restores.repeatSimplify {n : Nat} (h : s.Restores net) (hs : repeatSimplify n s = .ok simplified) :
    simplified.Restores net := by
  induction n generalizing s with
  | zero =>
    cases hs
    exact h
  | succ n ih =>
    obtain ⟨next, hnext, hs⟩ := bind_eq_ok.1 hs
    split at hs
    · cases hs
      exact h
    · exact ih (h.andThen (Net.restores_of_simplify hnext)) hs

/-! ### Firing -/

theorem Restores.fire_eq {b b' : Binding} (h : s.Restores net) (hb : s.restore t b = .ok b') (m : Marking) :
    s.net.fire t m b = net.fire t m b' := by
  cases ht : net.transition? t with
  | none =>
    have hnone : s.net.transition? t = none := by simpa [ht] using h.names t
    unfold Net.fire Net.transition
    rw [ht, hnone]
    rfl
  | some tr =>
    obtain ⟨tr', ht', hrestores⟩ := h.transitions t tr ht
    have htransition : net.transition t = .ok tr := Net.transition_eq_ok.2 ht
    have htransition' : s.net.transition t = .ok tr' := Net.transition_eq_ok.2 ht'
    unfold Net.fire
    rw [htransition, htransition']
    -- the tokens are all that firing asks of a transition
    change (do let taken ← (Arcs.tokens b tr'.input).mapError Error.evaluation; _) = _
    rw [hrestores.taken b b' hb, hrestores.made b b' hb]
    rfl

/-- Firing commutes with simplification, once or until nothing changes. -/
theorem fire_restore (hs : net.simplify = .ok s ∨ net.simplifyFully = .ok s) {b b' : Binding}
    (hb : s.restore t b = .ok b') (m : Marking) : s.net.fire t m b = net.fire t m b' := by
  rcases hs with hs | hs
  · exact (Net.restores_of_simplify hs).fire_eq hb m
  · obtain ⟨s₁, hs₁, hs⟩ := bind_eq_ok.1 hs
    exact ((Net.restores_of_simplify hs₁).repeatSimplify hs).fire_eq hb m

/-- A chain of equal variables, one of which is no identifier, and a constant; the greatest integer overflows. -/
theorem fire_restore_chain :
    let w : Inscription := .var "w"
    let x : Inscription := .var "x"
    let three : Inscription := .const (.int 3)
    let guards : List Guard := [⟨.var "y", x⟩, ⟨x, .var "a b"⟩, ⟨x, w⟩, ⟨three, .var "z"⟩]
    let tr : Transition :=
      ⟨.ofList [("p", [.var "y", .var "a b"])], .ofList [("q", [.expr (.ofText "y + z"), .var "a b"])], guards⟩
    let net : Net := ⟨.ofList ["p", "q"], .ofList [("t", tr)]⟩
    let tr' : Transition := ⟨.ofList [("p", [w, w])], .ofList [("q", [.expr (.ofText "(w + 3)"), w])], []⟩
    let s : Simplified :=
      ⟨⟨.ofList ["p", "q"], .ofList [("t", tr')]⟩, .ofList [("t", [("y", x), ("a b", x), ("x", w), ("z", three)])]⟩
    let small : Value := .int 1
    let great : Value := .int Int64.maxValue
    let restored (v : Value) : Binding := .ofList [("a b", v), ("w", v), ("x", v), ("y", v), ("z", .int 3)]
    let m (v : Value) : Marking := ⟨.ofList [("p", .ofList [v, v]), ("q", .ofList [])]⟩
    net.simplifyFully = .ok s ∧
      s.net.fire "t" (m small) (.ofList [("w", small)]) = net.fire "t" (m small) (restored small) ∧
      net.fire "t" (m small) (restored small) = .ok (some ⟨.ofList [("p", .ofList []), ("q", .ofList [small, .int 4])]⟩) ∧
      s.net.fire "t" (m great) (.ofList [("w", great)]) = net.fire "t" (m great) (restored great) ∧
      net.fire "t" (m great) (restored great) = .error (.evaluation .overflow) := by
  intro w x three guards tr net tr' s small great restored m
  have hs : net.simplifyFully = .ok s := by decide +kernel
  have hsmall : s.restore "t" (.ofList [("w", small)]) = .ok (restored small) := by decide +kernel
  have hgreat : s.restore "t" (.ofList [("w", great)]) = .ok (restored great) := by decide +kernel
  exact ⟨hs, fire_restore (.inr hs) hsmall (m small), by decide +kernel, fire_restore (.inr hs) hgreat (m great),
    by decide +kernel⟩

end Simplified

end TokenNet
