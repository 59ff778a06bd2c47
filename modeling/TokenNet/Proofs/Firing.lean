import TokenNet.Firing
import TokenNet.Proofs.Demand

/-!
# Firing under a covered binding

The check before a transition fires is that the marking covers the binding, `Transition.covers_iff_tokens`.  So firing
under a covered binding takes and puts tokens, or fails, `Net.fire_eq_ok`; without the tokens nothing is moved,
`Net.fire_of_not_covered`.
-/

namespace TokenNet

variable {net : Net} {tr : Transition} {t : TransitionName} {m : Marking} {b : Binding} {arcs : Arcs}

theorem Arcs.tokens_eq_ok {tokens : FinMap Place (Bag Value)} : Arcs.tokens b arcs = .ok tokens ↔
    (∀ p, (tokens.get? p).isSome = (arcs.get? p).isSome) ∧
      ∀ p l, arcs.get? p = some l → ∃ bag, Inscription.tokens b l = .ok bag ∧ tokens.get? p = some bag :=
  FinMap.traverse_eq_ok

theorem Marking.covers_eq_true_iff {tokens : List (Place × Bag Value)} : m.covers tokens = .ok true ↔
    ∀ e ∈ tokens, ∃ available, m.get? e.1 = some available ∧ e.2.isSubset available = true := by
  induction tokens with
  | nil => simp [covers]
  | cons e tokens ih =>
    obtain ⟨p, bag⟩ := e
    rw [List.forall_mem_cons, ← ih]
    cases hm : m.get? p with
    | none => simp [covers, hm]
    | some available =>
      by_cases hsub : bag.isSubset available = true
      · simp [covers, hm, hsub]
      · simp [covers, hm, hsub]

/-- A binding is covered if the tokens that its input arcs denote pass the check before firing. -/
theorem Transition.covers_iff_tokens : tr.Covers m b ↔
    ∃ taken, Arcs.tokens b tr.input = .ok taken ∧ m.covers taken.entries = .ok true := by
  constructor
  · intro hcovers
    have hexists : ∀ p l, tr.input.get? p = some l → ∃ bag, Inscription.tokens b l = .ok bag := by
      intro p l hl
      obtain ⟨bag, -, hbag, -⟩ := hcovers p l hl
      exact ⟨bag, hbag⟩
    obtain ⟨taken, htaken⟩ : ∃ taken, Arcs.tokens b tr.input = .ok taken := FinMap.exists_traverse hexists
    refine ⟨taken, htaken, Marking.covers_eq_true_iff.2 fun e he => ?_⟩
    obtain ⟨hplaces, htokens⟩ := Arcs.tokens_eq_ok.1 htaken
    have hget := FinMap.mem_entries_iff.1 he
    obtain ⟨l, hl⟩ : ∃ l, tr.input.get? e.1 = some l := by
      rw [← Option.isSome_iff_exists, ← hplaces, hget]
      rfl
    obtain ⟨bag, available, hbag, hm, hsub⟩ := hcovers e.1 l hl
    obtain ⟨bag', hbag', hget'⟩ := htokens e.1 l hl
    rw [hbag] at hbag'
    cases hbag'
    rw [hget] at hget'
    cases hget'
    exact ⟨available, hm, hsub⟩
  · rintro ⟨taken, htaken, hcheck⟩ p l hl
    obtain ⟨bag, hbag, hget⟩ := (Arcs.tokens_eq_ok.1 htaken).2 p l hl
    obtain ⟨available, hm, hsub⟩ := Marking.covers_eq_true_iff.1 hcheck (p, bag) (FinMap.mem_entries_iff.2 hget)
    exact ⟨bag, available, hbag, hm, hsub⟩

/-! ### The steps of firing -/

section Steps

variable {taken made : FinMap Place (Bag Value)} {m' : Marking} {e : EvaluationError}

/-- Where the input arcs denote tokens, what remains is the check and the move. -/
theorem Net.fire_of_tokens (ht : net.transition? t = some tr) (htaken : Arcs.tokens b tr.input = .ok taken)
    {covered : Bool} (h : m.covers taken.entries = .ok covered) :
    net.fire t m b =
      if covered then do
        let made ← (Arcs.tokens b tr.output).mapError Error.evaluation
        return some (← ((m.take taken.entries).put made.entries).mapError Error.structural)
      else .ok none := by
  unfold Net.fire
  rw [Net.transition_eq_ok.2 ht]
  change (Arcs.tokens b tr.input).mapError Error.evaluation >>= _ = _
  rw [htaken]
  change (m.covers taken.entries).mapError Error.structural >>= _ = _
  rw [h]
  rfl

theorem Net.fire_of_put (ht : net.transition? t = some tr) (htaken : Arcs.tokens b tr.input = .ok taken)
    (hcovers : m.covers taken.entries = .ok true) (hmade : Arcs.tokens b tr.output = .ok made)
    (h : (m.take taken.entries).put made.entries = .ok m') : net.fire t m b = .ok (some m') := by
  rw [Net.fire_of_tokens ht htaken hcovers, if_pos rfl]
  refine bind_eq_ok.2 ⟨made, mapError_eq_ok.2 hmade, ?_⟩
  exact bind_eq_ok.2 ⟨m', mapError_eq_ok.2 h, rfl⟩

end Steps

/-- Where firing does not fail, either the tokens are not there, or those of the input arcs are taken and those of the
output arcs are put. -/
theorem Net.exists_of_fire_eq_ok (ht : net.transition? t = some tr) {r : Option Marking} (h : net.fire t m b = .ok r) :
    ∃ taken, Arcs.tokens b tr.input = .ok taken ∧ (m.covers taken.entries = .ok false ∧ r = none ∨
      m.covers taken.entries = .ok true ∧ ∃ made m', Arcs.tokens b tr.output = .ok made ∧
        (m.take taken.entries).put made.entries = .ok m' ∧ r = some m') := by
  obtain ⟨tr', htr', h⟩ := bind_eq_ok.1 h
  rw [mapError_eq_ok, Net.transition_eq_ok.2 ht] at htr'
  cases htr'
  obtain ⟨taken, htaken, h⟩ := bind_eq_ok.1 h
  obtain ⟨covered, hcovered, h⟩ := bind_eq_ok.1 h
  refine ⟨taken, mapError_eq_ok.1 htaken, ?_⟩
  cases covered with
  | false =>
    cases h
    exact .inl ⟨mapError_eq_ok.1 hcovered, rfl⟩
  | true =>
    obtain ⟨made, hmade, h⟩ := bind_eq_ok.1 h
    obtain ⟨m', hm', h⟩ := bind_eq_ok.1 h
    cases h
    exact .inr ⟨mapError_eq_ok.1 hcovered, made, m', mapError_eq_ok.1 hmade, mapError_eq_ok.1 hm', rfl⟩

/-- Under a covered binding, a transition fires by taking the tokens of its input arcs and putting those of its output
arcs. -/
theorem Net.fire_eq_ok (ht : net.transition? t = some tr) (hcovers : tr.Covers m b) {r : Option Marking} :
    net.fire t m b = .ok r ↔ ∃ taken made m', Arcs.tokens b tr.input = .ok taken ∧ Arcs.tokens b tr.output = .ok made ∧
      (m.take taken.entries).put made.entries = .ok m' ∧ r = some m' := by
  obtain ⟨taken, htaken, hcheck⟩ := Transition.covers_iff_tokens.1 hcovers
  constructor
  · intro h
    obtain ⟨taken', htaken', ⟨hfalse, -⟩ | ⟨-, made, m', hmade, hm', hr⟩⟩ := Net.exists_of_fire_eq_ok ht h
    · rw [htaken] at htaken'
      cases htaken'
      rw [hcheck] at hfalse
      cases hfalse
    · exact ⟨taken', made, m', htaken', hmade, hm', hr⟩
  · rintro ⟨taken', made, m', htaken', hmade, hm', rfl⟩
    rw [htaken] at htaken'
    cases htaken'
    exact Net.fire_of_put ht htaken hcheck hmade hm'

end TokenNet
