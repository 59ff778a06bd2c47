import TokenNet.Proofs.Declaration
import TokenNet.Proofs.Firing
import TokenNet.Proofs.NormalForm

/-!
# Well-formed nets and their markings

Built nets are well-formed, and simplification keeps them so, `Net.SimplifiesTo.wellFormed`.

A marking is over the places of a net if it has these and no others.  `Net.Attains` says that a marking comes from an
initial one by any firings, of the net or of simplified ones; all of these markings are over the places of the net,
`Net.Attains.isOver`.
-/

namespace TokenNet

/-! ### Simplified nets are well-formed -/

section WellFormed

variable {net net' : Net} {s : Simplified} {t : TransitionName} {tr tr' : Transition} {places : FinSet Place}

theorem Arcs.contains_substitute {arcs arcs' : Arcs} {x : Variable} {r : Inscription}
    (h : Arcs.substitute arcs x r = .ok arcs') (p : Place) : arcs'.contains p = arcs.contains p :=
  (FinMap.traverse_eq_ok.1 h).1 p

/-- Only variables and constants replace variables, and arcs stay at their places. -/
theorem Transition.FitsIn.simplify {eliminated : Eliminations} (h : tr.FitsIn places)
    (hs : tr.simplify t = .ok (tr', eliminated)) : tr'.FitsIn places := by
  have hI : Propagation.Invariant fun input output _ _ => input.Plain ∧
      (∀ p, input.contains p = true → places.contains p = true) ∧
        ∀ p, output.contains p = true → places.contains p = true := by
    refine ⟨fun h _ _ => h, id, fun ⟨hplain, hin, hout⟩ hr _ hinput houtput _ => ?_⟩
    refine ⟨hplain.substitute hr hinput, fun p hp => hin p ?_, fun p hp => hout p ?_⟩
    · rwa [← Arcs.contains_substitute hinput]
    · rwa [← Arcs.contains_substitute houtput]
  obtain ⟨hplain, hin, hout⟩ := hI.simplify ⟨h.plain, h.declared .input, h.declared .output⟩ hs
  refine ⟨hplain, fun dir => ?_⟩
  cases dir with
  | input => exact hin
  | output => exact hout

theorem Net.places_of_simplify (h : net.simplify = .ok s) : s.net.places = net.places := by
  obtain ⟨parts, -, h⟩ := bind_eq_ok.1 h
  cases h
  rfl

theorem Net.names_of_simplify (h : net.simplify = .ok s) : s.net.transitions.keys = net.transitions.keys := by
  have hkeys : ∀ m : FinMap TransitionName Transition, m.keys = (m.map fun _ => ()).keys := by
    intro m
    simp [FinMap.keys, FinMap.map]
  rw [hkeys, hkeys net.transitions]
  refine congrArg FinMap.keys (FinMap.ext_get? fun t => ?_)
  have hname : (s.net.transitions.get? t).isSome = (net.transitions.get? t).isSome := (Net.simplify_eq_ok h).1 t
  rw [FinMap.get?_map, FinMap.get?_map]
  cases hs : s.net.transitions.get? t <;> cases ht : net.transitions.get? t <;> simp_all

theorem Net.WellFormed.simplify (h : net.WellFormed) (hs : net.simplify = .ok s) : s.net.WellFormed := by
  intro t tr' ht'
  obtain ⟨tr, ht⟩ : ∃ tr, net.transition? t = some tr := by
    have hname := (Net.simplify_eq_ok hs).1 t
    rw [ht'] at hname
    exact Option.isSome_iff_exists.1 hname.symm
  rw [Net.places_of_simplify hs]
  exact (h t tr ht).simplify (Net.simplify_transition hs ht ht')

/-- The net itself, and the nets that any number of simplifications make of it. -/
inductive Net.SimplifiesTo (net : Net) : Net → Prop where
  | refl : SimplifiesTo net net
  | simplify {net' : Net} {s : Simplified} (h : SimplifiesTo net net') (hs : net'.simplify = .ok s) :
      SimplifiesTo net s.net
  | simplifyFully {net' : Net} {s : Simplified} (h : SimplifiesTo net net') (hs : net'.simplifyFully = .ok s) :
      SimplifiesTo net s.net

/-- One pass reaches the end, since in a simplified net nothing is left to simplify. -/
theorem Net.simplifyFully_eq (net : Net) : net.simplifyFully = net.simplify := by
  unfold simplifyFully
  cases hs : net.simplify with
  | error e => rfl
  | ok s => exact Simplified.repeatSimplify_eq_self hs _

theorem Net.SimplifiesTo.wellFormed (h : net.SimplifiesTo net') (hnet : net.WellFormed) :
    net'.WellFormed ∧ net'.places = net.places ∧ net'.transitions.keys = net.transitions.keys := by
  induction h with
  | refl => exact ⟨hnet, rfl, rfl⟩
  | simplify _ hs ih =>
    obtain ⟨hwell, hplaces, hnames⟩ := ih
    exact ⟨hwell.simplify hs, (places_of_simplify hs).trans hplaces, (names_of_simplify hs).trans hnames⟩
  | simplifyFully _ hs ih =>
    obtain ⟨hwell, hplaces, hnames⟩ := ih
    rw [simplifyFully_eq] at hs
    exact ⟨hwell.simplify hs, (places_of_simplify hs).trans hplaces, (names_of_simplify hs).trans hnames⟩

end WellFormed

/-! ### Markings over places -/

/-- The marking has the given places and no others. -/
def Marking.IsOver (m : Marking) (places : FinSet Place) : Prop := m.places.keys = places.keys

instance (m : Marking) (places : FinSet Place) : Decidable (m.IsOver places) :=
  inferInstanceAs (Decidable (m.places.keys = places.keys))

section Markings

variable {m m' : Marking} {places : FinSet Place}

theorem Marking.isOver_iff : m.IsOver places ↔ ∀ p, (m.get? p).isSome = places.contains p := by
  have hcontains : ∀ p, (m.get? p).isSome = m.places.contains p := fun _ => rfl
  constructor
  · intro h p
    rw [hcontains, Bool.eq_iff_iff, FinMap.contains_iff_mem_keys, FinMap.contains_iff_mem_keys, h]
  · intro h
    have hunits : m.places.map (fun _ => ()) = places := by
      refine FinMap.ext_get? fun p => ?_
      have hp : (m.places.get? p).isSome = (places.get? p).isSome := h p
      rw [FinMap.get?_map]
      cases hm : m.places.get? p <;> cases hs : places.get? p <;> simp_all
    have hkeys : m.places.keys = (m.places.map fun _ => ()).keys := by simp [FinMap.keys, FinMap.map]
    exact hkeys.trans (congrArg FinMap.keys hunits)

theorem Marking.IsOver.isSome (h : m.IsOver places) {p : Place} (hp : places.contains p = true) :
    (m.get? p).isSome = true := (isOver_iff.1 h p).trans hp

theorem Marking.isOver_empty (places : FinSet Place) : (Marking.empty places).IsOver places := by
  refine isOver_iff.2 fun p => ?_
  change ((places.map fun _ => (∅ : Bag Value)).get? p).isSome = _
  rw [FinMap.get?_map, Option.isSome_map]
  rfl

theorem Marking.IsOver.modify (h : m.IsOver places) (p : Place) (f : Bag Value → Bag Value) :
    (m.modify p f).IsOver places := by
  refine isOver_iff.2 fun q => ?_
  rw [← isOver_iff.1 h, get?_modify]
  by_cases hq : q = p
  · rw [if_pos hq, Option.isSome_map, hq]
  · rw [if_neg hq]

theorem Marking.IsOver.add (h : m.IsOver places) {p : Place} {tokens : Bag Value} (hm : m.add p tokens = .ok m') :
    m'.IsOver places := by
  unfold Marking.add at hm
  split at hm
  · cases hm
    exact h.modify p _
  · cases hm

theorem Marking.IsOver.take (h : m.IsOver places) (tokens : List (Place × Bag Value)) : (m.take tokens).IsOver places := by
  unfold Marking.take
  induction tokens generalizing m with
  | nil => exact h
  | cons e tokens ih => exact ih (h.modify e.1 _)

theorem Marking.IsOver.put (h : m.IsOver places) {tokens : List (Place × Bag Value)} (hm : m.put tokens = .ok m') :
    m'.IsOver places :=
  foldlM_invariant (P := fun m : Marking => m.IsOver places) hm h fun _ _ _ h hadd => h.add hadd

/-- Tokens can be put into all places of the marking. -/
theorem Marking.IsOver.exists_put (h : m.IsOver places) {tokens : List (Place × Bag Value)}
    (htokens : ∀ e ∈ tokens, places.contains e.1 = true) : ∃ m', m.put tokens = .ok m' := by
  unfold Marking.put
  induction tokens generalizing m with
  | nil => exact ⟨m, rfl⟩
  | cons e tokens ih =>
    obtain ⟨he, htokens⟩ := List.forall_mem_cons.1 htokens
    obtain ⟨m₁, hm₁⟩ : ∃ m₁, m.add e.1 e.2 = .ok m₁ := by
      obtain ⟨b, hb⟩ := Option.isSome_iff_exists.1 (h.isSome he)
      unfold Marking.add
      rw [hb]
      exact ⟨_, rfl⟩
    rw [List.foldlM_cons, hm₁]
    exact ih (h.add hm₁) htokens

/-- Whether tokens can be taken can be told where the marking has all places. -/
theorem Marking.IsOver.exists_covers (h : m.IsOver places) {tokens : List (Place × Bag Value)}
    (htokens : ∀ e ∈ tokens, places.contains e.1 = true) : ∃ b, m.covers tokens = .ok b := by
  induction tokens with
  | nil => exact ⟨true, rfl⟩
  | cons e tokens ih =>
    obtain ⟨p, bag⟩ := e
    obtain ⟨he, htokens⟩ := List.forall_mem_cons.1 htokens
    obtain ⟨available, havailable⟩ := Option.isSome_iff_exists.1 (h.isSome he)
    unfold Marking.covers
    rw [havailable]
    dsimp only
    split
    · exact ih htokens
    · exact ⟨false, rfl⟩

/-- Arcs denote tokens of their own places. -/
theorem Transition.FitsIn.contains_of_tokens {tr : Transition} (h : tr.FitsIn places) (dir : Direction) {b : Binding}
    {tokens : FinMap Place (Bag Value)} (htokens : Arcs.tokens b (tr.arcs dir) = .ok tokens) {e : Place × Bag Value}
    (he : e ∈ tokens.entries) : places.contains e.1 = true := by
  refine h.declared dir e.1 ?_
  rw [FinMap.contains, ← (Arcs.tokens_eq_ok.1 htokens).1, FinMap.mem_entries_iff.1 he]
  rfl

/-- Initial markings have the places of the net. -/
theorem Net.isOver_of_marking {net : Net} {tokens : List (Place × Bag Value)} (h : net.marking tokens = .ok m) :
    m.IsOver net.places :=
  foldlM_invariant (P := fun m : Marking => m.IsOver net.places) h (Marking.isOver_empty _) fun _ _ _ h hadd => h.add hadd

/-- Firing changes no places. -/
theorem Marking.IsOver.fire {net : Net} {t : TransitionName} {b : Binding} (h : m.IsOver places)
    (hfire : net.fire t m b = .ok (some m')) : m'.IsOver places := by
  obtain ⟨tr, htr, -⟩ := bind_eq_ok.1 hfire
  have ht := Net.transition_eq_ok.1 (mapError_eq_ok.1 htr)
  obtain ⟨taken, -, ⟨-, hnone⟩ | ⟨-, made, m₁, -, hm₁, hsome⟩⟩ := Net.exists_of_fire_eq_ok ht hfire
  · cases hnone
  · cases hsome
    exact (h.take _).put hm₁

end Markings

/-! ### Markings that a net attains -/

/-- An initial marking, or what firing any transition under any binding leads to from such a marking; the net may be
simplified at any time. -/
inductive Net.Attains (net : Net) : Marking → Prop where
  | marking {net' : Net} {tokens : List (Place × Bag Value)} {m : Marking} (hnet : net.SimplifiesTo net')
      (h : net'.marking tokens = .ok m) : Attains net m
  | fire {net' : Net} {t : TransitionName} {b : Binding} {m m' : Marking} (hm : Attains net m)
      (hnet : net.SimplifiesTo net') (h : net'.fire t m b = .ok (some m')) : Attains net m'

theorem Net.Attains.isOver {net : Net} {m : Marking} (hwell : net.WellFormed) (h : net.Attains m) :
    m.IsOver net.places := by
  induction h with
  | marking hnet h =>
    rw [← (hnet.wellFormed hwell).2.1]
    exact Net.isOver_of_marking h
  | fire _ _ h ih => exact ih.fire h

end TokenNet
