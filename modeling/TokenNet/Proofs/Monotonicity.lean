import TokenNet.Proofs.FiringOutcome
import TokenNet.Proofs.SessionCalls

/-!
# More tokens

Tokens that are added to a marking, `Marking.sum`, do not disturb a transition: what is enabled stays enabled, and firing
moves the same tokens beside them, `Net.WellFormed.fire_sum`.  Tokens at other places than its input places do not matter
at all: the search for its enabled bindings is the same computation, `Net.enabledBindings_congr`.
-/

namespace TokenNet

open Enabling

/-! ### Adding tokens -/

section Sum

variable {net : Net} {tr : Transition} {t : TransitionName} {m d m' : Marking} {B : Binding} {places : FinSet Place}

/-- The marking with the tokens of another one added to its places. -/
def Marking.sum (m d : Marking) : Marking := d.places.entries.foldl (fun m e => m.modify e.1 (·.sum e.2)) m

theorem Marking.IsOver.sum (h : m.IsOver places) (d : Marking) : (m.sum d).IsOver places := by
  unfold Marking.sum
  generalize d.places.entries = l
  induction l generalizing m with
  | nil => exact h
  | cons e l ih => exact ih (h.modify e.1 _)

theorem Marking.IsOver.count_sum (hm : m.IsOver places) (hd : d.IsOver places) (p : Place) (v : Value) :
    (m.sum d).count p v = m.count p v + d.count p v := by
  unfold Marking.count Marking.sum
  rw [get?_foldl_modify (fun b tokens => b.sum tokens) d.places.sorted]
  change (((m.get? p).map fun b => (d.get? p).elim b _).getD ∅).count v = _
  have hsome : (m.get? p).isSome = (d.get? p).isSome := (isOver_iff.1 hm p).trans (isOver_iff.1 hd p).symm
  cases hget : m.get? p with
  | none => cases hmore : d.get? p <;> simp_all
  | some b => cases d.get? p <;> simp [Bag.count_sum]

/-- If the tokens of two markings fit into machine words together, so do those of the first one. -/
theorem Marking.Fits.of_sum (hm : m.IsOver places) (hd : d.IsOver places) (h : (m.sum d).Fits) : m.Fits := by
  refine fits_iff.2 fun p v => ?_
  have hpv := fits_iff.1 h p v
  rw [hm.count_sum hd] at hpv
  omega

/-- What a marking covers is covered with more tokens, too. -/
theorem Transition.Covers.sum (h : tr.Covers m B) (hm : m.IsOver places) (hd : d.IsOver places) :
    tr.Covers (m.sum d) B := by
  intro p l hl
  obtain ⟨bag, available, hbag, hget, hsub⟩ := h p l hl
  have hsome : ((m.sum d).get? p).isSome = true := by
    rw [Marking.isOver_iff.1 (hm.sum d), ← Marking.isOver_iff.1 hm, hget]
    rfl
  obtain ⟨more, hmore⟩ := Option.isSome_iff_exists.1 hsome
  refine ⟨bag, more, hbag, hmore, Bag.isSubset_iff.2 fun v => ?_⟩
  have hle := Bag.isSubset_iff.1 hsub v
  have hcount := hm.count_sum hd p v
  rw [Marking.count, Marking.count, hget, hmore] at hcount
  simp only [Option.getD_some] at hcount
  omega

theorem Transition.Enables.sum (h : tr.Enables m B) (hm : m.IsOver places) (hd : d.IsOver places) :
    tr.Enables (m.sum d) B := ⟨h.binds, h.covers.sum hm hd, h.holds⟩

/-- Firing commutes with adding tokens, as long as the counts fit into machine words. -/
theorem Net.WellFormed.fire_sum (hwell : net.WellFormed) (ht : net.transition? t = some tr) (hm : m.IsOver net.places)
    (hd : d.IsOver net.places) (hfits : (m.sum d).Fits) (h : net.fire t m B = .ok (some m')) (hfits' : (m'.sum d).Fits) :
    net.fire t (m.sum d) B = .ok (some (m'.sum d)) := by
  obtain ⟨taken, htaken, ⟨-, hnone⟩ | ⟨hcovers, made, m'', hmade, hput, hsome⟩⟩ := Net.exists_of_fire_eq_ok ht h
  · cases hnone
  obtain rfl : m' = m'' := Option.some.inj hsome
  have hover := hm.fire h
  have hmore := hm.sum d
  have hle : ∀ p v, tr.input.weight B p v ≤ m.count p v := by
    rcases hwell.covers_cases ht hm htaken with ⟨-, hle⟩ | ⟨hfalse, -⟩
    · exact hle
    · rw [hcovers] at hfalse
      cases hfalse
  have hcovers' : (m.sum d).covers taken.entries = .ok true := by
    rcases hwell.covers_cases ht hmore htaken with ⟨htrue, -⟩ | ⟨-, p, v, hlt⟩
    · exact htrue
    · have hpv := hle p v
      rw [hm.count_sum hd] at hlt
      omega
  obtain ⟨m₁, hm₁, -, hcount⟩ := hwell.exists_moved ht hm (.of_sum hm hd hfits) htaken hmade
  obtain rfl : m' = m₁ := Except.ok.inj (hput.symm.trans hm₁)
  obtain ⟨m₂, hm₂, hover₂, hcount₂⟩ := hwell.exists_moved ht hmore hfits htaken hmade
  have heq : m₂ = m'.sum d := by
    refine hover₂.ext_count (hover.sum d) fun p v => ?_
    have hpv := hle p v
    have hfitspv := Marking.fits_iff.1 hfits' p v
    -- nothing is cut off at zero, since the tokens are there without `d`
    have hmoved : m.count p v + d.count p v - tr.input.weight B p v + tr.output.weight B p v =
        m.count p v - tr.input.weight B p v + tr.output.weight B p v + d.count p v := by omega
    rw [hover.count_sum hd, hcount] at hfitspv
    rw [hcount₂, hm.count_sum hd, hover.count_sum hd, hcount, hmoved, ← toWord_toWord_add, toWord_of_lt hfitspv]
  rw [← heq]
  exact Net.fire_of_put ht htaken hcovers' hmade hm₂

end Sum

/-! ### Tokens at other places -/

/-- Two demands ask for the same variables at places of `P`, and what is left there is the same. -/
structure Demand.Matches (P : Place → Prop) (d e : Demand) : Prop where
  input : d.input = e.input
  inside : ∀ p, (d.input.get? p).isSome = true → P p
  marking : ∀ p, P p → d.marking.get? p = e.marking.get? p

section Elsewhere

variable {net : Net} {tr : Transition} {t : TransitionName} {m n : Marking} {P : Place → Prop} {d e : Demand}

theorem Demand.Matches.extend_next (h : d.Matches P e) {p : Place} (hp : P p) (vars : List Variable) (left : Bag Value) :
    Demand.Matches P
      { input := if vars.isEmpty then d.input else d.input.insert p vars, marking := d.marking.modify p fun _ => left }
      { input := if vars.isEmpty then e.input else e.input.insert p vars, marking := e.marking.modify p fun _ => left } := by
  refine ⟨?_, fun q hq => ?_, fun q hq => ?_⟩
  · dsimp only
    rw [h.input]
  · by_cases hqp : q = p
    · rwa [hqp]
    · apply h.inside
      dsimp only at hq
      split at hq
      · exact hq
      · rwa [FinMap.get?_insert_of_ne _ hqp] at hq
  · dsimp only
    rw [Marking.get?_modify, Marking.get?_modify, h.marking p hp, h.marking q hq]

/-- Taking out the constants has the same result, or demands that match. -/
theorem Demand.Matches.extend (h : d.Matches P e) {l : List (Place × List Inscription)} (hl : ∀ a ∈ l, P a.1) :
    Demand.extend t l d = Demand.extend t l e ∨
      ∃ d' e', Demand.extend t l d = .ok (some d') ∧ Demand.extend t l e = .ok (some e') ∧ d'.Matches P e' := by
  induction l generalizing d e with
  | nil => exact .inr ⟨d, e, rfl, rfl, h⟩
  | cons a l ih =>
    obtain ⟨p, inscriptions⟩ := a
    obtain ⟨hp, hl⟩ := List.forall_mem_cons.1 hl
    unfold Demand.extend
    rw [← h.marking p hp]
    cases hget : d.marking.get? p with
    | none => exact .inl rfl
    | some tokens =>
      dsimp only
      cases htake : Demand.takeConstants p t inscriptions tokens with
      | error err => exact .inl rfl
      | ok r =>
        cases r with
        | none => exact .inl rfl
        | some r => exact ih (h.extend_next hp r.1 r.2) hl

/-- Folds with the same steps on the elements of a list are the same. -/
theorem foldlM_congr {α β : Type} {f : Type → Type} [Monad f] {g g' : β → α → f β} {l : List α}
    (h : ∀ a ∈ l, ∀ b, g b a = g' b a) (b : β) : l.foldlM g b = l.foldlM g' b := by
  induction l generalizing b with
  | nil => rfl
  | cons a l ih =>
    rw [List.foldlM_cons, List.foldlM_cons, h a List.mem_cons_self]
    exact bind_congr fun b' => ih (fun a' ha' => h a' (List.mem_cons_of_mem a ha')) b'

theorem Demand.Matches.marking_eq (h : d.Matches P e) {p : Place} (hp : p ∈ d.input.keys) :
    d.marking.get? p = e.marking.get? p := by
  obtain ⟨vars, hvars⟩ := FinMap.mem_keys_iff.1 hp
  apply h.marking p
  apply h.inside p
  rw [hvars]
  rfl

theorem Enabling.joinPlaces_congr (h : d.Matches P e) (o : KeyOrder) (guards : List (Guard × FinSet Variable)) :
    joinPlaces o d guards = joinPlaces o e guards := by
  have hindependent : isIndependent d guards = isIndependent e guards := by
    funext x
    unfold isIndependent
    rw [h.input]
  unfold joinPlaces
  rw [hindependent, ← h.input]
  refine foldlM_congr (fun a ha b => ?_) _
  obtain ⟨p, vars⟩ := a
  dsimp only
  rw [h.marking_eq (List.mem_map.2 ⟨(p, vars), ha, rfl⟩)]

theorem Demand.Matches.isStarved_eq (h : d.Matches P e) :
    (d.input.keys.any fun p => ((d.marking.get? p).getD ∅).isEmpty) =
      e.input.keys.any fun p => ((e.marking.get? p).getD ∅).isEmpty := by
  rw [← h.input, Bool.eq_iff_iff, List.any_eq_true, List.any_eq_true]
  refine exists_congr fun p => and_congr_right fun hp => ?_
  rw [h.marking_eq hp]

/-- The search for the enabled bindings of a transition is the same computation at markings with the same tokens at its
input places. -/
theorem Net.enabledBindings_congr (ht : net.transition? t = some tr)
    (h : ∀ p, (tr.input.get? p).isSome = true → m.get? p = n.get? p) :
    net.enabledBindings t m = net.enabledBindings t n := by
  have hdemand : ∀ m, net.demand t m = Demand.extend t tr.input.entries ⟨∅, m⟩ := by
    intro m
    unfold Net.demand
    rw [Net.transition_eq_ok.2 ht]
    rfl
  have hstart : Demand.Matches (fun p => (tr.input.get? p).isSome = true) ⟨∅, m⟩ ⟨∅, n⟩ :=
    ⟨rfl, fun p hp => by simp at hp, h⟩
  have hplaces : ∀ a ∈ tr.input.entries, (tr.input.get? a.1).isSome = true := by
    intro a ha
    rw [FinMap.mem_entries_iff.1 ha]
    rfl
  unfold Net.enabledBindings
  rw [hdemand m, hdemand n]
  rcases hstart.extend hplaces with heq | ⟨d, e, hd, he, hmatches⟩
  · rw [heq]
  · rw [hd, he]
    change (if d.input.keys.any _ then _ else _) = if e.input.keys.any _ then _ else _
    rw [hmatches.isStarved_eq]
    simp only [joinPlaces_congr hmatches]

end Elsewhere

/-! ### Nets that have been built -/

/-- A marking to which another one is added over the same places holds the tokens of both.  However the sessions were used:
what is enabled at a marking is enabled with more tokens, too, as long as no guard fails there; firing gives the marking it
gives without them, and the tokens that were added, as long as the sums before and after fit into machine words; and
markings with the same tokens at the input places of the transition have the same enabled bindings, since the search for
them is the same computation. -/
theorem Session.Reaches.monotone {s₁ s₂ : Session} (hs₁ : Reaches {} s₁) (hs₂ : Reaches {} s₂) {places : List Place}
    {decls : List TransitionDeclaration} {net : Net} (hnet : Net.build places decls = .ok net) {t : TransitionName}
    {tr : Transition} (ht : net.transition? t = some tr) {m d : Marking} (hm : m.IsOver net.places)
    (hd : d.IsOver net.places) :
    ((m.sum d).IsOver net.places ∧ ∀ p v, (m.sum d).count p v = m.count p v + d.count p v) ∧
    (∀ r₁ r₂ s₁' s₂', (net.enabledBindings t m).run.run s₁ = (.ok r₁, s₁') →
      (net.enabledBindings t (m.sum d)).run.run s₂ = (.ok r₂, s₂') → ∀ B ∈ bindings r₁, B ∈ bindings r₂) ∧
    (∀ B m', net.fire t m B = .ok (some m') → (m.sum d).Fits → (m'.sum d).Fits →
      net.fire t (m.sum d) B = .ok (some (m'.sum d))) ∧
    ∀ n, (∀ p, (tr.input.get? p).isSome = true → m.get? p = n.get? p) →
      net.enabledBindings t m = net.enabledBindings t n := by
  refine ⟨⟨hm.sum d, hm.count_sum hd⟩, fun r₁ r₂ s₁' s₂' h₁ h₂ B hB => ?_,
    fun B m' hfire hfits hfits' => ?_, fun n hn => Net.enabledBindings_congr ht hn⟩
  · obtain ⟨tr₁, ht₁, -, hmem₁⟩ := hs₁.mem_bindings h₁
    obtain ⟨tr₂, ht₂, -, hmem₂⟩ := hs₂.mem_bindings h₂
    obtain rfl : tr₁ = tr₂ := Option.some.inj (ht₁.symm.trans ht₂)
    exact (hmem₂ B).2 (((hmem₁ B).1 hB).sum hm hd)
  · exact (Net.wellFormed_of_build hnet).fire_sum ht hm hd hfits hfire hfits'

/-- With two more twos there is a second binding, and the place `r` is no input place. -/
theorem Session.Reaches.monotone_pairs :
    let x : Inscription := .var "x"
    let guard : Guard := ⟨.expr (.ofText "x < 5"), .const (.bool true)⟩
    let tr : Transition := ⟨.ofList [("p", [x, x])], .ofList [("p", [x]), ("q", [.expr (.ofText "x + 1")])], [guard]⟩
    let net : Net := ⟨.ofList ["p", "q", "r"], .ofList [("t", tr)]⟩
    let m : Marking := ⟨.ofList [("p", .ofList [.int 1, .int 1]), ("q", ∅), ("r", ∅)]⟩
    let d : Marking := ⟨.ofList [("p", .ofList [.int 2, .int 2]), ("q", .ofList [.int 2]), ("r", ∅)]⟩
    let n : Marking := ⟨.ofList [("p", .ofList [.int 1, .int 1]), ("q", ∅), ("r", .ofList [.int 4])]⟩
    let m' : Marking := ⟨.ofList [("p", .ofList [.int 1]), ("q", .ofList [.int 2]), ("r", ∅)]⟩
    let B : Binding := .ofList [("x", .int 1)]
    (∃ r s, (net.enabledBindings "t" (m.sum d)).run.run {} = (.ok r, s) ∧ (bindings r).length = 2 ∧ B ∈ bindings r) ∧
      net.fire "t" (m.sum d) B = .ok (some (m'.sum d)) ∧ net.enabledBindings "t" m = net.enabledBindings "t" n := by
  intro x guard tr net m d n m' B
  have hnet : Net.build ["p", "q", "r"] [⟨"t", [⟨"p", .input, [x, x]⟩, ⟨"p", .output, [x]⟩,
      ⟨"q", .output, [.expr (.ofText "x + 1")]⟩], [guard]⟩] = .ok net := by decide +kernel
  have hm : m.IsOver net.places := by decide +kernel
  have hd : d.IsOver net.places := by decide +kernel
  have ht : net.transition? "t" = some tr := by decide +kernel
  have hsame : ∀ p, (tr.input.get? p).isSome = true → m.get? p = n.get? p := by
    intro p hp
    have hkeys : tr.input.keys = ["p"] := by decide +kernel
    have hmem : p ∈ tr.input.keys := FinMap.contains_iff_mem_keys.1 hp
    rw [hkeys] at hmem
    obtain rfl := List.mem_singleton.1 hmem
    decide +kernel
  have hfew : ((net.enabledBindings "t" m).run.run {}).1.map bindings = .ok [B] := by decide +kernel
  have hmany : ((net.enabledBindings "t" (m.sum d)).run.run {}).1.map (fun r => (bindings r).length) = .ok 2 := by
    decide +kernel
  obtain ⟨r₁, hr₁, hB⟩ := map_eq_ok.1 hfew
  obtain ⟨r₂, hr₂, hlength⟩ := map_eq_ok.1 hmany
  obtain ⟨-, hbindings, hfire, hinput⟩ := Session.Reaches.monotone (.refl {}) (.refl {}) hnet ht hm hd
  refine ⟨⟨r₂, _, Prod.ext hr₂ rfl, hlength, ?_⟩, hfire B m' (by decide +kernel) (by decide +kernel) (by decide +kernel),
    hinput n hsame⟩
  exact hbindings r₁ r₂ _ _ (Prod.ext hr₁ rfl) (Prod.ext hr₂ rfl) B (by rw [hB]; exact List.mem_singleton_self B)

end TokenNet
