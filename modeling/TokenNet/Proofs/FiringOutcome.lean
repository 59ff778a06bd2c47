import TokenNet.Interpreter.Firing
import TokenNet.Proofs.Interpreter
import TokenNet.Proofs.WellFormed

/-!
# What firing does

Firing moves the tokens of the arcs or nothing.  The weight of an arc, `Arcs.weight`, says how often it takes or puts each
value under a binding; values that several inscriptions of the arc have add up.  Of the four outcomes of firing the first
one that applies is the result, `Net.fire_outcome`: an inscription of an input arc cannot be evaluated, tokens are missing,
an inscription of an output arc cannot be evaluated, or every place loses what its input arc takes and gains what its
output arc puts.
-/

namespace TokenNet

/-! ### Evaluating the arcs -/

/-- Why the inscription cannot be evaluated, if it cannot. -/
def Inscription.error? (B : Binding) (i : Inscription) : Option EvaluationError :=
  match i.evaluate B with
  | .ok _ => none
  | .error e => some e

/-- The first error in the order of places and inscriptions. -/
def Arcs.firstError? (B : Binding) (arcs : Arcs) : Option EvaluationError :=
  arcs.entries.findSome? fun e => e.2.findSome? (Inscription.error? B)

/-- How many inscriptions of the arc at a place have the value; none if there is no arc. -/
def Arcs.weight (B : Binding) (arcs : Arcs) (p : Place) (v : Value) : Nat :=
  ((arcs.get? p).getD []).countP fun i => i.evaluate B = .ok v

section Evaluation

variable {B : Binding} {l : List Inscription} {arcs : Arcs}

/-- Where it is known of each element whether it fails, and how, the first one that does is the failure of the list. -/
theorem mapM_cases {ε α β : Type} (f : α → Except ε β) (failure : α → Option ε) (l : List α)
    (h : ∀ a, (∃ e, failure a = some e ∧ f a = .error e) ∨ failure a = none ∧ ∃ b, f a = .ok b) :
    (∃ e, l.findSome? failure = some e ∧ l.mapM f = .error e) ∨ l.findSome? failure = none ∧ ∃ r, l.mapM f = .ok r := by
  induction l with
  | nil => exact .inr ⟨rfl, [], rfl⟩
  | cons a l ih =>
    rw [List.findSome?_cons, List.mapM_cons]
    rcases h a with ⟨e, he, ha⟩ | ⟨hnone, b, ha⟩
    · exact .inl ⟨e, by rw [he], by rw [ha]; rfl⟩
    · rw [hnone, ha]
      rcases ih with ⟨e, he, hl⟩ | ⟨hnone', r, hl⟩
      · exact .inl ⟨e, he, by rw [hl]; rfl⟩
      · exact .inr ⟨hnone', b :: r, by rw [hl]; rfl⟩

theorem Inscription.tokens_cases (B : Binding) (l : List Inscription) :
    (∃ e, l.findSome? (error? B) = some e ∧ tokens B l = .error e) ∨
      l.findSome? (error? B) = none ∧ ∃ bag, tokens B l = .ok bag := by
  have hvalues := mapM_cases (evaluate B) (error? B) l fun i => by
    unfold error?
    cases i.evaluate B with
    | error e => exact .inl ⟨e, rfl, rfl⟩
    | ok v => exact .inr ⟨rfl, v, rfl⟩
  unfold tokens
  rcases hvalues with ⟨e, he, hl⟩ | ⟨hnone, vs, hl⟩
  · exact .inl ⟨e, he, by rw [hl]; rfl⟩
  · exact .inr ⟨hnone, Bag.ofList vs, by rw [hl]; rfl⟩

/-- The entries of the tokens of arcs, arc by arc. -/
theorem Arcs.map_entries_tokens (B : Binding) (arcs : Arcs) : (Arcs.tokens B arcs).map FinMap.entries =
    arcs.entries.mapM fun e => return (e.1, ← Inscription.tokens B e.2) :=
  (FinMap.map_entries_traverse _ arcs).trans (FinMap.traverseEntries_eq_mapM _ arcs.entries)

theorem Arcs.tokens_cases (B : Binding) (arcs : Arcs) :
    (∃ e, arcs.firstError? B = some e ∧ Arcs.tokens B arcs = .error e) ∨
      arcs.firstError? B = none ∧ ∃ tokens, Arcs.tokens B arcs = .ok tokens := by
  have hentries := mapM_cases (fun e => return (e.1, ← Inscription.tokens B e.2))
    (fun e => e.2.findSome? (Inscription.error? B)) arcs.entries fun e => by
      rcases Inscription.tokens_cases B e.2 with ⟨err, herr, htokens⟩ | ⟨hnone, bag, htokens⟩
      · exact .inl ⟨err, herr, by rw [htokens]; rfl⟩
      · exact .inr ⟨hnone, (e.1, bag), by rw [htokens]; rfl⟩
  rw [← Arcs.map_entries_tokens] at hentries
  rcases hentries with ⟨e, he, hl⟩ | ⟨hnone, r, hl⟩
  · exact .inl ⟨e, he, map_eq_error.1 hl⟩
  · cases htokens : Arcs.tokens B arcs with
    | error e =>
      rw [htokens] at hl
      cases hl
    | ok tokens => exact .inr ⟨hnone, tokens, rfl⟩

/-- The tokens of an arc are counted by the inscriptions that have the value. -/
theorem Inscription.count_of_tokens {bag : Bag Value} (h : tokens B l = .ok bag) (v : Value) :
    bag.count v = l.countP fun i => i.evaluate B = .ok v := by
  obtain ⟨vs, hvs, hcount⟩ := tokens_eq_ok h
  rw [hcount]
  clear h hcount
  -- on the values that were read, one for each inscription
  induction l generalizing vs with
  | nil =>
    cases hvs
    rfl
  | cons i l ih =>
    obtain ⟨w, ws, hi, hl, rfl⟩ := mapM_cons_eq_ok.1 hvs
    rw [List.count_cons, List.countP_cons, ih ws hl, hi]
    simp

theorem Arcs.count_of_tokens {tokens : FinMap Place (Bag Value)} (h : Arcs.tokens B arcs = .ok tokens) (p : Place)
    (v : Value) : ((tokens.get? p).getD ∅).count v = arcs.weight B p v := by
  obtain ⟨hplaces, htokens⟩ := Arcs.tokens_eq_ok.1 h
  unfold Arcs.weight
  cases hp : arcs.get? p with
  | none =>
    have hnone : tokens.get? p = none := by
      rw [← Option.not_isSome_iff_eq_none, hplaces, hp]
      simp
    rw [hnone]
    rfl
  | some l =>
    obtain ⟨bag, hbag, hget⟩ := htokens p l hp
    rw [hget]
    exact Inscription.count_of_tokens hbag v

/-- Arcs without an inscription that fails denote tokens at their own places. -/
theorem Arcs.exists_tokens (h : arcs.firstError? B = none) : ∃ tokens, Arcs.tokens B arcs = .ok tokens := by
  rcases arcs.tokens_cases B with ⟨e, he, -⟩ | ⟨-, htokens⟩
  · rw [h] at he
    cases he
  · exact htokens

end Evaluation

/-! ### Counting the tokens of a marking -/

/-- How often a place holds a value; a place that the marking does not have holds nothing. -/
def Marking.count (m : Marking) (p : Place) (v : Value) : Nat := ((m.get? p).getD ∅).count v

/-- The counts of all places fit into machine words. -/
def Marking.Fits (m : Marking) : Prop := ∀ e ∈ m.places.entries, e.2.Fits

instance (m : Marking) : Decidable m.Fits := inferInstanceAs (Decidable (∀ e ∈ m.places.entries, e.2.Fits))

section Markings

variable {m m' : Marking} {places : FinSet Place} {tokens : FinMap Place (Bag Value)}

theorem Marking.fits_iff : m.Fits ↔ ∀ p v, m.count p v < wordSize := by
  constructor
  · intro h p v
    unfold Marking.count
    cases hp : m.get? p with
    | none => exact Nat.two_pow_pos 64
    | some b => exact Bag.fits_iff.1 (h (p, b) (FinMap.mem_entries_iff.2 hp)) v
  · rintro h ⟨p, b⟩ he
    have hp : m.get? p = some b := FinMap.mem_entries_iff.1 he
    refine Bag.fits_iff.2 fun v => ?_
    have hpv := h p v
    rwa [Marking.count, hp] at hpv

/-- Markings over the same places are equal if they count the same. -/
theorem Marking.IsOver.ext_count (h : m.IsOver places) (h' : m'.IsOver places) (hcount : ∀ p v, m.count p v = m'.count p v) :
    m = m' := by
  refine Marking.places_injective (FinMap.ext_get? fun p => ?_)
  change m.get? p = m'.get? p
  have hsome : (m.get? p).isSome = (m'.get? p).isSome := (isOver_iff.1 h p).trans (isOver_iff.1 h' p).symm
  have hbag : (m.get? p).getD ∅ = (m'.get? p).getD ∅ := Bag.ext_count (hcount p)
  cases hm : m.get? p <;> cases hm' : m'.get? p <;> simp_all

/-- Changing the bags of places, each once. -/
theorem Marking.get?_foldl_modify (f : Bag Value → Bag Value → Bag Value) {l : List (Place × Bag Value)}
    (hl : l.Pairwise fun a b => compare a.1 b.1 = .lt) (m : Marking) (p : Place) :
    (l.foldl (fun m e => m.modify e.1 (f · e.2)) m).get? p =
      (m.get? p).map fun b => (FinMap.lookup p l).elim b (f b) := by
  induction l generalizing m with
  | nil => simp [FinMap.lookup]
  | cons e l ih =>
    obtain ⟨he, hl⟩ := List.pairwise_cons.1 hl
    rw [List.foldl_cons, ih hl, get?_modify]
    by_cases hp : p = e.1
    · subst hp
      simp [FinMap.lookup, FinMap.lookup_eq_none_of_lt he, Function.comp_def]
    · simp [FinMap.lookup, hp]

theorem Marking.count_take (m : Marking) (tokens : FinMap Place (Bag Value)) (p : Place) (v : Value) :
    (m.take tokens.entries).count p v = m.count p v - ((tokens.get? p).getD ∅).count v := by
  unfold Marking.count Marking.take
  rw [get?_foldl_modify (fun b tokens => b.difference tokens) tokens.sorted]
  change (((m.get? p).map fun b => (tokens.get? p).elim b _).getD ∅).count v = _
  cases m.get? p with
  | none => simp
  | some b => cases tokens.get? p <;> simp [Bag.count_difference]

/-- Where tokens can be put, they are added place by place, in machine words. -/
private theorem Marking.eq_foldl_of_put {l : List (Place × Bag Value)} (h : m.put l = .ok m') :
    m' = l.foldl (fun m e => m.modify e.1 (·.wordSum e.2)) m := by
  induction l generalizing m with
  | nil =>
    cases h
    rfl
  | cons e l ih =>
    unfold Marking.put at h
    rw [List.foldlM_cons] at h
    obtain ⟨m₁, hm₁, h⟩ := bind_eq_ok.1 h
    unfold Marking.add at hm₁
    split at hm₁
    · cases hm₁
      exact ih h
    · cases hm₁

theorem Marking.count_of_put (hm : m.Fits) (h : m.put tokens.entries = .ok m')
    (hp : ∀ p, (tokens.get? p).isSome = true → (m.get? p).isSome = true) (p : Place) (v : Value) :
    m'.count p v = toWord (m.count p v + ((tokens.get? p).getD ∅).count v) := by
  rw [eq_foldl_of_put h]
  have hfits := fits_iff.1 hm p v
  unfold Marking.count at hfits ⊢
  rw [get?_foldl_modify (fun b tokens => b.wordSum tokens) tokens.sorted]
  change (((m.get? p).map fun b => (tokens.get? p).elim b _).getD ∅).count v = _
  have hp := hp p
  cases hget : m.get? p with
  | none => cases htokens : tokens.get? p <;> simp_all
  | some b =>
    rw [hget] at hfits
    cases htokens : tokens.get? p with
    | none => exact (toWord_of_lt hfits).symm
    | some bag => exact Bag.count_wordSum (hm (p, b) (FinMap.mem_entries_iff.2 hget)) bag v

end Markings

/-! ### The outcomes of firing -/

section Firing

variable {net : Net} {tr : Transition} {t : TransitionName} {m m' : Marking} {B : Binding} {e : EvaluationError}

/-- The check before firing compares the weights of the input arcs with what the places hold. -/
theorem Net.WellFormed.covers_cases (hwell : net.WellFormed) (ht : net.transition? t = some tr) (hm : m.IsOver net.places)
    {taken : FinMap Place (Bag Value)} (htaken : Arcs.tokens B tr.input = .ok taken) :
    m.covers taken.entries = .ok true ∧ (∀ p v, tr.input.weight B p v ≤ m.count p v) ∨
      m.covers taken.entries = .ok false ∧ ∃ p v, m.count p v < tr.input.weight B p v := by
  have hplaces : ∀ e ∈ taken.entries, net.places.contains e.1 = true :=
    fun e => (hwell t tr ht).contains_of_tokens .input htaken
  have hiff : m.covers taken.entries = .ok true ↔ ∀ p v, tr.input.weight B p v ≤ m.count p v := by
    rw [Marking.covers_eq_true_iff]
    constructor
    · intro hall p v
      rw [← Arcs.count_of_tokens htaken]
      cases hp : taken.get? p with
      | none => simp
      | some bag =>
        obtain ⟨available, hget, hsub⟩ := hall (p, bag) (FinMap.mem_entries_iff.2 hp)
        have hget : m.get? p = some available := hget
        rw [Marking.count, hget]
        exact Bag.isSubset_iff.1 hsub v
    · intro hle e he
      obtain ⟨available, hget⟩ := Option.isSome_iff_exists.1 (hm.isSome (hplaces e he))
      refine ⟨available, hget, Bag.isSubset_iff.2 fun v => ?_⟩
      have hv := hle e.1 v
      rwa [← Arcs.count_of_tokens htaken, FinMap.mem_entries_iff.1 he, Marking.count, hget] at hv
  obtain ⟨covered, hcovered⟩ := hm.exists_covers hplaces
  rw [hcovered] at hiff ⊢
  cases covered with
  | true => exact .inl ⟨rfl, hiff.1 rfl⟩
  | false =>
    refine .inr ⟨rfl, ?_⟩
    by_contra hnone
    have hle : ∀ p v, tr.input.weight B p v ≤ m.count p v := by
      intro p v
      apply Nat.le_of_not_lt
      intro hlt
      exact hnone ⟨p, v, hlt⟩
    cases hiff.2 hle

/-- What is left after the tokens of the input arcs have been taken, with those of the output arcs, in machine words. -/
theorem Net.WellFormed.exists_moved (hwell : net.WellFormed) (ht : net.transition? t = some tr) (hm : m.IsOver net.places)
    (hfits : m.Fits) {taken made : FinMap Place (Bag Value)} (htaken : Arcs.tokens B tr.input = .ok taken)
    (hmade : Arcs.tokens B tr.output = .ok made) : ∃ m', (m.take taken.entries).put made.entries = .ok m' ∧
      m'.IsOver net.places ∧
      ∀ p v, m'.count p v = toWord (m.count p v - tr.input.weight B p v + tr.output.weight B p v) := by
  have hplaces : ∀ e ∈ made.entries, net.places.contains e.1 = true :=
    fun e => (hwell t tr ht).contains_of_tokens .output hmade
  have hleft := hm.take taken.entries
  have hleftFits : (m.take taken.entries).Fits := by
    refine Marking.fits_iff.2 fun p v => ?_
    rw [Marking.count_take]
    exact Nat.lt_of_le_of_lt (Nat.sub_le _ _) (Marking.fits_iff.1 hfits p v)
  obtain ⟨m', hm'⟩ := hleft.exists_put hplaces
  refine ⟨m', hm', hleft.put hm', fun p v => ?_⟩
  rw [Marking.count_of_put hleftFits hm', Marking.count_take, Arcs.count_of_tokens htaken, Arcs.count_of_tokens hmade]
  intro q hq
  obtain ⟨bag, hbag⟩ := Option.isSome_iff_exists.1 hq
  exact hleft.isSome (hplaces (q, bag) (FinMap.mem_entries_iff.2 hbag))

end Firing

/-! ### Firing with an interpreter -/

namespace Interpreter

variable {i : Interpreter}

theorem answers_inscription (b : Binding) (label : Inscription) (hi : i.Right) :
    Answers (inscription b label) i (label.evaluate b) := by
  cases label with
  | expr f =>
    have hanswers := answers_evaluate f.text b hi
    rwa [Formula.ofText_text] at hanswers
  | _ => exact answers_ofExcept _ hi

theorem answers_tokens (b : Binding) (l : List Inscription) (hi : i.Right) :
    Answers (tokens b l) i (Inscription.tokens b l) :=
  (answers_mapM (fun label _ => answers_inscription b label) l hi).bind fun vs _ _ hi' => answers_pure (Bag.ofList vs) hi'

theorem answers_arcTokens (b : Binding) (arcs : Arcs) (hi : i.Right) :
    Answers (arcTokens b arcs) i ((Arcs.tokens b arcs).map FinMap.entries) := by
  rw [Arcs.map_entries_tokens]
  exact answers_mapM (fun e _ hi' => (answers_tokens b e.2 hi').bind fun bag _ _ hi'' => answers_pure (e.1, bag) hi'')
    arcs.entries hi

/-- Firing, with the tokens of the arcs as lists of entries. -/
theorem fire_eq_entries (net : Net) (t : TransitionName) (m : Marking) (b : Binding) :
    net.fire t m b = (net.transition t).mapError Error.structural >>= fun tr =>
      ((Arcs.tokens b tr.input).map FinMap.entries).mapError Error.evaluation >>= fun taken =>
        (m.covers taken).mapError Error.structural >>= fun covered =>
          if covered then
            ((Arcs.tokens b tr.output).map FinMap.entries).mapError Error.evaluation >>= fun made =>
              ((m.take taken).put made).mapError Error.structural >>= fun m' => .ok (some m')
          else .ok none := by
  have hmap : ∀ {α β γ : Type} (x : Except EvaluationError α) (g : α → β) (k : β → Except Error γ),
      (x.mapError Error.evaluation >>= fun a => k (g a)) = (x.map g).mapError Error.evaluation >>= k := by
    intro α β γ x g k
    cases x <;> rfl
  unfold Net.fire
  refine bind_congr fun tr => ?_
  rw [← hmap]
  refine bind_congr fun taken => bind_congr fun covered => ?_
  rw [← hmap]
  rfl

/-- An interpreter that remembers right trees answers what firing gives. -/
theorem answers_fire (net : Net) (t : TransitionName) (m : Marking) (b : Binding) (hi : i.Right) :
    Answers (fire net t m b) i (net.fire t m b) := by
  rw [fire_eq_entries]
  refine (answers_lift _ hi).bind fun tr i₁ _ hi₁ => ?_
  refine ((answers_arcTokens b tr.input hi₁).adapt _).bind fun taken i₂ _ hi₂ => ?_
  refine (answers_lift _ hi₂).bind fun covered i₃ _ hi₃ => ?_
  cases covered with
  | false => exact answers_pure none hi₃
  | true =>
    refine ((answers_arcTokens b tr.output hi₃).adapt _).bind fun made i₄ _ hi₄ => ?_
    exact (answers_lift _ hi₄).bind fun m' _ _ hi' => answers_pure (some m') hi'

end Interpreter

section Outcome

variable {net : Net} {tr : Transition} {t : TransitionName} {m : Marking}

end Outcome

end TokenNet
