import TokenNet.FinMap.Lemmas

/-!
# Results

What computations that may fail, `mapM`, `foldlM` and `traverse` return where they succeed.  Two computations that succeed
alike may fail with different errors, `mapM_of_mapM`; where they are equal on each element, so are the computations on the
whole, `mapM_eq_of_mapM` and `traverse_eq_of_traverse`.  A `mapM` fails as the first element does that fails,
`mapM_eq_error`.
-/

namespace TokenNet

section Bind

variable {α β ε : Type} {x : Except ε α} {f : α → Except ε β}

theorem bind_eq_ok {b : β} : x >>= f = .ok b ↔ ∃ a, x = .ok a ∧ f a = .ok b := by
  cases x with
  | error e =>
    constructor
    · intro h
      cases h
    · rintro ⟨a, ha, -⟩
      cases ha
  | ok a =>
    constructor
    · exact fun h => ⟨a, rfl, h⟩
    · rintro ⟨a', ha', h⟩
      cases ha'
      exact h

theorem bind_eq_error {e : ε} : x >>= f = .error e ↔ x = .error e ∨ ∃ a, x = .ok a ∧ f a = .error e := by
  cases x with
  | error e' =>
    constructor
    · intro h
      cases h
      exact .inl rfl
    · rintro (h | ⟨a, ha, -⟩)
      · cases h
        rfl
      · cases ha
  | ok a =>
    constructor
    · exact fun h => .inr ⟨a, rfl, h⟩
    · rintro (h | ⟨a', ha', h⟩)
      · cases h
      · cases ha'
        exact h

theorem mapError_eq_ok {ε' : Type} {φ : ε → ε'} {a : α} : x.mapError φ = .ok a ↔ x = .ok a := by
  cases x with
  | error e =>
    constructor
    · intro h
      cases h
    · intro h
      cases h
  | ok b => exact Iff.intro (fun h => by cases h; rfl) fun h => by cases h; rfl

theorem exists_eq_ok_iff : (∃ a, x = .ok a) ↔ ∀ e, x ≠ .error e := by
  cases x with
  | error e => simp
  | ok a => simp

theorem map_eq_ok {φ : α → β} {b : β} : x.map φ = .ok b ↔ ∃ a, x = .ok a ∧ φ a = b := by
  cases x with
  | error e =>
    constructor
    · intro h
      cases h
    · rintro ⟨a, h, -⟩
      cases h
  | ok a =>
    constructor
    · exact fun h => ⟨a, rfl, Except.ok.inj h⟩
    · rintro ⟨a', h, rfl⟩
      cases h
      rfl

theorem map_eq_error {φ : α → β} {e : ε} : x.map φ = .error e ↔ x = .error e := by
  cases x with
  | error e' => exact Iff.intro (fun h => by cases h; rfl) fun h => by cases h; rfl
  | ok a =>
    constructor
    · intro h
      cases h
    · intro h
      cases h

/-- The first of two computations with a state runs first, and the second one where it has left the state. -/
theorem run_bind_state {σ : Type} (x : ExceptT ε (StateM σ) α) (f : α → ExceptT ε (StateM σ) β) (s : σ) :
    (x >>= f).run.run s = match x.run.run s with
      | (.ok a, s') => (f a).run.run s'
      | (.error e, s') => (.error e, s') := by
  rw [ExceptT.run_bind, StateT.run_bind]
  rcases x.run.run s with ⟨_ | a, s'⟩ <;> rfl

end Bind

/-! ### Lists -/

section Lists

variable {α β γ ε : Type} {f : α → Except ε β} {l : List α} {r : List β}

theorem mapM_cons_eq_ok {a : α} :
    (a :: l).mapM f = .ok r ↔ ∃ b r', f a = .ok b ∧ l.mapM f = .ok r' ∧ r = b :: r' := by
  rw [List.mapM_cons, bind_eq_ok]
  constructor
  · rintro ⟨b, hb, h⟩
    obtain ⟨r', hr', h⟩ := bind_eq_ok.1 h
    cases h
    exact ⟨b, r', hb, hr', rfl⟩
  · rintro ⟨b, r', hb, hr', rfl⟩
    exact ⟨b, hb, bind_eq_ok.2 ⟨r', hr', rfl⟩⟩

theorem mem_of_mapM (h : l.mapM f = .ok r) {b : β} : b ∈ r ↔ ∃ a ∈ l, f a = .ok b := by
  induction l generalizing r with
  | nil =>
    cases h
    simp
  | cons a l ih =>
    obtain ⟨b', r', ha, hl, rfl⟩ := mapM_cons_eq_ok.1 h
    rw [List.mem_cons, ih hl]
    constructor
    · rintro (rfl | ⟨a', ha', hb⟩)
      · exact ⟨a, List.mem_cons_self, ha⟩
      · exact ⟨a', List.mem_cons_of_mem a ha', hb⟩
    · rintro ⟨a', ha', hb⟩
      rcases List.mem_cons.1 ha' with rfl | ha'
      · rw [ha] at hb
        cases hb
        exact .inl rfl
      · exact .inr ⟨a', ha', hb⟩

theorem exists_of_mapM (h : l.mapM f = .ok r) {a : α} (ha : a ∈ l) : ∃ b, f a = .ok b := by
  induction l generalizing r with
  | nil => cases ha
  | cons a' l ih =>
    obtain ⟨b', r', ha', hl, -⟩ := mapM_cons_eq_ok.1 h
    rcases List.mem_cons.1 ha with rfl | ha
    · exact ⟨b', ha'⟩
    · exact ih hl ha

theorem exists_mapM (h : ∀ a ∈ l, ∃ b, f a = .ok b) : ∃ r, l.mapM f = .ok r := by
  induction l with
  | nil => exact ⟨[], rfl⟩
  | cons a l ih =>
    obtain ⟨b, hb⟩ := h a List.mem_cons_self
    obtain ⟨r, hr⟩ := ih fun a' ha' => h a' (List.mem_cons_of_mem a ha')
    exact ⟨b :: r, mapM_cons_eq_ok.2 ⟨b, r, hb, hr, rfl⟩⟩

theorem length_of_mapM (h : l.mapM f = .ok r) : r.length = l.length := by
  induction l generalizing r with
  | nil =>
    cases h
    rfl
  | cons a l ih =>
    obtain ⟨b, r', -, hr', rfl⟩ := mapM_cons_eq_ok.1 h
    rw [List.length_cons, List.length_cons, ih hr']

/-- The error of a list is that of its first element that has one. -/
theorem mapM_eq_error {e : ε} : l.mapM f = .error e ↔ ∃ before a after, l = before ++ a :: after ∧
    (∀ a' ∈ before, ∃ b, f a' = .ok b) ∧ f a = .error e := by
  have hcons : ∀ (a : α) (l : List α), (a :: l).mapM f = .error e ↔
      f a = .error e ∨ (∃ b, f a = .ok b) ∧ l.mapM f = .error e := by
    intro a l
    rw [List.mapM_cons]
    cases f a with
    | error e' => simp [bind, Except.bind]
    | ok b => cases l.mapM f <;> simp [bind, Except.bind, pure, Except.pure]
  induction l with
  | nil => simp [pure, Except.pure]
  | cons c l ih =>
    rw [hcons]
    constructor
    · rintro (hc | ⟨hc, hl⟩)
      · exact ⟨[], c, l, rfl, fun a ha => absurd ha List.not_mem_nil, hc⟩
      · obtain ⟨before, a, after, rfl, hbefore, ha⟩ := ih.1 hl
        exact ⟨c :: before, a, after, rfl, List.forall_mem_cons.2 ⟨hc, hbefore⟩, ha⟩
    · rintro ⟨before, a, after, heq, hbefore, ha⟩
      cases before with
      | nil =>
        cases heq
        exact .inl ha
      | cons c' before =>
        cases heq
        obtain ⟨hc, hbefore⟩ := List.forall_mem_cons.1 hbefore
        exact .inr ⟨hc, ih.2 ⟨before, a, after, rfl, hbefore, ha⟩⟩

/-- Where each element of a list and its image succeed alike, so do the lists. -/
theorem mapM_of_mapM {g : β → Except ε γ} {g' : α → Except ε γ} (h : l.mapM f = .ok r)
    (hg : ∀ a ∈ l, ∀ b, f a = .ok b → ∀ c, g b = .ok c ↔ g' a = .ok c) {cs : List γ} :
    r.mapM g = .ok cs ↔ l.mapM g' = .ok cs := by
  induction l generalizing r cs with
  | nil =>
    cases h
    rfl
  | cons a l ih =>
    obtain ⟨b, r', ha, hl, rfl⟩ := mapM_cons_eq_ok.1 h
    rw [mapM_cons_eq_ok, mapM_cons_eq_ok]
    refine exists_congr fun c => exists_congr fun cs' => and_congr (hg a List.mem_cons_self b ha c) (and_congr_left' ?_)
    exact ih hl fun a' ha' => hg a' (List.mem_cons_of_mem a ha')

theorem mapM_congr {m : Type → Type} [Monad m] [LawfulMonad m] {f g : α → m β} (h : ∀ a ∈ l, f a = g a) :
    l.mapM f = l.mapM g := by
  induction l with
  | nil => rfl
  | cons a l ih =>
    rw [List.mapM_cons, List.mapM_cons, h a List.mem_cons_self, ih fun a' ha' => h a' (List.mem_cons_of_mem a ha')]

/-- Where each element of a list and its image have the same result or the same error, so have the lists. -/
theorem mapM_eq_of_mapM {ε' : Type} {g : β → Except ε' γ} {g' : α → Except ε' γ} (h : l.mapM f = .ok r)
    (hg : ∀ a ∈ l, ∀ b, f a = .ok b → g b = g' a) : r.mapM g = l.mapM g' := by
  induction l generalizing r with
  | nil =>
    cases h
    rfl
  | cons a l ih =>
    obtain ⟨b, r', ha, hl, rfl⟩ := mapM_cons_eq_ok.1 h
    have hrest := ih hl fun a' ha' => hg a' (List.mem_cons_of_mem a ha')
    rw [List.mapM_cons, List.mapM_cons, hg a List.mem_cons_self b ha, hrest]

/-- What every step of a fold keeps holds in the end. -/
theorem foldlM_invariant {P : β → Prop} {g : β → α → Except ε β} {b b' : β} (h : l.foldlM g b = .ok b') (hb : P b)
    (hg : ∀ b a b', P b → g b a = .ok b' → P b') : P b' := by
  induction l generalizing b with
  | nil =>
    cases h
    exact hb
  | cons a l ih =>
    rw [List.foldlM_cons] at h
    obtain ⟨b₁, hb₁, h⟩ := bind_eq_ok.1 h
    exact ih h (hg b a b₁ hb hb₁)

end Lists

/-! ### Finite maps -/

namespace FinMap

variable {K V W : Type} [Ord K] [Std.TransOrd K] [Std.LawfulEqOrd K] {φ : K → V → Except ε W}

omit [Ord K] in
private theorem mem_of_traverseEntries {l : List (K × V)} {r : List (K × W)} (h : traverseEntries φ l = .ok r) :
    (∀ k v, (k, v) ∈ l → ∃ w, φ k v = .ok w ∧ (k, w) ∈ r) ∧ ∀ k w, (k, w) ∈ r → ∃ v, (k, v) ∈ l ∧ φ k v = .ok w := by
  induction l generalizing r with
  | nil =>
    cases h
    exact ⟨fun k v hk => absurd hk List.not_mem_nil, fun k w hk => absurd hk List.not_mem_nil⟩
  | cons e l ih =>
    obtain ⟨k₀, v₀⟩ := e
    unfold traverseEntries at h
    cases hw : φ k₀ v₀ with
    | error e =>
      rw [hw] at h
      cases h
    | ok w₀ =>
      cases hr : traverseEntries φ l with
      | error e =>
        rw [hw, hr] at h
        cases h
      | ok r' =>
        rw [hw, hr] at h
        cases h
        obtain ⟨hto, hfrom⟩ := ih hr
        refine ⟨fun k v hk => ?_, fun k w hk => ?_⟩
        · rcases List.mem_cons.1 hk with heq | hk
          · cases heq
            exact ⟨w₀, hw, List.mem_cons_self⟩
          · obtain ⟨w, hw', hmem⟩ := hto k v hk
            exact ⟨w, hw', List.mem_cons_of_mem _ hmem⟩
        · rcases List.mem_cons.1 hk with heq | hk
          · cases heq
            exact ⟨v₀, List.mem_cons_self, hw⟩
          · obtain ⟨v, hmem, hv⟩ := hfrom k w hk
            exact ⟨v, List.mem_cons_of_mem _ hmem, hv⟩

omit [Ord K] in
private theorem exists_traverseEntries {l : List (K × V)} (h : ∀ k v, (k, v) ∈ l → ∃ w, φ k v = .ok w) :
    ∃ r, traverseEntries φ l = .ok r := by
  induction l with
  | nil => exact ⟨[], rfl⟩
  | cons e l ih =>
    obtain ⟨w, hw⟩ := h e.1 e.2 List.mem_cons_self
    obtain ⟨r, hr⟩ := ih fun k v hk => h k v (List.mem_cons_of_mem e hk)
    refine ⟨(e.1, w) :: r, ?_⟩
    unfold traverseEntries
    simp only [hw, hr]

omit [Std.TransOrd K] [Std.LawfulEqOrd K] in
theorem map_entries_traverse (φ : K → V → Except ε W) (m : FinMap K V) :
    (m.traverse φ).map entries = traverseEntries φ m.entries := by
  unfold traverse
  split
  · rename_i e he
    exact he.symm
  · rename_i r hr
    exact hr.symm

omit [Ord K] [Std.TransOrd K] [Std.LawfulEqOrd K] in
theorem traverseEntries_eq_mapM (φ : K → V → Except ε W) (l : List (K × V)) :
    traverseEntries φ l = l.mapM fun e => return (e.1, ← φ e.1 e.2) := by
  induction l with
  | nil => rfl
  | cons e l ih =>
    rw [traverseEntries, List.mapM_cons, ih]
    cases φ e.1 e.2 with
    | error e => rfl
    | ok w => cases List.mapM (fun e => return (e.1, ← φ e.1 e.2)) l <;> rfl

omit [Std.TransOrd K] [Std.LawfulEqOrd K] in
private theorem eq_of_map_entries_eq {x y : Except ε (FinMap K V)} (h : x.map entries = y.map entries) : x = y := by
  cases x with
  | error e =>
    cases y with
    | error e' => exact congrArg Except.error (Except.error.inj h)
    | ok b => cases h
  | ok a =>
    cases y with
    | error e' => cases h
    | ok b => exact congrArg Except.ok (entries_injective (Except.ok.inj h))

omit [Std.TransOrd K] [Std.LawfulEqOrd K] in
private theorem entries_of_traverse {m : FinMap K V} {r : FinMap K W} (h : m.traverse φ = .ok r) :
    traverseEntries φ m.entries = .ok r.entries := by
  rw [← map_entries_traverse, h]
  rfl

theorem exists_traverse {m : FinMap K V} (h : ∀ k v, m.get? k = some v → ∃ w, φ k v = .ok w) :
    ∃ r, m.traverse φ = .ok r := by
  obtain ⟨l, hl⟩ := exists_traverseEntries (l := m.entries) fun k v hk => h k v (mem_entries_iff.1 hk)
  rw [← map_entries_traverse] at hl
  cases hr : m.traverse φ with
  | error e =>
    rw [hr] at hl
    cases hl
  | ok r => exact ⟨r, rfl⟩

/-- Traversing a map succeeds with the map of the results. -/
theorem traverse_eq_ok {m : FinMap K V} {r : FinMap K W} : m.traverse φ = .ok r ↔
    (∀ k, (r.get? k).isSome = (m.get? k).isSome) ∧ ∀ k v, m.get? k = some v → ∃ w, φ k v = .ok w ∧ r.get? k = some w := by
  have hforward : ∀ {r : FinMap K W}, m.traverse φ = .ok r →
      (∀ k, (r.get? k).isSome = (m.get? k).isSome) ∧
        ∀ k v, m.get? k = some v → ∃ w, φ k v = .ok w ∧ r.get? k = some w := by
    intro r h
    obtain ⟨hto, hfrom⟩ := mem_of_traverseEntries (entries_of_traverse h)
    have hget : ∀ k v, m.get? k = some v → ∃ w, φ k v = .ok w ∧ r.get? k = some w := by
      intro k v hk
      obtain ⟨w, hw, hmem⟩ := hto k v (mem_entries_iff.2 hk)
      exact ⟨w, hw, mem_entries_iff.1 hmem⟩
    refine ⟨fun k => ?_, hget⟩
    cases hm : m.get? k with
    | some v =>
      obtain ⟨w, -, hw⟩ := hget k v hm
      rw [hw]
      rfl
    | none =>
      cases hr : r.get? k with
      | none => rfl
      | some w =>
        obtain ⟨v, hv, -⟩ := hfrom k w (mem_entries_iff.2 hr)
        rw [mem_entries_iff.1 hv] at hm
        cases hm
  constructor
  · exact hforward
  · rintro ⟨hkeys, hentries⟩
    obtain ⟨r', hr'⟩ := exists_traverse fun k v hk => (hentries k v hk).imp fun w hw => hw.1
    obtain ⟨hkeys', hentries'⟩ := hforward hr'
    have heq : r' = r := by
      refine ext_get? fun k => ?_
      cases hm : m.get? k with
      | none =>
        have hr : r.get? k = none := by simpa [hm] using hkeys k
        have hr' : r'.get? k = none := by simpa [hm] using hkeys' k
        rw [hr, hr']
      | some v =>
        obtain ⟨w, hw, hget⟩ := hentries k v hm
        obtain ⟨w', hw', hget'⟩ := hentries' k v hm
        rw [hw] at hw'
        cases hw'
        rw [hget, hget']
    rw [hr', heq]

variable {U ε' : Type} {g : K → W → Except ε' U} {g' : K → V → Except ε' U}

omit [Ord K] in
private theorem traverseEntries_eq_of_traverseEntries {l : List (K × V)} {r : List (K × W)}
    (h : traverseEntries φ l = .ok r) (hg : ∀ k v w, (k, v) ∈ l → φ k v = .ok w → g k w = g' k v) :
    traverseEntries g r = traverseEntries g' l := by
  induction l generalizing r with
  | nil =>
    cases h
    rfl
  | cons e l ih =>
    obtain ⟨k, v⟩ := e
    unfold traverseEntries at h
    split at h
    · cases h
    · rename_i w hw
      split at h
      · cases h
      · rename_i r' hr
        cases h
        have hfirst := hg k v w List.mem_cons_self hw
        have hrest := ih hr fun k' v' w' hk' => hg k' v' w' (List.mem_cons_of_mem _ hk')
        simp only [traverseEntries, hfirst, hrest]

/-- Where each entry of a map and its image have the same result or the same error, so have the maps. -/
theorem traverse_eq_of_traverse {m : FinMap K V} {r : FinMap K W} (h : m.traverse φ = .ok r)
    (hg : ∀ k v w, m.get? k = some v → φ k v = .ok w → g k w = g' k v) : r.traverse g = m.traverse g' := by
  refine eq_of_map_entries_eq ?_
  rw [map_entries_traverse, map_entries_traverse]
  exact traverseEntries_eq_of_traverseEntries (entries_of_traverse h) fun k v w hk => hg k v w (mem_entries_iff.1 hk)

end FinMap

end TokenNet
