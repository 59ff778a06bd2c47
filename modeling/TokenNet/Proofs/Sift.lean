/-!
# Sifting a list

`sift p l` are the elements of `l` that pass the test `p`, or the first failure of the test.  Sifting the parts of a list
one after the other sifts the list: `sift_append`.  It succeeds when the test has a verdict on every element,
`exists_sift`, and else fails as the test does on the first element without one, `sift_eq_error_iff`.
-/

namespace TokenNet

variable {α β ε : Type} {p q : α → Except ε Bool} {l r : List α}

/-- The elements that pass a test, or its first failure. -/
def sift (p : α → Except ε Bool) : List α → Except ε (List α)
  | [] => .ok []
  | x :: l =>
    match p x with
    | .error e => .error e
    | .ok keep =>
      match sift p l with
      | .error e => .error e
      | .ok r => .ok (if keep then x :: r else r)

theorem sift_append (p : α → Except ε Bool) (l r : List α) :
    sift p (l ++ r) = match sift p l with
      | .error e => .error e
      | .ok l' =>
        match sift p r with
        | .error e => .error e
        | .ok r' => .ok (l' ++ r') := by
  induction l with
  | nil => cases h : sift p r <;> simp [sift, h]
  | cons x l ih =>
    simp only [List.cons_append, sift, ih]
    cases p x with
    | error e => rfl
    | ok keep =>
      cases sift p l with
      | error e => rfl
      | ok l' => cases sift p r <;> cases keep <;> rfl

theorem sift_map (f : β → α) (l : List β) : sift p (l.map f) = (sift (fun x => p (f x)) l).map (List.map f) := by
  induction l with
  | nil => rfl
  | cons x l ih =>
    simp only [List.map_cons, sift, ih]
    cases p (f x) with
    | error e => rfl
    | ok keep => cases sift (fun x => p (f x)) l <;> cases keep <;> rfl

theorem sift_congr (h : ∀ x ∈ l, p x = q x) : sift p l = sift q l := by
  induction l with
  | nil => rfl
  | cons x l ih =>
    simp only [sift, h x List.mem_cons_self, ih fun y hy => h y (List.mem_cons_of_mem x hy)]

/-- A test with one verdict for all elements keeps all of them or none. -/
theorem sift_const {v : Except ε Bool} (hl : l ≠ []) :
    sift (fun _ => v) l = v.map fun keep => if keep then l else [] := by
  induction l with
  | nil => exact absurd rfl hl
  | cons x l ih =>
    by_cases h : l = []
    · subst h
      cases v with
      | error e => rfl
      | ok keep => cases keep <;> rfl
    · rw [sift, ih h]
      cases v with
      | error e => rfl
      | ok keep => cases keep <;> rfl

theorem sift_cons_eq_ok {x : α} : sift p (x :: l) = .ok r ↔
    ∃ keep r', p x = .ok keep ∧ sift p l = .ok r' ∧ (if keep then x :: r' else r') = r := by
  cases hx : p x with
  | error e => simp [sift, hx]
  | ok keep => cases hl : sift p l <;> simp [sift, hx, hl]

theorem sift_cons_eq_error {x : α} {e : ε} : sift p (x :: l) = .error e ↔
    p x = .error e ∨ (∃ keep, p x = .ok keep) ∧ sift p l = .error e := by
  cases hx : p x with
  | error e' => simp [sift, hx]
  | ok keep => cases hl : sift p l <;> simp [sift, hx, hl]

theorem mem_of_sift (h : sift p l = .ok r) {x : α} : x ∈ r ↔ x ∈ l ∧ p x = .ok true := by
  induction l generalizing r with
  | nil =>
    cases h
    simp
  | cons y l ih =>
    obtain ⟨keep, r', hy, hl, rfl⟩ := sift_cons_eq_ok.1 h
    cases keep with
    | true =>
      rw [if_pos rfl, List.mem_cons, List.mem_cons, ih hl]
      constructor
      · rintro (rfl | ⟨hx, hp⟩)
        · exact ⟨.inl rfl, hy⟩
        · exact ⟨.inr hx, hp⟩
      · rintro ⟨rfl | hx, hp⟩
        · exact .inl rfl
        · exact .inr ⟨hx, hp⟩
    | false =>
      rw [if_neg Bool.false_ne_true, ih hl, List.mem_cons]
      constructor
      · exact fun ⟨hx, hp⟩ => ⟨.inr hx, hp⟩
      · rintro ⟨rfl | hx, hp⟩
        · rw [hy] at hp
          cases hp
        · exact ⟨hx, hp⟩

/-- Where sifting succeeds, the test has a verdict on every element. -/
theorem exists_of_sift (h : sift p l = .ok r) {x : α} (hx : x ∈ l) : ∃ keep, p x = .ok keep := by
  induction l generalizing r with
  | nil => cases hx
  | cons y l ih =>
    obtain ⟨keep, r', hy, hl, -⟩ := sift_cons_eq_ok.1 h
    rcases List.mem_cons.1 hx with rfl | hx
    · exact ⟨keep, hy⟩
    · exact ih hl hx

theorem exists_sift (h : ∀ x ∈ l, ∃ keep, p x = .ok keep) : ∃ r, sift p l = .ok r := by
  induction l with
  | nil => exact ⟨[], rfl⟩
  | cons x l ih =>
    obtain ⟨keep, hx⟩ := h x List.mem_cons_self
    obtain ⟨r, hr⟩ := ih fun y hy => h y (List.mem_cons_of_mem x hy)
    exact ⟨if keep then x :: r else r, sift_cons_eq_ok.2 ⟨keep, r, hx, hr, rfl⟩⟩

theorem sift_eq_error_iff {e : ε} : sift p l = .error e ↔
    ∃ before x after, l = before ++ x :: after ∧ (∀ y ∈ before, ∃ keep, p y = .ok keep) ∧ p x = .error e := by
  constructor
  · intro h
    induction l with
    | nil => cases h
    | cons x l ih =>
      rcases sift_cons_eq_error.1 h with hx | ⟨hx, hl⟩
      · exact ⟨[], x, l, rfl, nofun, hx⟩
      · -- the failure is one of the rest, and `x` is one more element before it
        obtain ⟨before, y, after, rfl, hbefore, hy⟩ := ih hl
        exact ⟨x :: before, y, after, rfl, List.forall_mem_cons.2 ⟨hx, hbefore⟩, hy⟩
  · rintro ⟨before, x, after, rfl, hbefore, hx⟩
    obtain ⟨r, hr⟩ := exists_sift hbefore
    have hafter : sift p (x :: after) = .error e := sift_cons_eq_error.2 (.inl hx)
    simp only [sift_append, hr, hafter]

end TokenNet
