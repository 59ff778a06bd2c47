import TokenNet.Proofs.Expr.Reading

/-!
# The grammar of expressions

`Derives` is the grammar: which texts are expressions of a level, and of which tree.  An expression of a level is one of
the next tighter level, or two expressions around an operator of the level; the left one may be of the level itself, so
operators group to the left, but comparisons do not chain.  Blanks may stand before and after every expression, and so
around every token.  A minus sign that digits follow at once belongs to them.

What a reader takes off the front of a text is an expression of its level: `readsDerived_levelReader`,
`readsDerived_readOperand`.
-/

namespace TokenNet

namespace Expr

/-- The levels of the grammar, from the loosest operators to the operands. -/
inductive Level where
  | disjunction
  | conjunction
  | comparison
  | sum
  | product
  | operand
  deriving DecidableEq

/-- The next tighter level. -/
def Level.next : Level → Level
  | disjunction => conjunction
  | conjunction => comparison
  | comparison => sum
  | sum => product
  | product => operand
  | operand => operand

end Expr

/-- The level of the expressions that an operator makes. -/
def BinaryOp.level : BinaryOp → Expr.Level
  | or => .disjunction
  | and => .conjunction
  | equal | notEqual | less | lessEqual | greater | greaterEqual => .comparison
  | add | subtract => .sum
  | multiply | divide | remainder => .product

/-- The level of the left operand: that of the operator itself, unless it is a comparison. -/
def BinaryOp.leftLevel (op : BinaryOp) : Expr.Level := if op.level = .comparison then .sum else op.level

namespace Expr

/-- The text is an expression of the level, and the tree is its meaning. -/
inductive Derives : Level → List Char → Expr → Prop where
  | tighter {ℓ : Level} {s : List Char} {e : Expr} (h : Derives ℓ.next s e) : Derives ℓ s e
  | join {s t : List Char} {l r : Expr} (op : BinaryOp) (hl : Derives op.leftLevel s l) (hr : Derives op.level.next t r) :
      Derives op.level (s ++ op.symbolChars ++ t) (binary op l r)
  -- where a digit follows at once, the minus sign is that of the literal
  | unary {s : List Char} {e : Expr} (op : UnaryOp) (h : Derives .operand s e)
      (hsign : op = .negate → ∀ c ∈ s.head?, c.isDigit = false) : Derives .operand (op.sign :: s) (unary op e)
  | dot : Derives .operand ['(', ')'] (lit .dot)
  -- only numbers that fit into 64 bits are values
  | integer {ds : List Char} {v : Value} (hne : ds ≠ []) (hds : ∀ d ∈ ds, d.isDigit = true)
      (hv : Value.int? (Nat.ofDigitChars 10 ds 0) = some v) : Derives .operand ds (lit v)
  | negative {ds : List Char} {v : Value} (hne : ds ≠ []) (hds : ∀ d ∈ ds, d.isDigit = true)
      (hv : Value.int? (-(Nat.ofDigitChars 10 ds 0 : Nat)) = some v) : Derives .operand ('-' :: ds) (lit v)
  | truth : Derives .operand ['t', 'r', 'u', 'e'] (lit (.bool true))
  | falsity : Derives .operand ['f', 'a', 'l', 's', 'e'] (lit (.bool false))
  | string (s : List Char) : Derives .operand (Value.strLiteral s) (lit (.str (String.ofList s)))
  -- the words of the truth values are no identifiers, but may begin one
  | identifier {c : Char} {s : List Char} (hc : isNameStart c = true) (hs : ∀ d ∈ s, isNameChar d = true)
      (htrue : c :: s ≠ ['t', 'r', 'u', 'e']) (hfalse : c :: s ≠ ['f', 'a', 'l', 's', 'e']) :
      Derives .operand (c :: s) (var (String.ofList (c :: s)))
  | parenthesized {s : List Char} {e : Expr} (h : Derives .disjunction s e) : Derives .operand ('(' :: s ++ [')']) e
  -- blanks around a token are blanks around an expression that begins or ends with it
  | before {ℓ : Level} {c : Char} {s : List Char} {e : Expr} (hc : isBlank c = true) (h : Derives ℓ s e) :
      Derives ℓ (c :: s) e
  | after {ℓ : Level} {c : Char} {s : List Char} {e : Expr} (hc : isBlank c = true) (h : Derives ℓ s e) :
      Derives ℓ (s ++ [c]) e

/-! ### Blanks -/

section Blanks

variable {ℓ : Level} {s w : List Char} {e : Expr}

theorem Derives.blanks_before (h : Derives ℓ s e) (hw : ∀ c ∈ w, isBlank c = true) : Derives ℓ (w ++ s) e := by
  induction w with
  | nil => exact h
  | cons c w ih =>
    obtain ⟨hc, hw⟩ := List.forall_mem_cons.1 hw
    exact .before hc (ih hw)

theorem Derives.blanks_after (h : Derives ℓ s e) (hw : ∀ c ∈ w, isBlank c = true) : Derives ℓ (s ++ w) e := by
  induction w generalizing s with
  | nil => rwa [List.append_nil]
  | cons c w ih =>
    obtain ⟨hc, hw⟩ := List.forall_mem_cons.1 hw
    rw [List.append_cons]
    exact ih (.after hc h) hw

/-- Skipping the blanks takes them off the front. -/
theorem exists_eq_append_skipBlanks (s : List Char) : ∃ w, (∀ c ∈ w, isBlank c = true) ∧ s = w ++ skipBlanks s :=
  ⟨s.takeWhile isBlank, fun _ hc => List.mem_takeWhile_imp hc, List.takeWhile_append_dropWhile.symm⟩

end Blanks

/-! ### Tokens -/

section Tokens

variable {cs s t : List Char} {ops : List BinaryOp} {op : BinaryOp}

theorem afterSymbol_eq_some_iff : afterSymbol cs s = some t ↔ s = cs ++ t := by
  induction cs generalizing s with
  | nil => exact Option.some_inj
  | cons c cs ih =>
    cases s with
    | nil => simp [afterSymbol]
    | cons d s =>
      unfold afterSymbol
      by_cases hcd : c = d
      · rw [if_pos hcd, ih, hcd, List.cons_append, List.cons_inj_right]
      · rw [if_neg hcd]
        refine iff_of_false (Option.some_ne_none t).symm fun heq => hcd ?_
        exact (List.cons_eq_cons.1 heq).1.symm

/-- An operator is read with the blanks around it. -/
theorem eq_of_readOperator (h : readOperator ops s = some (op, t)) : op ∈ ops ∧
    ∃ w w', (∀ c ∈ w, isBlank c = true) ∧ (∀ c ∈ w', isBlank c = true) ∧ s = w ++ op.symbolChars ++ (w' ++ t) := by
  obtain ⟨op', hop', h⟩ := List.exists_of_findSome?_eq_some h
  obtain ⟨u, hu, heq⟩ := Option.map_eq_some_iff.1 h
  cases heq
  obtain ⟨w, hw, hs⟩ := exists_eq_append_skipBlanks s
  obtain ⟨w', hw', hu'⟩ := exists_eq_append_skipBlanks u
  refine ⟨hop', w, w', hw, hw', ?_⟩
  rw [← hu', List.append_assoc, ← afterSymbol_eq_some_iff.1 hu]
  exact hs

theorem eq_of_readDigits {n : Nat} (h : readDigits s = some (n, t)) :
    ∃ ds, ds ≠ [] ∧ (∀ d ∈ ds, d.isDigit = true) ∧ n = Nat.ofDigitChars 10 ds 0 ∧ s = ds ++ t := by
  unfold readDigits at h
  rw [List.span_eq_takeWhile_dropWhile] at h
  cases hds : s.takeWhile Char.isDigit with
  | nil =>
    rw [hds] at h
    cases h
  | cons d ds =>
    rw [hds] at h
    cases h
    refine ⟨d :: ds, List.cons_ne_nil d ds, fun c hc => ?_, rfl, ?_⟩
    · rw [← hds] at hc
      exact List.mem_takeWhile_imp hc
    · rw [← hds, List.takeWhile_append_dropWhile]

theorem eq_of_stringBody {body : List Char} (h : stringBody s = some (body, t)) :
    s = body.flatMap Value.escapedChar ++ '"' :: t := by
  induction s using stringBody.induct generalizing body with
  | case1 => cases h
  | case2 rest =>
    cases h
    rfl
  | case3 rest ih | case4 rest ih =>
    obtain ⟨⟨body', t'⟩, hrest, heq⟩ := Option.map_eq_some_iff.1 h
    cases heq
    rw [ih hrest]
    rfl
  | case5 => simp [stringBody] at h
  | case6 c rest hquote _ _ hslash ih =>
    have hplain : stringBody (c :: rest) = (stringBody rest).map fun r => (c :: r.1, r.2) := by
      simp [stringBody]
    rw [hplain] at h
    obtain ⟨⟨body', t'⟩, hrest, heq⟩ := Option.map_eq_some_iff.1 h
    cases heq
    have hescaped : Value.escapedChar c = [c] := if_neg fun hc => hc.elim hquote hslash
    rw [ih hrest, List.flatMap_cons, hescaped]
    rfl

end Tokens

/-! ### What levels read -/

/-- What the reader takes off the front is an expression of the level. -/
def ReadsDerived (ℓ : Level) (reader : Reader Expr) : Prop :=
  ∀ s e t, reader s = some (e, t) → ∃ u, s = u ++ t ∧ Derives ℓ u e

/-- The operators of a level, in the order in which they are tried. -/
def Level.ops : Level → List BinaryOp
  | disjunction => [.or]
  | conjunction => [.and]
  | comparison => [.equal, .notEqual, .lessEqual, .greaterEqual, .less, .greater]
  | sum => [.add, .subtract]
  | product => [.multiply, .divide, .remainder]
  | operand => []

theorem Level.mem_ops_iff {ℓ : Level} {op : BinaryOp} : op ∈ ℓ.ops ↔ op.level = ℓ := by
  cases ℓ <;> cases op <;> decide

/-- The reader of the expressions of a level, from a reader for operands. -/
def levelReader (operand : Reader Expr) : Level → Reader Expr
  | .disjunction => readDisjunction operand
  | .conjunction => readConjunction operand
  | .comparison => readComparison operand
  | .sum => readSum operand
  | .product => readProduct operand
  | .operand => operand

section Levels

variable {ℓ ℓ' : Level} {operand inner : Reader Expr} {s t u : List Char} {e e' : Expr} {n : Nat}

/-- A left operand that has been read, and the operator and the right operand that are read next. -/
private theorem readJoined_derives (ho : ReadsDerived ℓ.next operand) (hleft : ∀ op ∈ ℓ.ops, op.leftLevel = ℓ')
    (hu : Derives ℓ' u e) (h : readJoined ℓ.ops operand e s = some (e', t)) : ∃ v, s = v ++ t ∧ Derives ℓ (u ++ v) e' := by
  obtain ⟨op, s₁, r, hop, hr, rfl⟩ := readJoined_eq_some_iff.1 h
  obtain ⟨hmem, w, w', hw, hw', rfl⟩ := eq_of_readOperator hop
  obtain ⟨v, rfl, hv⟩ := ho s₁ r t hr
  obtain rfl := Level.mem_ops_iff.1 hmem
  rw [← hleft op hmem] at hu
  refine ⟨w ++ op.symbolChars ++ (w' ++ v), by simp only [List.append_assoc], ?_⟩
  have hjoin := Derives.join op (hu.blanks_after hw) (hv.blanks_before hw')
  simpa only [List.append_assoc] using hjoin

/-- Operands around operators that group to the left. -/
theorem readsDerived_leftAssoc (ho : ReadsDerived ℓ.next operand) (hleft : ∀ op ∈ ℓ.ops, op.leftLevel = ℓ) :
    ReadsDerived ℓ (leftAssoc ℓ.ops operand) := by
  have hmore : ∀ (budget : List Char) (u s : List Char) (e e' : Expr) (t : List Char), Derives ℓ u e →
      readMore ℓ.ops operand budget e s = (e', t) → ∃ v, s = v ++ t ∧ Derives ℓ (u ++ v) e' := by
    intro budget
    induction budget with
    | nil =>
      intro u s e e' t hu h
      cases h
      exact ⟨[], rfl, by rwa [List.append_nil]⟩
    | cons c budget ih =>
      intro u s e e' t hu h
      unfold readMore at h
      cases hjoined : readJoined ℓ.ops operand e s with
      | none =>
        rw [hjoined] at h
        cases h
        exact ⟨[], rfl, by rwa [List.append_nil]⟩
      | some r =>
        obtain ⟨e₁, s₁⟩ := r
        rw [hjoined] at h
        obtain ⟨v, rfl, hv⟩ := readJoined_derives ho hleft hu hjoined
        obtain ⟨v', rfl, hv'⟩ := ih (u ++ v) s₁ e₁ e' t hv h
        exact ⟨v ++ v', by rw [List.append_assoc], by rwa [← List.append_assoc]⟩
  intro s e t h
  obtain ⟨⟨e₀, s₀⟩, hfirst, hrest⟩ := Option.map_eq_some_iff.1 h
  obtain ⟨u, rfl, hu⟩ := ho s e₀ s₀ hfirst
  obtain ⟨v, rfl, hv⟩ := hmore s₀ u s₀ e₀ e t (.tighter hu) hrest
  exact ⟨u ++ v, by rw [List.append_assoc], hv⟩

/-- One operand, or two around an operator that does not chain. -/
theorem readsDerived_nonAssoc (ho : ReadsDerived ℓ.next operand) (hleft : ∀ op ∈ ℓ.ops, op.leftLevel = ℓ.next) :
    ReadsDerived ℓ (nonAssoc ℓ.ops operand) := by
  intro s e t h
  obtain ⟨⟨e₀, s₀⟩, hfirst, hrest⟩ := Option.map_eq_some_iff.1 h
  obtain ⟨u, rfl, hu⟩ := ho s e₀ s₀ hfirst
  dsimp only at hrest
  cases hjoined : readJoined ℓ.ops operand e₀ s₀ with
  | none =>
    rw [hjoined] at hrest
    cases hrest
    exact ⟨u, rfl, .tighter hu⟩
  | some r =>
    rw [hjoined] at hrest
    cases hrest
    obtain ⟨v, rfl, hv⟩ := readJoined_derives ho hleft hu hjoined
    exact ⟨u ++ v, by rw [List.append_assoc], hv⟩

theorem readsDerived_levelReader (ho : ReadsDerived .operand operand) (ℓ : Level) :
    ReadsDerived ℓ (levelReader operand ℓ) := by
  have hproduct : ReadsDerived .product (readProduct operand) := readsDerived_leftAssoc ho (by decide)
  have hsum : ReadsDerived .sum (readSum operand) := readsDerived_leftAssoc hproduct (by decide)
  have hcomparison : ReadsDerived .comparison (readComparison operand) := readsDerived_nonAssoc hsum (by decide)
  have hconjunction : ReadsDerived .conjunction (readConjunction operand) := readsDerived_leftAssoc hcomparison (by decide)
  cases ℓ with
  | disjunction => exact readsDerived_leftAssoc hconjunction (by decide)
  | conjunction => exact hconjunction
  | comparison => exact hcomparison
  | sum => exact hsum
  | product => exact hproduct
  | operand => exact ho

/-! ### What operands read -/

private theorem readsDerived_readDot : ReadsDerived .operand readDot := by
  intro s e t h
  obtain ⟨t', ht', heq⟩ := Option.map_eq_some_iff.1 h
  cases heq
  exact ⟨['(', ')'], afterSymbol_eq_some_iff.1 ht', .dot⟩

private theorem readsDerived_readParenthesized (hi : ReadsDerived .disjunction inner) :
    ReadsDerived .operand (readParenthesized inner) := by
  intro s e t h
  obtain ⟨s₁, hopen, h⟩ := Option.bind_eq_some_iff.1 h
  obtain ⟨⟨e', s₂⟩, hinner, h⟩ := Option.bind_eq_some_iff.1 h
  obtain ⟨t', hclose, h⟩ := Option.bind_eq_some_iff.1 h
  cases h
  obtain ⟨u, rfl, hu⟩ := hi s₁ e s₂ hinner
  refine ⟨'(' :: u ++ [')'], ?_, .parenthesized hu⟩
  rw [afterSymbol_eq_some_iff.1 hopen, afterSymbol_eq_some_iff.1 hclose]
  simp

private theorem readsDerived_readInt : ReadsDerived .operand readInt := by
  intro s e t h
  unfold readInt at h
  split at h
  · obtain ⟨⟨n, rest⟩, hdigits, h⟩ := Option.bind_eq_some_iff.1 h
    obtain ⟨v, hv, h⟩ := Option.bind_eq_some_iff.1 h
    cases h
    obtain ⟨ds, hne, hds, rfl, rfl⟩ := eq_of_readDigits hdigits
    exact ⟨'-' :: ds, rfl, .negative hne hds hv⟩
  · obtain ⟨⟨n, rest⟩, hdigits, h⟩ := Option.bind_eq_some_iff.1 h
    obtain ⟨v, hv, h⟩ := Option.bind_eq_some_iff.1 h
    cases h
    obtain ⟨ds, hne, hds, rfl, rfl⟩ := eq_of_readDigits hdigits
    exact ⟨ds, rfl, .integer hne hds hv⟩

private theorem readsDerived_readString : ReadsDerived .operand readString := by
  intro s e t h
  unfold readString at h
  split at h
  · obtain ⟨⟨body, t'⟩, hbody, heq⟩ := Option.map_eq_some_iff.1 h
    cases heq
    refine ⟨Value.strLiteral body, ?_, .string body⟩
    rw [eq_of_stringBody hbody]
    simp [Value.strLiteral]
  · cases h

/-- A name is a truth value or an identifier. -/
theorem derives_ofName {c : Char} (hc : isNameStart c = true) (hs : ∀ d ∈ s, isNameChar d = true) :
    Derives .operand (c :: s) (ofName (c :: s)) := by
  unfold ofName
  split
  · rename_i htrue
    rw [htrue]
    exact .truth
  · rename_i htrue
    split
    · rename_i hfalse
      rw [hfalse]
      exact .falsity
    · rename_i hfalse
      exact .identifier hc hs htrue hfalse

private theorem readsDerived_readWord : ReadsDerived .operand readWord := by
  intro s e t h
  obtain ⟨⟨name, t'⟩, hname, heq⟩ := Option.map_eq_some_iff.1 h
  cases heq
  cases s with
  | nil => cases hname
  | cons c s =>
    rw [readName_cons] at hname
    by_cases hc : isNameStart c = true
    · rw [if_pos hc] at hname
      cases hname
      refine ⟨c :: s.takeWhile isNameChar, by rw [List.cons_append, List.takeWhile_append_dropWhile], ?_⟩
      exact derives_ofName hc fun d hd => List.mem_takeWhile_imp hd
    · rw [if_neg hc] at hname
      cases hname

/-- An atom is read with the blanks around it. -/
theorem readsDerived_readAtom (hi : ReadsDerived .disjunction inner) : ReadsDerived .operand (readAtom inner) := by
  intro s e t h
  obtain ⟨⟨e', t'⟩, halternatives, heq⟩ := Option.map_eq_some_iff.1 h
  cases heq
  have hatom : ∃ u, skipBlanks s = u ++ t' ∧ Derives .operand u e' := by
    rcases orElse_cases halternatives with h | halternatives
    · exact readsDerived_readDot _ _ _ h
    rcases orElse_cases halternatives with h | halternatives
    · exact readsDerived_readParenthesized hi _ _ _ h
    rcases orElse_cases halternatives with h | halternatives
    · exact readsDerived_readInt _ _ _ h
    rcases orElse_cases halternatives with h | h
    · exact readsDerived_readString _ _ _ h
    · exact readsDerived_readWord _ _ _ h
  obtain ⟨u, hs, hu⟩ := hatom
  obtain ⟨w, hw, hs'⟩ := exists_eq_append_skipBlanks s
  obtain ⟨w', hw', ht'⟩ := exists_eq_append_skipBlanks t'
  refine ⟨w ++ (u ++ w'), ?_, (hu.blanks_after hw').blanks_before hw⟩
  rw [List.append_assoc, List.append_assoc, ← ht', ← hs]
  exact hs'

/-- A number that is too large with a minus sign is too large without it. -/
private theorem int?_eq_none_of_neg {n : Nat} (h : Value.int? (-(n : Int)) = none) : Value.int? (n : Int) = none := by
  unfold Value.int? at h ⊢
  refine if_neg fun hn => ?_
  rw [if_pos ⟨by omega, by omega⟩] at h
  cases h

/-- Digits that make no negative integer make no integer either. -/
private theorem readInt_eq_none_of_neg {d : Char} (hd : d.isDigit = true) (h : readInt ('-' :: d :: s) = none) :
    readInt (d :: s) = none := by
  have hminus : ∀ t, d :: s ≠ '-' :: t := fun t heq => ne_of_isDigit hd (by decide) (List.cons_eq_cons.1 heq).1
  rw [readInt] at h
  rw [readInt.eq_2 _ hminus]
  cases hdigits : readDigits (d :: s) with
  | none => rfl
  | some r =>
    obtain ⟨n, rest⟩ := r
    rw [hdigits, Option.bind_eq_bind, Option.bind_some] at h
    rw [Option.bind_eq_bind, Option.bind_some]
    dsimp only at h ⊢
    cases hlarge : Value.int? (-(n : Int)) with
    | none =>
      rw [int?_eq_none_of_neg hlarge]
      rfl
    | some v =>
      rw [hlarge] at h
      cases h

/-- Where digits make no integer with a minus sign, no operand begins with them. -/
private theorem readOperand_eq_none {d : Char} (hd : d.isDigit = true) (h : readInt ('-' :: d :: s) = none) :
    readOperand n (d :: s) = none := by
  have hint := readInt_eq_none_of_neg hd h
  cases n with
  | zero => rfl
  | succ n =>
    have hstring : readString (d :: s) = none := by
      unfold readString
      split
      · rename_i heq
        cases heq
        exact absurd hd (by decide)
      · rfl
    have hword : readWord (d :: s) = none := by
      have hstart : ¬ isNameStart d = true := fun hstart => by
        rw [isDigit_of_isNameStart hstart] at hd
        cases hd
      rw [readWord, readName_cons, if_neg hstart]
      rfl
    have hparen := ne_of_isDigit hd (c := '(') (by decide)
    have hatom : ∀ inner, readAtom inner (d :: s) = none := by
      intro inner
      unfold readAtom
      dsimp only
      rw [skipBlanks_cons (isBlank_of_isDigit hd), readDot_cons hparen, readParenthesized_cons hparen, hint, hstring, hword]
      rfl
    have hsign : ∀ op, afterSign op (d :: s) = none := by
      intro op
      rw [afterSign, skipBlanks_cons (isBlank_of_isDigit hd)]
      have hne : op.sign ≠ d := fun heq => by
        rw [← heq] at hd
        cases op <;> exact absurd hd (by decide)
      simp [afterSymbol, hne]
    unfold readOperand
    rw [hatom, hsign, hsign]
    rfl

/-- Where no atom can be read, no integer can. -/
private theorem readInt_eq_none (h : readAtom inner s = none) : readInt (skipBlanks s) = none := by
  cases hint : readInt (skipBlanks s) with
  | none => rfl
  | some r =>
    unfold readAtom at h
    dsimp only at h
    rw [hint] at h
    cases hdot : readDot (skipBlanks s) <;> cases hparen : readParenthesized inner (skipBlanks s) <;>
      rw [hdot, hparen] at h <;> cases h

/-- A sign and its operand; a minus sign before digits was tried as part of an integer. -/
private theorem derives_of_afterSign {op : UnaryOp} (ho : ReadsDerived .operand (readOperand n))
    (hatom : readAtom (readDisjunction (readOperand n)) s = none)
    (h : ((afterSign op s).bind (readOperand n)).map (fun r => (unary op r.1, r.2)) = some (e, t)) :
    ∃ u, s = u ++ t ∧ Derives .operand u e := by
  obtain ⟨⟨e', t'⟩, hafter, heq⟩ := Option.map_eq_some_iff.1 h
  cases heq
  obtain ⟨s₁, hs₁, hread⟩ := Option.bind_eq_some_iff.1 hafter
  obtain ⟨s₂, hs₂, rfl⟩ := Option.map_eq_some_iff.1 hs₁
  have hfront : skipBlanks s = op.sign :: s₂ := afterSymbol_eq_some_iff.1 hs₂
  obtain ⟨w, hw, hs⟩ := exists_eq_append_skipBlanks s
  obtain ⟨w', hw', hs₂'⟩ := exists_eq_append_skipBlanks s₂
  obtain ⟨u, hu, hderives⟩ := ho _ _ _ hread
  have hsign : op = .negate → ∀ c ∈ (w' ++ u).head?, c.isDigit = false := by
    rintro rfl c hc
    obtain ⟨l, hl⟩ := List.head?_eq_some_iff.1 hc
    have hcons : s₂ = c :: (l ++ t') := by rw [hs₂', hu, ← List.append_assoc, hl, List.cons_append]
    cases hdigit : c.isDigit with
    | false => rfl
    | true =>
      -- the digits would have been read with the sign, unless they are too large, with or without it
      have hint := readInt_eq_none hatom
      rw [hfront, hcons] at hint
      rw [hcons, skipBlanks_cons (isBlank_of_isDigit hdigit), readOperand_eq_none hdigit hint] at hread
      cases hread
  refine ⟨w ++ (op.sign :: (w' ++ u)), ?_, (Derives.unary op (hderives.blanks_before hw') hsign).blanks_before hw⟩
  rw [List.append_assoc, List.cons_append, List.append_assoc, ← hu, ← hs₂', ← hfront]
  exact hs

/-- An operand is an atom, or it has a sign. -/
theorem readsDerived_readOperand (n : Nat) : ReadsDerived .operand (readOperand n) := by
  induction n with
  | zero => exact fun s e t h => by cases h
  | succ n ih =>
    intro s e t h
    unfold readOperand at h
    cases hatom : readAtom (readDisjunction (readOperand n)) s with
    | some r =>
      rw [hatom] at h
      cases h
      exact readsDerived_readAtom (readsDerived_levelReader ih .disjunction) s e t hatom
    | none =>
      rw [hatom] at h
      rcases orElse_cases h with h | h
      · cases h
      rcases orElse_cases h with h | h
      · exact derives_of_afterSign ih hatom h
      · exact derives_of_afterSign ih hatom h

end Levels

end Expr

end TokenNet
