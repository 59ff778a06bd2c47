import Mathlib.Data.List.DropRight
import TokenNet.Proofs.Expr.Grammar

/-!
# Sentences of the grammar

Reading a text gives a tree exactly when the text is an expression with that tree: `parse_eq_ok_iff`.  So no text is an
expression in two ways, `Derives.unique`.

A reader takes an expression off the front of a longer text if what follows cannot prolong it: `Follows`, `Reads`.  The
grammar groups to the left and the reader loops, so the induction has to say more where operators chain: behind an
expression of the level, whatever operator of the level follows, the reader is in its loop, with that expression as the
left operand, `Reads.chains`.
-/

namespace TokenNet

namespace Expr

/-! ### Where expressions begin -/

section Beginnings

variable {ℓ : Level} {c : Char} {s t rest : List Char} {e : Expr} {op : BinaryOp}

/-- An expression is not empty; it begins with no closing parenthesis, and with nothing that could prolong an operator. -/
theorem Derives.exists_eq_cons (h : Derives ℓ s e) : ∃ c t, s = c :: t ∧ c ≠ ')' ∧ c ≠ '=' := by
  induction h with
  | tighter _ ih => exact ih
  | join op _ _ ihl _ =>
    obtain ⟨c, t, rfl, hc⟩ := ihl
    exact ⟨c, _, rfl, hc⟩
  | unary op _ _ _ => exact ⟨op.sign, _, rfl, by cases op <;> decide, by cases op <;> decide⟩
  | dot | negative _ _ _ | truth | falsity | string _ | parenthesized _ _ =>
    exact ⟨_, _, rfl, by decide, by decide⟩
  | @integer ds v hne hds hv =>
    obtain ⟨d, ds, rfl⟩ := List.exists_cons_of_ne_nil hne
    have hd := hds d List.mem_cons_self
    exact ⟨d, ds, rfl, ne_of_isDigit hd (by decide), ne_of_isDigit hd (by decide)⟩
  | identifier hc _ _ _ => exact ⟨_, _, rfl, ne_of_isNameStart hc (by decide), ne_of_isNameStart hc (by decide)⟩
  | @before ℓ c s e hc _ _ =>
    have hne : ∀ d, isBlank d = false → c ≠ d := by
      rintro _ hd rfl
      rw [hc] at hd
      cases hd
    exact ⟨c, s, rfl, hne _ (by decide), hne _ (by decide)⟩
  | after _ _ ih =>
    obtain ⟨c, t, rfl, hc⟩ := ih
    exact ⟨c, _, rfl, hc⟩

theorem skipBlanks_skipBlanks (s : List Char) : skipBlanks (skipBlanks s) = skipBlanks s :=
  List.dropWhile_idempotent isBlank s

theorem skipBlanks_symbolChars (op : BinaryOp) (t : List Char) :
    skipBlanks (op.symbolChars ++ t) = op.symbolChars ++ t := by
  cases op <;> rfl

/-- An operator is told from those that it begins, because no expression begins with what is missing to them. -/
theorem readOperator_symbolChars (h : Derives ℓ s e) (op : BinaryOp) (rest : List Char) :
    readOperator op.level.ops (op.symbolChars ++ (s ++ rest)) = some (op, skipBlanks (s ++ rest)) := by
  obtain ⟨c, t, rfl, -, hc⟩ := h.exists_eq_cons
  have hc' : ¬ '=' = c := Ne.symm hc
  cases op with
  | less | greater =>
    -- the longer comparisons are tried first
    unfold readOperator
    dsimp only
    rw [skipBlanks_symbolChars]
    simp [BinaryOp.level, Level.ops, BinaryOp.symbolChars, afterSymbol, hc']
  | _ => rfl

end Beginnings

/-! ### What may follow an expression -/

/-- How tight a level is. -/
def Level.rank : Level → Nat
  | disjunction => 0
  | conjunction => 1
  | comparison => 2
  | sum => 3
  | product => 4
  | operand => 5

/-- The text cannot prolong an expression of the level: neither its last word nor the expression, by an operator that is
as tight as the level. -/
structure Follows (ℓ : Level) (rest : List Char) : Prop where
  endsWord : EndsWord rest
  noOperator : ∀ ℓ' : Level, ℓ.rank ≤ ℓ'.rank → readOperator ℓ'.ops rest = none

section Follows

variable {ℓ : Level} {c : Char} {rest : List Char}

theorem Follows.next (h : Follows ℓ rest) : Follows ℓ.next rest := by
  refine ⟨h.endsWord, fun ℓ' hle => h.noOperator ℓ' (Nat.le_trans ?_ hle)⟩
  cases ℓ <;> decide

/-- Blanks go with the expression before them. -/
theorem Follows.blank (hc : isBlank c = true) (h : Follows ℓ rest) : Follows ℓ (c :: rest) := by
  refine ⟨?_, fun ℓ' hle => ?_⟩
  · rintro _ ⟨⟩
    cases hname : isNameChar c with
    | false => rfl
    | true =>
      simp only [isBlank, Bool.or_eq_true, decide_eq_true_eq] at hc
      obtain ((rfl | rfl) | rfl) | rfl := hc <;> cases hname
  · have hnone := h.noOperator ℓ' hle
    unfold readOperator at hnone ⊢
    rwa [skipBlanks_of_isBlank hc]

theorem follows_of_closes (h : Closes rest) (ℓ : Level) : Follows ℓ rest := by
  refine ⟨?_, fun ℓ' _ => readOperator_of_closes ℓ'.ops h⟩
  rcases h with rfl | ⟨rest, rfl⟩
  · exact endsWord_nil
  · exact endsWord_close rest

theorem follows_operand (h : EndsWord rest) : Follows .operand rest := by
  refine ⟨h, fun ℓ' hle => ?_⟩
  cases ℓ' with
  | operand => rfl
  | _ => exact absurd hle (by decide)

/-- An operator does not prolong what is tighter. -/
theorem follows_symbolChars (op : BinaryOp) (rest : List Char) : Follows op.level.next (op.symbolChars ++ rest) := by
  refine ⟨?_, fun ℓ' hle => ?_⟩
  · cases op <;> rintro c ⟨⟩ <;> decide
  · cases op <;> cases ℓ' <;> first | rfl | exact absurd hle (by decide)

end Follows

/-! ### Reading expressions off the front -/

/-- Operators of the level may follow one another. -/
def Level.Chains (ℓ : Level) : Prop := ℓ ≠ .comparison ∧ ℓ ≠ .operand

/-- The reader takes the expression off the front, up to what follows it. -/
structure Reads (n : Nat) (ℓ : Level) (s : List Char) (e : Expr) : Prop where
  closed : ∀ rest, Follows ℓ rest → levelReader (readOperand n) ℓ (s ++ rest) = some (e, skipBlanks rest)
  chains : ℓ.Chains → ∀ rest, Follows ℓ.next rest → levelReader (readOperand n) ℓ (s ++ rest) =
    some (readMore ℓ.ops (levelReader (readOperand n) ℓ.next) (skipBlanks rest) e (skipBlanks rest))

section Reads

variable {ℓ : Level} {c : Char} {n : Nat} {s t rest : List Char} {e l r : Expr} {op : BinaryOp}
  {operand inner : Reader Expr}

theorem levelReader_of_chains (hℓ : ℓ.Chains) :
    levelReader operand ℓ = leftAssoc ℓ.ops (levelReader operand ℓ.next) := by
  cases ℓ with
  | comparison => exact absurd rfl hℓ.1
  | operand => exact absurd rfl hℓ.2
  | _ => rfl

theorem readOperator_skipBlanks (ops : List BinaryOp) (s : List Char) :
    readOperator ops (skipBlanks s) = readOperator ops s := by
  unfold readOperator
  rw [skipBlanks_skipBlanks]

/-- Where nothing prolongs the expression, the loop ends at once. -/
theorem Reads.of_chains (h : ∀ rest, Follows ℓ.next rest → levelReader (readOperand n) ℓ (s ++ rest) =
    some (readMore ℓ.ops (levelReader (readOperand n) ℓ.next) (skipBlanks rest) e (skipBlanks rest))) :
    Reads n ℓ s e := by
  refine ⟨fun rest hrest => ?_, fun _ => h⟩
  have hnone : readOperator ℓ.ops (skipBlanks rest) = none := by
    rw [readOperator_skipBlanks]
    exact hrest.noOperator ℓ (Nat.le_refl _)
  rw [h rest hrest.next]
  generalize skipBlanks rest = t at hnone
  cases t with
  | nil => rfl
  | cons c t => simp [readMore, readJoined, hnone]

theorem Reads.of_operand (h : ∀ rest, EndsWord rest → readOperand n (s ++ rest) = some (e, skipBlanks rest)) :
    Reads n .operand s e :=
  ⟨fun rest hrest => h rest hrest.endsWord, fun hℓ => absurd rfl hℓ.2⟩

theorem Reads.of_atom (h : ∀ rest, EndsWord rest →
    readAtom (readDisjunction (readOperand n)) (s ++ rest) = some (e, skipBlanks rest)) : Reads (n + 1) .operand s e :=
  .of_operand fun rest hrest => readOperand_of_readAtom (h rest hrest)

/-! ### Levels -/

/-- An expression of the next tighter level. -/
theorem Reads.tighter (h : Reads n ℓ.next s e) : Reads n ℓ s e := by
  by_cases hoperand : ℓ = .operand
  · subst hoperand
    exact h
  by_cases hcomparison : ℓ = .comparison
  · subst hcomparison
    refine ⟨fun rest hrest => ?_, fun hℓ => absurd rfl hℓ.1⟩
    refine nonAssoc_pass _ (h.closed rest hrest.next) ?_
    rw [readOperator_skipBlanks]
    exact hrest.noOperator .comparison (Nat.le_refl _)
  · have hℓ : ℓ.Chains := ⟨hcomparison, hoperand⟩
    refine .of_chains fun rest hrest => ?_
    rw [levelReader_of_chains hℓ]
    unfold leftAssoc
    rw [h.closed rest hrest, Option.map_some]

theorem length_skipBlanks_le (s : List Char) : (skipBlanks s).length ≤ s.length :=
  (List.dropWhile_suffix isBlank).length_le

theorem readMore_nil (ops : List BinaryOp) (operand : Reader Expr) (budget : List Char) (e : Expr) :
    readMore ops operand budget e [] = (e, []) := by
  cases budget with
  | nil => rfl
  | cons c budget => simp [readMore, readJoined, readOperator_of_closes ops (.inl rfl)]

/-- An operator and its right operand take a character at least. -/
private theorem length_lt_of_readJoined (ho : ReadsDerived ℓ operand) {ops : List BinaryOp}
    (h : readJoined ops operand l s = some (e, t)) : t.length < s.length := by
  obtain ⟨op, s₁, r, hop, hr, -⟩ := readJoined_eq_some_iff.1 h
  obtain ⟨-, w, w', -, -, rfl⟩ := eq_of_readOperator hop
  obtain ⟨v, rfl, -⟩ := ho s₁ r t hr
  have hsymbol : 0 < op.symbolChars.length := by cases op <;> decide
  simp only [List.length_append]
  omega

/-- A budget of as many characters as are left is as good as a larger one. -/
theorem readMore_congr (ho : ReadsDerived ℓ operand) {ops : List BinaryOp} {budget budget' : List Char}
    (h : s.length ≤ budget.length) (h' : s.length ≤ budget'.length) :
    readMore ops operand budget e s = readMore ops operand budget' e s := by
  induction budget generalizing budget' e s with
  | nil =>
    obtain rfl := List.length_eq_zero_iff.1 (Nat.le_zero.1 h)
    rw [readMore_nil, readMore_nil]
  | cons c budget ih =>
    cases budget' with
    | nil =>
      obtain rfl := List.length_eq_zero_iff.1 (Nat.le_zero.1 h')
      rw [readMore_nil, readMore_nil]
    | cons c' budget' =>
      unfold readMore
      cases hjoined : readJoined ops operand e s with
      | none => rfl
      | some r =>
        have hlt := length_lt_of_readJoined ho hjoined
        rw [List.length_cons] at h h'
        exact ih (by omega) (by omega)

/-- An operand does not care for the blanks before it. -/
theorem readOperand_blank (hc : isBlank c = true) (n : Nat) (s : List Char) :
    readOperand n (c :: s) = readOperand n s := by
  cases n with
  | zero => rfl
  | succ n =>
    unfold readOperand readAtom afterSign
    rw [skipBlanks_of_isBlank hc]

theorem levelReader_blank (hc : isBlank c = true) (n : Nat) (ℓ : Level) (s : List Char) :
    levelReader (readOperand n) ℓ (c :: s) = levelReader (readOperand n) ℓ s := by
  have hoperand := readOperand_blank hc n s
  cases ℓ <;> simp only [levelReader, readDisjunction, readConjunction, readComparison, readSum, readProduct, leftAssoc,
    nonAssoc, hoperand]

theorem levelReader_skipBlanks (n : Nat) (ℓ : Level) (s : List Char) :
    levelReader (readOperand n) ℓ (skipBlanks s) = levelReader (readOperand n) ℓ s := by
  obtain ⟨w, hw, hs⟩ := exists_eq_append_skipBlanks s
  generalize skipBlanks s = t at hs
  subst hs
  induction w with
  | nil => rfl
  | cons c w ih =>
    obtain ⟨hc, hw⟩ := List.forall_mem_cons.1 hw
    rw [List.cons_append, levelReader_blank hc, ih hw]

/-- The operator of the level and its right operand. -/
private theorem readJoined_symbolChars (hr : Derives op.level.next t r) (ihr : Reads n op.level.next t r)
    (hrest : Follows op.level.next rest) :
    readJoined op.level.ops (levelReader (readOperand n) op.level.next) l (op.symbolChars ++ (t ++ rest)) =
      some (binary op l r, skipBlanks rest) := by
  refine readJoined_eq_some_iff.2 ⟨op, skipBlanks (t ++ rest), r, readOperator_symbolChars hr op rest, ?_, rfl⟩
  rw [levelReader_skipBlanks]
  exact ihr.closed rest hrest

/-- Two expressions around a comparison. -/
private theorem Reads.join_comparison (hop : op.level = .comparison) (hr : Derives op.level.next t r)
    (ihl : Reads n .sum s l) (ihr : Reads n op.level.next t r) :
    Reads n op.level (s ++ op.symbolChars ++ t) (binary op l r) := by
  refine ⟨fun rest hrest => ?_, fun hℓ => absurd hop hℓ.1⟩
  have hread : levelReader (readOperand n) op.level =
      nonAssoc op.level.ops (levelReader (readOperand n) op.level.next) := by
    rw [hop]
    rfl
  have hnext : op.level.next = .sum := by rw [hop, Level.next]
  rw [← hnext] at ihl
  have hleft := ihl.closed _ (follows_symbolChars op (t ++ rest))
  rw [skipBlanks_symbolChars] at hleft
  rw [hread, List.append_assoc, List.append_assoc]
  unfold nonAssoc
  rw [hleft, Option.map_some, readJoined_symbolChars hr ihr hrest.next, Option.getD_some]

/-- Two expressions around an operator that chains: the loop goes on behind the right one. -/
private theorem Reads.join_chains (hop : op.level.Chains) (hr : Derives op.level.next t r) (ihl : Reads n op.level s l)
    (ihr : Reads n op.level.next t r) : Reads n op.level (s ++ op.symbolChars ++ t) (binary op l r) := by
  refine .of_chains fun rest hrest => ?_
  have hleft := ihl.chains hop _ (follows_symbolChars op (t ++ rest))
  rw [List.append_assoc, List.append_assoc, hleft, skipBlanks_symbolChars]
  obtain ⟨c, cs, hsymbol⟩ : ∃ c cs, op.symbolChars = c :: cs := by cases op <;> exact ⟨_, _, rfl⟩
  have hstep : readMore op.level.ops (levelReader (readOperand n) op.level.next) (c :: (cs ++ (t ++ rest))) l
      (op.symbolChars ++ (t ++ rest)) = readMore op.level.ops (levelReader (readOperand n) op.level.next)
      (cs ++ (t ++ rest)) (binary op l r) (skipBlanks rest) := by
    rw [readMore, readJoined_symbolChars hr ihr hrest]
  -- the budget was counted before the operator, so it is more than what is left now
  have hlen := length_skipBlanks_le rest
  have hreads := readsDerived_levelReader (readsDerived_readOperand n) op.level.next
  rw [← List.cons_append, ← hsymbol] at hstep
  rw [hstep]
  refine congrArg some (readMore_congr hreads ?_ (Nat.le_refl _))
  simp only [List.length_append]
  omega

/-- Two expressions around an operator. -/
theorem Reads.join (hr : Derives op.level.next t r) (ihl : Reads n op.leftLevel s l) (ihr : Reads n op.level.next t r) :
    Reads n op.level (s ++ op.symbolChars ++ t) (binary op l r) := by
  unfold BinaryOp.leftLevel at ihl
  by_cases hcomparison : op.level = .comparison
  · rw [if_pos hcomparison] at ihl
    exact .join_comparison hcomparison hr ihl ihr
  · rw [if_neg hcomparison] at ihl
    have hoperand : op.level ≠ .operand := by cases op <;> decide
    exact .join_chains ⟨hcomparison, hoperand⟩ hr ihl ihr

theorem Reads.before (hc : isBlank c = true) (h : Reads n ℓ s e) : Reads n ℓ (c :: s) e := by
  refine ⟨fun rest hrest => ?_, fun hℓ rest hrest => ?_⟩
  · rw [List.cons_append, levelReader_blank hc]
    exact h.closed rest hrest
  · rw [List.cons_append, levelReader_blank hc]
    exact h.chains hℓ rest hrest

theorem Reads.after (hc : isBlank c = true) (h : Reads n ℓ s e) : Reads n ℓ (s ++ [c]) e := by
  refine ⟨fun rest hrest => ?_, fun hℓ rest hrest => ?_⟩
  · have hclosed := h.closed (c :: rest) (hrest.blank hc)
    rwa [List.append_cons, skipBlanks_of_isBlank hc] at hclosed
  · have hchains := h.chains hℓ (c :: rest) (hrest.blank hc)
    rwa [List.append_cons, skipBlanks_of_isBlank hc] at hchains

/-! ### Operands -/

/-- A sign that belongs to no integer is no atom. -/
private theorem readAtom_sign (op : UnaryOp) (hs : op = .negate → ∀ c ∈ s.head?, c.isDigit = false) :
    readAtom inner (op.sign :: s) = none := by
  cases op with
  | not => rfl
  | negate =>
    have hdigits : readDigits s = none := by
      cases s with
      | nil => rfl
      | cons c s =>
        have hc : c.isDigit = false := hs rfl c rfl
        simp [readDigits, List.span_eq_takeWhile_dropWhile, hc]
    have hint : readInt ('-' :: s) = none := by
      rw [readInt, hdigits]
      rfl
    unfold readAtom
    change (readDot ('-' :: s) <|> readParenthesized inner ('-' :: s) <|> readInt ('-' :: s) <|> readString ('-' :: s) <|>
      readWord ('-' :: s)).map _ = none
    rw [readDot_cons (by decide), readParenthesized_cons (by decide), hint]
    rfl

/-- A sign before an operand. -/
theorem Reads.unary (op : UnaryOp) (hs : Derives .operand s e) (h : Reads n .operand s e)
    (hsign : op = .negate → ∀ c ∈ s.head?, c.isDigit = false) : Reads (n + 1) .operand (op.sign :: s) (unary op e) := by
  refine .of_operand fun rest hrest => ?_
  obtain ⟨c, t, rfl, -⟩ := hs.exists_eq_cons
  refine readOperand_sign op (readAtom_sign op hsign) ?_
  rw [← h.closed rest (follows_operand hrest)]
  exact levelReader_skipBlanks n .operand (c :: t ++ rest)

/-- An expression in parentheses. -/
theorem Reads.parenthesized (hs : Derives .disjunction s e) (h : Reads n .disjunction s e) :
    Reads (n + 1) .operand ('(' :: s ++ [')']) e := by
  refine .of_atom fun rest _ => ?_
  obtain ⟨c, t, rfl, hc, -⟩ := hs.exists_eq_cons
  have hinner := h.closed (')' :: rest) (follows_of_closes (.inr ⟨rest, rfl⟩) _)
  rw [skipBlanks_cons (by decide)] at hinner
  rw [List.cons_append, List.cons_append, List.append_assoc]
  exact readAtom_parenthesized (by simpa using hc) hinner

theorem Reads.integer {ds : List Char} {v : Value} (hne : ds ≠ []) (hds : ∀ d ∈ ds, d.isDigit = true)
    (hv : Value.int? (Nat.ofDigitChars 10 ds 0) = some v) : Reads (n + 1) .operand ds (lit v) := by
  refine .of_atom fun rest hrest => ?_
  have hint := readInt_digits hne hds hv hrest
  obtain ⟨d, ds, rfl⟩ := List.exists_cons_of_ne_nil hne
  have hd := hds d List.mem_cons_self
  exact readAtom_of_readInt (isBlank_of_isDigit hd) (ne_of_isDigit hd (by decide)) hint

theorem Reads.negative {ds : List Char} {v : Value} (hne : ds ≠ []) (hds : ∀ d ∈ ds, d.isDigit = true)
    (hv : Value.int? (-(Nat.ofDigitChars 10 ds 0 : Nat)) = some v) : Reads (n + 1) .operand ('-' :: ds) (lit v) :=
  .of_atom fun _ hrest => readAtom_of_readInt (by decide) (by decide) (readInt_minus hne hds hv hrest)

theorem Reads.string (s : List Char) : Reads (n + 1) .operand (Value.strLiteral s) (lit (.str (String.ofList s))) := by
  refine .of_atom fun rest _ => readAtom_of_readString ?_
  have hstring := readString_literal (String.ofList s) rest
  rwa [String.toList_ofList] at hstring

theorem Reads.name (hc : isNameStart c = true) (hs : ∀ d ∈ s, isNameChar d = true) :
    Reads (n + 1) .operand (c :: s) (ofName (c :: s)) := by
  refine .of_atom fun rest hrest => readAtom_of_readWord hc ?_
  change readWord (c :: s ++ rest) = _
  rw [readWord, readName_append hc hs hrest, Option.map_some]

end Reads

/-- Every expression is read off the front.  The induction is on how the text is an expression; a sign and a parenthesis
take a character, and a step of the depth. -/
theorem Derives.reads {ℓ : Level} {n : Nat} {s : List Char} {e : Expr} (h : Derives ℓ s e) (hn : s.length ≤ n) :
    Reads (n + 1) ℓ s e := by
  induction h generalizing n with
  | tighter _ ih => exact .tighter (ih hn)
  | join op _ hr ihl ihr =>
    simp only [List.length_append] at hn
    exact .join hr (ihl (by omega)) (ihr (by omega))
  | unary op hs hsign ih =>
    obtain ⟨m, rfl⟩ := Nat.exists_eq_add_one_of_ne_zero (Nat.ne_zero_of_lt hn)
    exact .unary op hs (ih (Nat.le_of_succ_le_succ hn)) hsign
  | dot => exact .of_atom fun _ _ => rfl
  | integer hne hds hv => exact .integer hne hds hv
  | negative hne hds hv => exact .negative hne hds hv
  | truth => exact .name (by decide) (List.all_eq_true.1 (by decide))
  | falsity => exact .name (by decide) (List.all_eq_true.1 (by decide))
  | string s => exact .string s
  | identifier hc hs htrue hfalse =>
    have hname := Reads.name (n := n) hc hs
    rwa [ofName, if_neg htrue, if_neg hfalse] at hname
  | parenthesized hs ih =>
    rw [List.length_append, List.length_cons] at hn
    obtain ⟨m, rfl⟩ : ∃ m, n = m + 1 := ⟨n - 1, by omega⟩
    exact .parenthesized hs (ih (by omega))
  | before hc _ ih =>
    rw [List.length_cons] at hn
    exact .before hc (ih (by omega))
  | after hc _ ih =>
    rw [List.length_append] at hn
    exact .after hc (ih (by omega))

/-! ### Whole texts -/

/-- Reading a text to its end is finding it to be an expression. -/
theorem readExpr_eq_some_iff {s : List Char} {e : Expr} : readExpr s = some (e, []) ↔ Derives .disjunction s e := by
  constructor
  · intro h
    obtain ⟨u, hu, hderives⟩ := readsDerived_levelReader (readsDerived_readOperand _) .disjunction s e [] h
    rwa [hu, List.append_nil]
  · intro h
    have hread := (h.reads (Nat.le_refl s.length)).closed [] (follows_of_closes (.inl rfl) _)
    rwa [List.append_nil] at hread

/-- No text is an expression in two ways. -/
theorem Derives.unique {s : List Char} {e e' : Expr} (h : Derives .disjunction s e) (h' : Derives .disjunction s e') :
    e = e' := by
  have hread := readExpr_eq_some_iff.2 h
  rw [readExpr_eq_some_iff.2 h'] at hread
  cases hread
  rfl

/-- Reading a text gives a tree exactly when the text is an expression, and the tree is that of the expression. -/
theorem parse_eq_ok_iff (text : String) (e : Expr) : parse text = .ok e ↔ Derives .disjunction text.toList e := by
  rw [← readExpr_eq_some_iff]
  unfold parse
  cases readExpr text.toList with
  | none => exact iff_of_false nofun nofun
  | some r =>
    obtain ⟨e', rest⟩ := r
    cases rest with
    | nil => simp
    | cons c rest => exact iff_of_false nofun nofun

example : (parse "a -1 - -2 < - 3").toOption = some (binary .less
    (binary .subtract (binary .subtract (var "a") (lit (.int 1))) (lit (.int (-2))))
    (unary .negate (lit (.int 3)))) := by decide +kernel

end Expr

end TokenNet
