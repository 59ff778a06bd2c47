import TokenNet.Expr.Lemmas
import TokenNet.Formula
import TokenNet.Expr.Printer
import TokenNet.Proofs.Expr.Tokens

/-!
# Reading what was written

A tree whose variables are identifiers is written so that reading gives it back: `parse_text`.  Every tree that is read
has identifiers only, `hasIdentifiers_of_parse`.

Each level of the grammar passes an operand on if none of its operators follows, `leftAssoc_pass`, and joins two operands
around one of its operators, `leftAssoc_join`.  Inside parentheses there is one operator, so one level joins and all
others pass.
-/

namespace TokenNet.Expr

/-! ### Operators -/

section Levels

variable (ops : List BinaryOp) {operand : Reader Expr} {s t u rest : List Char} {e l r : Expr} {op : BinaryOp}

/-- Nothing more is to be read: the end, or a closing parenthesis. -/
def Closes (t : List Char) : Prop := t = [] ∨ ∃ rest, t = ')' :: rest

theorem readOperator_of_closes (ht : Closes t) : readOperator ops t = none := by
  unfold readOperator
  rw [List.findSome?_eq_none_iff]
  intro op _
  rcases ht with rfl | ⟨rest, rfl⟩
  · cases op <;> rfl
  · cases op <;> rfl

theorem leftAssoc_pass (hs : operand s = some (e, t)) (ht : readOperator ops t = none) :
    leftAssoc ops operand s = some (e, t) := by
  have hmore : ∀ budget, readMore ops operand budget e t = (e, t) := by
    intro budget
    cases budget with
    | nil => rfl
    | cons c budget => simp [readMore, readJoined, ht]
  unfold leftAssoc
  rw [hs, Option.map_some, hmore]

theorem nonAssoc_pass (hs : operand s = some (e, t)) (ht : readOperator ops t = none) :
    nonAssoc ops operand s = some (e, t) := by
  simp [nonAssoc, hs, readJoined, ht]

variable {ops} in
theorem readJoined_eq_some_iff : readJoined ops operand l t = some (e, rest) ↔
    ∃ op u r, readOperator ops t = some (op, u) ∧ operand u = some (r, rest) ∧ e = binary op l r := by
  constructor
  · intro h
    obtain ⟨⟨op, u⟩, hop, h⟩ := Option.bind_eq_some_iff.1 h
    obtain ⟨⟨r, rest'⟩, hr, h⟩ := Option.bind_eq_some_iff.1 h
    cases h
    exact ⟨op, u, r, hop, hr, rfl⟩
  · rintro ⟨op, u, r, hop, hr, rfl⟩
    simp [readJoined, hop, hr]

theorem leftAssoc_join (hs : operand s = some (l, t)) (hne : t ≠ []) (ht : readOperator ops t = some (op, u))
    (hu : operand u = some (r, rest)) (hrest : Closes rest) :
    leftAssoc ops operand s = some (binary op l r, rest) := by
  obtain ⟨c, t', rfl⟩ := List.exists_cons_of_ne_nil hne
  have hmore : ∀ budget, readMore ops operand budget (binary op l r) rest = (binary op l r, rest) := by
    intro budget
    cases budget with
    | nil => rfl
    | cons c budget => simp [readMore, readJoined, readOperator_of_closes _ hrest]
  unfold leftAssoc
  rw [hs, Option.map_some, readMore, readJoined_eq_some_iff.2 ⟨op, u, r, ht, hu, rfl⟩]
  dsimp only
  rw [hmore]

theorem nonAssoc_join (hs : operand s = some (l, t)) (ht : readOperator ops t = some (op, u))
    (hu : operand u = some (r, rest)) : nonAssoc ops operand s = some (binary op l r, rest) := by
  unfold nonAssoc
  rw [hs, Option.map_some, readJoined_eq_some_iff.2 ⟨op, u, r, ht, hu, rfl⟩, Option.getD_some]

/-- An operand that nothing follows passes all levels. -/
theorem readProduct_pass (hs : operand s = some (e, t)) (ht : Closes t) : readProduct operand s = some (e, t) :=
  leftAssoc_pass _ hs (readOperator_of_closes _ ht)

theorem readSum_pass (hs : operand s = some (e, t)) (ht : Closes t) : readSum operand s = some (e, t) :=
  leftAssoc_pass _ (readProduct_pass hs ht) (readOperator_of_closes _ ht)

theorem readComparison_pass (hs : operand s = some (e, t)) (ht : Closes t) : readComparison operand s = some (e, t) :=
  nonAssoc_pass _ (readSum_pass hs ht) (readOperator_of_closes _ ht)

theorem readConjunction_pass (hs : operand s = some (e, t)) (ht : Closes t) : readConjunction operand s = some (e, t) :=
  leftAssoc_pass _ (readComparison_pass hs ht) (readOperator_of_closes _ ht)

theorem readDisjunction_pass (hs : operand s = some (e, t)) (ht : Closes t) : readDisjunction operand s = some (e, t) :=
  leftAssoc_pass _ (readConjunction_pass hs ht) (readOperator_of_closes _ ht)

/-- The characters of an operator and a blank, as each level reads them. -/
private theorem readOperator_eq (hblank : skipBlanks u = u)
    (h : readOperator ops (op.symbolChars ++ ' ' :: u) = some (op, skipBlanks u)) :
    readOperator ops (op.symbolChars ++ ' ' :: u) = some (op, u) := by
  rw [h, hblank]

/-- Two operands around an operator: the level of the operator joins them, the tighter levels pass each of them, and the
looser ones pass the whole. -/
theorem readDisjunction_join (hs : operand s = some (l, op.symbolChars ++ ' ' :: u)) (hblank : skipBlanks u = u)
    (hu : operand u = some (r, rest)) (hrest : Closes rest) :
    readDisjunction operand s = some (binary op l r, rest) := by
  have hclose : ∀ ops, readOperator ops rest = none := fun ops => readOperator_of_closes _ hrest
  have hne : op.symbolChars ++ ' ' :: u ≠ [] := by simp
  cases op with
  | multiply | divide | remainder =>
    have hproduct := leftAssoc_join _ hs hne (readOperator_eq [.multiply, .divide, .remainder] hblank rfl) hu hrest
    have hsum := leftAssoc_pass [.add, .subtract] hproduct (hclose _)
    exact leftAssoc_pass _ (leftAssoc_pass _ (nonAssoc_pass _ hsum (hclose _)) (hclose _)) (hclose _)
  | add | subtract =>
    have hproduct := leftAssoc_pass [.multiply, .divide, .remainder] hs rfl
    have hsum := leftAssoc_join _ hproduct hne (readOperator_eq [.add, .subtract] hblank rfl)
      (readProduct_pass hu hrest) hrest
    exact leftAssoc_pass _ (leftAssoc_pass _ (nonAssoc_pass _ hsum (hclose _)) (hclose _)) (hclose _)
  | equal | notEqual | lessEqual | greaterEqual | less | greater =>
    have hproduct := leftAssoc_pass [.multiply, .divide, .remainder] hs rfl
    have hsum := leftAssoc_pass [.add, .subtract] hproduct rfl
    have hcomparison := nonAssoc_join _ hsum
      (readOperator_eq [.equal, .notEqual, .lessEqual, .greaterEqual, .less, .greater] hblank rfl)
      (readSum_pass hu hrest)
    exact leftAssoc_pass _ (leftAssoc_pass _ hcomparison (hclose _)) (hclose _)
  | and =>
    have hproduct := leftAssoc_pass [.multiply, .divide, .remainder] hs rfl
    have hsum := leftAssoc_pass [.add, .subtract] hproduct rfl
    have hcomparison := nonAssoc_pass [.equal, .notEqual, .lessEqual, .greaterEqual, .less, .greater] hsum rfl
    have hconjunction := leftAssoc_join _ hcomparison hne (readOperator_eq [.and] hblank rfl)
      (readComparison_pass hu hrest) hrest
    exact leftAssoc_pass _ hconjunction (hclose _)
  | or =>
    have hproduct := leftAssoc_pass [.multiply, .divide, .remainder] hs rfl
    have hsum := leftAssoc_pass [.add, .subtract] hproduct rfl
    have hcomparison := nonAssoc_pass [.equal, .notEqual, .lessEqual, .greaterEqual, .less, .greater] hsum rfl
    have hconjunction := leftAssoc_pass [.and] hcomparison rfl
    exact leftAssoc_join _ hconjunction hne (readOperator_eq [.or] hblank rfl) (readConjunction_pass hu hrest)
      hrest

end Levels

/-! ### Operands -/

/-- All variables are identifiers. -/
def HasIdentifiers (e : Expr) : Prop := ∀ x, e.mentions x = true → isIdentifier x = true

section Operands

variable {inner : Reader Expr} {e : Expr} {n : Nat} {s t u rest : List Char}

theorem chars_unary (op : UnaryOp) (e : Expr) (rest : List Char) :
    (unary op e).chars ++ rest = '(' :: op.sign :: ' ' :: (e.chars ++ ')' :: rest) := by
  simp [chars, charsBefore, charsBefore_eq e [')']]

theorem chars_binary (op : BinaryOp) (l r : Expr) (rest : List Char) : (binary op l r).chars ++ rest =
    '(' :: (l.chars ++ ' ' :: (op.symbolChars ++ ' ' :: (r.chars ++ ')' :: rest))) := by
  simp [chars, charsBefore, charsBefore_eq l (_ :: _), charsBefore_eq r [')']]

/-- A written tree begins with no blank and no closing parenthesis. -/
theorem exists_chars_eq_cons (he : e.HasIdentifiers) :
    ∃ c s, e.chars = c :: s ∧ isBlank c = false ∧ c ≠ ')' := by
  cases e with
  | lit v =>
    cases v with
    | dot => exact ⟨_, _, rfl, by decide, by decide⟩
    | bool b => cases b <;> exact ⟨_, _, rfl, by decide, by decide⟩
    | int n =>
      obtain ⟨c, s, hchars, hblank, hclose, -⟩ := exists_intLiteral_eq_cons n.toInt
      have hliteral : (lit (.int n)).chars = Value.intLiteral n.toInt := List.append_nil _
      exact ⟨c, s, hliteral.trans hchars, hblank, hclose⟩
    | str s => exact ⟨_, _, rfl, by decide, by decide⟩
  | var x =>
    obtain ⟨⟨c, s, hchars, hc, -⟩, -, -⟩ := isIdentifier_iff.1 (he x (by simp [mentions]))
    exact ⟨c, s, by simpa [chars, charsBefore] using hchars, isBlank_of_isNameStart hc,
      ne_of_isNameStart hc (by decide)⟩
  | unary op e => exact ⟨_, _, rfl, by decide, by decide⟩
  | binary op l r => exact ⟨_, _, rfl, by decide, by decide⟩

theorem skipBlanks_chars (he : e.HasIdentifiers) (rest : List Char) :
    skipBlanks (e.chars ++ rest) = e.chars ++ rest := by
  obtain ⟨c, s, hchars, hblank, -⟩ := exists_chars_eq_cons he
  rw [hchars, List.cons_append, skipBlanks_cons hblank]

theorem readAtom_parenthesized (ht : t.head? ≠ some ')') (h : inner t = some (e, ')' :: rest)) :
    readAtom inner ('(' :: t) = some (e, skipBlanks rest) := by
  have hdot : readDot ('(' :: t) = none := by
    cases t with
    | nil => rfl
    | cons c t =>
      have hc : ')' ≠ c := fun hc => ht (by rw [hc]; rfl)
      simp [readDot, afterSymbol, hc]
  have hparenthesized : readParenthesized inner ('(' :: t) = some (e, rest) := by
    simp [readParenthesized, afterSymbol, h]
  unfold readAtom
  dsimp only
  rw [skipBlanks_cons (by decide), hdot, hparenthesized]
  rfl

theorem readOperand_of_readAtom (h : readAtom (readDisjunction (readOperand n)) s = some (e, rest)) :
    readOperand (n + 1) s = some (e, rest) := by
  unfold readOperand
  rw [h]
  rfl

/-- A sign that begins no atom is followed by an operand. -/
theorem readOperand_sign (op : UnaryOp) (hatom : readAtom (readDisjunction (readOperand n)) (op.sign :: t) = none)
    (h : readOperand n (skipBlanks t) = some (e, u)) : readOperand (n + 1) (op.sign :: t) = some (unary op e, u) := by
  have hafter : afterSign op (op.sign :: t) = some (skipBlanks t) := by
    have hskip : skipBlanks (op.sign :: t) = op.sign :: t := by cases op <;> rfl
    rw [afterSign, hskip]
    simp [afterSymbol]
  unfold readOperand
  rw [hatom]
  cases op with
  | negate =>
    rw [hafter]
    simp [h]
  | not =>
    have hnegate : afterSign .negate (UnaryOp.not.sign :: t) = none := rfl
    rw [hnegate, hafter]
    simp [h]

/-- How deep the reader of operands has to go for a tree; a sign in parentheses takes two steps. -/
def nesting : Expr → Nat
  | lit _ => 0
  | var _ => 0
  | unary _ e => e.nesting + 2
  | binary _ l r => max l.nesting r.nesting + 1

theorem nesting_le_length (e : Expr) : e.nesting ≤ e.chars.length := by
  induction e with
  | lit v => exact Nat.zero_le _
  | var x => exact Nat.zero_le _
  | unary op e ih =>
    have hlen := congrArg List.length (chars_unary op e [])
    simp only [List.length_append, List.length_cons, List.length_nil] at hlen
    unfold nesting
    omega
  | binary op l r ihl ihr =>
    have hlen := congrArg List.length (chars_binary op l r [])
    simp only [List.length_append, List.length_cons, List.length_nil] at hlen
    unfold nesting
    omega

/-- A written tree is read as an operand. -/
theorem readOperand_chars (he : e.HasIdentifiers) (hn : e.nesting ≤ n) (hrest : EndsWord rest) :
    readOperand (n + 1) (e.chars ++ rest) = some (e, skipBlanks rest) := by
  induction e generalizing n rest with
  | lit v =>
    have hchars : (lit v).chars = v.literal := by simp [chars, charsBefore]
    rw [hchars]
    exact readOperand_of_readAtom (readAtom_literal v hrest)
  | var x =>
    have hchars : (var x).chars = x.toList := by simp [chars, charsBefore]
    rw [hchars]
    exact readOperand_of_readAtom (readAtom_identifier (he x (by simp [mentions])) hrest)
  | unary op e ih =>
    unfold nesting at hn
    have he' : e.HasIdentifiers := he
    obtain ⟨n, rfl⟩ : ∃ k, n = k + 2 := ⟨n - 2, by omega⟩
    have hoperand := ih (n := n) he' (by omega) (endsWord_close rest)
    rw [chars_unary]
    refine readOperand_of_readAtom (readAtom_parenthesized (by cases op <;> simp [UnaryOp.sign]) ?_)
    -- the blank behind the sign keeps it from an integer
    have hatom : ∀ inner, readAtom inner (op.sign :: ' ' :: (e.chars ++ ')' :: rest)) = none := by
      cases op <;> exact fun _ => rfl
    rw [← skipBlanks_chars he' (')' :: rest), ← skipBlanks_of_isBlank (c := ' ') (by decide)] at hoperand
    exact readDisjunction_pass (readOperand_sign op (hatom _) hoperand) (.inr ⟨rest, rfl⟩)
  | binary op l r ihl ihr =>
    have hl : l.HasIdentifiers := fun x hx => he x (by rw [mentions, hx, Bool.true_or])
    have hr : r.HasIdentifiers := fun x hx => he x (by rw [mentions, hx, Bool.or_true])
    unfold nesting at hn
    obtain ⟨n, rfl⟩ : ∃ k, n = k + 1 := ⟨n - 1, by omega⟩
    have hleft := ihl (n := n) hl (by omega) (endsWord_blank (op.symbolChars ++ ' ' :: (r.chars ++ ')' :: rest)))
    have hright := ihr (n := n) hr (by omega) (endsWord_close rest)
    have hskip : skipBlanks (' ' :: (op.symbolChars ++ ' ' :: (r.chars ++ ')' :: rest))) =
        op.symbolChars ++ ' ' :: (r.chars ++ ')' :: rest) := by cases op <;> rfl
    rw [hskip] at hleft
    rw [chars_binary]
    obtain ⟨c, s, hchars, -, hc⟩ := exists_chars_eq_cons hl
    refine readOperand_of_readAtom (readAtom_parenthesized (by simp [hchars, hc]) ?_)
    exact readDisjunction_join hleft (skipBlanks_chars hr _) hright (.inr ⟨rest, rfl⟩)

/-- Reading a written tree gives it back. -/
theorem parse_text (he : e.HasIdentifiers) : parse e.text = .ok e := by
  have hchars : e.text.toList = e.chars := String.toList_ofList
  have hoperand := readOperand_chars he (nesting_le_length e) endsWord_nil
  rw [List.append_nil] at hoperand
  have hread : readExpr e.chars = some (e, []) := readDisjunction_pass hoperand (.inl rfl)
  unfold parse
  rw [hchars, hread]

end Operands

/-! ### Identifiers -/

/-- Everything that is read has identifiers only. -/
def ReadsIdentifiers (reader : Reader Expr) : Prop := ∀ s e t, reader s = some (e, t) → e.HasIdentifiers

section Identifiers

variable {ops : List BinaryOp} {operand inner : Reader Expr}

theorem hasIdentifiers_lit (v : Value) : (lit v).HasIdentifiers := by
  intro x hx
  cases hx

theorem HasIdentifiers.binary {l r : Expr} (hl : l.HasIdentifiers) (hr : r.HasIdentifiers) (op : BinaryOp) :
    (Expr.binary op l r).HasIdentifiers := by
  intro x hx
  rcases Bool.or_eq_true_iff.1 hx with hx | hx
  · exact hl x hx
  · exact hr x hx

private theorem hasIdentifiers_of_readJoined (ho : ReadsIdentifiers operand) {e e' : Expr} (he : e.HasIdentifiers)
    {s t : List Char} (h : readJoined ops operand e s = some (e', t)) : e'.HasIdentifiers := by
  obtain ⟨op, u, r, -, hr, rfl⟩ := readJoined_eq_some_iff.1 h
  exact he.binary (ho u r t hr) op

theorem readsIdentifiers_leftAssoc (ho : ReadsIdentifiers operand) : ReadsIdentifiers (leftAssoc ops operand) := by
  have hmore : ∀ (budget : List Char) (e : Expr) (s : List Char), e.HasIdentifiers →
      (readMore ops operand budget e s).1.HasIdentifiers := by
    intro budget
    induction budget with
    | nil => exact fun e s he => he
    | cons c budget ih =>
      intro e s he
      unfold readMore
      cases hjoined : readJoined ops operand e s with
      | none => exact he
      | some r => exact ih r.1 r.2 (hasIdentifiers_of_readJoined ho he hjoined)
  intro s e t h
  obtain ⟨⟨e', t'⟩, hs, heq⟩ := Option.map_eq_some_iff.1 h
  have hread := hmore t' e' t' (ho s e' t' hs)
  rwa [heq] at hread

theorem readsIdentifiers_nonAssoc (ho : ReadsIdentifiers operand) : ReadsIdentifiers (nonAssoc ops operand) := by
  intro s e t h
  obtain ⟨⟨e', t'⟩, hs, heq⟩ := Option.map_eq_some_iff.1 h
  dsimp only at heq
  cases hjoined : readJoined ops operand e' t' with
  | none =>
    rw [hjoined] at heq
    cases heq
    exact ho s e t hs
  | some r =>
    rw [hjoined] at heq
    cases heq
    exact hasIdentifiers_of_readJoined ho (ho s e' t' hs) hjoined

theorem readsIdentifiers_readDisjunction (ho : ReadsIdentifiers operand) : ReadsIdentifiers (readDisjunction operand) :=
  readsIdentifiers_leftAssoc <| readsIdentifiers_leftAssoc <| readsIdentifiers_nonAssoc <| readsIdentifiers_leftAssoc <|
    readsIdentifiers_leftAssoc ho

theorem orElse_cases {α : Type} {a b : Option α} {r : α} (h : (a <|> b) = some r) : a = some r ∨ b = some r := by
  cases a with
  | none => exact .inr h
  | some a => exact .inl h

/-- What is read as an integer is a literal. -/
private theorem hasIdentifiers_of_readDigits {f : Nat → Option Value} {s t : List Char} {e : Expr}
    (h : (do
      let (n, rest) ← readDigits s
      return (lit (← f n), rest)) = some (e, t)) : e.HasIdentifiers := by
  obtain ⟨⟨n, rest⟩, -, h⟩ := Option.bind_eq_some_iff.1 h
  obtain ⟨v, -, h⟩ := Option.bind_eq_some_iff.1 h
  cases h
  exact hasIdentifiers_lit v

private theorem readsIdentifiers_readInt : ReadsIdentifiers readInt := by
  intro s e t h
  unfold readInt at h
  split at h
  · exact hasIdentifiers_of_readDigits (f := fun n => Value.int? (-n)) h
  · exact hasIdentifiers_of_readDigits (f := fun n => Value.int? n) h

private theorem readsIdentifiers_readString : ReadsIdentifiers readString := by
  intro s e t h
  unfold readString at h
  split at h
  · obtain ⟨r, -, heq⟩ := Option.map_eq_some_iff.1 h
    cases heq
    exact hasIdentifiers_lit _
  · cases h

private theorem readsIdentifiers_readWord : ReadsIdentifiers readWord := by
  intro s e t h
  cases e with
  | lit v => exact hasIdentifiers_lit v
  | var x =>
    intro y hy
    rw [← of_decide_eq_true hy]
    exact isIdentifier_of_readWord h
  | unary op e =>
    obtain ⟨r, -, heq⟩ := Option.map_eq_some_iff.1 h
    exact absurd (Prod.mk.inj heq).1 (by unfold ofName; split <;> [nofun; split <;> nofun])
  | binary op l r =>
    obtain ⟨r, -, heq⟩ := Option.map_eq_some_iff.1 h
    exact absurd (Prod.mk.inj heq).1 (by unfold ofName; split <;> [nofun; split <;> nofun])

/-- An atom is a literal, an identifier, or what parentheses hold. -/
theorem readsIdentifiers_readAtom (hi : ReadsIdentifiers inner) : ReadsIdentifiers (readAtom inner) := by
  intro s e t h
  obtain ⟨⟨e', t'⟩, halternatives, heq⟩ := Option.map_eq_some_iff.1 h
  cases heq
  rcases orElse_cases halternatives with hdot | halternatives
  · obtain ⟨rest, -, heq⟩ := Option.map_eq_some_iff.1 hdot
    cases heq
    exact hasIdentifiers_lit _
  rcases orElse_cases halternatives with hparenthesized | halternatives
  · obtain ⟨u, -, h⟩ := Option.bind_eq_some_iff.1 hparenthesized
    obtain ⟨⟨e', rest⟩, hinner, h⟩ := Option.bind_eq_some_iff.1 h
    obtain ⟨rest', -, h⟩ := Option.bind_eq_some_iff.1 h
    cases h
    exact hi u e' rest hinner
  rcases orElse_cases halternatives with hint | halternatives
  · exact readsIdentifiers_readInt _ _ _ hint
  rcases orElse_cases halternatives with hstring | hword
  · exact readsIdentifiers_readString _ _ _ hstring
  · exact readsIdentifiers_readWord _ _ _ hword

theorem readsIdentifiers_readOperand (n : Nat) : ReadsIdentifiers (readOperand n) := by
  induction n with
  | zero => exact fun s e t h => by cases h
  | succ n ih =>
    have hsign : ∀ (op op' : UnaryOp) (s : List Char) (e : Expr) (t : List Char),
        ((afterSign op s).bind (readOperand n)).map (fun r => (unary op' r.1, r.2)) = some (e, t) → e.HasIdentifiers := by
      intro op op' s e t h
      obtain ⟨⟨e', t'⟩, hafter, heq⟩ := Option.map_eq_some_iff.1 h
      obtain ⟨u, -, hread⟩ := Option.bind_eq_some_iff.1 hafter
      cases heq
      exact ih u e' t' hread
    intro s e t h
    rcases orElse_cases h with hatom | h
    · exact readsIdentifiers_readAtom (readsIdentifiers_readDisjunction ih) s e t hatom
    rcases orElse_cases h with hnegate | hnot
    · exact hsign .negate .negate s e t hnegate
    · exact hsign .not .not s e t hnot

/-- The variables of an expression that can be read are identifiers. -/
theorem hasIdentifiers_of_parse {text : String} {e : Expr} (h : parse text = .ok e) : e.HasIdentifiers := by
  have hread := readsIdentifiers_readDisjunction (readsIdentifiers_readOperand (text.toList.length + 1))
  unfold parse at h
  cases hs : readExpr text.toList with
  | none =>
    rw [hs] at h
    cases h
  | some r =>
    obtain ⟨e', rest⟩ := r
    rw [hs] at h
    cases rest with
    | nil =>
      cases h
      exact hread _ _ _ hs
    | cons c rest => cases h

/-- Reading the text of a tree gives the tree back exactly when its variables are identifiers, and these are the trees
that come from reading at all. -/
theorem parse_text_eq_ok_iff (e : Expr) :
    (parse e.text = .ok e ↔ e.HasIdentifiers) ∧ (e.HasIdentifiers ↔ ∃ text, parse text = .ok e) := by
  have hread : ∀ text, parse text = .ok e → e.HasIdentifiers := fun _ => hasIdentifiers_of_parse
  refine ⟨⟨hread _, parse_text⟩, fun he => ⟨e.text, parse_text he⟩, ?_⟩
  rintro ⟨text, htext⟩
  exact hread text htext

example : (binary .subtract (var "x") (unary .negate (lit (.int Int64.minValue)))).text =
    "(x - (- -9223372036854775808))" := by decide +kernel

end Identifiers

end TokenNet.Expr
