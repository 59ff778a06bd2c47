import Mathlib.Data.List.TakeDrop
import Mathlib.Data.List.TakeWhile
import TokenNet.Expr.Parser

/-!
# Reading tokens

Literals and identifiers are read as they were written, if what follows them cannot belong to them: `readInt_literal`,
`readString_literal`, `readWord_identifier`.  They are told apart by their first character, `readAtom_literal`,
`readAtom_identifier`.
-/

namespace TokenNet.Expr

/-- What follows cannot belong to a name or a number. -/
def EndsWord (rest : List Char) : Prop := ∀ c ∈ rest.head?, isNameChar c = false

theorem endsWord_nil : EndsWord [] := nofun

theorem endsWord_blank (rest : List Char) : EndsWord (' ' :: rest) := by
  rintro c ⟨⟩
  decide

theorem endsWord_close (rest : List Char) : EndsWord (')' :: rest) := by
  rintro c ⟨⟩
  decide

/-- The characters from the front that satisfy a predicate end where the word ends. -/
theorem takeWhile_dropWhile_append {p : Char → Bool} {word rest : List Char} (hword : ∀ c ∈ word, p c = true)
    (hrest : ∀ c ∈ rest.head?, p c = false) :
    (word ++ rest).takeWhile p = word ∧ (word ++ rest).dropWhile p = rest := by
  rw [List.takeWhile_append_of_pos hword, List.dropWhile_append_of_pos hword]
  cases rest with
  | nil => simp
  | cons c rest =>
    have hc : p c = false := hrest c rfl
    simp [hc]

/-! ### Integers -/

theorem isNameChar_of_isDigit {c : Char} (h : c.isDigit = true) : isNameChar c = true := by
  simp [isNameChar, Char.isAlphanum, h]

theorem ne_of_isDigit {c d : Char} (hd : d.isDigit = true) (hc : c.isDigit = false) : d ≠ c := by
  rintro rfl
  rw [hd] at hc
  cases hc

theorem isBlank_of_isDigit {d : Char} (hd : d.isDigit = true) : isBlank d = false := by
  simp [isBlank, ne_of_isDigit hd (c := ' ') (by decide), ne_of_isDigit hd (c := '\t') (by decide),
    ne_of_isDigit hd (c := '\r') (by decide), ne_of_isDigit hd (c := '\n') (by decide)]

theorem readDigits_append {ds rest : List Char} (hne : ds ≠ []) (hds : ∀ d ∈ ds, d.isDigit = true)
    (hrest : EndsWord rest) : readDigits (ds ++ rest) = some (Nat.ofDigitChars 10 ds 0, rest) := by
  have hend : ∀ c ∈ rest.head?, c.isDigit = false := by
    intro c hc
    have hname := hrest c hc
    cases hd : c.isDigit with
    | false => rfl
    | true =>
      rw [isNameChar_of_isDigit hd] at hname
      cases hname
  obtain ⟨htake, hdrop⟩ := takeWhile_dropWhile_append hds hend
  obtain ⟨d, ds, rfl⟩ := List.exists_cons_of_ne_nil hne
  unfold readDigits
  rw [List.span_eq_takeWhile_dropWhile, htake, hdrop]

/-- A number that is read as digits. -/
private theorem readNumber {f : Nat → Option Value} {s rest : List Char} {n : Nat} {v : Value}
    (hs : readDigits s = some (n, rest)) (hv : f n = some v) :
    (do
      let (n, rest) ← readDigits s
      return (lit (← f n), rest)) = some (lit v, rest) := by
  simp [hs, hv]

/-- Digits make an integer if it fits. -/
theorem readInt_digits {ds rest : List Char} {v : Value} (hne : ds ≠ []) (hds : ∀ d ∈ ds, d.isDigit = true)
    (hv : Value.int? (Nat.ofDigitChars 10 ds 0) = some v) (hrest : EndsWord rest) :
    readInt (ds ++ rest) = some (lit v, rest) := by
  rw [readInt]
  · exact readNumber (f := fun n => Value.int? n) (readDigits_append hne hds hrest) hv
  · intro t ht
    obtain ⟨d, ds, rfl⟩ := List.exists_cons_of_ne_nil hne
    cases ht
    exact absurd (hds '-' List.mem_cons_self) (by decide)

/-- A minus sign belongs to the digits that follow. -/
theorem readInt_minus {ds rest : List Char} {v : Value} (hne : ds ≠ []) (hds : ∀ d ∈ ds, d.isDigit = true)
    (hv : Value.int? (-(Nat.ofDigitChars 10 ds 0 : Nat)) = some v) (hrest : EndsWord rest) :
    readInt ('-' :: (ds ++ rest)) = some (lit v, rest) := by
  rw [readInt]
  exact readNumber (f := fun n => Value.int? (-n)) (readDigits_append hne hds hrest) hv

theorem int?_toInt (n : Int64) : Value.int? n.toInt = some (.int n) := by
  have hlow : -0x8000000000000000 ≤ n.toInt := by simpa using n.le_toInt
  have hhigh : n.toInt < 0x8000000000000000 := by simpa using n.toInt_lt
  unfold Value.int?
  rw [if_pos ⟨hlow, hhigh⟩, Int64.ofInt_toInt]

/-- A literal begins with a minus sign or a digit. -/
private theorem intLiteral_cases (z : Int) :
    (z < 0 ∧ Value.intLiteral z = '-' :: Nat.toDigits 10 z.natAbs) ∨
      (0 ≤ z ∧ Value.intLiteral z = Nat.toDigits 10 z.natAbs ∧ ∃ d ds, d.isDigit = true ∧ Value.intLiteral z = d :: ds) := by
  unfold Value.intLiteral
  by_cases hneg : z < 0
  · rw [if_pos hneg]
    exact .inl ⟨hneg, rfl⟩
  · rw [if_neg hneg]
    refine .inr ⟨by omega, rfl, ?_⟩
    cases hds : Nat.toDigits 10 z.natAbs with
    | nil => exact absurd hds Nat.toDigits_ne_nil
    | cons d ds =>
      refine ⟨d, ds, Nat.isDigit_of_mem_toDigits (b := 10) (n := z.natAbs) (by decide) (by decide) ?_, rfl⟩
      rw [hds]
      exact List.mem_cons_self

/-- A literal begins with neither a blank nor a parenthesis. -/
theorem exists_intLiteral_eq_cons (z : Int) :
    ∃ c s, Value.intLiteral z = c :: s ∧ isBlank c = false ∧ c ≠ ')' ∧ c ≠ '(' := by
  rcases intLiteral_cases z with ⟨-, hchars⟩ | ⟨-, -, d, ds, hd, hchars⟩
  · exact ⟨_, _, hchars, by decide, by decide, by decide⟩
  · exact ⟨d, ds, hchars, isBlank_of_isDigit hd, ne_of_isDigit hd (by decide), ne_of_isDigit hd (by decide)⟩

theorem readInt_literal (n : Int64) {rest : List Char} (hrest : EndsWord rest) :
    readInt (Value.intLiteral n.toInt ++ rest) = some (lit (.int n), rest) := by
  have hdigits : ∀ d ∈ Nat.toDigits 10 n.toInt.natAbs, d.isDigit = true := fun d hd =>
    Nat.isDigit_of_mem_toDigits (by decide) (by decide) hd
  rcases intLiteral_cases n.toInt with ⟨hneg, hchars⟩ | ⟨hpos, hchars, -⟩
  · have habs : -(n.toInt.natAbs : Int) = n.toInt := by omega
    rw [hchars, List.cons_append]
    refine readInt_minus Nat.toDigits_ne_nil hdigits ?_ hrest
    rw [Nat.ofDigitChars_ten_toDigits, habs, int?_toInt]
  · have habs : (n.toInt.natAbs : Int) = n.toInt := by omega
    rw [hchars]
    refine readInt_digits Nat.toDigits_ne_nil hdigits ?_ hrest
    rw [Nat.ofDigitChars_ten_toDigits, habs, int?_toInt]

/-! ### Strings -/

theorem stringBody_escaped (s rest : List Char) :
    stringBody (s.flatMap Value.escapedChar ++ '"' :: rest) = some (s, rest) := by
  induction s with
  | nil => rfl
  | cons c s ih =>
    rw [List.flatMap_cons, List.append_assoc]
    by_cases hquote : c = '"'
    · subst hquote
      simp [Value.escapedChar, stringBody, ih]
    · by_cases hslash : c = '\\'
      · subst hslash
        simp [Value.escapedChar, stringBody, ih]
      · simp [Value.escapedChar, stringBody, hquote, hslash, ih]

theorem readString_literal (s : String) (rest : List Char) :
    readString (Value.strLiteral s.toList ++ rest) = some (lit (.str s), rest) := by
  have hchars : Value.strLiteral s.toList ++ rest = '"' :: (s.toList.flatMap Value.escapedChar ++ '"' :: rest) := by
    simp [Value.strLiteral]
  rw [hchars, readString, stringBody_escaped]
  simp

/-! ### Names -/

theorem readName_cons (c : Char) (s : List Char) :
    readName (c :: s) = if isNameStart c then some (c :: s.takeWhile isNameChar, s.dropWhile isNameChar) else none := rfl

/-- An identifier is a name that is read to its end, and no literal. -/
theorem isIdentifier_iff {x : String} : isIdentifier x = true ↔
    (∃ c s, x.toList = c :: s ∧ isNameStart c = true ∧ ∀ d ∈ s, isNameChar d = true) ∧ x ≠ "true" ∧ x ≠ "false" := by
  unfold isIdentifier
  cases hx : x.toList with
  | nil => simp [readName]
  | cons c s =>
    rw [readName_cons]
    by_cases hc : isNameStart c = true
    · have hdrop : s.dropWhile isNameChar = [] ↔ ∀ d ∈ s, isNameChar d = true := List.dropWhile_eq_nil_iff
      rw [if_pos hc]
      cases hrest : s.dropWhile isNameChar with
      | nil =>
        rw [and_iff_right ⟨c, s, rfl, hc, hdrop.1 hrest⟩]
        simp
      | cons d t =>
        have hnot : ¬ ∀ d ∈ s, isNameChar d = true := fun hall => by
          rw [hdrop.2 hall] at hrest
          cases hrest
        simp [hnot]
    · simp [hc]

theorem readName_append {c : Char} {s rest : List Char} (hc : isNameStart c = true) (hs : ∀ d ∈ s, isNameChar d = true)
    (hrest : EndsWord rest) : readName (c :: s ++ rest) = some (c :: s, rest) := by
  obtain ⟨htake, hdrop⟩ := takeWhile_dropWhile_append hs hrest
  rw [List.cons_append, readName_cons, if_pos hc, htake, hdrop]

theorem readWord_identifier {x : String} (hx : isIdentifier x = true) {rest : List Char} (hrest : EndsWord rest) :
    readWord (x.toList ++ rest) = some (var x, rest) := by
  obtain ⟨⟨c, s, hchars, hc, hs⟩, htrue, hfalse⟩ := isIdentifier_iff.1 hx
  have hofName : ofName x.toList = var x := by
    have htrue' : x.toList ≠ ['t', 'r', 'u', 'e'] := fun h => htrue (String.toList_inj.1 h)
    have hfalse' : x.toList ≠ ['f', 'a', 'l', 's', 'e'] := fun h => hfalse (String.toList_inj.1 h)
    unfold ofName
    rw [if_neg htrue', if_neg hfalse', String.ofList_toList]
  rw [hchars] at hofName ⊢
  rw [readWord, readName_append hc hs hrest, Option.map_some, hofName]

/-- What is read as a variable is an identifier. -/
theorem isIdentifier_of_readWord {s rest : List Char} {x : Variable} (h : readWord s = some (var x, rest)) :
    isIdentifier x = true := by
  unfold readWord at h
  obtain ⟨⟨name, rest'⟩, hname, heq⟩ := Option.map_eq_some_iff.1 h
  obtain ⟨hword, -⟩ := Prod.mk.inj heq
  dsimp only at hword
  unfold ofName at hword
  split at hword
  · cases hword
  · rename_i htrue
    split at hword
    · cases hword
    · rename_i hfalse
      cases hword
      cases s with
      | nil => cases hname
      | cons c s =>
        rw [readName_cons] at hname
        by_cases hc : isNameStart c = true
        · rw [if_pos hc] at hname
          cases hname
          have hchars : ∀ l : List Char, (String.ofList l).toList = l := fun l => String.toList_ofList
          refine isIdentifier_iff.2 ⟨⟨c, s.takeWhile isNameChar, hchars _, hc, fun d hd => ?_⟩, fun h => ?_, fun h => ?_⟩
          · exact List.mem_takeWhile_imp hd
          · refine htrue ?_
            rw [← hchars (c :: s.takeWhile isNameChar), h]
            rfl
          · refine hfalse ?_
            rw [← hchars (c :: s.takeWhile isNameChar), h]
            rfl
        · rw [if_neg hc] at hname
          cases hname

/-! ### Atoms -/

section Atoms

variable {inner : Reader Expr} {c : Char} {s rest : List Char}

theorem skipBlanks_cons (hc : isBlank c = false) (s : List Char) : skipBlanks (c :: s) = c :: s := by
  simp [skipBlanks, hc]

theorem skipBlanks_of_isBlank (hc : isBlank c = true) (s : List Char) : skipBlanks (c :: s) = skipBlanks s := by
  simp [skipBlanks, hc]

theorem readDot_cons (hc : c ≠ '(') : readDot (c :: s) = none := by
  simp [readDot, afterSymbol, Ne.symm hc]

theorem readParenthesized_cons (hc : c ≠ '(') : readParenthesized inner (c :: s) = none := by
  simp [readParenthesized, afterSymbol, Ne.symm hc]

theorem readInt_cons (hminus : c ≠ '-') (hdigit : c.isDigit = false) : readInt (c :: s) = none := by
  have hdigits : readDigits (c :: s) = none := by
    simp [readDigits, List.span_eq_takeWhile_dropWhile, hdigit]
  rw [readInt]
  · rw [hdigits]
    rfl
  · intro t ht
    cases ht
    exact hminus rfl

/-- A number is no parenthesis and no string. -/
theorem readAtom_of_readInt {e : Expr} (hblank : isBlank c = false) (hc : c ≠ '(')
    (h : readInt (c :: s) = some (e, rest)) : readAtom inner (c :: s) = some (e, skipBlanks rest) := by
  unfold readAtom
  dsimp only
  rw [skipBlanks_cons hblank, readDot_cons hc, readParenthesized_cons hc, h]
  rfl

/-- A string begins with a quote. -/
theorem readAtom_of_readString {e : Expr} (h : readString ('"' :: s) = some (e, rest)) :
    readAtom inner ('"' :: s) = some (e, skipBlanks rest) := by
  unfold readAtom
  dsimp only
  rw [skipBlanks_cons (by decide), readDot_cons (by decide), readParenthesized_cons (by decide),
    readInt_cons (by decide) (by decide), h]
  rfl

theorem isDigit_of_isNameStart (hc : isNameStart c = true) : c.isDigit = false := by
  unfold isNameStart at hc
  rcases Bool.or_eq_true_iff.1 hc with halpha | hunderscore
  · have hletter : (decide ('A'.val ≤ c.val ∧ c.val ≤ 'Z'.val) || ('a'.val ≤ c.val && c.val ≤ 'z'.val)) = true := halpha
    change (decide ('0'.val ≤ c.val) && decide (c.val ≤ '9'.val)) = false
    grind
  · rw [of_decide_eq_true hunderscore]
    decide

theorem ne_of_isNameStart (hc : isNameStart c = true) {d : Char} (hd : isNameStart d = false) : c ≠ d := by
  rintro rfl
  rw [hc] at hd
  cases hd

theorem isBlank_of_isNameStart (hc : isNameStart c = true) : isBlank c = false := by
  simp [isBlank, ne_of_isNameStart hc (d := ' ') (by decide), ne_of_isNameStart hc (d := '\t') (by decide),
    ne_of_isNameStart hc (d := '\r') (by decide), ne_of_isNameStart hc (d := '\n') (by decide)]

/-- A name begins with a character that begins nothing else. -/
theorem readAtom_of_readWord {e : Expr} (hc : isNameStart c = true) (h : readWord (c :: s) = some (e, rest)) :
    readAtom inner (c :: s) = some (e, skipBlanks rest) := by
  have hblank := isBlank_of_isNameStart hc
  have hstring : readString (c :: s) = none := by
    unfold readString
    split
    · rename_i heq
      cases heq
      exact absurd hc (by decide)
    · rfl
  have hparen := ne_of_isNameStart hc (d := '(') (by decide)
  unfold readAtom
  dsimp only
  rw [skipBlanks_cons hblank, readDot_cons hparen, readParenthesized_cons hparen,
    readInt_cons (ne_of_isNameStart hc (by decide)) (isDigit_of_isNameStart hc), hstring, h]
  rfl

theorem readAtom_identifier {x : String} (hx : isIdentifier x = true) (hrest : EndsWord rest) :
    readAtom inner (x.toList ++ rest) = some (var x, skipBlanks rest) := by
  obtain ⟨⟨c, s, hchars, hc, -⟩, -, -⟩ := isIdentifier_iff.1 hx
  have hword := readWord_identifier hx hrest
  rw [hchars, List.cons_append] at hword ⊢
  exact readAtom_of_readWord hc hword

theorem readAtom_literal (v : Value) (hrest : EndsWord rest) :
    readAtom inner (v.literal ++ rest) = some (lit v, skipBlanks rest) := by
  have hbool : ∀ {c : Char} {s : List Char} {b : Bool}, isNameStart c = true → s.all isNameChar = true →
      ofName (c :: s) = lit (.bool b) → readAtom inner (c :: s ++ rest) = some (lit (.bool b), skipBlanks rest) := by
    intro c s b hc hs hname
    have hword : readWord (c :: s ++ rest) = some (lit (.bool b), rest) := by
      rw [readWord, readName_append hc (List.all_eq_true.1 hs) hrest, Option.map_some, hname]
    exact readAtom_of_readWord hc hword
  cases v with
  | dot => rfl
  | bool b =>
    cases b with
    | false => exact hbool (by decide) (by decide) rfl
    | true => exact hbool (by decide) (by decide) rfl
  | int n =>
    have hint := readInt_literal n hrest
    obtain ⟨c, s, hchars, hblank, -, hopen⟩ := exists_intLiteral_eq_cons n.toInt
    change readAtom inner (Value.intLiteral n.toInt ++ rest) = _
    rw [hchars, List.cons_append] at hint ⊢
    exact readAtom_of_readInt hblank hopen hint
  | str s => exact readAtom_of_readString (readString_literal s rest)

end Atoms

end TokenNet.Expr
