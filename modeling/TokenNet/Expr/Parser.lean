import TokenNet.Error

/-!
# Reading expressions

The grammar, from the loosest to the tightest operator:

* disjunction: conjunctions, joined by `||`;
* conjunction: comparisons, joined by `&&`;
* comparison: a sum, or two sums around one of `==`, `!=`, `<=`, `>=`, `<`, `>`;
* sum: products, joined by `+` and `-`;
* product: operands, joined by `*`, `/` and `%`;
* operand: an atom, or `-` or `!` before an operand;
* atom: `()`, an integer, `true`, `false`, a string, an identifier, or an expression in parentheses.

Operators group to the left.  Blanks may stand around every token.  A reader takes what it reads off the front of the
characters; each level of the grammar is a function of a reader for the next tighter one.
-/

namespace TokenNet.Expr

/-- Takes a value off the front of the characters, or fails. -/
abbrev Reader (α : Type) := List Char → Option (α × List Char)

/-! ### Tokens -/

def isBlank (c : Char) : Bool := c = ' ' || c = '\t' || c = '\r' || c = '\n'

def skipBlanks (s : List Char) : List Char := s.dropWhile isBlank

/-- What follows the given symbol at the front of the characters. -/
def afterSymbol : List Char → List Char → Option (List Char)
  | [], s => some s
  | _ :: _, [] => none
  | c :: cs, d :: s => if c = d then afterSymbol cs s else none

/-- Reads one of the operators, the first that fits, and the blanks around it. -/
def readOperator (ops : List BinaryOp) : Reader BinaryOp := fun s =>
  let t := skipBlanks s
  ops.findSome? fun op => (afterSymbol op.symbolChars t).map fun rest => (op, skipBlanks rest)

/-- Reads the sign of a unary operator and the blanks around it. -/
def afterSign (op : UnaryOp) (s : List Char) : Option (List Char) :=
  (afterSymbol [op.sign] (skipBlanks s)).map skipBlanks

def readDot : Reader Expr := fun s => (afterSymbol ['(', ')'] s).map fun rest => (lit .dot, rest)

def readDigits : Reader Nat := fun s =>
  match s.span Char.isDigit with
  | ([], _) => none
  | (ds, rest) => some (Nat.ofDigitChars 10 ds 0, rest)

/-- An integer that fits into 64 bits; a minus sign belongs to it if the digits follow at once. -/
def readInt : Reader Expr := fun s =>
  match s with
  | '-' :: t => do
    let (n, rest) ← readDigits t
    return (lit (← Value.int? (-n)), rest)
  | s => do
    let (n, rest) ← readDigits s
    return (lit (← Value.int? n), rest)

/-- The content of a string up to the closing quote; quotes and backslashes follow a backslash. -/
def stringBody : Reader (List Char)
  | [] => none
  | '"' :: rest => some ([], rest)
  | '\\' :: '"' :: rest => (stringBody rest).map fun r => ('"' :: r.1, r.2)
  | '\\' :: '\\' :: rest => (stringBody rest).map fun r => ('\\' :: r.1, r.2)
  | '\\' :: _ => none
  | c :: rest => (stringBody rest).map fun r => (c :: r.1, r.2)

def readString : Reader Expr
  | '"' :: rest => (stringBody rest).map fun r => (lit (.str (String.ofList r.1)), r.2)
  | _ => none

def isNameStart (c : Char) : Bool := c.isAlpha || c = '_'

def isNameChar (c : Char) : Bool := c.isAlphanum || c = '_'

/-- ASCII letters, digits and underscores, of which the first is no digit. -/
def readName : Reader (List Char)
  | [] => none
  | c :: s => if isNameStart c then some (c :: s.takeWhile isNameChar, s.dropWhile isNameChar) else none

/-- The literal or the variable that a name stands for. -/
def ofName (name : List Char) : Expr :=
  if name = ['t', 'r', 'u', 'e'] then lit (.bool true)
  else if name = ['f', 'a', 'l', 's', 'e'] then lit (.bool false)
  else var (String.ofList name)

def readWord : Reader Expr := fun s => (readName s).map fun r => (ofName r.1, r.2)

/-- A name that denotes a variable in an expression. -/
def isIdentifier (name : String) : Bool :=
  match readName name.toList with
  | some (_, []) => name ≠ "true" && name ≠ "false"
  | _ => false

/-! ### Levels of the grammar -/

/-- Reads one of the operators and its right operand, and joins that to `e`. -/
def readJoined (ops : List BinaryOp) (operand : Reader Expr) (e : Expr) : Reader Expr := fun s => do
  let (op, t) ← readOperator ops s
  let (r, rest) ← operand t
  return (binary op e r, rest)

/-- Reads further operands and joins them to `e`, at most one for each character of the first list. -/
def readMore (ops : List BinaryOp) (operand : Reader Expr) : List Char → Expr → List Char → Expr × List Char
  | [], e, s => (e, s)
  | _ :: budget, e, s =>
    match readJoined ops operand e s with
    | none => (e, s)
    | some (e, rest) => readMore ops operand budget e rest

/-- Operands joined by the operators, grouped to the left.  Every operator takes a character, so there are no more of
them than characters left. -/
def leftAssoc (ops : List BinaryOp) (operand : Reader Expr) : Reader Expr := fun s =>
  (operand s).map fun r => readMore ops operand r.2 r.1 r.2

/-- One operand, or two around one of the operators. -/
def nonAssoc (ops : List BinaryOp) (operand : Reader Expr) : Reader Expr := fun s =>
  (operand s).map fun r => (readJoined ops operand r.1 r.2).getD r

def readProduct (operand : Reader Expr) : Reader Expr := leftAssoc [.multiply, .divide, .remainder] operand

def readSum (operand : Reader Expr) : Reader Expr := leftAssoc [.add, .subtract] (readProduct operand)

def readComparison (operand : Reader Expr) : Reader Expr :=
  nonAssoc [.equal, .notEqual, .lessEqual, .greaterEqual, .less, .greater] (readSum operand)

def readConjunction (operand : Reader Expr) : Reader Expr := leftAssoc [.and] (readComparison operand)

def readDisjunction (operand : Reader Expr) : Reader Expr := leftAssoc [.or] (readConjunction operand)

def readParenthesized (inner : Reader Expr) : Reader Expr := fun s => do
  let (e, rest) ← inner (← afterSymbol ['('] s)
  return (e, ← afterSymbol [')'] rest)

/-- An atom and the blanks around it; parentheses hold what `inner` reads. -/
def readAtom (inner : Reader Expr) : Reader Expr := fun s =>
  let t := skipBlanks s
  (readDot t <|> readParenthesized inner t <|> readInt t <|> readString t <|> readWord t).map
    fun r => (r.1, skipBlanks r.2)

/-- An operand in which parentheses and unary operators are nested less than `n` deep. -/
def readOperand : Nat → Reader Expr
  | 0 => fun _ => none
  | n + 1 => fun s =>
    readAtom (readDisjunction (readOperand n)) s
      <|> ((afterSign .negate s).bind (readOperand n)).map (fun r => (unary .negate r.1, r.2))
      <|> ((afterSign .not s).bind (readOperand n)).map (fun r => (unary .not r.1, r.2))

/-- An expression.  Every parenthesis and unary operator takes a character, so the number of the characters bounds the
depth of the nesting. -/
def readExpr : Reader Expr := fun s => readDisjunction (readOperand (s.length + 1)) s

/-! ### Whole texts -/

/-- Where reading fails for want of an expression: behind the blanks and negations at the front. -/
def failurePoint (s : List Char) : List Char := s.dropWhile fun c => isBlank c || c = '!'

def parse (text : String) : Except EvaluationError Expr :=
  match readExpr text.toList with
  | none => .error (.unreadable text (.noExpression (String.ofList (failurePoint text.toList))))
  | some (e, []) => .ok e
  | some (_, rest) => .error (.unreadable text (.leftOver (String.ofList rest)))

end TokenNet.Expr
