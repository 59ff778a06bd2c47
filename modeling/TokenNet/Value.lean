import TokenNet.FinMap

/-!
# Token values

A token is the black dot, a truth value, a 64-bit integer or a string.  Values are totally ordered: dots, truth values,
integers, strings, and within each kind as usual.  A value prints as the literal that denotes it in an expression.
-/

namespace TokenNet

inductive Value where
  | dot
  | bool (b : Bool)
  | int (n : Int64)
  | str (s : String)
  deriving DecidableEq

namespace Value

instance : Inhabited Value := ⟨dot⟩

inductive Kind where
  | dot
  | bool
  | int
  | str
  deriving DecidableEq

/-- The word for a kind of value in messages. -/
def Kind.word : Kind → String
  | dot => "dot"
  | bool => "bool"
  | int => "int"
  | str => "string"

def kind : Value → Kind
  | dot => .dot
  | bool _ => .bool
  | int _ => .int
  | str _ => .str

/-- The integer as a value, if it fits into 64 bits. -/
def int? (z : Int) : Option Value :=
  if -0x8000000000000000 ≤ z ∧ z < 0x8000000000000000 then some (int (Int64.ofInt z)) else none

/-! ### Order -/

/-- Dots before truth values before integers before strings. -/
def cmp : Value → Value → Ordering
  | dot, dot => .eq
  | dot, _ => .lt
  | _, dot => .gt
  | bool a, bool b => compare a b
  | bool _, _ => .lt
  | _, bool _ => .gt
  | int m, int n => compare m n
  | int _, _ => .lt
  | _, int _ => .gt
  | str s, str t => compare s t

instance : Ord Value := ⟨cmp⟩

/-- The kind of a value as a number, followed by its content. -/
def sortKey : Value → Nat × Bool × Int64 × String
  | dot => (0, false, 0, "")
  | bool b => (1, b, 0, "")
  | int n => (2, false, n, "")
  | str s => (3, false, 0, s)

/-- The order of values is that of their sort keys, which makes it total. -/
theorem compare_eq_compareOn_sortKey : (compare : Value → Value → Ordering) = compareOn sortKey := by
  funext a b
  change cmp a b = (compare a.sortKey.1 b.sortKey.1).then ((compare a.sortKey.2.1 b.sortKey.2.1).then
    ((compare a.sortKey.2.2.1 b.sortKey.2.2.1).then (compare a.sortKey.2.2.2 b.sortKey.2.2.2)))
  cases a <;> cases b <;> simp [cmp, sortKey] <;> rfl

instance : Std.TransOrd Value := by
  change Std.TransCmp compare
  rw [compare_eq_compareOn_sortKey]
  infer_instance

theorem sortKey_injective {a b : Value} (h : a.sortKey = b.sortKey) : a = b := by
  cases a <;> cases b <;> simp_all [sortKey]

instance : Std.LawfulEqOrd Value where
  eq_of_compare {a b} h :=
    have hk : compare a.sortKey b.sortKey = .eq := by
      rw [compare_eq_compareOn_sortKey] at h
      exact h
    sortKey_injective (Std.LawfulEqCmp.eq_of_compare hk)

/-! ### Literals -/

def intLiteral (n : Int) : List Char :=
  if n < 0 then '-' :: Nat.toDigits 10 n.natAbs else Nat.toDigits 10 n.natAbs

/-- Inside a string literal a quote and a backslash follow a backslash. -/
def escapedChar (c : Char) : List Char :=
  if c = '"' ∨ c = '\\' then ['\\', c] else [c]

def strLiteral (s : List Char) : List Char :=
  '"' :: s.flatMap escapedChar ++ ['"']

def literal : Value → List Char
  | dot => ['(', ')']
  | bool true => "true".toList
  | bool false => "false".toList
  | int n => intLiteral n.toInt
  | str s => strLiteral s.toList

def text (v : Value) : String := String.ofList v.literal

end Value

end TokenNet
