import TokenNet.Expr.Eval

/-!
# Evaluation over unbounded integers

`Expr.exact` evaluates an expression over the integers without any bound and keeps the steps of the evaluation: the
variables that are read and the operators that are applied, each with the exact values of its operands, in their order up
to the first one that has no result.  Evaluation with 64-bit integers goes through the same steps and ends at the first
one that fails, `Step.Fails`: `Expr.evaluate_iff_exact`.  A step fails with an overflow if its exact result does not fit
into 64 bits, and there is one other such step: the remainder of the least integer by -1, whose result is 0 and whose
quotient does not fit.
-/

namespace TokenNet

/-! ### Values over unbounded integers -/

/-- A value whose integers may have any size. -/
inductive ExactValue where
  | dot
  | bool (b : Bool)
  | int (z : Int)
  | str (s : String)
  deriving DecidableEq

def ExactValue.kind : ExactValue → Value.Kind
  | dot => .dot
  | bool _ => .bool
  | int _ => .int
  | str _ => .str

/-- The integers of 64 bits. -/
def InRange (z : Int) : Prop := -0x8000000000000000 ≤ z ∧ z < 0x8000000000000000

/-- Only the quotient of the least integer and -1 leaves the range. -/
theorem inRange_tdiv {m n : Int} (hm : InRange m) (h : ¬ (m = -0x8000000000000000 ∧ n = -1)) : InRange (m.tdiv n) := by
  unfold InRange at hm ⊢
  by_cases hone : n.natAbs = 1
  · rcases (show n = 1 ∨ n = -1 by omega) with rfl | rfl
    · rwa [Int.tdiv_one]
    · rw [Int.tdiv_neg, Int.tdiv_one]
      omega
  · have hdiv : (m.tdiv n).natAbs = m.natAbs / n.natAbs := Int.natAbs_tdiv m n
    by_cases hzero : n.natAbs = 0
    · rw [hzero, Nat.div_zero] at hdiv
      omega
    · have hhalf : m.natAbs / n.natAbs ≤ m.natAbs / 2 := Nat.div_le_div_left (by omega) (by decide)
      omega

namespace Value

def exact : Value → ExactValue
  | dot => .dot
  | bool b => .bool b
  | int n => .int n.toInt
  | str s => .str s

@[simp]
theorem exact_dot : dot.exact = .dot := rfl

@[simp]
theorem exact_bool (b : Bool) : (bool b).exact = .bool b := rfl

@[simp]
theorem exact_int (n : Int64) : (int n).exact = .int n.toInt := rfl

@[simp]
theorem exact_str (s : String) : (str s).exact = .str s := rfl

@[simp]
theorem kind_exact (v : Value) : v.exact.kind = v.kind := by cases v <;> rfl

theorem exists_of_kind_int {v : Value} (h : v.kind = .int) : ∃ n, v = .int n := by
  cases v <;> cases h
  exact ⟨_, rfl⟩

theorem exists_of_kind_str {v : Value} (h : v.kind = .str) : ∃ s, v = .str s := by
  cases v <;> cases h
  exact ⟨_, rfl⟩

theorem exact_injective {v w : Value} (h : v.exact = w.exact) : v = w := by
  cases v <;> cases w <;> simp_all [exact, Int64.toInt_inj]

theorem exact_inj {v w : Value} : v.exact = w.exact ↔ v = w := ⟨exact_injective, congrArg exact⟩

theorem inRange_toInt (n : Int64) : InRange n.toInt :=
  ⟨by simpa using n.le_toInt, by simpa using n.toInt_lt⟩

theorem ofExact_of_inRange {z : Int} (h : InRange z) : ∃ v, ofExact z = .ok v ∧ v.exact = .int z := by
  refine ⟨.int (Int64.ofInt z), ?_, ?_⟩
  · have hint : int? z = some (.int (Int64.ofInt z)) := if_pos h
    rw [ofExact, hint]
  · rw [exact_int, Int64.toInt_ofInt_of_le (by simpa using h.1) (by simpa using h.2)]

theorem ofExact_of_not_inRange {z : Int} (h : ¬ InRange z) : ofExact z = .error .overflow := by
  have hint : int? z = none := if_neg h
  rw [ofExact, hint]

end Value

/-! ### Exact results of operators -/

/-- The kinds of operands that an operator is defined for. -/
def UnaryOp.Accepts : UnaryOp → Value.Kind → Prop
  | negate, k => k = .int
  | not, k => k = .bool

/-- The kinds of operands that an operator is defined for, if it is applied to the values of both. -/
def BinaryOp.Accepts : BinaryOp → Value.Kind → Value.Kind → Prop
  | equal, _, _ | notEqual, _, _ => True
  | less, k, l | lessEqual, k, l | greater, k, l | greaterEqual, k, l | add, k, l =>
    k = .int ∧ l = .int ∨ k = .str ∧ l = .str
  | subtract, k, l | multiply, k, l | divide, k, l | remainder, k, l => k = .int ∧ l = .int
  | or, _, _ | and, _, _ => False

def UnaryOp.result? : UnaryOp → ExactValue → Option ExactValue
  | negate, .int z => some (.int (-z))
  | not, .bool b => some (.bool !b)
  | _, _ => none

/-- The mathematical result; quotients and remainders truncate towards zero, and by zero there are none. -/
def BinaryOp.result? : BinaryOp → ExactValue → ExactValue → Option ExactValue
  | equal, x, y => some (.bool (x = y))
  | notEqual, x, y => some (.bool (x ≠ y))
  | less, .int m, .int n => some (.bool (m < n))
  | lessEqual, .int m, .int n => some (.bool (m ≤ n))
  | greater, .int m, .int n => some (.bool (n < m))
  | greaterEqual, .int m, .int n => some (.bool (n ≤ m))
  | less, .str s, .str t => some (.bool (compare s t).isLT)
  | lessEqual, .str s, .str t => some (.bool (compare s t).isLE)
  | greater, .str s, .str t => some (.bool (compare s t).isGT)
  | greaterEqual, .str s, .str t => some (.bool (compare s t).isGE)
  | add, .int m, .int n => some (.int (m + n))
  | add, .str s, .str t => some (.str (s ++ t))
  | subtract, .int m, .int n => some (.int (m - n))
  | multiply, .int m, .int n => some (.int (m * n))
  | divide, .int m, .int n => if n = 0 then none else some (.int (m.tdiv n))
  | remainder, .int m, .int n => if n = 0 then none else some (.int (m.tmod n))
  | _, _, _ => none

theorem UnaryOp.accepts_of_result? {op : UnaryOp} {x y : ExactValue} (h : op.result? x = some y) : op.Accepts x.kind := by
  cases op <;> cases x <;> simp_all [result?, Accepts, ExactValue.kind]

theorem BinaryOp.accepts_of_result? {op : BinaryOp} {x y z : ExactValue} (h : op.result? x y = some z) :
    op.Accepts x.kind y.kind := by
  cases op <;> cases x <;> cases y <;> simp_all [result?, Accepts, ExactValue.kind]

/-- Only the equations are defined for values of different kinds, or of kinds without arithmetic and order. -/
theorem BinaryOp.accepts_cases {op : BinaryOp} {k l : Value.Kind} (h : op.Accepts k l) :
    op = .equal ∨ op = .notEqual ∨ (k = .int ∧ l = .int) ∨ (k = .str ∧ l = .str) := by
  cases op <;> simp_all [Accepts]

/-- An operator refuses all kinds of operands that it is not defined for. -/
theorem BinaryOp.apply_of_not_accepts {op : BinaryOp} {v w : Value} (h : ¬ op.Accepts v.kind w.kind) :
    op.apply v w = .error (.operandKinds op v.kind w.kind) := by
  cases op <;> cases v <;> cases w <;> first | rfl | simp [Accepts, Value.kind] at h

/-! ### Steps -/

namespace Expr

/-- What an evaluation does next: read a variable, ask for the truth value of an operand of a conjunction or a
disjunction, or apply an operator. -/
inductive Step where
  | read (x : Variable)
  | condition (op : BinaryOp) (x : ExactValue)
  | unary (op : UnaryOp) (x : ExactValue)
  | binary (op : BinaryOp) (x y : ExactValue)
  deriving DecidableEq

namespace Step

/-- The exact result of a step. -/
def result? (B : Binding) : Step → Option ExactValue
  | read x => (B.get? x).map Value.exact
  | condition _ x => if x.kind = .bool then some x else none
  | unary op x => op.result? x
  | binary op x y => op.result? x y

/-- How a step fails with 64-bit integers. -/
inductive Fails (B : Binding) : Step → EvaluationError → Prop
  | unbound {x : Variable} : B.get? x = none → Fails B (read x) (.unbound x)
  | conditionKind {op : BinaryOp} {x : ExactValue} : x.kind ≠ .bool →
    Fails B (condition op x) (.conditionKind op x.kind)
  | operandKind {op : UnaryOp} {x : ExactValue} : ¬ op.Accepts x.kind → Fails B (unary op x) (.operandKind op x.kind)
  | operandKinds {op : BinaryOp} {x y : ExactValue} : ¬ op.Accepts x.kind y.kind →
    Fails B (binary op x y) (.operandKinds op x.kind y.kind)
  | divisionByZero {op : BinaryOp} {m : Int} : op = .divide ∨ op = .remainder →
    Fails B (binary op (.int m) (.int 0)) .divisionByZero
  | overflow {s : Step} {z : Int} : s.result? B = some (.int z) → ¬ InRange z → Fails B s .overflow
  /-- The quotient of these numbers does not fit into 64 bits, though the remainder does. -/
  | remainder : Fails B (binary .remainder (.int (-0x8000000000000000)) (.int (-1))) .overflow

def Succeeds (B : Binding) (s : Step) : Prop := ∀ e, ¬ s.Fails B e

end Step

/-- The steps of an evaluation, up to the first one without a result, and its value, if all have one. -/
structure Run (α : Type) where
  steps : List Step
  value? : Option α

instance : Monad Run where
  pure a := ⟨[], some a⟩
  bind r f := r.value?.elim ⟨r.steps, none⟩ fun a => ⟨r.steps ++ (f a).steps, (f a).value?⟩

def Step.run (B : Binding) (s : Step) : Run ExactValue := ⟨[s], s.result? B⟩

/-- The evaluation of an expression over unbounded integers. -/
def exact (B : Binding) : Expr → Run ExactValue
  | lit v => pure v.exact
  | var x => (Step.read x).run B
  | unary op e => do (Step.unary op (← e.exact B)).run B
  | binary op l r => do
    let x ← l.exact B
    match op with
    | .and =>
      let c ← (Step.condition .and x).run B
      if c = .bool true then
        (Step.condition .and (← r.exact B)).run B
      else
        return c
    | .or =>
      let c ← (Step.condition .or x).run B
      if c = .bool true then
        return c
      else
        (Step.condition .or (← r.exact B)).run B
    | op => (Step.binary op x (← r.exact B)).run B

/-! ### Agreement -/

variable {B : Binding} {α β γ δ : Type} {φ : α → β} {ψ : γ → δ} {x : Except EvaluationError α} {r : Run β} {s : Step}
  {e e' : EvaluationError}

/-- A result with 64-bit integers and a run over unbounded ones: all steps succeed and the values are the same, or the
error is that of the first step that fails. -/
inductive Agrees (B : Binding) (φ : α → β) : Except EvaluationError α → Run β → Prop
  | ok {r : Run β} {a : α} : (∀ s ∈ r.steps, s.Succeeds B) → r.value? = some (φ a) → Agrees B φ (.ok a) r
  | error {r : Run β} {before after : List Step} {s : Step} {e : EvaluationError} : r.steps = before ++ s :: after →
    (∀ s' ∈ before, s'.Succeeds B) → s.Fails B e → Agrees B φ (.error e) r

theorem agrees_pure (a : α) : Agrees B φ (.ok a) (pure (φ a)) := .ok (fun _ hs => absurd hs List.not_mem_nil) rfl

theorem Agrees.bind {f : α → Except EvaluationError γ} {g : β → Run δ} (h : Agrees B φ x r)
    (hf : ∀ a, Agrees B ψ (f a) (g (φ a))) : Agrees B ψ (x >>= f) (r >>= g) := by
  obtain ⟨steps, value?⟩ := r
  cases h with
  | @ok _ a hsteps hvalue =>
    obtain rfl : value? = some (φ a) := hvalue
    show Agrees B ψ (f a) ⟨steps ++ (g (φ a)).steps, (g (φ a)).value?⟩
    have ha := hf a
    generalize f a = y, g (φ a) = t at ha ⊢
    cases ha with
    | ok hall hc => exact .ok (List.forall_mem_append.2 ⟨hsteps, hall⟩) hc
    | @error _ before after s e heq hbefore hs =>
      have hfirst : steps ++ t.steps = (steps ++ before) ++ s :: after := by rw [heq, List.append_assoc]
      exact .error hfirst (List.forall_mem_append.2 ⟨hsteps, hbefore⟩) hs
  | error heq hbefore hs =>
    obtain rfl : steps = _ := heq
    cases value? with
    | none => exact .error rfl hbefore hs
    | some b => exact .error (List.append_assoc _ _ _) hbefore hs

theorem Agrees.bool {y : Except EvaluationError Bool} {r : Run ExactValue} (h : Agrees B ExactValue.bool y r) :
    Agrees B Value.exact (do return Value.bool (← y)) r := by
  cases h with
  | ok hsteps hb => exact .ok hsteps hb
  | error heq hbefore hs => exact .error heq hbefore hs

/-! ### Single steps -/

variable {b : Bool} {z : Int} {y : ExactValue}

theorem agrees_error {φ : α → ExactValue} (hs : s.Fails B e) : Agrees B φ (.error e) (s.run B) :=
  .error (List.nil_append [s]).symm (fun _ hs' => absurd hs' List.not_mem_nil) hs

theorem agrees_ok {φ : α → ExactValue} {a : α} (ha : s.result? B = some (φ a)) (hs : s.Succeeds B) :
    Agrees B φ (.ok a) (s.run B) :=
  .ok (fun _ hs' => List.mem_singleton.1 hs' ▸ hs) ha

/-- A step with an exact result fails only with an overflow. -/
theorem Step.Fails.eq_overflow (h : s.Fails B e) (hy : s.result? B = some y) : e = .overflow := by
  cases h with
  | unbound hnone => simp [result?, hnone] at hy
  | conditionKind hkind => simp [result?, hkind] at hy
  | operandKind hkind => exact absurd (UnaryOp.accepts_of_result? hy) hkind
  | operandKinds hkinds => exact absurd (BinaryOp.accepts_of_result? hy) hkinds
  | divisionByZero hop => rcases hop with rfl | rfl <;> simp [result?, BinaryOp.result?] at hy
  | overflow | remainder => rfl

theorem Step.succeeds_of_result? (hy : s.result? B = some y) (hrange : ∀ z, y = .int z → InRange z)
    (hs : s ≠ .binary .remainder (.int (-0x8000000000000000)) (.int (-1))) : s.Succeeds B := by
  intro e he
  obtain rfl := he.eq_overflow hy
  cases he with
  | overflow hz hout =>
    obtain rfl := Option.some.inj (hy.symm.trans hz)
    exact hout (hrange _ rfl)
  | remainder => exact hs rfl

/-- A step fails in one way. -/
theorem Step.Fails.unique (h : s.Fails B e) (h' : s.Fails B e') : e = e' := by
  cases h with
  | overflow hz => exact (h'.eq_overflow hz).symm
  | remainder => exact (h'.eq_overflow rfl).symm
  | unbound hnone =>
    cases h' with
    | unbound => rfl
    | overflow hz => simp [result?, hnone] at hz
  | conditionKind hkind =>
    cases h' with
    | conditionKind => rfl
    | overflow hz => simp [result?, hkind] at hz
  | operandKind hkind =>
    cases h' with
    | operandKind => rfl
    | overflow hz => exact absurd (UnaryOp.accepts_of_result? hz) hkind
  | operandKinds hkinds =>
    cases h' with
    | operandKinds => rfl
    | divisionByZero hop => rcases hop with rfl | rfl <;> simp [BinaryOp.Accepts, ExactValue.kind] at hkinds
    | overflow hz => exact absurd (BinaryOp.accepts_of_result? hz) hkinds
    | remainder => simp [BinaryOp.Accepts, ExactValue.kind] at hkinds
  | divisionByZero hop =>
    cases h' with
    | operandKinds hkinds => rcases hop with rfl | rfl <;> simp [BinaryOp.Accepts, ExactValue.kind] at hkinds
    | divisionByZero => rfl
    | overflow hz => rcases hop with rfl | rfl <;> simp [result?, BinaryOp.result?] at hz

/-- A truth value is no overflow. -/
theorem agrees_bool (h : s.result? B = some (.bool b)) : Agrees B Value.exact (.ok (.bool b)) (s.run B) := by
  refine agrees_ok h (Step.succeeds_of_result? h (fun z hz => by cases hz) ?_)
  rintro rfl
  simp [Step.result?, BinaryOp.result?] at h

theorem agrees_decide {p : Prop} [Decidable p] (h : s.result? B = some (.bool (decide p))) (hp : b = true ↔ p) :
    Agrees B Value.exact (.ok (.bool b)) (s.run B) := by
  refine agrees_bool (h.trans ?_)
  rw [Bool.eq_iff_iff.2 (decide_eq_true_iff.trans hp.symm)]

theorem agrees_ofExact (h : s.result? B = some (.int z))
    (hs : s ≠ .binary .remainder (.int (-0x8000000000000000)) (.int (-1))) :
    Agrees B Value.exact (Value.ofExact z) (s.run B) := by
  by_cases hz : InRange z
  · obtain ⟨v, hv, hexact⟩ := Value.ofExact_of_inRange hz
    rw [hv]
    refine agrees_ok (by rw [h, hexact]) (Step.succeeds_of_result? h (fun z' hz' => ?_) hs)
    cases hz'
    exact hz
  · rw [Value.ofExact_of_not_inRange hz]
    exact agrees_error (.overflow h hz)

theorem agrees_value (B : Binding) (x : Variable) :
    Agrees B Value.exact (B.value x) ((Step.read x).run B) := by
  unfold Binding.value
  cases h : B.get? x with
  | none => exact agrees_error (.unbound h)
  | some v =>
    have hread : (Step.read x).result? B = some v.exact := by simp [Step.result?, h]
    refine agrees_ok hread (Step.succeeds_of_result? hread (fun z hz => ?_) (by simp))
    cases v <;> cases hz
    exact Value.inRange_toInt _

theorem agrees_condition (B : Binding) (op : BinaryOp) (v : Value) :
    Agrees B ExactValue.bool (op.condition v) ((Step.condition op v.exact).run B) := by
  cases v with
  | bool b =>
    have hcondition : (Step.condition op (.bool b)).result? B = some (.bool b) := rfl
    exact agrees_ok hcondition (Step.succeeds_of_result? hcondition (fun z hz => by cases hz) (by simp))
  | dot | int n | str s => exact agrees_error (.conditionKind (by simp [ExactValue.kind]))

theorem agrees_unary (B : Binding) (op : UnaryOp) (v : Value) :
    Agrees B Value.exact (op.apply v) ((Step.unary op v.exact).run B) := by
  cases op with
  | negate =>
    cases v with
    | int n => exact agrees_ofExact rfl (by simp)
    | dot | bool b | str s => exact agrees_error (.operandKind (by simp [UnaryOp.Accepts, ExactValue.kind]))
  | not =>
    cases v with
    | bool b => exact agrees_bool rfl
    | dot | int n | str s => exact agrees_error (.operandKind (by simp [UnaryOp.Accepts, ExactValue.kind]))

theorem agrees_equal (B : Binding) (v w : Value) :
    Agrees B Value.exact (.ok (.bool (v = w))) ((Step.binary .equal v.exact w.exact).run B) :=
  agrees_decide (p := v.exact = w.exact) rfl (by rw [decide_eq_true_iff, Value.exact_inj])

theorem agrees_notEqual (B : Binding) (v w : Value) :
    Agrees B Value.exact (.ok (.bool (v ≠ w))) ((Step.binary .notEqual v.exact w.exact).run B) :=
  agrees_decide (p := v.exact ≠ w.exact) rfl (by rw [decide_eq_true_iff, ne_eq, ne_eq, Value.exact_inj])

theorem agrees_ints (B : Binding) {op : BinaryOp} (m n : Int64) (h : op.Accepts .int .int) :
    Agrees B Value.exact (op.apply (.int m) (.int n)) ((Step.binary op (.int m.toInt) (.int n.toInt)).run B) := by
  have hcompare : compare m n = compare m.toInt n.toInt := by
    simp only [compare, compareOfLessAndEq, Int64.lt_iff_toInt_lt, Int64.toInt_inj]
  have hzero : n = 0 ↔ n.toInt = 0 := Int64.toInt_inj.symm
  cases op with
  | or | and => exact absurd h id
  | equal => exact agrees_equal B (.int m) (.int n)
  | notEqual => exact agrees_notEqual B (.int m) (.int n)
  | less => exact agrees_decide rfl (by rw [hcompare, Ordering.isLT_iff_eq_lt, Std.compare_eq_lt])
  | lessEqual => exact agrees_decide rfl (by rw [hcompare, Std.isLE_compare])
  | greater => exact agrees_decide rfl (by rw [hcompare, Ordering.isGT_iff_eq_gt, Std.compare_eq_gt])
  | greaterEqual => exact agrees_decide rfl (by rw [hcompare, Std.isGE_compare])
  | add | subtract | multiply => exact agrees_ofExact rfl (by simp)
  | divide =>
    by_cases hn : n = 0
    · subst hn
      exact agrees_error (.divisionByZero (.inl rfl))
    · have hresult : (Step.binary .divide (.int m.toInt) (.int n.toInt)).result? B = some (.int (m.toInt.tdiv n.toInt)) :=
        if_neg (mt hzero.2 hn)
      rw [BinaryOp.apply, if_neg hn]
      exact agrees_ofExact hresult (by simp)
  | remainder =>
    by_cases hn : n = 0
    · subst hn
      exact agrees_error (.divisionByZero (.inr rfl))
    rw [BinaryOp.apply, if_neg hn]
    by_cases hleast : m.toInt = -0x8000000000000000 ∧ n.toInt = -1
    · rw [hleast.1, hleast.2]
      exact agrees_error .remainder
    · -- the quotient fits, so it is the remainder that counts
      obtain ⟨v, hv, -⟩ := Value.ofExact_of_inRange (inRange_tdiv (Value.inRange_toInt m) hleast)
      rw [hv]
      refine agrees_ofExact (if_neg (mt hzero.2 hn)) ?_
      simpa using hleast

theorem agrees_strings (B : Binding) {op : BinaryOp} (t u : String) (h : op.Accepts .str .str) :
    Agrees B Value.exact (op.apply (.str t) (.str u)) ((Step.binary op (.str t) (.str u)).run B) := by
  cases op with
  | equal => exact agrees_equal B (.str t) (.str u)
  | notEqual => exact agrees_notEqual B (.str t) (.str u)
  | less | lessEqual | greater | greaterEqual => exact agrees_bool rfl
  | add => exact agrees_ok rfl (Step.succeeds_of_result? rfl (fun z hz => by cases hz) (by simp))
  | or | and => exact absurd h id
  | subtract | multiply | divide | remainder => simp [BinaryOp.Accepts] at h

theorem agrees_binary (B : Binding) (op : BinaryOp) (v w : Value) :
    Agrees B Value.exact (op.apply v w) ((Step.binary op v.exact w.exact).run B) := by
  by_cases h : op.Accepts v.kind w.kind
  · rcases BinaryOp.accepts_cases h with rfl | rfl | ⟨hv, hw⟩ | ⟨hv, hw⟩
    · exact agrees_equal B v w
    · exact agrees_notEqual B v w
    · obtain ⟨m, rfl⟩ := Value.exists_of_kind_int hv
      obtain ⟨n, rfl⟩ := Value.exists_of_kind_int hw
      exact agrees_ints B m n h
    · obtain ⟨t, rfl⟩ := Value.exists_of_kind_str hv
      obtain ⟨u, rfl⟩ := Value.exists_of_kind_str hw
      exact agrees_strings B t u h
  · rw [BinaryOp.apply_of_not_accepts h, ← Value.kind_exact, ← Value.kind_exact]
    exact agrees_error (.operandKinds (by simpa using h))

/-! ### Whole expressions -/

/-- Evaluation with 64-bit integers goes through the steps of the exact one, up to the first that fails. -/
theorem agrees_evaluate (B : Binding) (e : Expr) : Agrees B Value.exact (e.evaluate B) (e.exact B) := by
  induction e with
  | lit v => exact agrees_pure v
  | var x => exact agrees_value B x
  | unary op e ih => exact ih.bind fun v => agrees_unary B op v
  | binary op l r ihl ihr =>
    rw [evaluate, exact]
    refine ihl.bind fun v => ?_
    cases op with
    | and =>
      refine (agrees_condition B .and v).bind fun b => ?_
      cases b with
      | true => exact ihr.bind fun w => (agrees_condition B .and w).bool
      | false => exact agrees_pure (Value.bool false)
    | or =>
      refine (agrees_condition B .or v).bind fun b => ?_
      cases b with
      | true => exact agrees_pure (Value.bool true)
      | false => exact ihr.bind fun w => (agrees_condition B .or w).bool
    | _ => exact ihr.bind fun w => agrees_binary B _ v w

/-- In a list in which an element fails first, no other element does. -/
private theorem first_unique {P : Step → Prop} {before before' after after' : List Step} {s s' : Step}
    (h : before ++ s :: after = before' ++ s' :: after') (hbefore : ∀ t ∈ before, P t) (hbefore' : ∀ t ∈ before', P t)
    (hs : ¬ P s) (hs' : ¬ P s') : s = s' := by
  induction before generalizing before' with
  | nil =>
    cases before' with
    | nil => exact (List.cons.inj h).1
    | cons t before' =>
      obtain rfl : s = t := (List.cons.inj h).1
      exact absurd (hbefore' s List.mem_cons_self) hs
  | cons t before ih =>
    obtain ⟨ht, hbefore⟩ := List.forall_mem_cons.1 hbefore
    cases before' with
    | nil =>
      obtain rfl : t = s' := (List.cons.inj h).1
      exact absurd ht hs'
    | cons t' before' => exact ih (List.cons.inj h).2 hbefore (List.forall_mem_cons.1 hbefore').2

/-- Evaluation with 64-bit integers returns a value exactly when no step of the evaluation over unbounded integers fails,
and then the value is the exact one.  It returns an error exactly when a step fails, and then the error is that of the
first step that does. -/
theorem evaluate_iff_exact (B : Binding) (e : Expr) :
    (∀ v, e.evaluate B = .ok v ↔ (e.exact B).value? = some v.exact ∧ ∀ s ∈ (e.exact B).steps, s.Succeeds B) ∧
    ∀ err, e.evaluate B = .error err ↔ ∃ before s after, (e.exact B).steps = before ++ s :: after ∧
      (∀ s' ∈ before, s'.Succeeds B) ∧ s.Fails B err := by
  have h := agrees_evaluate B e
  generalize e.evaluate B = x at h ⊢
  generalize e.exact B = r at h ⊢
  cases h with
  | @ok _ v hsteps hvalue =>
    refine ⟨fun w => ⟨?_, ?_⟩, fun err => ⟨fun herr => (by cases herr), ?_⟩⟩
    · rintro ⟨⟩
      exact ⟨hvalue, hsteps⟩
    · rintro ⟨hw, -⟩
      rw [Value.exact_injective (Option.some.inj (hvalue.symm.trans hw))]
    · rintro ⟨before, s, after, heq, -, hs⟩
      exact absurd hs (hsteps s (by simp [heq]) err)
  | @error _ before after s err heq hbefore hs =>
    refine ⟨fun w => ⟨fun hw => (by cases hw), ?_⟩, fun err' => ⟨?_, ?_⟩⟩
    · rintro ⟨-, hsteps⟩
      exact absurd hs (hsteps s (by simp [heq]) err)
    · rintro ⟨⟩
      exact ⟨before, s, after, heq, hbefore, hs⟩
    · rintro ⟨before', s', after', heq', hbefore', hs'⟩
      obtain rfl : s = s' := first_unique (P := Step.Succeeds B) (heq.symm.trans heq') hbefore hbefore'
        (fun h => h err hs) fun h => h err' hs'
      rw [hs.unique hs']

/-- The remainder of the least integer by -1 is 0, and yet evaluation reports an overflow. -/
theorem overflow_of_zero_remainder :
    let e := binary .remainder (lit (.int Int64.minValue)) (lit (.int (-1)))
    e.evaluate ∅ = .error .overflow ∧ InRange 0 ∧
      (e.exact ∅).steps = [.binary .remainder (.int (-0x8000000000000000)) (.int (-1))] ∧
      (e.exact ∅).value? = some (.int 0) := by
  refine ⟨rfl, ⟨by decide, by decide⟩, rfl, rfl⟩

end Expr

end TokenNet
