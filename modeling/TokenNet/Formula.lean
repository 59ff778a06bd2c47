import TokenNet.Expr.Eval
import TokenNet.Expr.Parser

/-!
# Formulas

A formula is an expression as it was written.  It keeps its text together with what reading the text gives, so that the
text is read once, however often the formula is evaluated.  A formula is known by its text: `text_injective`.
-/

namespace TokenNet

structure Formula where
  text : String
  /-- The tree of the expression, or why the text cannot be read. -/
  reading : Except EvaluationError Expr
  reading_eq : reading = Expr.parse text

namespace Formula

def ofText (t : String) : Formula := ⟨t, Expr.parse t, rfl⟩

instance : Coe String Formula := ⟨ofText⟩

theorem text_injective {f g : Formula} (h : f.text = g.text) : f = g := by
  cases f
  cases g
  simp_all

@[simp]
theorem ofText_text (f : Formula) : ofText f.text = f := text_injective rfl

instance : DecidableEq Formula := fun f g =>
  if h : f.text = g.text then isTrue (text_injective h) else isFalse (by rintro rfl; exact h rfl)

def vars (f : Formula) : Except EvaluationError (FinSet Variable) := return (← f.reading).vars

def evaluate (b : Binding) (f : Formula) : Except EvaluationError Value := do (← f.reading).evaluate b

end Formula

end TokenNet
