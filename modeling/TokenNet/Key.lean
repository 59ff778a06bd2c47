import TokenNet.Expr
import TokenNet.FinMap

/-!
# Keys

The levels of a decision diagram are variables under a variable order.  The sequence of an order is frozen into facts, which
say what variables are behind which, and keys of one order compare through its facts.  Variables outside the order come
after all others, by name.  Keys of different orders compare by their orders, so they are never equal and the diagrams of
different orders share no nodes.
-/

namespace TokenNet

/-- Each variable of a sequence with those behind it. -/
def behind : List Variable → List (Variable × FinSet Variable)
  | [] => []
  | x :: rest => (x, FinSet.ofList rest) :: behind rest

/-- The variables from the smallest to the largest, and the facts about them. -/
structure KeyOrder where
  frozen ::
  sequence : List Variable
  /-- The variables behind each one.  A variable that occurs again overwrites its facts. -/
  facts : FinMap Variable (FinSet Variable)
  facts_eq : facts = FinMap.ofList (behind sequence)

namespace KeyOrder

/-- Freezes a sequence. -/
def mk (sequence : List Variable) : KeyOrder := frozen sequence (FinMap.ofList (behind sequence)) rfl

theorem sequence_injective {o p : KeyOrder} (h : o.sequence = p.sequence) : o = p := by
  obtain ⟨s, _, rfl⟩ := o
  obtain ⟨t, _, rfl⟩ := p
  obtain rfl : s = t := h
  rfl

/-- Orders are compared variable by variable only if they are not the same object already. -/
instance : DecidableEq KeyOrder := fun o p =>
  withPtrEqDecEq o p fun _ =>
    if h : o.sequence = p.sequence then isTrue (sequence_injective h) else isFalse (by rintro rfl; exact h rfl)

/-- Whether it is a fact that `y` is behind `x`. -/
def isBefore (o : KeyOrder) (x y : Variable) : Bool := (o.facts.get? x).any fun after => after.contains y

/-- Whether there are facts about the variable. -/
def isKnown (o : KeyOrder) (x : Variable) : Bool := o.facts.contains x

end KeyOrder

/-- A variable under a variable order. -/
structure Key where
  name : Variable
  order : KeyOrder
  deriving DecidableEq

def KeyOrder.key (o : KeyOrder) (x : Variable) : Key := ⟨x, o⟩

namespace Key

/-- Keys of one order compare through its facts, which are asked both ways; where there is none, known variables come
before the others, and then by name. -/
def cmp (a b : Key) : Ordering :=
  if a.order = b.order then
    if a.name = b.name then .eq
    else if a.order.isBefore a.name b.name then .lt
    else if a.order.isBefore b.name a.name then .gt
    else (compare (b.order.isKnown b.name) (a.order.isKnown a.name)).then (compare a.name b.name)
  else (compare a.order.sequence b.order.sequence).then (compare a.name b.name)

instance : Ord Key := ⟨cmp⟩

/-- Keys hash by their name alone. -/
instance : Hashable Key := ⟨fun k => hash k.name⟩

end Key

end TokenNet
