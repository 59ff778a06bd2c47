import TokenNet.Bag
import TokenNet.Error

/-!
# Markings

A marking gives every place of a net its bag of tokens.
-/

namespace TokenNet

structure Marking where
  places : FinMap Place (Bag Value)
  deriving DecidableEq

namespace Marking

theorem places_injective {a b : Marking} (h : a.places = b.places) : a = b := by
  cases a
  cases b
  simp_all

/-- Markings compare as the lists of their places and bags. -/
instance : Ord Marking := ⟨fun a b => compare a.places b.places⟩

instance : Std.TransOrd Marking :=
  inferInstanceAs (Std.TransCmp (compareOn places))

instance : Std.LawfulEqOrd Marking where
  eq_of_compare {a b} h :=
    have hp : compare a.places b.places = .eq := h
    places_injective (Std.LawfulEqCmp.eq_of_compare hp)

/-- The marking in which the given places are empty. -/
def empty (places : FinSet Place) : Marking := ⟨places.map fun _ => ∅⟩

def get? (m : Marking) (p : Place) : Option (Bag Value) := m.places.get? p

/-- The marking with `f` of the tokens of a place; the marking itself if it does not have the place. -/
def modify (m : Marking) (p : Place) (f : Bag Value → Bag Value) : Marking :=
  ⟨m.places.alter p (Option.map f)⟩

/-- Adds tokens to a place, which the marking has to have, in machine words. -/
def add (m : Marking) (p : Place) (tokens : Bag Value) : Except StructuralError Marking :=
  match m.get? p with
  | some _ => .ok (m.modify p (·.wordSum tokens))
  | none => .error (.unknownPlace p)

/-- The number of all tokens, as a machine word. -/
def size (m : Marking) : Nat := toWord (m.places.values.foldr (fun b n => b.size + n) 0)

def isEmpty (m : Marking) : Bool := m.places.values.all Bag.isEmpty

/-- Every place with its tokens. -/
def text (m : Marking) : String :=
  ", ".intercalate (m.places.entries.map fun e => Text.quoted e.1 ++ ": " ++ e.2.text Value.text)

end Marking

end TokenNet
