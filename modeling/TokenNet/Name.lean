/-!
# Names

Variables, places and transitions are known by their names, which may be any strings.
-/

namespace TokenNet

/-- A variable of a transition. -/
abbrev Variable := String

/-- A place of a net. -/
abbrev Place := String

/-- A transition of a net. -/
abbrev TransitionName := String

/-- The direction of an arc, seen from its transition. -/
inductive Direction where
  | input
  | output
  deriving DecidableEq

end TokenNet
