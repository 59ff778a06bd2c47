import Std.Data.TreeSet.Lemmas
import TokenNet.Enabling.Lemmas
import TokenNet.Exploration

/-!
# Laws of successors

The successors of a marking are found by firing the bindings one by one, `fireAll_eq_mapM`: the first binding that
cannot be evaluated decides the error, and a binding that is not fireable leaves no successor.
-/

namespace TokenNet

private theorem foldlM_prepend {α β ε : Type} (f : α → Except ε (Option β)) (l : List α) (found : List β) :
    l.foldlM (fun found a => return (← f a).toList ++ found) found =
      (fun r => (r.filterMap id).reverse ++ found) <$> l.mapM f := by
  induction l generalizing found with
  | nil => simp
  | cons a l ih =>
    rw [List.foldlM_cons, List.mapM_cons]
    cases f a with
    | error e => rfl
    | ok o =>
      refine (ih (o.toList ++ found)).trans ?_
      cases h : l.mapM f with
      | error e => rfl
      | ok r => cases o <;> simp [Functor.map, Except.map, bind, Except.bind, pure, Except.pure]

theorem Net.fireAll_eq_mapM (net : Net) (t : TransitionName) (m : Marking) (d : BindingDiagram) :
    net.fireAll t m d = (List.filterMap id ·) <$> (bindings d).mapM (net.fire t m) := by
  rw [fireAll, foldBindings_eq_foldlM, foldlM_prepend]
  cases (bindings d).mapM (net.fire t m) with
  | error e => rfl
  | ok r => simp [Functor.map, Except.map, bind, Except.bind, pure, Except.pure]

theorem Marking.mem_insert_iff {seen : Std.TreeSet Marking} {m m' : Marking} :
    m' ∈ seen.insert m ↔ m' = m ∨ m' ∈ seen := by
  rw [Std.TreeSet.mem_insert, Std.LawfulEqCmp.compare_eq_iff_eq]
  exact or_congr_left eq_comm

end TokenNet
