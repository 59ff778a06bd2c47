import TokenNet.Diagram.Lemmas
import TokenNet.Enabling

/-!
# Laws of enabled bindings

Going through the bindings of a diagram is going through the list of them: `foldBindings_eq_foldlM`.
-/

namespace TokenNet

theorem foldBindings_eq_foldlM {β : Type} (f : β → Binding → Except Error β) (b : β) (d : BindingDiagram) :
    foldBindings f b d = (bindings d).foldlM f b := by
  rw [foldBindings, Diagram.foldlM_eq_foldlM_maps, bindings, List.foldlM_map]

end TokenNet
