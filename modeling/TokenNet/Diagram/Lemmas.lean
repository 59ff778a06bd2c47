import TokenNet.Diagram

/-!
# Laws of diagrams

Listing the first maps of a diagram gives an initial part of the list of all its maps: `firstMaps_eq_take`.  Going
through the maps of a diagram is going through that list: `foldlM_eq_foldlM_maps`.
-/

namespace TokenNet.Diagram

variable {K V : Type}

mutual

theorem firstMaps_eq_take (n : Nat) : (d : Diagram K V) → firstMaps n d = d.maps.take n
  | emptySet => by simp [firstMaps, maps]
  | emptyMap => by cases n <;> simp [firstMaps, maps]
  | node i k take skip => by
    have hb := firstBranchMaps_eq_take n k take
    have hs := firstMaps_eq_take (n - (firstBranchMaps n k take).length) skip
    have hn : n - min n (branchMaps k take).length = n - (branchMaps k take).length := by omega
    rw [firstMaps, maps, List.take_append]
    split
    · simp_all
    · dsimp only
      rw [hs, hb, List.length_take, hn]

theorem firstBranchMaps_eq_take (n : Nat) (k : K) :
    (take : List (V × Diagram K V)) → firstBranchMaps n k take = (branchMaps k take).take n
  | [] => by simp [firstBranchMaps, branchMaps]
  | (v, c) :: rest => by
    have hc := firstMaps_eq_take n c
    have hr := firstBranchMaps_eq_take (n - ((firstMaps n c).map ((k, v) :: ·)).length) k rest
    have hn : n - min n c.maps.length = n - c.maps.length := by omega
    rw [firstBranchMaps, branchMaps, List.take_append]
    split
    · simp_all
    · dsimp only
      rw [hr, hc, List.length_map, List.length_take, List.length_map, hn, List.map_take]

end

section Fold

variable {β : Type} {m : Type → Type} [Monad m] [LawfulMonad m]

mutual

theorem foldBelow_eq (f : β → List (K × V) → m β) (path : List (K × V)) (b : β) : (d : Diagram K V) →
    foldBelow f path b d = d.maps.foldlM (fun b e => f b (path.reverse ++ e)) b
  | emptySet => by simp [foldBelow, maps]
  | emptyMap => by simp [foldBelow, maps]
  | node i k take skip => by
    rw [foldBelow, maps, List.foldlM_append, foldBranches_eq f path k b take]
    exact bind_congr fun b => foldBelow_eq f path b skip

theorem foldBranches_eq (f : β → List (K × V) → m β) (path : List (K × V)) (k : K) (b : β) :
    (take : List (V × Diagram K V)) →
    foldBranches f path k b take = (branchMaps k take).foldlM (fun b e => f b (path.reverse ++ e)) b
  | [] => by simp [foldBranches, branchMaps]
  | (v, c) :: rest => by
    rw [foldBranches, branchMaps, List.foldlM_append, foldBelow_eq f ((k, v) :: path) b c, List.foldlM_map]
    simp only [List.reverse_cons, List.append_assoc, List.singleton_append]
    exact bind_congr fun b => foldBranches_eq f path k b rest

end

theorem foldlM_eq_foldlM_maps (f : β → List (K × V) → m β) (b : β) (d : Diagram K V) :
    d.foldlM f b = d.maps.foldlM f b := by
  rw [foldlM, foldBelow_eq]
  simp

end Fold

end TokenNet.Diagram
