/-!
# Finite maps

A finite map is kept as the list of its entries, strictly increasing in the key, so that two maps with the same
entries are the same value.  `alter` is the one operation that changes an entry; `insert` and `erase` are its special
cases.  A finite set is a map to `Unit`.
-/

namespace TokenNet

/-- Pairs compare by the first component, then by the second. -/
instance instOrdPair {α β : Type} [Ord α] [Ord β] : Ord (α × β) := lexOrd

/-- A list of entries, strictly increasing in the key. -/
structure FinMap (K V : Type) [Ord K] where
  entries : List (K × V)
  sorted : entries.Pairwise fun a b => compare a.1 b.1 = .lt

namespace FinMap

variable {K V W : Type} [Ord K]

instance [DecidableEq K] [DecidableEq V] : DecidableEq (FinMap K V) := fun a b =>
  if h : a.entries = b.entries then
    isTrue (by cases a; cases b; simp_all)
  else
    isFalse (by rintro rfl; exact h rfl)

theorem entries_injective {a b : FinMap K V} (h : a.entries = b.entries) : a = b := by
  cases a
  cases b
  simp_all

/-- Maps compare as the lists of their entries. -/
instance [Ord V] : Ord (FinMap K V) := ⟨fun a b => compare a.entries b.entries⟩

instance [Std.TransOrd K] [Ord V] [Std.TransOrd V] : Std.TransOrd (FinMap K V) :=
  inferInstanceAs (Std.TransCmp (compareOn entries))

instance [Std.TransOrd K] [Std.LawfulEqOrd K] [Ord V] [Std.TransOrd V] [Std.LawfulEqOrd V] :
    Std.LawfulEqOrd (FinMap K V) where
  eq_of_compare {a b} h :=
    have he : compare a.entries b.entries = .eq := h
    entries_injective (Std.LawfulEqCmp.eq_of_compare he)

instance : EmptyCollection (FinMap K V) := ⟨⟨[], .nil⟩⟩

def isEmpty (m : FinMap K V) : Bool := m.entries.isEmpty

def keys (m : FinMap K V) : List K := m.entries.map Prod.fst

def values (m : FinMap K V) : List V := m.entries.map Prod.snd

/-! ### Looking up -/

def lookup (k : K) : List (K × V) → Option V
  | [] => none
  | (a, v) :: rest => if compare k a = .eq then some v else lookup k rest

def get? (m : FinMap K V) (k : K) : Option V := lookup k m.entries

def contains (m : FinMap K V) (k : K) : Bool := (m.get? k).isSome

/-! ### Changing one entry -/

/-- The entries after the value at `k`, if there is one, has been replaced by `f` of it. -/
def alterEntries (k : K) (f : Option V → Option V) : List (K × V) → List (K × V)
  | [] => (f none).toList.map (k, ·)
  | (a, w) :: rest =>
    match compare k a with
    | .lt => (f none).toList.map (k, ·) ++ (a, w) :: rest
    | .eq => (f (some w)).toList.map (a, ·) ++ rest
    | .gt => (a, w) :: alterEntries k f rest

private theorem key_of_mem_alterEntries {k : K} {f : Option V → Option V} {l : List (K × V)} {e : K × V}
    (h : e ∈ alterEntries k f l) : e.1 = k ∨ ∃ d ∈ l, d.1 = e.1 := by
  induction l with
  | nil =>
    simp only [alterEntries, List.mem_map] at h
    obtain ⟨v, -, rfl⟩ := h
    exact .inl rfl
  | cons d rest ih =>
    obtain ⟨a, w⟩ := d
    unfold alterEntries at h
    split at h
    · rcases List.mem_append.1 h with h | h
      · obtain ⟨v, -, rfl⟩ := List.mem_map.1 h
        exact .inl rfl
      · exact .inr ⟨e, h, rfl⟩
    · rcases List.mem_append.1 h with h | h
      · obtain ⟨v, -, rfl⟩ := List.mem_map.1 h
        exact .inr ⟨(a, w), List.mem_cons_self, rfl⟩
      · exact .inr ⟨e, List.mem_cons_of_mem _ h, rfl⟩
    · rcases List.mem_cons.1 h with rfl | h
      · exact .inr ⟨(a, w), List.mem_cons_self, rfl⟩
      · rcases ih h with h | ⟨d, hd, hde⟩
        · exact .inl h
        · exact .inr ⟨d, List.mem_cons_of_mem _ hd, hde⟩

/-- What is less than the first key is less than all of them. -/
theorem lt_of_mem_cons [Std.TransOrd K] {k a : K} {w : V} {l : List (K × V)} (hk : compare k a = .lt)
    (hl : ∀ e ∈ l, compare a e.1 = .lt) : ∀ e ∈ (a, w) :: l, compare k e.1 = .lt :=
  List.forall_mem_cons.2 ⟨hk, fun e he => Std.TransCmp.lt_trans hk (hl e he)⟩

private theorem sorted_optional_cons {k : K} {o : Option V} {l : List (K × V)}
    (hk : ∀ e ∈ l, compare k e.1 = .lt) (hl : l.Pairwise fun a b => compare a.1 b.1 = .lt) :
    (o.toList.map (k, ·) ++ l).Pairwise fun a b => compare a.1 b.1 = .lt := by
  cases o with
  | none => exact hl
  | some v => exact List.pairwise_cons.2 ⟨hk, hl⟩

private theorem sorted_alterEntries [Std.TransOrd K] (k : K) (f : Option V → Option V) {l : List (K × V)}
    (h : l.Pairwise fun a b => compare a.1 b.1 = .lt) :
    (alterEntries k f l).Pairwise fun a b => compare a.1 b.1 = .lt := by
  induction l with
  | nil => simpa [alterEntries] using sorted_optional_cons (o := f none) (l := []) (k := k) (by simp) .nil
  | cons d rest ih =>
    obtain ⟨a, w⟩ := d
    obtain ⟨ha, hrest⟩ := List.pairwise_cons.1 h
    unfold alterEntries
    split
    · rename_i hka
      exact sorted_optional_cons (lt_of_mem_cons hka ha) h
    · exact sorted_optional_cons ha hrest
    · rename_i hka
      refine List.pairwise_cons.2 ⟨fun e he => ?_, ih hrest⟩
      rcases key_of_mem_alterEntries he with h | ⟨d, hd, hde⟩
      · rw [h]
        exact Std.OrientedCmp.lt_of_gt hka
      · rw [← hde]
        exact ha d hd

variable [Std.TransOrd K]

def alter (m : FinMap K V) (k : K) (f : Option V → Option V) : FinMap K V :=
  ⟨alterEntries k f m.entries, sorted_alterEntries k f m.sorted⟩

def insert (m : FinMap K V) (k : K) (v : V) : FinMap K V := m.alter k fun _ => some v

def erase (m : FinMap K V) (k : K) : FinMap K V := m.alter k fun _ => none

/-- The map with the given entries; of two entries with one key the later wins. -/
def ofList (l : List (K × V)) : FinMap K V := l.foldl (fun m e => m.insert e.1 e.2) ∅

omit [Std.TransOrd K]

/-! ### Changing all values -/

private theorem sorted_of_keys_eq {l : List (K × V)} {r : List (K × W)} (h : r.map Prod.fst = l.map Prod.fst)
    (hl : l.Pairwise fun a b => compare a.1 b.1 = .lt) : r.Pairwise fun a b => compare a.1 b.1 = .lt := by
  have hk : (l.map Prod.fst).Pairwise fun a b => compare a b = .lt := List.pairwise_map.2 hl
  rw [← h] at hk
  exact List.pairwise_map.1 hk

def map (f : V → W) (m : FinMap K V) : FinMap K W :=
  ⟨m.entries.map fun e => (e.1, f e.2), sorted_of_keys_eq (by simp) m.sorted⟩

variable {ε : Type}

/-- The entries with `f` of each, or the error of the first entry on which `f` fails. -/
def traverseEntries (f : K → V → Except ε W) : List (K × V) → Except ε (List (K × W))
  | [] => .ok []
  | (k, v) :: rest =>
    match f k v with
    | .error e => .error e
    | .ok w =>
      match traverseEntries f rest with
      | .error e => .error e
      | .ok ws => .ok ((k, w) :: ws)

omit [Ord K] in
theorem keys_of_traverseEntries {f : K → V → Except ε W} {l : List (K × V)} {r : List (K × W)}
    (h : traverseEntries f l = .ok r) : r.map Prod.fst = l.map Prod.fst := by
  induction l generalizing r with
  | nil =>
    cases h
    rfl
  | cons d rest ih =>
    obtain ⟨k, v⟩ := d
    unfold traverseEntries at h
    split at h
    · cases h
    · split at h
      · cases h
      · rename_i ws hws
        cases h
        simp [ih hws]

/-- The map with `f` of each entry, or the error of the first entry, in key order, on which `f` fails. -/
def traverse (f : K → V → Except ε W) (m : FinMap K V) : Except ε (FinMap K W) :=
  match h : traverseEntries f m.entries with
  | .error e => .error e
  | .ok r => .ok ⟨r, sorted_of_keys_eq (keys_of_traverseEntries h) m.sorted⟩

end FinMap

/-- A finite set, as a map to `Unit`. -/
abbrev FinSet (K : Type) [Ord K] := FinMap K Unit

namespace FinSet

variable {K : Type} [Ord K] [Std.TransOrd K]

def add (s : FinSet K) (k : K) : FinSet K := s.insert k ()

def union (s t : FinSet K) : FinSet K := t.keys.foldl add s

def ofList (l : List K) : FinSet K := l.foldl add ∅

end FinSet

end TokenNet
