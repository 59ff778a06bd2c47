import TokenNet.Enabling
import TokenNet.Proofs.Demand
import TokenNet.Proofs.Diagram.Filtering
import TokenNet.Proofs.Diagram.Join

/-!
# The bindings of one place

`Describes o vars P d` says that the maps of a diagram are the bindings of the variables `vars` for which `P` holds, with
the variables as keys of the order `o`.  The diagram of one place describes the bindings that fit its tokens:
`ensures_placeChain`.

A chain takes the tokens for one key after the other; `demanded` adds up what the keys with a value take of it.
-/

namespace TokenNet

open Diagram Store

theorem KeyOrder.key_injective {o : KeyOrder} {x y : Variable} (h : o.key x = o.key y) : x = y :=
  congrArg Key.name h

/-! ### Bindings of some variables -/

namespace Binding

variable {B : Binding} {vars : List Variable}

/-- The binding has values for just the given variables. -/
def Binds (B : Binding) (vars : List Variable) : Prop := ∀ x, B.contains x = true ↔ x ∈ vars

theorem Binds.get?_eq_none (h : B.Binds vars) {x : Variable} (hx : x ∉ vars) : B.get? x = none := by
  cases hget : B.get? x with
  | none => rfl
  | some v => exact absurd ((h x).1 (by rw [FinMap.contains, hget]; rfl)) hx

/-- The part of a binding at the given variables. -/
def part (vars : List Variable) (B : Binding) : Binding := B.restrict fun x => vars.contains x

theorem get?_part (vars : List Variable) (B : Binding) (x : Variable) :
    (B.part vars).get? x = if x ∈ vars then B.get? x else none := by
  rw [part, FinMap.get?_restrict]
  by_cases hx : x ∈ vars
  · rw [if_pos hx, if_pos (List.contains_iff_mem.2 hx)]
  · rw [if_neg hx, if_neg (mt List.contains_iff_mem.1 hx)]

theorem binds_part (h : ∀ x ∈ vars, B.contains x = true) : (B.part vars).Binds vars := by
  intro x
  unfold FinMap.contains
  rw [get?_part]
  by_cases hx : x ∈ vars
  · rw [if_pos hx]
    exact ⟨fun _ => hx, fun _ => h x hx⟩
  · rw [if_neg hx]
    constructor
    · intro hsome
      cases hsome
    · exact fun h => absurd h hx

end Binding

/-! ### Maps and bindings -/

/-- The map binds just the keys of the given variables. -/
def BindsKeys (o : KeyOrder) (vars : List Variable) (m : FinMap Key Value) : Prop :=
  ∀ k, (m.get? k).isSome = true ↔ ∃ x ∈ vars, k = o.key x

theorem BindsKeys.key_eq {o : KeyOrder} {vars : List Variable} {m : FinMap Key Value} (h : BindsKeys o vars m)
    {e : Key × Value} (he : e ∈ m.entries) : e.1 = o.key e.1.name := by
  obtain ⟨x, -, hx⟩ := (h e.1).1 (by rw [FinMap.mem_entries_iff.1 he]; rfl)
  rw [hx]
  rfl

theorem BindsKeys.nodup_names {o : KeyOrder} {vars : List Variable} {m : FinMap Key Value} (h : BindsKeys o vars m) :
    ((m.entries.map fun e => (e.1.name, e.2)).map Prod.fst).Nodup := by
  rw [List.map_map]
  refine List.pairwise_map.2 (m.sorted.imp_of_mem fun {a b} ha hb hab hname => ?_)
  have heq : a.1 = b.1 := by
    have hname' : a.1.name = b.1.name := hname
    rw [h.key_eq ha, h.key_eq hb, hname']
  rw [heq] at hab
  simp at hab

/-- The part of a map at some keys. -/
theorem BindsKeys.restrict {o : KeyOrder} {vars : List Variable} {m : FinMap Key Value} (h : BindsKeys o vars m)
    (p : Key → Bool) : BindsKeys o (vars.filter fun x => p (o.key x)) (m.restrict p) := by
  intro k
  rw [FinMap.get?_restrict]
  constructor
  · intro hk
    by_cases hp : p k = true
    · rw [if_pos hp, h k] at hk
      obtain ⟨x, hx, rfl⟩ := hk
      exact ⟨x, List.mem_filter.2 ⟨hx, hp⟩, rfl⟩
    · rw [if_neg hp] at hk
      cases hk
  · rintro ⟨x, hx, rfl⟩
    obtain ⟨hx, hp⟩ := List.mem_filter.1 hx
    rw [if_pos hp, h (o.key x)]
    exact ⟨x, hx, rfl⟩

/-- The binding of a map gives each variable the value of its key. -/
theorem BindsKeys.get?_ofPath {o : KeyOrder} {vars : List Variable} {m : FinMap Key Value} (h : BindsKeys o vars m)
    (x : Variable) : (Binding.ofPath m.entries).get? x = m.get? (o.key x) := by
  refine Option.ext fun v => ?_
  rw [Binding.ofPath, FinMap.get?_ofList_eq_some h.nodup_names, ← FinMap.mem_entries_iff, List.mem_map]
  constructor
  · rintro ⟨e, he, heq⟩
    cases heq
    rw [← h.key_eq he]
    exact he
  · exact fun hx => ⟨_, hx, rfl⟩

theorem BindsKeys.binds_ofPath {o : KeyOrder} {vars : List Variable} {m : FinMap Key Value}
    (h : BindsKeys o vars m) : (Binding.ofPath m.entries).Binds vars := by
  intro x
  unfold FinMap.contains
  rw [h.get?_ofPath, h (o.key x)]
  constructor
  · rintro ⟨y, hy, hxy⟩
    rwa [KeyOrder.key_injective hxy]
  · exact fun hx => ⟨x, hx, rfl⟩

/-- Every binding is that of a map. -/
theorem exists_bindsKeys (o : KeyOrder) {vars : List Variable} {B : Binding} (hB : B.Binds vars) :
    ∃ m, BindsKeys o vars m ∧ Binding.ofPath m.entries = B := by
  have hnodup : ((B.entries.map fun e => (o.key e.1, e.2)).map Prod.fst).Nodup := by
    rw [List.map_map]
    have hkeys := B.nodup_keys
    exact List.pairwise_map.2 ((List.pairwise_map.1 hkeys).imp fun hne heq => hne (KeyOrder.key_injective heq))
  have hget : ∀ x, (FinMap.ofList (B.entries.map fun e => (o.key e.1, e.2))).get? (o.key x) = B.get? x := by
    intro x
    refine Option.ext fun v => ?_
    rw [FinMap.get?_ofList_eq_some hnodup, ← FinMap.mem_entries_iff, List.mem_map]
    constructor
    · rintro ⟨e, he, heq⟩
      obtain ⟨hx, hv⟩ := Prod.mk.inj heq
      rw [← KeyOrder.key_injective hx, ← hv]
      exact he
    · exact fun hx => ⟨_, hx, rfl⟩
  have hbinds : BindsKeys o vars (FinMap.ofList (B.entries.map fun e => (o.key e.1, e.2))) := by
    intro k
    constructor
    · intro hk
      obtain ⟨v, hv⟩ := Option.isSome_iff_exists.1 hk
      obtain ⟨e, he, heq⟩ := List.mem_map.1 ((FinMap.get?_ofList_eq_some hnodup).1 hv)
      have hmem : B.contains e.1 = true := by
        unfold FinMap.contains
        rw [FinMap.mem_entries_iff.1 he]
        rfl
      exact ⟨e.1, (hB e.1).1 hmem, (Prod.mk.inj heq).1.symm⟩
    · rintro ⟨x, hx, rfl⟩
      rw [hget]
      exact (hB x).2 hx
  refine ⟨_, hbinds, FinMap.ext_get? fun x => ?_⟩
  rw [hbinds.get?_ofPath, hget]

/-- The maps of the diagram are the bindings of the variables for which `P` holds. -/
def Describes (o : KeyOrder) (vars : List Variable) (P : Binding → Prop) (d : BindingDiagram) : Prop :=
  ∀ m, m ∈ d ↔ BindsKeys o vars m ∧ P (Binding.ofPath m.entries)

namespace Enabling

/-! ### Levels -/

/-- What the entries of a list add up to at the keys that satisfy `p`. -/
private def total (p : Key → Prop) [DecidablePred p] (l : List (Key × Nat)) : Nat :=
  l.foldr (fun e n => (if p e.1 then e.2 else 0) + n) 0

private theorem total_alterEntries (p : Key → Prop) [DecidablePred p] (k : Key) (l : List (Key × Nat)) :
    total p (FinMap.alterEntries k (fun n => some (n.getD 0 + 1)) l) = total p l + if p k then 1 else 0 := by
  induction l with
  | nil =>
    by_cases hk : p k <;> simp [FinMap.alterEntries, total, hk]
  | cons e l ih =>
    obtain ⟨a, n⟩ := e
    unfold FinMap.alterEntries
    cases hka : compare k a with
    | lt =>
      by_cases hk : p k <;> simp [total, hk]
      omega
    | eq =>
      obtain rfl := Std.LawfulEqCmp.eq_of_compare hka
      by_cases hk : p k <;> simp [total, hk]
      omega
    | gt =>
      simp only [total, List.foldr_cons] at ih ⊢
      rw [ih]
      omega

private theorem total_foldl (o : KeyOrder) (p : Key → Prop) [DecidablePred p] (vars : List Variable)
    (m : FinMap Key Nat) :
    total p (vars.foldl (fun m x => m.alter (o.key x) fun n => some (n.getD 0 + 1)) m).entries =
      total p m.entries + vars.countP fun x => p (o.key x) := by
  induction vars generalizing m with
  | nil => rfl
  | cons x vars ih =>
    have halter : total p (m.alter (o.key x) fun n => some (n.getD 0 + 1)).entries =
        total p m.entries + if p (o.key x) then 1 else 0 := total_alterEntries p (o.key x) m.entries
    rw [List.foldl_cons, ih, halter, List.countP_cons]
    by_cases hx : p (o.key x) <;> simp [hx]
    omega

/-- What the keys with value `v` take of it. -/
def demanded (m : FinMap Key Value) (levels : List (Key × Nat)) (v : Value) : Nat :=
  levels.foldr (fun e n => (if m.get? e.1 = some v then e.2 else 0) + n) 0

/-- Every value is demanded as often as variables have it. -/
theorem demanded_levels (o : KeyOrder) (vars : List Variable) (m : FinMap Key Value) (v : Value) :
    demanded m (levels o vars).entries v = vars.countP fun x => m.get? (o.key x) = some v := by
  have h := total_foldl o (fun k => m.get? k = some v) vars ∅
  have hempty : total (fun k => m.get? k = some v) (∅ : FinMap Key Nat).entries = 0 := rfl
  rw [hempty, Nat.zero_add] at h
  exact h

private theorem get?_foldl_levels (o : KeyOrder) (vars : List Variable) (m : FinMap Key Nat) (k : Key) :
    ((vars.foldl (fun m x => m.alter (o.key x) fun n => some (n.getD 0 + 1)) m).get? k).isSome = true ↔
      (m.get? k).isSome = true ∨ ∃ x ∈ vars, k = o.key x := by
  induction vars generalizing m with
  | nil => simp
  | cons x vars ih =>
    rw [List.foldl_cons, ih, FinMap.get?_alter]
    by_cases hk : k = o.key x
    · simp [hk]
    · simp [hk]

/-- The levels of an arc are the keys of its variables. -/
theorem mem_keys_levels {o : KeyOrder} {vars : List Variable} {k : Key} :
    k ∈ (levels o vars).entries.map Prod.fst ↔ ∃ x ∈ vars, k = o.key x := by
  have h := get?_foldl_levels o vars ∅ k
  simp only [FinMap.get?_empty, Option.isSome_none, Bool.false_eq_true, false_or] at h
  rw [← h]
  exact (FinMap.contains_iff_mem_keys (m := levels o vars)).symm

private theorem pos_foldl_levels (o : KeyOrder) (vars : List Variable) (m : FinMap Key Nat)
    (hm : ∀ k n, m.get? k = some n → 0 < n) (k : Key) (n : Nat)
    (h : (vars.foldl (fun m x => m.alter (o.key x) fun n => some (n.getD 0 + 1)) m).get? k = some n) : 0 < n := by
  induction vars generalizing m with
  | nil => exact hm k n h
  | cons x vars ih =>
    refine ih (m.alter (o.key x) fun n => some (n.getD 0 + 1)) (fun l i hl => ?_) h
    rw [FinMap.get?_alter] at hl
    split at hl
    · cases hl
      exact Nat.succ_pos _
    · exact hm l i hl

theorem pos_levels {o : KeyOrder} {vars : List Variable} {e : Key × Nat} (he : e ∈ (levels o vars).entries) : 0 < e.2 :=
  pos_foldl_levels o vars ∅ (by simp) e.1 e.2 (FinMap.mem_entries_iff.1 he)

/-! ### Chains -/

/-- What is to be a map of a chain: it binds the keys of the levels, and the tokens suffice. -/
def ChainMember (levels : List (Key × Nat)) (tokens : Bag Value) (m : FinMap Key Value) : Prop :=
  (∀ k, (m.get? k).isSome = true ↔ k ∈ levels.map Prod.fst) ∧ ∀ v, demanded m levels v ≤ tokens.count v

private theorem demanded_insert {k : Key} {n : Nat} {rest : List (Key × Nat)} (hk : ∀ e ∈ rest, compare k e.1 = .lt)
    (r : FinMap Key Value) (v w : Value) :
    demanded (r.insert k v) ((k, n) :: rest) w = (if v = w then n else 0) + demanded r rest w := by
  have hrest : demanded (r.insert k v) rest w = demanded r rest w := by
    unfold demanded
    refine List.foldr_ext _ _ _ fun e he i => ?_
    have hne : e.1 ≠ k := by
      intro heq
      have hlt := hk e he
      rw [heq] at hlt
      simp at hlt
    rw [FinMap.get?_insert_of_ne r hne]
  unfold demanded at hrest ⊢
  rw [List.foldr_cons, hrest, FinMap.get?_insert_self]
  simp

private theorem mem_toList_filter {tokens : Bag Value} {n : Nat} (hn : 0 < n) {v : Value} :
    (∃ a, (v, a) ∈ tokens.toList.filter fun e => n ≤ e.2) ↔ n ≤ tokens.count v := by
  simp only [List.mem_filter, Bag.mem_toList_iff, decide_eq_true_eq]
  constructor
  · rintro ⟨a, ⟨rfl, -⟩, ha⟩
    exact ha
  · exact fun h => ⟨tokens.count v, ⟨rfl, by omega⟩, h⟩

/-- A map of a chain gets an entry in front if there are enough tokens of the value for both. -/
private theorem chainMember_insert_iff {k : Key} {n : Nat} {rest : List (Key × Nat)} {tokens : Bag Value}
    {r : FinMap Key Value} {v : Value} (hk : ∀ e ∈ rest, compare k e.1 = .lt) (hr : r.get? k = none) :
    ChainMember ((k, n) :: rest) tokens (r.insert k v) ↔
      n ≤ tokens.count v ∧ ChainMember rest (tokens.erase v n) r := by
  have hkeys : (∀ l, ((r.insert k v).get? l).isSome = true ↔ l ∈ ((k, n) :: rest).map Prod.fst) ↔
      ∀ l, (r.get? l).isSome = true ↔ l ∈ rest.map Prod.fst := by
    refine forall_congr' fun l => ?_
    by_cases hl : l = k
    · simp [hl, FinMap.get?_insert_self, hr, FinMap.not_mem_keys_of_lt hk]
    · simp [FinMap.get?_insert_of_ne r hl, hl]
  have htokens : (∀ w, demanded (r.insert k v) ((k, n) :: rest) w ≤ tokens.count w) ↔
      n ≤ tokens.count v ∧ ∀ w, demanded r rest w ≤ (tokens.erase v n).count w := by
    simp only [demanded_insert hk]
    constructor
    · intro hle
      have hv := hle v
      rw [if_pos rfl] at hv
      refine ⟨by omega, fun w => ?_⟩
      by_cases hvw : w = v
      · rw [hvw, Bag.count_erase_self]
        omega
      · have hw := hle w
        rw [if_neg (Ne.symm hvw), Nat.zero_add] at hw
        rwa [Bag.count_erase_of_ne _ hvw]
    · rintro ⟨hn, hle⟩ w
      have hw := hle w
      by_cases hvw : w = v
      · rw [hvw, Bag.count_erase_self] at hw
        rw [if_pos hvw.symm, hvw]
        omega
      · rw [Bag.count_erase_of_ne _ hvw] at hw
        rwa [if_neg (Ne.symm hvw), Nat.zero_add]
  unfold ChainMember
  rw [hkeys, htokens, and_left_comm]

/-- The maps of a chain choose a value for the first key, and those of the rest from the tokens that are left. -/
private theorem chainMember_cons_iff {k : Key} {n : Nat} {rest : List (Key × Nat)} {tokens : Bag Value}
    {m : FinMap Key Value} (hk : ∀ e ∈ rest, compare k e.1 = .lt) (hn : 0 < n) :
    ChainMember ((k, n) :: rest) tokens m ↔ ∃ v a r, (v, a) ∈ tokens.toList.filter (fun e => n ≤ e.2) ∧
      ChainMember rest (tokens.erase v n) r ∧ m = r.insert k v := by
  constructor
  · intro h
    obtain ⟨v, hv⟩ := Option.isSome_iff_exists.1 ((h.1 k).2 List.mem_cons_self)
    have hm := FinMap.insert_erase hv
    rw [← hm, chainMember_insert_iff hk (FinMap.get?_erase_self m k)] at h
    obtain ⟨a, ha⟩ := (mem_toList_filter hn).2 h.1
    exact ⟨v, a, m.erase k, ha, h.2, hm.symm⟩
  · rintro ⟨v, a, r, ha, hr, rfl⟩
    have hnone : r.get? k = none := by
      rw [← Option.not_isSome_iff_eq_none, hr.1]
      exact FinMap.not_mem_keys_of_lt hk
    exact (chainMember_insert_iff hk hnone).2 ⟨(mem_toList_filter hn).1 ⟨a, ha⟩, hr⟩

variable {s : Session}

theorem ensures_chain {levels : List (Key × Nat)} (hsort : levels.Pairwise fun a b => compare a.1 b.1 = .lt)
    (hpos : ∀ e ∈ levels, 0 < e.2) (tokens : Bag Value) (hs : s.Sound) :
    Ensures (chain levels tokens) s fun d s' => s'.Has d ∧ ∀ m, m ∈ d ↔ ChainMember levels tokens m := by
  induction levels generalizing tokens s with
  | nil =>
    refine .pure hs ⟨has_emptyMap, fun m => ?_⟩
    rw [mem_emptyMap_iff]
    constructor
    · rintro rfl
      exact ⟨by simp, fun v => by simp [demanded]⟩
    · rintro ⟨hdom, -⟩
      refine FinMap.ext_get? fun k => ?_
      have hk := hdom k
      simpa using hk
  | cons e rest ih =>
    obtain ⟨k, n⟩ := e
    obtain ⟨hk, hsort'⟩ := List.pairwise_cons.1 hsort
    have hn : 0 < n := hpos (k, n) List.mem_cons_self
    have hpos' : ∀ e ∈ rest, 0 < e.2 := fun e he => hpos e (List.mem_cons_of_mem _ he)
    have habove : ∀ {tokens : Bag Value} {m : FinMap Key Value}, ChainMember rest tokens m → m.IsAbove k := by
      rintro tokens m ⟨hdom, -⟩ e he
      have hmem := (hdom e.1).1 (by rw [FinMap.mem_entries_iff.1 he]; rfl)
      obtain ⟨e', he', heq⟩ := List.mem_map.1 hmem
      rw [← heq]
      exact hk e' he'
    unfold chain
    refine (ensures_branches (fun v _ => ChainMember rest (tokens.erase v n)) hs fun b _ s' _ hs' => ?_).bind ?_
    · exact (ih hsort' hpos' (tokens.erase b.1 n) hs').bind fun c s'' _ hs'' ⟨hc, hm⟩ => .pure hs'' ⟨rfl, hc, hm⟩
    · intro take s' _ hs' htake
      refine (htake.ensures_mkNode hs' (tokens.counts.sorted.filter _) has_emptySet (fun v a _ m => habove)
        fun m hm => absurd hm (not_mem_emptySet m)).imp fun d s'' _ _ ⟨hd, hm⟩ => ⟨hd, fun m => ?_⟩
      rw [hm, chainMember_cons_iff hk hn, or_iff_left (not_mem_emptySet m)]

/-- The diagram of a place describes the bindings of its variables that fit its tokens. -/
theorem ensures_placeChain (o : KeyOrder) (vars : List Variable) (tokens : Bag Value) (hs : s.Sound) :
    Ensures (placeChain o vars tokens) s fun d s' => s'.Has d ∧ Describes o vars (fun B => B.Fits vars tokens) d := by
  refine (ensures_chain (levels o vars).sorted (fun e he => pos_levels he) tokens hs).imp ?_
  intro d s' _ _ ⟨hd, hm⟩
  refine ⟨hd, fun m => ?_⟩
  rw [hm]
  have hdomain : (∀ k, (m.get? k).isSome = true ↔ k ∈ (levels o vars).entries.map Prod.fst) ↔ BindsKeys o vars m :=
    forall_congr' fun k => by rw [mem_keys_levels]
  unfold ChainMember
  rw [hdomain]
  refine and_congr_right fun hkeys => ?_
  have hcount : ∀ v, demanded m (levels o vars).entries v =
      vars.countP fun x => (Binding.ofPath m.entries).get? x = some v := by
    intro v
    rw [demanded_levels]
    refine List.countP_congr fun x _ => ?_
    rw [hkeys.get?_ofPath]
  constructor
  · intro hle
    refine ⟨fun x hx => (hkeys.binds_ofPath x).2 hx, fun v => ?_⟩
    rw [← hcount]
    exact hle v
  · rintro ⟨-, hle⟩ v
    rw [hcount]
    exact hle v

end Enabling

end TokenNet
