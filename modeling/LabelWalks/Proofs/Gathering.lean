/-
  LabelWalks.Proofs.Gathering
  ───────────────────────────
  **WHAT IS GATHERED UNDER A KEY.**

  The tables of this library are all made the same way: a list is gone through,
  and each member is added to what its key has so far.  What a key has in the end
  depends on the members with that key alone.

    • `getElem?_gather`, `getElem?_foldl_insert` — the value of a key,
    • `mem_foldl_add`, `getElem?_gather_sets_iff` — when the values are sets,
    • `foldl_addCount` — when they are counts: the sum, cut once at the bound.
-/
import LabelWalks.Arrival
import LabelWalks.Proofs.LookUp

namespace LabelWalks

/-! ## §1. The value of a key. -/

section Gather

variable {κ β γ : Type} [DecidableEq κ]

/-- The members with a key. -/
def under (key : β → κ) (k : κ) (xs : List β) : List β :=
  xs.filter fun x => key x = k

theorem mem_under {key : β → κ} {k : κ} {xs : List β} {x : β} :
    x ∈ under key k xs ↔ x ∈ xs ∧ key x = k := by
  simp [under]

theorem under_eq_nil_iff {key : β → κ} {k : κ} {xs : List β} :
    under key k xs = [] ↔ ∀ x ∈ xs, key x ≠ k := by
  simp [under]

variable [Ord κ] [Std.TransOrd κ] [Std.LawfulEqOrd κ]

/-- The members of a list added one after another to what their keys have. -/
def gather (key : β → κ) (zero : γ) (add : γ → β → γ) (map : Std.ExtTreeMap κ γ)
    (xs : List β) : Std.ExtTreeMap κ γ :=
  xs.foldl (fun map x => map.alter (key x) fun s => some (add (s.getD zero) x)) map

/-- **The value of a key** is what it had before, with the members of that key added. -/
theorem getElem?_gather (key : β → κ) (zero : γ) (add : γ → β → γ) (xs : List β) :
    ∀ (map : Std.ExtTreeMap κ γ) (k : κ),
      (gather key zero add map xs)[k]? =
        if under key k xs = [] then map[k]?
        else some ((under key k xs).foldl add (map[k]?.getD zero)) := by
  induction xs with
  | nil => intro map k; simp [gather, under]
  | cons x xs ih =>
      intro map k
      show (gather key zero add (map.alter (key x) fun s => some (add (s.getD zero) x)) xs)[k]? = _
      rw [ih, Std.ExtTreeMap.getElem?_alter]
      by_cases hk : key x = k
      · subst hk
        have hx : under key (key x) (x :: xs) = x :: under key (key x) xs := by
          simp [under]
        rw [hx]
        by_cases hnil : under key (key x) xs = []
        · simp [hnil]
        · simp [hnil]
      · have hx : under key k (x :: xs) = under key k xs := by
          simp [under, hk]
        rw [hx]
        simp [hk]

/-- A key that nothing had before has a value just when a member has that key. -/
theorem getElem?_gather_empty_eq_some_iff (key : β → κ) (zero : γ) (add : γ → β → γ)
    (xs : List β) (k : κ) (c : γ) :
    (gather key zero add ∅ xs)[k]? = some c ↔
      (∃ x ∈ xs, key x = k) ∧ c = (under key k xs).foldl add zero := by
  rw [getElem?_gather]
  by_cases hnil : under key k xs = []
  · have hno : ¬ ∃ x ∈ xs, key x = k := by
      intro h
      obtain ⟨x, hx, hk⟩ := h
      exact under_eq_nil_iff.1 hnil x hx hk
    simp [hnil, hno]
  · have hyes : ∃ x ∈ xs, key x = k := by
      obtain ⟨x, hx⟩ := List.exists_mem_of_ne_nil _ hnil
      exact ⟨x, mem_under.1 hx⟩
    rw [if_neg hnil]
    constructor
    · intro h
      injection h with h
      exact ⟨hyes, h.symm⟩
    · intro h
      obtain ⟨-, rfl⟩ := h
      simp

theorem exists_getElem?_gather (key : β → κ) (zero : γ) (add : γ → β → γ) {xs : List β} {x : β}
    (hx : x ∈ xs) : ∃ c, (gather key zero add ∅ xs)[key x]? = some c := by
  refine ⟨_, (getElem?_gather_empty_eq_some_iff key zero add xs (key x) _).2 ⟨?_, rfl⟩⟩
  exact ⟨x, hx, rfl⟩

/-- What is entered under each key is the same whenever the key comes again. -/
theorem getElem?_foldl_insert (key : β → κ) (val : β → γ) (value : κ → γ) {xs : List β}
    (h : ∀ x ∈ xs, val x = value (key x)) :
    ∀ (map : Std.ExtTreeMap κ γ) (k : κ),
      (xs.foldl (fun map x => map.insert (key x) (val x)) map)[k]? =
        if under key k xs = [] then map[k]? else some (value k) := by
  induction xs with
  | nil => intro map k; rfl
  | cons x xs ih =>
      intro map k
      rw [List.foldl_cons, ih (fun y hy => h y (List.mem_cons_of_mem _ hy)),
        Std.ExtTreeMap.getElem?_insert]
      by_cases hk : key x = k
      · subst hk
        have hx : under key (key x) (x :: xs) ≠ [] := by
          simp [under]
        rw [if_neg hx]
        by_cases hnil : under key (key x) xs = []
        · simp [hnil, h x List.mem_cons_self]
        · simp [hnil]
      · have hx : under key k (x :: xs) = under key k xs := by
          simp [under, hk]
        rw [hx]
        simp [hk]

/-- The same from the start: a key has its value when a member has that key. -/
theorem getElem?_foldl_insert_empty (key : β → κ) (val : β → γ) (value : κ → γ) {xs : List β}
    (h : ∀ x ∈ xs, val x = value (key x)) {k : κ} {c : γ} :
    (xs.foldl (fun map x => map.insert (key x) (val x)) (∅ : Std.ExtTreeMap κ γ))[k]? = some c ↔
      (∃ x ∈ xs, key x = k) ∧ c = value k := by
  rw [getElem?_foldl_insert key val value h]
  by_cases hnil : under key k xs = []
  · rw [if_pos hnil, Std.ExtTreeMap.getElem?_empty]
    constructor
    · intro hc
      cases hc
    · intro hc
      obtain ⟨⟨x, hx, hk⟩, -⟩ := hc
      exact absurd hk (under_eq_nil_iff.1 hnil x hx)
  · obtain ⟨x, hx⟩ := List.exists_mem_of_ne_nil _ hnil
    rw [if_neg hnil, Option.some.injEq]
    constructor
    · intro hc
      exact ⟨⟨x, mem_under.1 hx⟩, hc.symm⟩
    · intro hc
      exact hc.2.symm

omit [DecidableEq κ] in
theorem nodup_toList (t : Std.ExtTreeMap κ γ) : t.toList.Nodup := by
  refine (Std.ExtTreeMap.distinct_keys_toList).imp fun hne hsame => hne ?_
  rw [hsame]
  exact Std.ReflCmp.compare_self

/-- **A new key** makes one row more. -/
theorem toList_insert_perm {t : Std.ExtTreeMap κ γ} {k : κ} (hnew : k ∉ t) (c : γ) :
    (t.insert k c).toList.Perm ((k, c) :: t.toList) := by
  have hnone : t[k]? = none := Std.ExtTreeMap.getElem?_eq_none hnew
  have hhead : (k, c) ∉ t.toList := by
    rw [Std.ExtTreeMap.mem_toList_iff_getElem?_eq_some, hnone]
    simp
  refine (List.perm_ext_iff_of_nodup (nodup_toList _)
    (List.nodup_cons.2 ⟨hhead, nodup_toList t⟩)).2 fun row => ?_
  obtain ⟨k', c'⟩ := row
  rw [List.mem_cons, Std.ExtTreeMap.mem_toList_iff_getElem?_eq_some,
    Std.ExtTreeMap.mem_toList_iff_getElem?_eq_some, Std.ExtTreeMap.getElem?_insert]
  by_cases hkey : k = k'
  · subst hkey
    simp [hnone, eq_comm]
  · simp [hkey, Ne.symm hkey]

/-- New keys that differ make a row each. -/
theorem toList_foldl_insert_perm {rows : List (κ × γ)} (hnodup : (rows.map Prod.fst).Nodup) :
    (rows.foldl (fun t row => t.insert row.1 row.2) (∅ : Std.ExtTreeMap κ γ)).toList.Perm rows := by
  -- from the end: the last key is not among those before it
  induction rows using List.reverseRecOn with
  | nil => exact .refl []
  | append_singleton rows row ih =>
      rw [List.map_append] at hnodup
      obtain ⟨hrows, -, hapart⟩ := List.nodup_append.1 hnodup
      have hperm := ih hrows
      rw [List.foldl_append]
      refine (toList_insert_perm ?_ _).trans ?_
      · intro hmem
        obtain ⟨c, hc⟩ := Option.isSome_iff_exists.1
          (Std.ExtTreeMap.mem_iff_isSome_getElem?.1 hmem)
        have hold := hperm.subset (Std.ExtTreeMap.mem_toList_iff_getElem?_eq_some.2 hc)
        exact hapart _ (List.mem_map_of_mem hold) _ (List.mem_singleton.2 rfl) rfl
      · exact (hperm.cons row).trans (List.perm_append_singleton row rows).symm

end Gather

/-! ## §2. Sets and counts. -/

section
variable {κ : Type} [Ord κ] [Std.TransOrd κ] [Std.LawfulEqOrd κ]

theorem mem_insert_set_iff {s : Std.ExtTreeSet κ} {x y : κ} : y ∈ s.insert x ↔ y ∈ s ∨ x = y := by
  rw [Std.ExtTreeSet.mem_insert, Std.LawfulEqOrd.compare_eq_iff_eq, or_comm]

omit [Std.LawfulEqOrd κ] in
theorem not_contains_set_iff {s : Std.ExtTreeSet κ} {x : κ} : (!s.contains x) = true ↔ x ∉ s := by
  rw [Bool.not_eq_true', ← Bool.not_eq_true, ← Std.ExtTreeSet.mem_iff_contains]

theorem mem_ofList_iff [DecidableEq κ] {xs : List κ} {x : κ} :
    x ∈ Std.ExtTreeSet.ofList xs compare ↔ x ∈ xs := by
  rw [Std.ExtTreeSet.mem_ofList, List.contains_iff_mem]

theorem nodup_toList_set (s : Std.ExtTreeSet κ) : s.toList.Nodup := by
  refine (Std.ExtTreeSet.distinct_toList).imp fun hne hsame => hne ?_
  rw [hsame]
  exact Std.ReflCmp.compare_self

end

theorem NodeSet.mem_insert_iff {s : NodeSet} {v w : NodeId} : w ∈ s.insert v ↔ w ∈ s ∨ v = w :=
  mem_insert_set_iff

theorem NodeSet.mem_insert_empty {v w : NodeId} : w ∈ (∅ : NodeSet).insert v ↔ v = w := by
  rw [mem_insert_iff]
  simp

theorem NodeSet.union_assoc (a b c : NodeSet) : a ∪ b ∪ c = a ∪ (b ∪ c) := by
  refine Std.ExtTreeSet.ext_mem fun w => ?_
  simp only [Std.ExtTreeSet.mem_union_iff, or_assoc]

theorem NodeSet.empty_union (a : NodeSet) : ∅ ∪ a = a := by
  refine Std.ExtTreeSet.ext_mem fun w => ?_
  simp [Std.ExtTreeSet.mem_union_iff]

/-- A set to which each member of a list adds the nodes that it gives. -/
theorem mem_foldl_add {β : Type} {add : NodeSet → β → NodeSet} {gives : β → NodeId → Prop}
    (hadd : ∀ s x w, w ∈ add s x ↔ w ∈ s ∨ gives x w) (xs : List β) :
    ∀ (s : NodeSet) (w : NodeId), w ∈ xs.foldl add s ↔ w ∈ s ∨ ∃ x ∈ xs, gives x w := by
  induction xs with
  | nil => intro s w; simp
  | cons x xs ih =>
      intro s w
      rw [List.foldl_cons, ih, hadd]
      simp [or_assoc]

/-- **Sets gathered by key**: a key has a set when a member has that key, and then the set
is made of the nodes that the members of that key give. -/
theorem getElem?_gather_sets_iff {κ β : Type} [DecidableEq κ] [Ord κ] [Std.TransOrd κ]
    [Std.LawfulEqOrd κ] (key : β → κ) {add : NodeSet → β → NodeSet} {gives : β → NodeId → Prop}
    (hadd : ∀ s x w, w ∈ add s x ↔ w ∈ s ∨ gives x w) {xs : List β} {k : κ} {nodes : NodeSet} :
    (gather key ∅ add ∅ xs)[k]? = some nodes ↔
      (∃ x ∈ xs, key x = k) ∧ ∀ w, w ∈ nodes ↔ ∃ x ∈ xs, key x = k ∧ gives x w := by
  rw [getElem?_gather_empty_eq_some_iff]
  refine and_congr_right fun _ => ?_
  have hmem : ∀ w, w ∈ (under key k xs).foldl add ∅ ↔ ∃ x ∈ xs, key x = k ∧ gives x w := by
    intro w
    rw [mem_foldl_add hadd]
    simp only [mem_under, and_assoc, Std.ExtTreeSet.not_mem_empty, false_or]
  constructor
  · intro h
    subst h
    exact hmem
  · intro h
    exact Std.ExtTreeSet.ext_mem fun w => (h w).trans (hmem w).symm

theorem nodup_eraseDups {α : Type} [DecidableEq α] : ∀ xs : List α, xs.eraseDups.Nodup
  | [] => by simp
  | x :: xs => by
      rw [List.eraseDups_cons, List.nodup_cons]
      refine ⟨?_, nodup_eraseDups (xs.filter fun y => !y == x)⟩
      simp
  termination_by xs => xs.length
  decreasing_by exact Nat.lt_succ_of_le (List.length_filter_le _ _)

/-- Adding counts that stay at the bound gives their sum, cut at the bound. -/
theorem foldl_addCount (ns : List Nat) :
    ∀ n ≤ maxCount, ns.foldl addCount n = min (n + ns.sum) maxCount := by
  induction ns with
  | nil => intro n hn; simp; omega
  | cons k ns ih =>
      intro n hn
      show ns.foldl addCount (min (n + k) maxCount) = _
      rw [ih _ (Nat.min_le_right _ _), List.sum_cons]
      omega

end LabelWalks
