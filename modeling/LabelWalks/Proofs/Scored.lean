/-
  LabelWalks.Proofs.Scored
  ────────────────────────
  **A REVIEW OF FOUND PATHS.**

  In a review weights are given to paths, one call after another, and any call may be
  refused.  The paths stay where they are; a weight is the last one that was accepted for
  its position, whatever was refused before or after it; and the ranking follows from the
  weights alone.

    • `setWeight_cases`, `setWeight_fails_iff` — everything that a call can do,
    • `Call`, `after`, `lastWeight` — the calls, what they leave, the weight that counts,
    • `weight?_after` — what is kept at one position,
    • `ranks_ranksBefore`, `eq_ranked` — the ranking is the one sorted list of the rows,
    • `reviewed_after` — all that can be asked during a review.
-/
import LabelWalks.Scored
import LabelWalks.Proofs.Ranking

namespace LabelWalks

namespace Scored

/-! ## §1. One call. -/

/-- A weight is one of 1, …, 10. -/
def Admissible (weight : UInt32) : Prop :=
  1 ≤ weight ∧ weight ≤ 10

instance (weight : UInt32) : Decidable (Admissible weight) :=
  inferInstanceAs (Decidable (_ ∧ _))

/-- Paths and weights are in step. -/
theorem length_weights (s : Scored) : s.weights.length = s.size :=
  s.aligned

/-- **What a call does**: it is refused for its weight, or else for its position, or else it
changes the weight at its position. -/
theorem setWeight_cases (s : Scored) (i : ℕ) (weight : UInt32) :
    (¬ Admissible weight ∧ s.setWeight i weight = .error (.weight weight))
    ∨ (Admissible weight ∧ s.size ≤ i
        ∧ s.setWeight i weight = .error (.unregistered .pathIndex i))
    ∨ (Admissible weight ∧ i < s.size ∧ ∃ s', s.setWeight i weight = .ok s'
        ∧ s'.paths = s.paths ∧ s'.weights = s.weights.set i weight) := by
  by_cases hweight : Admissible weight
  · have hvalid : validateWeight weight = .ok weight := if_pos hweight
    unfold setWeight
    rw [hvalid]
    by_cases hi : i < s.weights.length
    · exact .inr (.inr ⟨hweight, s.length_weights ▸ hi, _, if_pos hi, rfl, rfl⟩)
    · exact .inr (.inl ⟨hweight, s.length_weights ▸ Nat.not_lt.1 hi, if_neg hi⟩)
  · have hvalid : validateWeight weight = .error (.weight weight) := if_neg hweight
    unfold setWeight
    rw [hvalid]
    exact .inl ⟨hweight, rfl⟩

section
variable {s : Scored} {i : ℕ} {weight : UInt32}

/-- The weight is checked first. -/
theorem setWeight_of_not_admissible (h : ¬ Admissible weight) :
    s.setWeight i weight = .error (.weight weight) := by
  rcases s.setWeight_cases i weight with ⟨-, hcall⟩ | ⟨hweight, -⟩ | ⟨hweight, -⟩
  · exact hcall
  · exact absurd hweight h
  · exact absurd hweight h

theorem setWeight_of_size_le (h : Admissible weight) (hi : s.size ≤ i) :
    s.setWeight i weight = .error (.unregistered .pathIndex i) := by
  rcases s.setWeight_cases i weight with ⟨hweight, -⟩ | ⟨-, -, hcall⟩ | ⟨-, hlt, -⟩
  · exact absurd h hweight
  · exact hcall
  · exact absurd hlt (Nat.not_lt.2 hi)

/-- **A call is refused** for its weight or for its position, and for nothing else. -/
theorem setWeight_fails_iff : (∃ fault, s.setWeight i weight = .error fault) ↔
    ¬ Admissible weight ∨ s.size ≤ i := by
  rcases s.setWeight_cases i weight with ⟨hweight, hcall⟩ | ⟨-, hi, hcall⟩
    | ⟨hweight, hi, s', hcall, -⟩
  · exact iff_of_true ⟨_, hcall⟩ (.inl hweight)
  · exact iff_of_true ⟨_, hcall⟩ (.inr hi)
  · refine iff_of_false ?_ fun h => ?_
    · rintro ⟨fault, hfault⟩
      cases hcall.symm.trans hfault
    · exact h.elim (fun h => h hweight) (Nat.not_le.2 hi)

end

/-- A call that gives the path at a position a weight. -/
structure Call where
  position : ℕ
  weight : UInt32
  deriving DecidableEq, Repr

/-- A call that is carried out when there are `size` paths. -/
def Call.Accepted (size : ℕ) (call : Call) : Prop :=
  Admissible call.weight ∧ call.position < size

instance (size : ℕ) (call : Call) : Decidable (call.Accepted size) :=
  inferInstanceAs (Decidable (_ ∧ _))

/-- The weighed paths after a call, which are those before it when the call is refused. -/
def perform (s : Scored) (call : Call) : Scored :=
  (s.setWeight call.position call.weight).toOption.getD s

theorem perform_of_error {s : Scored} {call : Call} {fault : Fault}
    (h : s.setWeight call.position call.weight = .error fault) : s.perform call = s := by
  unfold perform
  rw [h]
  rfl

theorem perform_of_ok {s s' : Scored} {call : Call}
    (h : s.setWeight call.position call.weight = .ok s') : s.perform call = s' := by
  unfold perform
  rw [h]
  rfl

theorem paths_perform (s : Scored) (call : Call) : (s.perform call).paths = s.paths := by
  rcases s.setWeight_cases call.position call.weight with
    ⟨-, h⟩ | ⟨-, -, h⟩ | ⟨-, -, s', h, hpaths, -⟩
  · rw [perform_of_error h]
  · rw [perform_of_error h]
  · rw [perform_of_ok h, hpaths]

theorem weights_perform (s : Scored) (call : Call) :
    (s.perform call).weights =
      if call.Accepted s.size then s.weights.set call.position call.weight else s.weights := by
  rcases s.setWeight_cases call.position call.weight with
    ⟨hweight, h⟩ | ⟨-, hposition, h⟩ | ⟨hweight, hposition, s', h, -, hweights⟩
  · rw [perform_of_error h, if_neg fun haccepted => hweight haccepted.1]
  · rw [perform_of_error h, if_neg fun haccepted => absurd haccepted.2 (Nat.not_lt.2 hposition)]
  · rw [perform_of_ok h, hweights, if_pos ⟨hweight, hposition⟩]

/-! ## §2. A review. -/

section
variable {paths : PathSet} {calls : List Call}

/-- The found paths after calls, one after another. -/
def after (paths : PathSet) (calls : List Call) : Scored :=
  calls.foldl perform (.ofPaths paths)

theorem after_concat (paths : PathSet) (calls : List Call) (call : Call) :
    after paths (calls ++ [call]) = (after paths calls).perform call := by
  unfold after
  rw [List.foldl_append]
  rfl

/-- **The paths stay** where they are. -/
theorem paths_after (paths : PathSet) (calls : List Call) :
    (after paths calls).paths = paths.toList := by
  induction calls using List.reverseRecOn with
  | nil => rfl
  | append_singleton calls call ih => rw [after_concat, paths_perform, ih]

theorem size_after (paths : PathSet) (calls : List Call) :
    (after paths calls).size = paths.size := by
  unfold size
  rw [paths_after, Std.ExtTreeSet.length_toList]

/-- The weight that was accepted last for a position of `size`, or the least one. -/
def lastWeight (size : ℕ) (calls : List Call) (i : ℕ) : UInt32 :=
  ((calls.filter fun call => call.Accepted size ∧ call.position = i).getLast?.map
    Call.weight).getD 1

theorem lastWeight_concat (size : ℕ) (calls : List Call) (call : Call) (i : ℕ) :
    lastWeight size (calls ++ [call]) i =
      if call.Accepted size ∧ call.position = i then call.weight else lastWeight size calls i := by
  unfold lastWeight
  rw [List.filter_append, List.filter_singleton]
  by_cases hcall : call.Accepted size ∧ call.position = i
  · rw [decide_eq_true hcall, if_pos hcall]
    simp
  · rw [decide_eq_false hcall, if_neg hcall]
    simp

theorem admissible_lastWeight (size : ℕ) (calls : List Call) (i : ℕ) :
    Admissible (lastWeight size calls i) := by
  induction calls using List.reverseRecOn with
  | nil =>
      show Admissible 1
      decide
  | append_singleton calls call ih =>
      rw [lastWeight_concat]
      split
      next haccepted => exact haccepted.1.1
      next => exact ih

/-- **The weight at a position** is the one that was accepted last. -/
theorem weight?_after (paths : PathSet) (calls : List Call) (i : ℕ) :
    (after paths calls).weight? i =
      if i < paths.size then some (lastWeight paths.size calls i) else none := by
  -- from the end, where the call stands that counts
  induction calls using List.reverseRecOn with
  | nil =>
      show (List.replicate paths.toList.length minWeight)[i]? = _
      rw [List.getElem?_replicate, Std.ExtTreeSet.length_toList]
      rfl
  | append_singleton calls call ih =>
      unfold weight? at ih ⊢
      rw [after_concat, weights_perform, size_after, lastWeight_concat]
      by_cases haccepted : call.Accepted paths.size
      · rw [if_pos haccepted, List.getElem?_set, length_weights, size_after]
        -- the call that was accepted counts at its own position and at no other
        by_cases hposition : call.position = i
        · subst hposition
          rw [if_pos rfl, if_pos haccepted.2, if_pos haccepted.2, if_pos ⟨haccepted, rfl⟩]
        · have hother : ¬ (call.Accepted paths.size ∧ call.position = i) := fun h => hposition h.2
          rw [if_neg hposition, if_neg hother, ih]
      · have hother : ¬ (call.Accepted paths.size ∧ call.position = i) := fun h => haccepted h.1
        rw [if_neg haccepted, if_neg hother, ih]

/-- Reviews that led to the same weights left the same. -/
theorem after_eq_of_weights {calls' : List Call}
    (h : ∀ i, (after paths calls).weight? i = (after paths calls').weight? i) :
    after paths calls = after paths calls' := by
  have hpaths : (after paths calls).paths = (after paths calls').paths :=
    (paths_after paths calls).trans (paths_after paths calls').symm
  have hweights : (after paths calls).weights = (after paths calls').weights :=
    List.ext_getElem? h
  generalize after paths calls = s at hpaths hweights
  generalize after paths calls' = s' at hpaths hweights
  cases s
  cases s'
  cases hpaths
  cases hweights
  rfl

end

/-! ## §3. The ranking. -/

/-- One row ranks above another: it has the greater weight, or of two rows of one weight the
lesser path. -/
def Outranks (a b : MetaPath × UInt32) : Prop :=
  b.2 < a.2 ∨ (a.2 = b.2 ∧ compare a.1 b.1 = .lt)

theorem ranks_ranksBefore : Ranks ranksBefore := by
  -- weights are compared as the numbers that they stand for
  have hscore : ranksBefore = fun a b => decide (b.2.toNat < a.2.toNat)
      || (a.2.toNat == b.2.toNat && (compare a.1 b.1).isLE) := by
    funext a b
    unfold ranksBefore
    congr 2
    exact Bool.eq_iff_iff.2 (by simp [UInt32.toNat_inj])
  rw [hscore]
  refine ranks_byScore (fun a : MetaPath × UInt32 => a.2.toNat)
    (fun a b => (compare a.1 b.1).isLE) (fun a b c hab hbc => ?_) (fun a b => ?_)
    fun a b hweight hab hba => ?_
  · exact Std.TransCmp.isLE_trans hab hbc
  · have hswap : compare b.1 a.1 = (compare a.1 b.1).swap := Std.OrientedCmp.eq_swap
    rw [hswap]
    cases compare a.1 b.1 <;> rfl
  · exact Prod.ext (Std.LawfulEqCmp.eq_of_compare (Std.OrientedCmp.isLE_antisymm hab hba))
      (UInt32.toNat_inj.1 hweight)

theorem ranksBefore_of_outranks {a b : MetaPath × UInt32} (h : Outranks a b) :
    ranksBefore a b = true := by
  unfold ranksBefore
  rcases h with hweight | ⟨hweight, hpath⟩
  · rw [decide_eq_true hweight, Bool.true_or]
  · rw [hweight, hpath]
    simp

theorem outranks_of_ranksBefore {a b : MetaPath × UInt32} (h : ranksBefore a b = true)
    (hne : a ≠ b) : Outranks a b := by
  simp only [ranksBefore, Bool.or_eq_true, decide_eq_true_eq, Bool.and_eq_true, beq_iff_eq] at h
  refine h.imp_right fun ⟨hweight, hle⟩ => ⟨hweight, ?_⟩
  cases hpath : compare a.1 b.1 with
  | lt => rfl
  | eq => exact absurd (Prod.ext (Std.LawfulEqCmp.eq_of_compare hpath) hweight) hne
  | gt =>
      rw [hpath] at hle
      cases hle

section
variable {s : Scored}

theorem perm_ranked (s : Scored) : s.ranked.Perm (s.paths.zip s.weights) :=
  List.mergeSort_perm _ _

theorem nodup_rows (hpaths : s.paths.Nodup) : s.rows.Nodup := by
  -- no two rows have one path
  have hfst : s.rows.map Prod.fst = s.paths :=
    List.map_fst_zip s.aligned.ge
  exact List.Nodup.of_map Prod.fst (hfst ▸ hpaths)

theorem pairwise_ranked (hpaths : s.paths.Nodup) : s.ranked.Pairwise Outranks :=
  (ranks_ranksBefore.pairwise_mergeSort (nodup_rows hpaths)).imp fun ⟨hbefore, hne⟩ =>
    outranks_of_ranksBefore hbefore hne

/-- **The ranking is the only list** of the rows in which each ranks above all that follow it. -/
theorem eq_ranked {rows : List (MetaPath × UInt32)} (hperm : rows.Perm (s.paths.zip s.weights))
    (hsorted : rows.Pairwise Outranks) : rows = s.ranked :=
  (List.mergeSort_of_pairwise (hsorted.imp ranksBefore_of_outranks)).symm.trans
    (ranks_ranksBefore.mergeSort_eq_of_perm hperm)

end

/-! ## §4. All that can be asked. -/

/-- **All that can be asked during a review** of found paths, told from the paths and from the
calls that were made. -/
structure Reviewed (paths : PathSet) (calls : List Call) (s : Scored) : Prop where
  size : s.size = paths.size
  /-- The found paths, in ascending order. -/
  found : ∀ p, p ∈ s.paths ↔ p ∈ paths
  ascending : s.paths.Pairwise fun p q => compare p.tokens q.tokens = .lt
  /-- They are the same before all calls. -/
  steady : ∀ i, s.path? i = (Scored.ofPaths paths).path? i
  weight : ∀ i, s.weight? i = if i < s.size then some (lastWeight s.size calls i) else none
  bounds : ∀ i weight, s.weight? i = some weight → 1 ≤ weight ∧ weight ≤ 10
  /-- The next call: when it is refused and with which fault, the weight being checked first. -/
  refused : ∀ i weight, (∃ fault, s.setWeight i weight = .error fault) ↔
    ¬ Admissible weight ∨ s.size ≤ i
  refusedWeight : ∀ i weight, ¬ Admissible weight →
    s.setWeight i weight = .error (.weight weight)
  refusedPosition : ∀ i weight, Admissible weight → s.size ≤ i →
    s.setWeight i weight = .error (.unregistered .pathIndex i)
  /-- The next call: what it leaves. -/
  unchanged : ∀ i weight fault, s.setWeight i weight = .error fault →
    after paths (calls ++ [⟨i, weight⟩]) = s
  accepted : ∀ i weight s', s.setWeight i weight = .ok s' →
    after paths (calls ++ [⟨i, weight⟩]) = s'
  /-- The ranking is all paths with their weights in one order. -/
  permutation : s.ranked.Perm (s.paths.zip s.weights)
  sorted : s.ranked.Pairwise Outranks
  only : ∀ rows : List (MetaPath × UInt32), rows.Perm (s.paths.zip s.weights) →
    rows.Pairwise Outranks → rows = s.ranked
  /-- Calls that led to the same weights led to the same ranking. -/
  settled : ∀ calls', (∀ i, s.weight? i = (after paths calls').weight? i) →
    (after paths calls').ranked = s.ranked

/-- **A review** keeps to all this whatever is called in it. -/
theorem reviewed_after (paths : PathSet) (calls : List Call) :
    Reviewed paths calls (after paths calls) := by
  have hpaths := paths_after paths calls
  have hsize := size_after paths calls
  have hascending : (after paths calls).paths.Pairwise fun p q => compare p q = .lt :=
    hpaths ▸ Std.ExtTreeSet.ordered_toList
  have hnodup : (after paths calls).paths.Nodup :=
    hascending.imp fun {p q} (hlt : compare p q = .lt) (heq : p = q) => by
      rw [heq, Std.ReflOrd.compare_self] at hlt
      cases hlt
  exact {
    size := hsize
    found := fun p => by rw [hpaths, Std.ExtTreeSet.mem_toList]
    ascending := hascending
    steady := fun i => congrArg (·[i]?) hpaths
    weight := fun i => hsize ▸ weight?_after paths calls i
    bounds := by
      intro i weight hweight
      rw [weight?_after] at hweight
      split at hweight
      · exact Option.some.inj hweight ▸ admissible_lastWeight _ _ _
      · cases hweight
    refused := fun _ _ => setWeight_fails_iff
    refusedWeight := fun _ _ => setWeight_of_not_admissible
    refusedPosition := fun _ _ => setWeight_of_size_le
    unchanged := fun i weight fault h => (after_concat paths calls _).trans (perform_of_error h)
    accepted := fun i weight s' h => (after_concat paths calls _).trans (perform_of_ok h)
    permutation := perm_ranked _
    sorted := pairwise_ranked hnodup
    only := fun _ => eq_ranked
    settled := fun calls' h => congrArg ranked (after_eq_of_weights h).symm }

end Scored

end LabelWalks
