/-
  LabelWalks.Proofs.Census.Tally
  ──────────────────────────────
  **COUNTS THAT STAY AT A BOUND.**

  A frontier keeps one count for each node at the end of a path, and every sum of
  counts stays at the bound once it gets there.  What is counted is a list with
  one member for each walk: the node at which the walk ends.  `Tallies` ties the
  two together, and it survives a hop, because cutting the terms of a sum at the
  bound before they are added does not change the sum cut at the bound.

    • `Tallies.min_sum` — a weighted sum of counts,
    • `Tallies.total_eq` — the total of a frontier,
    • `mem_toList_groupCounts_countedSteps` — the groups one hop on.
-/
import LabelWalks.Census
import LabelWalks.Proofs.Expansion

namespace LabelWalks

/-- The counts of the nodes in a list, each cut at the bound. -/
def Tallies (counts : NodeCounts) (ends : List NodeId) : Prop :=
  ∀ v, counts[v]? = if v ∈ ends then some (min (ends.count v) maxCount) else none

/-! ## §1. Sums of counts. -/

/-- Cutting the terms first does not change a sum that is cut anyway. -/
theorem min_sum_min_mul (c k : NodeId → Nat) (keys : List NodeId) :
    min ((keys.map fun v => min (c v) maxCount * k v).sum) maxCount =
      min ((keys.map fun v => c v * k v).sum) maxCount := by
  induction keys with
  | nil => rfl
  | cons v keys ih =>
      simp only [List.map_cons, List.sum_cons]
      by_cases hle : c v ≤ maxCount
      · have hterm : min (c v) maxCount = c v := Nat.min_eq_left hle
        rw [hterm]
        omega
      · have hterm : min (c v) maxCount = maxCount := Nat.min_eq_right (by omega)
        rw [hterm]
        by_cases hk : k v = 0
        · rw [hk, Nat.mul_zero, Nat.mul_zero, Nat.zero_add, Nat.zero_add]
          exact ih
        · -- either term alone is at the bound
          have hcut : maxCount ≤ maxCount * k v := Nat.le_mul_of_pos_right _ (by omega)
          have hfull : maxCount * k v ≤ c v * k v := Nat.mul_le_mul_right _ (by omega)
          omega

/-- A sum over a list is the sum over its members, each as often as it comes. -/
theorem sum_map_count_mul (k : NodeId → Nat) {keys ends : List NodeId} (hnodup : keys.Nodup)
    (hkeys : ∀ v, v ∈ keys ↔ v ∈ ends) :
    (keys.map fun v => ends.count v * k v).sum = (ends.map k).sum := by
  have hset : keys.toFinset = ends.toFinset := by
    ext v
    rw [List.mem_toFinset, List.mem_toFinset, hkeys]
  rw [← List.sum_toFinset _ hnodup, hset, Finset.sum_list_map_count]
  rfl

variable {counts : NodeCounts} {ends : List NodeId}

theorem tallies_iff : Tallies counts ends ↔
    ∀ v n, counts[v]? = some n ↔ v ∈ ends ∧ n = min (ends.count v) maxCount := by
  refine forall_congr' fun v => ?_
  by_cases hv : v ∈ ends
  · simp only [hv, if_true, true_and]
    constructor
    · intro h n
      rw [h, Option.some.injEq]
      exact eq_comm
    · intro h
      exact (h _).2 rfl
  · simp only [hv, if_false, false_and, iff_false]
    exact Option.eq_none_iff_forall_ne_some

theorem Tallies.mem_keys (h : Tallies counts ends) (v : NodeId) :
    v ∈ counts.keys ↔ v ∈ ends := by
  rw [Std.ExtTreeMap.mem_keys, Std.ExtTreeMap.mem_iff_isSome_getElem?, h v]
  by_cases hv : v ∈ ends
  · simp [hv]
  · simp [hv]

theorem Tallies.mem_toList (h : Tallies counts ends) {v : NodeId} {n : Nat}
    (hrow : (v, n) ∈ counts.toList) : v ∈ ends ∧ n = min (ends.count v) maxCount :=
  (tallies_iff.1 h v n).1 (Std.ExtTreeMap.mem_toList_iff_getElem?_eq_some.1 hrow)

/-- **A weighted sum of counts**, cut at the bound, is the sum over all that was counted. -/
theorem Tallies.min_sum (h : Tallies counts ends) (k : NodeId → Nat) :
    min ((counts.toList.map fun row => row.2 * k row.1).sum) maxCount =
      min ((ends.map k).sum) maxCount := by
  have hrows : counts.toList.map (fun row => row.2 * k row.1) =
      counts.keys.map fun v => min (ends.count v) maxCount * k v := by
    rw [← Std.ExtTreeMap.map_fst_toList_eq_keys, List.map_map]
    refine List.map_congr_left fun row hrow => ?_
    show row.2 * k row.1 = min (ends.count row.1) maxCount * k row.1
    rw [(h.mem_toList hrow).2]
  rw [hrows, min_sum_min_mul,
    sum_map_count_mul k Std.ExtTreeMap.nodup_keys h.mem_keys]

/-- **The total of a frontier** is the number of walks, cut at the bound. -/
theorem Tallies.total_eq {f : Frontier} (h : Tallies f.nodes ends) :
    f.total = min ends.length maxCount := by
  have hfold : f.total = (f.nodes.toList.map Prod.snd).foldl addCount 0 := by
    unfold Frontier.total
    rw [Std.ExtTreeMap.foldl_eq_foldl_toList, List.foldl_map]
  have hsum := h.min_sum fun _ => 1
  simp only [Nat.mul_one, List.map_const', List.sum_replicate_nat] at hsum
  rw [hfold, foldl_addCount _ 0 (Nat.zero_le _), Nat.zero_add, ← hsum]

/-- There are counts for every list. -/
theorem exists_tallies (ends : List NodeId) : ∃ counts, Tallies counts ends := by
  refine ⟨ends.foldl (fun c v => c.insert v (min (ends.count v) maxCount)) ∅, ?_⟩
  rw [tallies_iff]
  intro v n
  rw [getElem?_foldl_insert_empty _ _ (fun v => min (ends.count v) maxCount) fun _ _ => rfl]
  simp only [exists_eq_right]

/-- A one for each node tallies a list in which no node comes twice. -/
theorem tallies_foldl_one {β : Type} (node : β → NodeId) {xs : List β} (hnodup : ends.Nodup)
    (hmem : ∀ v, v ∈ ends ↔ ∃ x ∈ xs, node x = v) :
    Tallies (xs.foldl (fun (c : NodeCounts) x => c.insert (node x) 1) ∅) ends := by
  rw [tallies_iff]
  intro v n
  rw [getElem?_foldl_insert_empty _ _ (fun _ => 1) fun _ _ => rfl, ← hmem]
  refine and_congr_right fun hv => ?_
  rw [List.count_eq_one_of_mem hnodup hv]
  rfl

/-! ## §2. Groups of counted arrivals. -/

/-- The counts behind a hop: all that came along with arrivals at the node. -/
theorem mem_toList_groupCounts {as : List (Arrival × Nat)} {hop : Hop} {nodes : NodeCounts} :
    (hop, nodes) ∈ (groupCounts as).toList ↔
      (∃ row ∈ as, row.1.hop = hop) ∧ ∀ w, nodes[w]? =
        if under Prod.fst ⟨hop, w⟩ as = [] then none
        else some (min ((under Prod.fst ⟨hop, w⟩ as).map Prod.snd).sum maxCount) := by
  have hgather : groupCounts as = gather (fun row : Arrival × Nat => row.1.hop) ∅
      (fun (c : NodeCounts) row => NodeCounts.plus c row.1.node row.2) ∅ as := rfl
  rw [Std.ExtTreeMap.mem_toList_iff_getElem?_eq_some, hgather,
    getElem?_gather_empty_eq_some_iff]
  refine and_congr_right fun _ => ?_
  have hget : ∀ w, ((under (fun row : Arrival × Nat => row.1.hop) hop as).foldl
      (fun (c : NodeCounts) row => NodeCounts.plus c row.1.node row.2) ∅)[w]? =
        if under Prod.fst ⟨hop, w⟩ as = [] then none
        else some (min ((under Prod.fst ⟨hop, w⟩ as).map Prod.snd).sum maxCount) := by
    intro w
    -- the inner counts are gathered by node from the arrivals over the hop
    have hplus : (under (fun row : Arrival × Nat => row.1.hop) hop as).foldl
        (fun (c : NodeCounts) row => NodeCounts.plus c row.1.node row.2) ∅ =
          gather (fun row : Arrival × Nat => row.1.node) 0 (fun n row => addCount n row.2) ∅
            (under (fun row : Arrival × Nat => row.1.hop) hop as) := rfl
    have hunder : under (fun row : Arrival × Nat => row.1.node) w
        (under (fun row : Arrival × Nat => row.1.hop) hop as) = under Prod.fst ⟨hop, w⟩ as := by
      unfold under
      rw [List.filter_filter]
      refine List.filter_congr fun row _ => ?_
      obtain ⟨⟨hop', w'⟩, n⟩ := row
      simp [Bool.and_comm]
    rw [hplus, getElem?_gather, hunder]
    by_cases hnil : under Prod.fst ⟨hop, w⟩ as = []
    · rw [if_pos hnil, if_pos hnil]
      exact Std.ExtTreeMap.getElem?_empty
    · rw [if_neg hnil, if_neg hnil, Std.ExtTreeMap.getElem?_empty, Option.getD_none,
        ← List.foldl_map, foldl_addCount _ 0 (Nat.zero_le _), Nat.zero_add]
  constructor
  · intro h w
    rw [h, hget]
  · intro h
    refine Std.ExtTreeMap.ext_getElem? fun w => ?_
    rw [h, hget]

/-! ## §3. One hop on. -/

/-- The nodes at which walks end that go on over a hop from the ends of others. -/
def endsOver (g : GraphView) (m : Mapping) (hop : Hop) (ends : List NodeId) : List NodeId :=
  ends.flatMap fun v => ((stepsFrom g m v).filter fun a => a.hop = hop).map Arrival.node

variable {g : GraphView} {m : Mapping} {hop : Hop}

theorem mem_endsOver {w : NodeId} :
    w ∈ endsOver g m hop ends ↔ ∃ v ∈ ends, Arrives g m v ⟨hop, w⟩ := by
  unfold endsOver
  simp only [List.mem_flatMap, List.mem_map, List.mem_filter, mem_stepsFrom, decide_eq_true_eq]
  constructor
  · intro h
    obtain ⟨v, hv, a, ⟨ha, rfl⟩, rfl⟩ := h
    exact ⟨v, hv, ha⟩
  · intro h
    obtain ⟨v, hv, ha⟩ := h
    exact ⟨v, hv, _, ⟨ha, rfl⟩, rfl⟩

theorem count_endsOver (w : NodeId) :
    (endsOver g m hop ends).count w =
      (ends.map fun v => (stepsFrom g m v).count ⟨hop, w⟩).sum := by
  unfold endsOver
  rw [List.count_flatMap]
  refine congrArg List.sum (List.map_congr_left fun v _ => ?_)
  show (((stepsFrom g m v).filter fun a => a.hop = hop).map Arrival.node).count w = _
  rw [List.count, List.countP_map, List.countP_filter, List.count]
  refine List.countP_congr fun a _ => ?_
  obtain ⟨hop', w'⟩ := a
  simp [and_comm]

/-- The counted arrivals from the ends of a frontier. -/
def countedSteps (g : GraphView) (m : Mapping) (counts : NodeCounts) : List (Arrival × Nat) :=
  counts.toList.flatMap fun row => (stepsFrom g m row.1).map fun a => (a, row.2)

theorem sum_under_countedSteps (a : Arrival) :
    ((under Prod.fst a (countedSteps g m counts)).map Prod.snd).sum =
      (counts.toList.map fun row => row.2 * (stepsFrom g m row.1).count a).sum := by
  unfold countedSteps under
  induction counts.toList with
  | nil => rfl
  | cons row rows ih =>
      -- each arrival that is the one asked for brings the count of the row
      have hrow : (((stepsFrom g m row.1).map fun a => (a, row.2)).filter
          fun x => x.1 = a).map Prod.snd =
            List.replicate ((stepsFrom g m row.1).count a) row.2 := by
        rw [List.filter_map, List.map_map, List.count_eq_length_filter, ← List.map_const']
        rfl
      rw [List.flatMap_cons, List.filter_append, List.map_append, List.sum_append, ih, hrow,
        List.sum_replicate_nat, List.map_cons, List.sum_cons, Nat.mul_comm]

theorem under_countedSteps_eq_nil_iff (h : Tallies counts ends) {w : NodeId} :
    under Prod.fst ⟨hop, w⟩ (countedSteps g m counts) = [] ↔ w ∉ endsOver g m hop ends := by
  rw [under_eq_nil_iff, mem_endsOver]
  unfold countedSteps
  constructor
  · intro hno hsome
    obtain ⟨v, hv, ha⟩ := hsome
    have hkey := (h.mem_keys v).2 hv
    rw [← Std.ExtTreeMap.map_fst_toList_eq_keys, List.mem_map] at hkey
    obtain ⟨row, hrow, rfl⟩ := hkey
    refine hno (⟨hop, w⟩, row.2) ?_ rfl
    exact List.mem_flatMap.2 ⟨row, hrow, List.mem_map.2 ⟨_, mem_stepsFrom.2 ha, rfl⟩⟩
  · intro hno x hx hxa
    obtain ⟨row, hrow, hmem⟩ := List.mem_flatMap.1 hx
    obtain ⟨a, ha, rfl⟩ := List.mem_map.1 hmem
    have hxa : a = ⟨hop, w⟩ := hxa
    subst hxa
    exact hno ⟨row.1, (h.mem_toList hrow).1, mem_stepsFrom.1 ha⟩

/-- **One hop on**: the groups of counted arrivals tally the walks that go on over their hop. -/
theorem mem_toList_groupCounts_countedSteps (h : Tallies counts ends) {nodes : NodeCounts} :
    (hop, nodes) ∈ (groupCounts (countedSteps g m counts)).toList ↔
      endsOver g m hop ends ≠ [] ∧ Tallies nodes (endsOver g m hop ends) := by
  rw [mem_toList_groupCounts]
  refine and_congr ?_ (forall_congr' fun w => ?_)
  · constructor
    · intro hsome
      obtain ⟨⟨⟨hop', w⟩, n⟩, hrow, rfl⟩ := hsome
      have hne : under Prod.fst ⟨hop', w⟩ (countedSteps g m counts) ≠ [] := by
        intro hnil
        exact under_eq_nil_iff.1 hnil _ hrow rfl
      have hmem : w ∈ endsOver g m hop' ends := by
        by_contra hno
        exact hne ((under_countedSteps_eq_nil_iff h).2 hno)
      exact List.ne_nil_of_mem hmem
    · intro hne
      obtain ⟨w, hw⟩ := List.exists_mem_of_ne_nil _ hne
      have hsome : under Prod.fst ⟨hop, w⟩ (countedSteps g m counts) ≠ [] := by
        intro hnil
        exact (under_countedSteps_eq_nil_iff h).1 hnil hw
      obtain ⟨row, hrow⟩ := List.exists_mem_of_ne_nil _ hsome
      obtain ⟨hmem, hfst⟩ := mem_under.1 hrow
      exact ⟨row, hmem, by rw [hfst]⟩
  · rw [sum_under_countedSteps, h.min_sum fun v => (stepsFrom g m v).count ⟨hop, w⟩,
      ← count_endsOver]
    by_cases hw : w ∈ endsOver g m hop ends
    · have hsome : under Prod.fst ⟨hop, w⟩ (countedSteps g m counts) ≠ [] := by
        intro hnil
        exact (under_countedSteps_eq_nil_iff h).1 hnil hw
      rw [if_neg hsome, if_pos hw]
    · rw [if_pos ((under_countedSteps_eq_nil_iff h).2 hw), if_neg hw]

end LabelWalks
