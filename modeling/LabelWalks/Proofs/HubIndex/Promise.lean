/-
  LabelWalks.Proofs.HubIndex.Promise
  ──────────────────────────────────
  **WHEN A FAILED NODE HAS NO ENTRY.**

  A report tells which nodes failed, and these are to have no entry in the index,
  while all others have their whole suffix maps.  That is so as long as a sink
  takes nothing of a record that it refuses.  A sink may take the start of a
  record, however, and a start that reaches past the colon can be read as a
  record with fewer suffixes: then a failed node has an entry.

    • `KeepsPromise` — what a report says of the text,
    • `keepsPromise_take_iff` — when it is true after every worker,
    • `not_keepsPromise_limited` — a sink that breaks it.
-/
import LabelWalks.Proofs.HubIndex.Builder

namespace LabelWalks.HubIndex

variable {g : GraphView} {m : Mapping} {length : PathLength} {sink : Sink}

/-! ## §1. The promise. -/

/-- If all workers come to a report, then every node was written or failed, the text can
be read, a failed node has no entry and any other node has its whole suffix map. -/
def KeepsPromise (g : GraphView) (m : Mapping) (length : PathLength) (sink : Sink)
    (order : List NodeId) : Prop :=
  ∀ report, (buildInOrder g m length order sink).2 = .ok report →
    report.written + report.failed.length = order.length
      ∧ ∃ index, ofText m (buildInOrder g m length order sink).1.written = .ok index
        ∧ (∀ v ∈ report.failed, index.get? v = none)
        ∧ ∀ v ∈ order, v ∉ report.failed →
          ∃ map, suffixesFrom g m v length = .ok map ∧ index.get? v = some map

/-! ## §2. Whole records keep it. -/

theorem LeavesNoParts.take {order : List NodeId} (h : LeavesNoParts g m length sink order)
    (k : Nat) : LeavesNoParts g m length sink (order.take k) := by
  intro before v after text htake
  refine h before v (after ++ order.drop k) text ?_
  calc order = order.take k ++ order.drop k := (List.take_append_drop k order).symm
    _ = before ++ v :: (after ++ order.drop k) := by
      rw [htake, List.append_assoc]
      rfl

/-- When refused records leave no part, the promise is kept. -/
theorem keepsPromise_of_leavesNoParts {order : List NodeId} (hempty : sink.written = "")
    (hnodup : order.Nodup) (h : LeavesNoParts g m length sink order) :
    KeepsPromise g m length sink order := by
  intro report hreport
  obtain ⟨rows, hrows⟩ := exists_kept h
  obtain ⟨index, hread, hindex⟩ := ofText_records hrows.recorded hrows.agree
  obtain ⟨-, rfl⟩ := buildInOrder_eq_ok_iff.1 hreport
  refine ⟨?_, index, ?_, fun v hv => ?_, fun v hv hwritten => ?_⟩
  · have hlength := hrows.accounts.length_eq
    rw [List.length_append, List.length_map] at hlength
    rw [hrows.count]
    exact hlength
  · rw [written_buildInOrder, hrows.text, hempty, String.empty_append]
    exact hread
  · -- an entry of a failed node would come from a row, and failed nodes have none
    obtain ⟨-, hno⟩ := (hrows.mem_failed_iff hnodup).1 hv
    refine Option.eq_none_iff_forall_ne_some.2 fun map hmap => ?_
    obtain ⟨row, hrow, hkey⟩ := (hindex v map).1 hmap
    exact hno row hrow (congrArg Prod.fst hkey)
  · rw [hrows.mem_failed_iff hnodup] at hwritten
    have hrow : ∃ row ∈ rows, row.1.1 = v := by
      by_contra hno
      exact hwritten ⟨hv, fun row hrow hkey => hno ⟨row, hrow, hkey⟩⟩
    obtain ⟨row, hrow, rfl⟩ := hrow
    exact ⟨row.1.2, hrows.made row hrow, (hindex _ _).2 ⟨row, hrow, rfl⟩⟩

/-! ## §3. A part breaks it. -/

/-- A worker whose refused record leaves a part breaks the promise, if all workers before
it left whole records only. -/
theorem not_keepsPromise_of_part {order : List NodeId} {v : NodeId} {text : String}
    (hempty : sink.written = "") (hflush : sink.flush.2 = none)
    (hclean : LeavesNoParts g m length sink order) (hrecord : recordOf? g m length v = some text)
    (hrefused : ((writeNodes g m length sink order).1.write text).2 ≠ none)
    (hpart : ((writeNodes g m length sink order).1.write text).1.written ≠
      (writeNodes g m length sink order).1.written) :
    ¬ KeepsPromise g m length sink (order ++ [v]) := by
  intro hpromise
  obtain ⟨rows, hrows⟩ := exists_kept hclean
  obtain ⟨map, hmap, htext⟩ := recordOf?_eq_some.1 hrecord
  obtain ⟨n, hn, htaken⟩ := Sink.written_of_refused hrefused
  -- the worker of the node failed
  have hdone : (writeNode g m length (writeNodes g m length sink order).1 v).2 = false := by
    rw [writeNode_eq_of_some hrecord]
    exact Option.isNone_eq_false_iff.2 (Option.isSome_iff_ne_none.2 hrefused)
  have hfailed : v ∈ (writeNodes g m length sink (order ++ [v])).2.failed := by
    rw [writeNodes_concat, hdone, if_neg (by simp)]
    exact List.mem_append_right _ List.mem_cons_self
  -- the text ends with the start of its record, which is not empty
  have hpos : 0 < n := by
    rcases Nat.eq_zero_or_pos n with hzero | hpos
    · apply absurd htaken
      rw [hzero, List.take_zero, String.ofList_nil, String.append_empty]
      exact hpart
    · exact hpos
  have hwritten : (buildInOrder g m length (order ++ [v]) sink).1.written =
      String.join (rows.map Prod.snd) ++ String.ofList (text.toList.take n) := by
    rw [written_buildInOrder, writeNodes_concat, writeNode_eq_of_some hrecord]
    show ((writeNodes g m length sink order).1.write text).1.written = _
    rw [htaken, hrows.text, hempty, String.empty_append]
  obtain ⟨-, index, hread, hnone, -⟩ := hpromise _ (buildInOrder_eq_ok_iff.2 ⟨hflush, rfl⟩)
  rw [hwritten] at hread
  have hrow : Recorded m ((v, map), text) := recorded_of_suffixesFrom hmap htext
  obtain ⟨map', hentry⟩ := get?_of_torn_record hrows.recorded hrow hpos hn hread
  rw [hnone v hfailed] at hentry
  cases hentry

/-! ## §4. Exactly when it is kept. -/

/-- **Exactly when a failed node has no entry.**  For every sink and every order in which
the workers come to it, the promise is kept after every one of them just when the sink takes
nothing of a record that it refuses. -/
theorem keepsPromise_take_iff {g : GraphView} {m : Mapping} {length : PathLength} {sink : Sink}
    {nodes order : List NodeId} (horder : order.Perm nodes.eraseDups) (hempty : sink.written = "")
    (hflush : sink.flush.2 = none) :
    (∀ k, KeepsPromise g m length sink (order.take k)) ↔
      LeavesNoParts g m length sink order := by
  have hnodup : order.Nodup := horder.nodup_iff.2 (nodup_eraseDups nodes)
  constructor
  · -- the first part that is left breaks the promise, so there is no first one
    clear horder hnodup
    induction order using List.reverseRecOn with
    | nil =>
        intro _ before v after text horder
        cases before <;> cases horder
    | append_singleton xs v ih =>
        intro hpromise
        have hxs : LeavesNoParts g m length sink xs := by
          refine ih fun k => ?_
          have hk := hpromise (min k xs.length)
          rw [List.take_append_of_le_length (Nat.min_le_right _ _)] at hk
          rw [List.take_eq_take_min]
          exact hk
        refine leavesNoParts_concat.2 ⟨hxs, fun text hrecord hrefused => ?_⟩
        by_contra hpart
        apply not_keepsPromise_of_part hempty hflush hxs hrecord hrefused hpart
        have hall := hpromise (xs ++ [v]).length
        rw [List.take_length] at hall
        exact hall
  · intro hclean k
    exact keepsPromise_of_leavesNoParts hempty (hnodup.sublist (List.take_sublist k order))
      (hclean.take k)

/-- A sink that takes everything keeps it for both nodes of `twins`. -/
theorem keepsPromise_take_iff_twins :
    KeepsPromise twins.view twinLabels ⟨2, by decide, by decide⟩ .unlimited [2, 1] :=
  (@keepsPromise_take_iff twins.view twinLabels ⟨2, by decide, by decide⟩ .unlimited
    [2, 1, 2] [2, 1] (by decide) rfl rfl).2
    (leavesNoParts_of_accepting Sink.unlimited_accepting [2, 1]) 2

/-- **A sink that breaks it** takes five characters in all: of the record `2:=2-7|1=1-` it
takes the start `2:=2-`, and the failed node 2 has an entry that lacks its longer suffix. -/
theorem not_keepsPromise_limited :
    ¬ KeepsPromise twins.view twinLabels ⟨2, by decide, by decide⟩ (.limited 5) [2] := by
  intro hpromise
  have hreport : (buildInOrder twins.view twinLabels ⟨2, by decide, by decide⟩ [2]
      (.limited 5)).2 = .ok ⟨0, [2]⟩ := by decide +kernel
  have hentry : (ofText twinLabels (buildInOrder twins.view twinLabels ⟨2, by decide, by decide⟩
      [2] (.limited 5)).1.written).toOption.map (fun index => index.contains 2) = some true := by
    decide +kernel
  obtain ⟨-, index, hread, hnone, -⟩ := hpromise _ hreport
  rw [hread] at hentry
  obtain ⟨map, hmap⟩ := HubIndex.contains_iff.1 (Option.some.inj hentry)
  rw [hnone 2 List.mem_cons_self] at hmap
  cases hmap

end LabelWalks.HubIndex
