/-
  LabelWalks.Proofs.HubIndex.Builder
  ──────────────────────────────────
  **WHAT THE WORKERS OF AN INDEX LEAVE IN THE SINK.**

  Every worker offers its record in one piece, so as long as a refused record
  leaves no part of itself behind, the sink holds whole records only and they can
  be read back.  In which order the workers come to the sink does not matter.

    • `recordOf?_eq_some`, `exists_recordOf?_iff` — one worker,
    • `writeNodes_append` — a run and its continuation,
    • `LeavesNoParts`, `Kept`, `exists_kept` — whole records only,
    • `exists_ofText_buildInOrder` — a sink that takes everything.
-/
import LabelWalks.HubIndex.Builder
import LabelWalks.Proofs.HubIndex.RoundTrip
import LabelWalks.Proofs.Sink

namespace LabelWalks.HubIndex

variable {g : GraphView} {m : Mapping} {length : PathLength}

/-! ## §1. One worker. -/

/-- The map of a node can be written and read back. -/
theorem recorded_of_suffixesFrom {v : NodeId} {map : SuffixMap}
    (h : suffixesFrom g m v length = .ok map) {text : String}
    (htext : record m v map = .ok text) : Recorded m ((v, map), text) := by
  refine ⟨htext, fun s ends hrow => ?_, (∅ : NodeSet).insert v, ?_⟩
  · obtain ⟨-, ⟨w, hw⟩, hends⟩ := (getElem?_suffixesFrom h).1 hrow
    exact ⟨((hends w).1 hw).even, w, hw⟩
  · rw [getElem?_suffixesFrom h]
    refine ⟨Nat.zero_le _, ⟨v, ?_⟩, fun w => ?_⟩
    · exact NodeSet.mem_insert_empty.2 rfl
    · rw [NodeSet.mem_insert_empty, endsAt_nil]

theorem recordOf?_eq_some {v : NodeId} {text : String} :
    recordOf? g m length v = some text ↔
      ∃ map, suffixesFrom g m v length = .ok map ∧ record m v map = .ok text := by
  unfold recordOf?
  cases hmap : suffixesFrom g m v length with
  | error halt =>
      constructor
      · intro h
        cases h
      · intro h
        obtain ⟨map, h, -⟩ := h
        cases h
  | ok map =>
      show (record m v map).toOption = some text ↔ _
      rw [toOption_eq_some_iff]
      constructor
      · intro h
        exact ⟨map, rfl, h⟩
      · intro h
        obtain ⟨map', h, htext⟩ := h
        injection h with h
        rw [h]
        exact htext

/-- **A worker comes to its end** when its suffix map is made: there is a record for it. -/
theorem exists_recordOf?_iff {v : NodeId} :
    (∃ text, recordOf? g m length v = some text) ↔ ∃ map, suffixesFrom g m v length = .ok map := by
  simp only [recordOf?_eq_some]
  constructor
  · intro h
    obtain ⟨text, map, hmap, -⟩ := h
    exact ⟨map, hmap⟩
  · intro h
    obtain ⟨map, hmap⟩ := h
    have hregistered : ∀ (s : Suffix) (ends : NodeSet), map[s]? = some ends →
        Registered m .edge s := by
      intro s ends hrow
      obtain ⟨-, ⟨w, hw⟩, hends⟩ := (getElem?_suffixesFrom hmap).1 hrow
      exact ((hends w).1 hw).registered
    obtain ⟨text, htext⟩ := exists_record hregistered
    exact ⟨text, map, hmap, htext⟩

/-! ## §2. A run and its continuation. -/

theorem writeNodes_cons_of_written {sink : Sink} {v : NodeId} {vs : List NodeId}
    (h : (writeNode g m length sink v).2 = true) :
    writeNodes g m length sink (v :: vs) =
      ((writeNodes g m length (writeNode g m length sink v).1 vs).1,
        ⟨(writeNodes g m length (writeNode g m length sink v).1 vs).2.written + 1,
          (writeNodes g m length (writeNode g m length sink v).1 vs).2.failed⟩) := by
  rcases hwrite : writeNode g m length sink v with ⟨sink', done⟩
  rw [hwrite] at h
  have hdone : done = true := h
  rw [writeNodes, hwrite, hdone]

theorem writeNodes_cons_of_failed {sink : Sink} {v : NodeId} {vs : List NodeId}
    (h : (writeNode g m length sink v).2 = false) :
    writeNodes g m length sink (v :: vs) =
      ((writeNodes g m length (writeNode g m length sink v).1 vs).1,
        ⟨(writeNodes g m length (writeNode g m length sink v).1 vs).2.written,
          v :: (writeNodes g m length (writeNode g m length sink v).1 vs).2.failed⟩) := by
  rcases hwrite : writeNode g m length sink v with ⟨sink', done⟩
  rw [hwrite] at h
  have hdone : done = false := h
  rw [writeNodes, hwrite, hdone]

/-- **A run and its continuation**: the sink is handed on and the reports are put together. -/
theorem writeNodes_append (xs ys : List NodeId) :
    ∀ sink : Sink, writeNodes g m length sink (xs ++ ys) =
      ((writeNodes g m length (writeNodes g m length sink xs).1 ys).1,
        ⟨(writeNodes g m length sink xs).2.written
            + (writeNodes g m length (writeNodes g m length sink xs).1 ys).2.written,
          (writeNodes g m length sink xs).2.failed
            ++ (writeNodes g m length (writeNodes g m length sink xs).1 ys).2.failed⟩) := by
  induction xs with
  | nil =>
      intro sink
      show writeNodes g m length sink ys = (_, ⟨0 + _, [] ++ _⟩)
      rw [Nat.zero_add, List.nil_append]
      rfl
  | cons v xs ih =>
      intro sink
      cases hdone : (writeNode g m length sink v).2 with
      | true =>
          rw [List.cons_append, writeNodes_cons_of_written hdone, writeNodes_cons_of_written hdone,
            ih, Nat.add_right_comm]
      | false =>
          rw [List.cons_append, writeNodes_cons_of_failed hdone, writeNodes_cons_of_failed hdone,
            ih, List.cons_append]

/-- The last worker of a run was written, or it failed. -/
theorem writeNodes_concat (xs : List NodeId) (v : NodeId) (sink : Sink) :
    writeNodes g m length sink (xs ++ [v]) =
      ((writeNode g m length (writeNodes g m length sink xs).1 v).1,
        if (writeNode g m length (writeNodes g m length sink xs).1 v).2 = true then
          ⟨(writeNodes g m length sink xs).2.written + 1,
            (writeNodes g m length sink xs).2.failed⟩
        else
          ⟨(writeNodes g m length sink xs).2.written,
            (writeNodes g m length sink xs).2.failed ++ [v]⟩) := by
  rw [writeNodes_append]
  cases hdone : (writeNode g m length (writeNodes g m length sink xs).1 v).2 with
  | true =>
      rw [writeNodes_cons_of_written hdone, if_pos rfl]
      show (_, (⟨_, _ ++ []⟩ : Report)) = _
      rw [List.append_nil]
      rfl
  | false =>
      rw [writeNodes_cons_of_failed hdone, if_neg (by simp)]
      rfl

theorem writeNode_eq_of_none {sink : Sink} {v : NodeId} (h : recordOf? g m length v = none) :
    writeNode g m length sink v = (sink, false) := by
  unfold writeNode
  rw [h]

theorem writeNode_eq_of_some {sink : Sink} {v : NodeId} {text : String}
    (h : recordOf? g m length v = some text) :
    writeNode g m length sink v = ((sink.write text).1, (sink.write text).2.isNone) := by
  unfold writeNode
  rw [h]

/-- Writing records does not change how the sink answers a flush. -/
theorem flush_writeNodes_eq (order : List NodeId) :
    ∀ sink : Sink, (writeNodes g m length sink order).1.flush.2 = sink.flush.2 := by
  induction order with
  | nil => intro sink; rfl
  | cons v vs ih =>
      intro sink
      have hnode : (writeNode g m length sink v).1.flush.2 = sink.flush.2 := by
        cases hrecord : recordOf? g m length v with
        | none => rw [writeNode_eq_of_none hrecord]
        | some text =>
            rw [writeNode_eq_of_some hrecord]
            exact Sink.flush_write_eq text
      cases hdone : (writeNode g m length sink v).2 with
      | true => rw [writeNodes_cons_of_written hdone, ih, hnode]
      | false => rw [writeNodes_cons_of_failed hdone, ih, hnode]

/-- What a run of all workers comes to. -/
theorem buildInOrder_eq_ok_iff {order : List NodeId} {sink : Sink} {report : Report} :
    (buildInOrder g m length order sink).2 = .ok report ↔
      sink.flush.2 = none ∧ (writeNodes g m length sink order).2 = report := by
  have hsame : (writeNodes g m length sink order).1.flush.2 = sink.flush.2 :=
    flush_writeNodes_eq order sink
  rw [← hsame]
  unfold buildInOrder
  rcases hwrite : writeNodes g m length sink order with ⟨sink', report'⟩
  rcases hflush : sink'.flush with ⟨sink'', refusal⟩
  cases refusal with
  | some problem => simp [hflush]
  | none => simp [hflush]

theorem written_buildInOrder (order : List NodeId) (sink : Sink) :
    (buildInOrder g m length order sink).1.written =
      (writeNodes g m length sink order).1.written := by
  unfold buildInOrder
  rcases hwrite : writeNodes g m length sink order with ⟨sink', report⟩
  rcases hflush : sink'.flush with ⟨sink'', refusal⟩
  have hkept : sink''.written = sink'.written := by
    unfold Sink.flush at hflush
    injection hflush with hflush
    rw [← hflush]
  cases refusal with
  | some problem =>
      simp only [hflush]
      exact hkept
  | none =>
      simp only [hflush]
      exact hkept

/-! ## §3. Whole records only. -/

/-- Whenever the sink refuses a record, it has taken nothing of it. -/
def LeavesNoParts (g : GraphView) (m : Mapping) (length : PathLength) (sink : Sink)
    (order : List NodeId) : Prop :=
  ∀ before v after text, order = before ++ v :: after → recordOf? g m length v = some text →
    ((writeNodes g m length sink before).1.write text).2 ≠ none →
      ((writeNodes g m length sink before).1.write text).1.written =
        (writeNodes g m length sink before).1.written

theorem leavesNoParts_concat {sink : Sink} {order : List NodeId} {v : NodeId} :
    LeavesNoParts g m length sink (order ++ [v]) ↔
      LeavesNoParts g m length sink order ∧ ∀ text, recordOf? g m length v = some text →
        ((writeNodes g m length sink order).1.write text).2 ≠ none →
          ((writeNodes g m length sink order).1.write text).1.written =
            (writeNodes g m length sink order).1.written := by
  constructor
  · intro h
    refine ⟨fun before w after text horder => ?_, fun text => h order v [] text rfl⟩
    refine h before w (after ++ [v]) text ?_
    rw [horder, List.append_assoc]
    rfl
  · intro h before w after text horder
    rcases List.eq_nil_or_concat after with rfl | ⟨after', u, rfl⟩
    · obtain ⟨hbefore, hlast⟩ := List.append_inj' horder rfl
      injection hlast with hlast
      rw [← hbefore, ← hlast]
      exact h.2 text
    · have hsplit : order ++ [v] = (before ++ w :: after') ++ [u] := by
        rw [horder, List.append_assoc, List.concat_eq_append]
        rfl
      exact h.1 before w after' text (List.append_inj' hsplit rfl).1

/-- The rows whose records stand in the sink, and no others, after the workers of `order`. -/
structure Kept (g : GraphView) (m : Mapping) (length : PathLength) (sink : Sink)
    (order : List NodeId) (rows : List Row) : Prop where
  made : ∀ row ∈ rows, suffixesFrom g m row.1.1 length = .ok row.1.2
  recorded : ∀ row ∈ rows, Recorded m row
  text : (writeNodes g m length sink order).1.written =
    sink.written ++ String.join (rows.map Prod.snd)
  count : (writeNodes g m length sink order).2.written = rows.length
  accounts : (rows.map (fun row => row.1.1)
    ++ (writeNodes g m length sink order).2.failed).Perm order

/-- A worker that fails without a trace adds nothing to the rows. -/
theorem Kept.concat_failed {sink : Sink} {order : List NodeId} {rows : List Row}
    (h : Kept g m length sink order rows) {v : NodeId}
    (hdone : (writeNode g m length (writeNodes g m length sink order).1 v).2 = false)
    (hsame : (writeNode g m length (writeNodes g m length sink order).1 v).1.written =
      (writeNodes g m length sink order).1.written) :
    Kept g m length sink (order ++ [v]) rows := by
  refine ⟨h.made, h.recorded, ?_, ?_, ?_⟩
  · rw [writeNodes_concat, ← h.text]
    exact hsame
  · rw [writeNodes_concat, hdone]
    exact h.count
  · rw [writeNodes_concat, hdone, if_neg (by simp), ← List.append_assoc]
    exact h.accounts.append_right [v]

/-- A worker whose record is taken adds its row. -/
theorem Kept.concat_written {sink : Sink} {order : List NodeId} {rows : List Row}
    (h : Kept g m length sink order rows) {v : NodeId} {map : SuffixMap} {text : String}
    (hmap : suffixesFrom g m v length = .ok map) (htext : record m v map = .ok text)
    (htaken : ((writeNodes g m length sink order).1.write text).2 = none) :
    Kept g m length sink (order ++ [v]) (rows ++ [((v, map), text)]) := by
  have hrecord : recordOf? g m length v = some text := recordOf?_eq_some.2 ⟨map, hmap, htext⟩
  have hdone : (writeNode g m length (writeNodes g m length sink order).1 v).2 = true := by
    rw [writeNode_eq_of_some hrecord, htaken]
    rfl
  refine ⟨?_, ?_, ?_, ?_, ?_⟩
  · intro row hrow
    rcases List.mem_append.1 hrow with hrow | hrow
    · exact h.made row hrow
    · rw [List.mem_singleton.1 hrow]
      exact hmap
  · intro row hrow
    rcases List.mem_append.1 hrow with hrow | hrow
    · exact h.recorded row hrow
    · rw [List.mem_singleton.1 hrow]
      exact recorded_of_suffixesFrom hmap htext
  · rw [writeNodes_concat, writeNode_eq_of_some hrecord]
    show ((writeNodes g m length sink order).1.write text).1.written = _
    rw [Sink.written_of_accepted htaken, h.text, List.map_append, String.join_append,
      String.append_assoc]
    simp
  · rw [writeNodes_concat, hdone, List.length_append]
    exact congrArg (· + 1) h.count
  · -- the node of the row changes places with the nodes that failed
    rw [writeNodes_concat, hdone, if_pos rfl, List.map_append, List.append_assoc]
    refine .trans (.append_left _ List.perm_append_comm) ?_
    rw [← List.append_assoc]
    exact h.accounts.append_right [v]

/-- **Whole records only**: when refused records leave no part, the sink has the records
of all nodes that did not fail. -/
theorem exists_kept {sink : Sink} {order : List NodeId} :
    LeavesNoParts g m length sink order → ∃ rows, Kept g m length sink order rows := by
  -- on the order from its end: each worker comes to the sink that the ones before it left
  induction order using List.reverseRecOn with
  | nil =>
      intro _
      refine ⟨[], ?_, ?_, ?_, rfl, .refl []⟩
      · intro row hrow
        cases hrow
      · intro row hrow
        cases hrow
      · exact (String.append_empty).symm
  | append_singleton xs v ih =>
      intro h
      obtain ⟨hxs, hlast⟩ := leavesNoParts_concat.1 h
      obtain ⟨rows, hrows⟩ := ih hxs
      cases hrecord : recordOf? g m length v with
      | none =>
          refine ⟨rows, hrows.concat_failed ?_ ?_⟩
          · rw [writeNode_eq_of_none hrecord]
          · rw [writeNode_eq_of_none hrecord]
      | some text =>
          by_cases hrefused : ((writeNodes g m length sink xs).1.write text).2 = none
          · obtain ⟨map, hmap, htext⟩ := recordOf?_eq_some.1 hrecord
            exact ⟨_, hrows.concat_written hmap htext hrefused⟩
          · refine ⟨rows, hrows.concat_failed ?_ ?_⟩
            · rw [writeNode_eq_of_some hrecord]
              exact Option.isNone_eq_false_iff.2 (Option.isSome_iff_ne_none.2 hrefused)
            · rw [writeNode_eq_of_some hrecord]
              exact hlast text hrecord hrefused

theorem Kept.agree {sink : Sink} {order : List NodeId} {rows : List Row}
    (h : Kept g m length sink order rows) : Agree rows := by
  intro row hrow row' hrow' hkey
  have hmade := h.made row hrow
  rw [hkey, h.made row' hrow'] at hmade
  injection hmade with hmade
  exact hmade.symm

/-- A node has a row just when it did not fail. -/
theorem Kept.mem_failed_iff {sink : Sink} {order : List NodeId} {rows : List Row}
    (h : Kept g m length sink order rows) (hnodup : order.Nodup) {v : NodeId} :
    v ∈ (writeNodes g m length sink order).2.failed ↔
      v ∈ order ∧ ∀ row ∈ rows, row.1.1 ≠ v := by
  have hapart := (List.nodup_append.1 (h.accounts.nodup_iff.2 hnodup)).2.2
  have hmem : v ∈ order ↔ (∃ row ∈ rows, row.1.1 = v)
      ∨ v ∈ (writeNodes g m length sink order).2.failed := by
    rw [← h.accounts.mem_iff, List.mem_append, List.mem_map]
  constructor
  · intro hv
    refine ⟨hmem.2 (.inr hv), fun row hrow hkey => ?_⟩
    exact hapart _ (List.mem_map.2 ⟨row, hrow, rfl⟩) v hv hkey
  · intro hv
    rcases hmem.1 hv.1 with ⟨row, hrow, hkey⟩ | hfailed
    · exact absurd hkey (hv.2 row hrow)
    · exact hfailed

/-! ## §4. A sink that takes everything. -/

theorem accepting_writeNodes {sink : Sink} (order : List NodeId) :
    sink.Accepting → (writeNodes g m length sink order).1.Accepting := by
  induction order using List.reverseRecOn with
  | nil => exact id
  | append_singleton xs v ih =>
      intro hsink
      rw [writeNodes_concat]
      show (writeNode g m length (writeNodes g m length sink xs).1 v).1.Accepting
      cases hrecord : recordOf? g m length v with
      | none =>
          rw [writeNode_eq_of_none hrecord]
          exact ih hsink
      | some text =>
          rw [writeNode_eq_of_some hrecord, (ih hsink).write_eq]
          exact (ih hsink).accept text

theorem leavesNoParts_of_accepting {sink : Sink} (hsink : sink.Accepting) (order : List NodeId) :
    LeavesNoParts g m length sink order := by
  intro before v after text _ _ hrefused
  rw [(accepting_writeNodes before hsink).write_eq] at hrefused
  exact absurd rfl hrefused

/-- Only a node without a record fails then. -/
theorem recordOf?_eq_none_of_failed {sink : Sink} (hsink : sink.Accepting) {order : List NodeId}
    {v : NodeId} :
    v ∈ (writeNodes g m length sink order).2.failed → recordOf? g m length v = none := by
  induction order using List.reverseRecOn with
  | nil =>
      intro hv
      cases hv
  | append_singleton xs u ih =>
      intro hv
      rw [writeNodes_concat] at hv
      cases hrecord : recordOf? g m length u with
      | some text =>
          rw [writeNode_eq_of_some hrecord, (accepting_writeNodes xs hsink).write_eq] at hv
          exact ih hv
      | none =>
          rw [writeNode_eq_of_none hrecord] at hv
          rcases List.mem_append.1 hv with hv | hv
          · exact ih hv
          · rw [List.mem_singleton.1 hv]
            exact hrecord

/-- **A sink that takes everything**: in whatever order the workers come to it, its text is
read as the index of the suffix maps of all nodes that have one. -/
theorem exists_ofText_buildInOrder {sink : Sink} (hsink : sink.Accepting)
    (hempty : sink.written = "") {order : List NodeId} (hnodup : order.Nodup) :
    ∃ index, ofText m (buildInOrder g m length order sink).1.written = .ok index
      ∧ ∀ v map, index.get? v = some map ↔ v ∈ order ∧ suffixesFrom g m v length = .ok map := by
  have hclean : LeavesNoParts g m length sink order := leavesNoParts_of_accepting hsink order
  obtain ⟨rows, hrows⟩ := exists_kept hclean
  obtain ⟨index, hread, hindex⟩ := ofText_records hrows.recorded hrows.agree
  refine ⟨index, ?_, fun v map => ?_⟩
  · rw [written_buildInOrder, hrows.text, hempty, String.empty_append]
    exact hread
  · rw [hindex]
    constructor
    · intro h
      obtain ⟨row, hrow, hkey⟩ := h
      have hmade := hrows.made row hrow
      have hmem : row.1.1 ∈ order := by
        rw [← hrows.accounts.mem_iff]
        exact List.mem_append_left _ (List.mem_map.2 ⟨row, hrow, rfl⟩)
      rw [hkey] at hmade hmem
      exact ⟨hmem, hmade⟩
    · intro h
      obtain ⟨hv, hmap⟩ := h
      by_cases hfailed : v ∈ (writeNodes g m length sink order).2.failed
      · -- nothing is refused, so a node with a suffix map cannot have failed
        obtain ⟨text, htext⟩ := exists_recordOf?_iff.2 ⟨map, hmap⟩
        rw [recordOf?_eq_none_of_failed hsink hfailed] at htext
        cases htext
      · rw [hrows.mem_failed_iff hnodup] at hfailed
        have hrow : ∃ row ∈ rows, row.1.1 = v := by
          by_contra hno
          exact hfailed ⟨hv, fun row hrow hkey => hno ⟨row, hrow, hkey⟩⟩
        obtain ⟨row, hrow, hkey⟩ := hrow
        have hmade := hrows.made row hrow
        rw [hkey, hmap] at hmade
        injection hmade with hmade
        exact ⟨row, hrow, Prod.ext hkey hmade.symm⟩

end LabelWalks.HubIndex
