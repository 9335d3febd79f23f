/-
  LabelWalks.Proofs.HubIndex.Session
  ──────────────────────────────────
  **CALLS ONE AFTER ANOTHER ADD UP.**

  Calls that write to one sink leave the records of all their nodes in it, some perhaps
  more than once.  All records of a node say the same, so the text is read as the
  suffix maps of the nodes that some call has indexed.

    • `exists_ofText_records` — a text of records of any nodes, repeated or not,
    • `Builds.exists_delivers`, `Builds.exists_ofText` — one call,
    • `Session.text` — the text after all calls,
    • `exists_ofText_session` — nothing is lost and nothing is added.
-/
import LabelWalks.Proofs.HubIndex.Crew

namespace LabelWalks.HubIndex

variable {g : GraphView} {m : Mapping} {length : PathLength}

/-! ## §1. Records of any nodes. -/

/-- A node with its suffix map and the record of it, if it has one. -/
def rowOf? (g : GraphView) (m : Mapping) (length : PathLength) (v : NodeId) : Option Row :=
  match suffixesFrom g m v length with
  | .error _ => none
  | .ok map => (record m v map).toOption.map fun text => ((v, map), text)

theorem map_snd_rowOf? (v : NodeId) :
    (rowOf? g m length v).map Prod.snd = recordOf? g m length v := by
  unfold rowOf? recordOf?
  cases suffixesFrom g m v length with
  | error halt => rfl
  | ok map =>
      show ((record m v map).toOption.map _).map Prod.snd = (record m v map).toOption
      rw [Option.map_map]
      show (record m v map).toOption.map id = _
      rw [Option.map_id]
      rfl

theorem rowOf?_eq_some {v : NodeId} {row : Row} :
    rowOf? g m length v = some row ↔
      row.1.1 = v ∧ suffixesFrom g m v length = .ok row.1.2 ∧ record m v row.1.2 = .ok row.2 := by
  unfold rowOf?
  cases hmap : suffixesFrom g m v length with
  | error halt => simp
  | ok map =>
      show (record m v map).toOption.map _ = some row ↔ _
      rw [Option.map_eq_some_iff]
      constructor
      · intro h
        obtain ⟨text, htext, hrow⟩ := h
        rw [← hrow]
        exact ⟨rfl, rfl, toOption_eq_some_iff.1 htext⟩
      · intro h
        obtain ⟨hnode, hsame, htext⟩ := h
        injection hsame with hsame
        rw [← hsame] at htext
        exact ⟨row.2, toOption_eq_some_iff.2 htext, by rw [← hnode, hsame]⟩

/-- **A text of records** is read as the suffix maps of its nodes. -/
theorem exists_ofText_records (order : List NodeId) :
    ∃ index, ofText m (String.join (order.filterMap (recordOf? g m length))) = .ok index
      ∧ ∀ v map, index.get? v = some map ↔ v ∈ order ∧ suffixesFrom g m v length = .ok map := by
  have hrows : ∀ row ∈ order.filterMap (rowOf? g m length),
      row.1.1 ∈ order ∧ suffixesFrom g m row.1.1 length = .ok row.1.2
        ∧ record m row.1.1 row.1.2 = .ok row.2 := by
    intro row hrow
    obtain ⟨v, hv, hrow⟩ := List.mem_filterMap.1 hrow
    obtain ⟨rfl, hmap, htext⟩ := rowOf?_eq_some.1 hrow
    exact ⟨hv, hmap, htext⟩
  have hrecorded : ∀ row ∈ order.filterMap (rowOf? g m length), Recorded m row := fun row hrow =>
    recorded_of_suffixesFrom (hrows row hrow).2.1 (hrows row hrow).2.2
  have hagree : Agree (order.filterMap (rowOf? g m length)) := by
    intro row hrow row' hrow' hkey
    have hmap := (hrows row hrow).2.1
    rw [hkey, (hrows row' hrow').2.1] at hmap
    injection hmap with hmap
    exact hmap.symm
  obtain ⟨index, hread, hindex⟩ := ofText_records hrecorded hagree
  refine ⟨index, ?_, fun v map => ?_⟩
  · rw [List.map_filterMap] at hread
    simpa only [map_snd_rowOf?] using hread
  · rw [hindex]
    constructor
    · intro h
      obtain ⟨row, hrow, hkey⟩ := h
      obtain ⟨hmem, hmap, -⟩ := hrows row hrow
      rw [hkey] at hmem hmap
      exact ⟨hmem, hmap⟩
    · intro h
      obtain ⟨hv, hmap⟩ := h
      obtain ⟨text, htext⟩ := exists_recordOf?_iff.2 ⟨map, hmap⟩
      obtain ⟨map', hmap', hrecord⟩ := recordOf?_eq_some.1 htext
      rw [hmap] at hmap'
      injection hmap' with hmap'
      refine ⟨((v, map), text), List.mem_filterMap.2 ⟨v, hv, ?_⟩, rfl⟩
      exact rowOf?_eq_some.2 ⟨rfl, hmap, by rw [hmap']; exact hrecord⟩

/-! ## §2. One call. -/

theorem Builds.exists_delivers {nodes : List NodeId} {workers : Nat} {sink : Sink}
    (hsink : sink.Accepting) {result : Sink × Except Fault Report}
    (h : Builds g m length nodes workers sink result) :
    ∃ report, Delivers g m length nodes sink result report := by
  obtain ⟨turns, hover, rfl⟩ := h
  exact exists_delivers_of_over hsink rfl hover

/-- **A call on a new sink** leaves a text that is read as the suffix maps of its nodes. -/
theorem Builds.exists_ofText {nodes : List NodeId} {workers : Nat} {sink : Sink}
    (hsink : sink.Accepting) (hempty : sink.written = "") {result : Sink × Except Fault Report}
    (h : Builds g m length nodes workers sink result) :
    ∃ index, ofText m result.1.written = .ok index
      ∧ ∀ v map, index.get? v = some map ↔ v ∈ nodes ∧ suffixesFrom g m v length = .ok map := by
  obtain ⟨report, hdelivers⟩ := h.exists_delivers hsink
  obtain ⟨order, horder, htext⟩ := hdelivers.text
  obtain ⟨index, hread, hindex⟩ := exists_ofText_records (g := g) (m := m) order
  refine ⟨index, ?_, fun v map => ?_⟩
  · rw [htext, hempty, String.empty_append]
    exact hread
  · rw [hindex, horder.mem_iff, List.mem_eraseDups]

/-- The report leaves out just the nodes that have a suffix map. -/
theorem Delivers.mem_failed_iff {nodes : List NodeId} {sink : Sink}
    {result : Sink × Except Fault Report} {report : Report}
    (h : Delivers g m length nodes sink result report) {v : NodeId} :
    v ∈ report.failed ↔ v ∈ nodes ∧ (suffixesFrom g m v length).isOk = false := by
  rw [h.failed.mem_iff, List.mem_filter, List.mem_eraseDups]
  simp

/-! ## §3. Call after call. -/

/-- **The text after all calls**: a record of each node that some call was for and that has one,
whatever the order. -/
theorem Session.text {sink last : Sink} {calls : List (List NodeId × Except Fault Report)}
    (h : Session g m length sink calls last) :
    sink.Accepting → ∃ order : List NodeId,
      last.written = sink.written ++ String.join (order.filterMap (recordOf? g m length))
        ∧ ∀ v, v ∈ order ↔ ∃ call ∈ calls, v ∈ call.1 := by
  induction h with
  | done =>
      intro _
      exact ⟨[], String.append_empty.symm, fun v => by simp⟩
  | @call sink sink' last nodes workers answer calls hbuilds hrest ih =>
      intro hsink
      obtain ⟨report, hdelivers⟩ := hbuilds.exists_delivers hsink
      obtain ⟨first, hfirst, htext⟩ := hdelivers.text
      obtain ⟨rest, hlast, hmem⟩ := ih hdelivers.accepting
      refine ⟨first ++ rest, ?_, fun v => ?_⟩
      · rw [hlast, htext, List.filterMap_append, String.join_append, String.append_assoc]
      · rw [List.mem_append, hfirst.mem_iff, List.mem_eraseDups, hmem]
        simp

/-- Every call answers with a report, which leaves out the nodes that have a suffix map. -/
theorem Session.exists_report {sink last : Sink} {calls : List (List NodeId × Except Fault Report)}
    (h : Session g m length sink calls last) :
    sink.Accepting → ∀ call ∈ calls, ∃ report, call.2 = .ok report
      ∧ ∀ v, v ∈ report.failed ↔ v ∈ call.1 ∧ (suffixesFrom g m v length).isOk = false := by
  induction h with
  | done =>
      intro _ call hcall
      cases hcall
  | @call sink sink' last nodes workers answer calls hbuilds hrest ih =>
      intro hsink call hcall
      obtain ⟨report, hdelivers⟩ := hbuilds.exists_delivers hsink
      rcases List.mem_cons.1 hcall with rfl | hcall
      · exact ⟨report, hdelivers.answer, fun v => hdelivers.mem_failed_iff⟩
      · exact ih hdelivers.accepting call hcall

/-- **Nothing is lost and nothing is added**: after any calls that write to one new sink, each
with any nodes and any number of workers, the text is read as an index.  It has an entry
for just the nodes that some call has indexed, and the entry is the node's suffix map. -/
theorem exists_ofText_session {sink last : Sink} {calls : List (List NodeId × Except Fault Report)}
    (hsink : sink.Accepting) (hempty : sink.written = "") (h : Session g m length sink calls last) :
    (∀ call ∈ calls, ∃ report, call.2 = .ok report)
      ∧ ∃ index, ofText m last.written = .ok index
        ∧ (∀ v, index.contains v = true ↔
          ∃ nodes report, (nodes, .ok report) ∈ calls ∧ v ∈ nodes ∧ v ∉ report.failed)
        ∧ ∀ v map, index.get? v = some map → suffixesFrom g m v length = .ok map := by
  obtain ⟨order, htext, horder⟩ := h.text hsink
  obtain ⟨index, hread, hindex⟩ := exists_ofText_records (g := g) (m := m) order
  have hreports := h.exists_report hsink
  refine ⟨fun call hcall => ?_, index, ?_, fun v => ?_, fun v map hmap => ((hindex v map).1 hmap).2⟩
  · obtain ⟨report, hreport, -⟩ := hreports call hcall
    exact ⟨report, hreport⟩
  · rw [htext, hempty, String.empty_append]
    exact hread
  · rw [contains_iff]
    constructor
    · intro hentry
      obtain ⟨map, hmap⟩ := hentry
      obtain ⟨hv, hmap⟩ := (hindex v map).1 hmap
      obtain ⟨⟨nodes, answer⟩, hcall, hv⟩ := (horder v).1 hv
      obtain ⟨report, rfl, hfailed⟩ := hreports _ hcall
      refine ⟨nodes, report, hcall, hv, fun hv' => ?_⟩
      -- a node with a suffix map was not left out
      have hno := ((hfailed v).1 hv').2
      rw [hmap] at hno
      cases hno
    · intro hindexed
      obtain ⟨nodes, report, hcall, hv, hnot⟩ := hindexed
      obtain ⟨report', hanswer, hfailed⟩ := hreports _ hcall
      injection hanswer with hanswer
      rw [hanswer] at hnot
      cases hmap : suffixesFrom g m v length with
      | ok map => exact ⟨map, (hindex v map).2 ⟨(horder v).2 ⟨_, hcall, hv⟩, hmap⟩⟩
      | error halt =>
          exact absurd ((hfailed v).2 ⟨hv, by rw [hmap]; rfl⟩) hnot

/-- Two calls for nodes of `twins`: node 2 is indexed by both, node 9 is not in the graph. -/
theorem exists_ofText_session_twins :
    ∃ calls last, Session twins.view twinLabels ⟨2, by decide, by decide⟩ .unlimited calls last
      ∧ calls.map Prod.fst = [[2, 9], [1, 2, 2]]
      ∧ ∃ index, ofText twinLabels last.written = .ok index
        ∧ index.contains 1 = true ∧ index.contains 2 = true := by
  obtain ⟨⟨sink, answer⟩, hfirst⟩ :=
    exists_builds twins.view twinLabels ⟨2, by decide, by decide⟩ [2, 9] 1 .unlimited
  obtain ⟨⟨last, answer'⟩, hsecond⟩ :=
    exists_builds twins.view twinLabels ⟨2, by decide, by decide⟩ [1, 2, 2] 3 sink
  have hsession := Session.call hfirst (.call hsecond .done)
  obtain ⟨report, hdelivers⟩ := hfirst.exists_delivers Sink.unlimited_accepting
  obtain ⟨report', hdelivers'⟩ := hsecond.exists_delivers hdelivers.accepting
  have hanswer : answer' = .ok report' := hdelivers'.answer
  obtain ⟨-, index, hread, hcontains, -⟩ :=
    exists_ofText_session Sink.unlimited_accepting rfl hsession
  -- both nodes are in the second call and have suffix maps
  have hentry : ∀ v ∈ ([1, 2, 2] : List NodeId), (suffixesFrom twins.view twinLabels v
      ⟨2, by decide, by decide⟩).isOk = true → index.contains v = true := by
    intro v hv hmap
    refine (hcontains v).2 ⟨[1, 2, 2], report', by simp [hanswer], hv, fun hfailed => ?_⟩
    rw [(hdelivers'.mem_failed_iff.1 hfailed).2] at hmap
    cases hmap
  exact ⟨_, last, hsession, rfl, index, hread, hentry 1 (by decide) (by decide +kernel),
    hentry 2 (by decide) (by decide +kernel)⟩

end LabelWalks.HubIndex
