/-
  LabelWalks.Proofs.Census.Output
  ───────────────────────────────
  **WHAT A CENSUS WRITES: ALL, A START OF IT, OR NOTHING.**

  The workers of a census fail for a look-up or a breakdown and never for the sink,
  and each path that they count has a line.  So a census that fails for another
  reason than its sink has not come to writing, and one that came to writing goes on
  until the sink refuses.  What it would write is one text: it tells the table, and
  its lines ascend by tokens, which is by raw labels where those are numbered in order.

    • `census_eq_error_cases` — what the workers fail for,
    • `deliver_census` — lines made one by one are lines made before,
    • `rawLabels_lt`, `readCensus_textOf`, `canonical_of_rows` — the text of a table,
    • `nothingOrPrefix_of_takes` — one census of an engine,
    • `census_writes_nothing_or_prefix` — any number of them.
-/
import LabelWalks.Census.Engine
import LabelWalks.Proofs.Census.Crew
import LabelWalks.Proofs.Census.Line
import LabelWalks.Proofs.Label.History
import LabelWalks.Proofs.Pool.Lockstep

namespace LabelWalks

open Text

variable {g : GraphView} {m : Mapping} {length : PathLength} {sink : Sink} {table : Census}

/-! ## §1. What a census fails for. -/

theorem unregistered_of_indexOfNode {v : NodeId} {fault : Fault}
    (h : m.indexOfNode g v = .error fault) : ∃ what id, fault = .unregistered what id := by
  unfold Mapping.indexOfNode at h
  cases hlabel : g.labelOf v with
  | none =>
      rw [hlabel] at h
      exact ⟨_, _, (Except.error.inj h).symm⟩
  | some label =>
      rw [hlabel] at h
      exact ⟨_, _, (elim_error_eq_error_iff.1 h).2.symm⟩

theorem unregistered_of_over {v : NodeId} {entry : NodeId × Option Label} {fault : Fault}
    (h : Arrival.over g m v entry = .error fault) : ∃ what id, fault = .unregistered what id := by
  unfold Arrival.over at h
  rcases bind_eq_error_iff.1 h with hlabel | ⟨label, -, h⟩
  · exact ⟨_, _, (elim_error_eq_error_iff.1 hlabel).2.symm⟩
  rcases bind_eq_error_iff.1 h with hedge | ⟨edge, -, h⟩
  · exact ⟨_, _, (elim_error_eq_error_iff.1 hedge).2.symm⟩
  rcases bind_eq_error_iff.1 h with hnode | ⟨node, -, hpure⟩
  · exact unregistered_of_indexOfNode hnode
  · cases hpure

/-- A halt that the graph is the cause of. -/
def Halt.FromGraph : Halt → Prop
  | .fault cause => ∃ what id, cause = .unregistered what id
  | .breakdown _ => True

theorem fromGraph_of_arrivals {v : NodeId} {halt : Halt}
    (h : (arrivals g m v).halt = some halt) : halt.FromGraph := by
  unfold arrivals at h
  cases hentries : g.adjacentEdges v with
  | error breakdown =>
      rw [hentries] at h
      obtain rfl := Option.some.inj h
      trivial
  | ok entries =>
      rw [hentries] at h
      obtain ⟨entry, -, hentry⟩ := Trail.exists_of_each_halt h
      cases hover : Arrival.over g m v entry with
      | ok a =>
          rw [hover] at hentry
          cases hentry
      | error fault =>
          rw [hover] at hentry
          obtain rfl := Option.some.inj hentry
          exact unregistered_of_over hover

theorem fromGraph_of_visit {f : Frontier} {halt : Halt}
    (h : (visit g m f).halt = some halt) : halt.FromGraph := by
  have hgrow : f.grow g m = .error halt := by
    unfold visit at h
    cases hgrow : f.grow g m with
    | ok children =>
        rw [hgrow] at h
        cases h
    | error halt' =>
        rw [hgrow] at h
        rw [Option.some.inj h]
  have hhalt : (f.arrivals g m).halt = some halt := by
    unfold Frontier.grow at hgrow
    have hsettled := map_eq_error_iff.1 hgrow
    unfold Trail.settled at hsettled
    cases hhalt : (f.arrivals g m).halt with
    | none =>
        rw [hhalt] at hsettled
        cases hsettled
    | some halt' =>
        rw [hhalt] at hsettled
        rw [Except.error.inj hsettled]
  obtain ⟨row, -, hrow⟩ := Trail.exists_of_each_halt hhalt
  exact fromGraph_of_arrivals hrow

/-- **A worker halts** for its graph and nothing else. -/
theorem fromGraph_of_sweep (k : Nat) : ∀ {level : List Frontier} {halt : Halt},
    (sweep g m k level).halt = some halt → halt.FromGraph := by
  -- on the levels that are left
  induction k with
  | zero =>
      intro level halt h
      cases h
  | succ k ih =>
      intro level halt h
      rw [sweep_succ] at h
      rcases Trail.andThen_halt_eq_some h with hvisits | hrest
      · obtain ⟨f, -, hf⟩ := Trail.exists_of_each_halt ((Trail.map_halt _ _).symm.trans hvisits)
        exact fromGraph_of_visit hf
      · exact ih hrest

/-- **A census fails** for a look-up that found nothing or a worker that broke off. -/
theorem census_eq_error_cases {fault : Fault} (h : census g m length = .error fault) :
    (∃ what id, fault = .unregistered what id) ∨ ∃ unit reason, fault = .worker unit reason := by
  cases hgroups : nodesByLabel g m with
  | error fault' =>
      obtain rfl : fault' = fault := by
        unfold census at h
        rw [hgroups] at h
        exact Except.error.inj h
      obtain ⟨v, -, hv⟩ := exists_of_foldlM_eq_error _ hgroups
      exact .inl (unregistered_of_indexOfNode hv)
  | ok groups =>
      rw [census_of_groups hgroups] at h
      cases hfirst : firstFault .nodeLabel (censusWorkers g m length groups) with
      | none =>
          rw [hfirst] at h
          cases h
      | some fault' =>
          rw [hfirst] at h
          obtain rfl := Except.error.inj h
          obtain ⟨w, hw, hreport⟩ := List.exists_of_findSome?_eq_some hfirst
          obtain ⟨halt, hhalt, rfl⟩ := Option.map_eq_some_iff.1 hreport
          obtain ⟨row, -, rfl⟩ := List.mem_map.1 hw
          have hfrom : halt.FromGraph := fromGraph_of_sweep _ hhalt
          cases halt with
          | fault fault => exact .inl hfrom
          | breakdown b => exact .inr ⟨_, _, rfl⟩

/-! ## §2. Lines made one by one. -/

/-- Rows that all have lines are written as these lines are. -/
theorem writeRows_eq {rows : List PathCount} : ∀ {sink : Sink} {texts : List String},
    rows.mapM (PathCount.line m) = .ok texts →
      writeRows m sink rows = ((sink.writeAll texts).1, (sink.writeAll texts).2.map .storage) := by
  induction rows with
  | nil =>
      intro sink texts h
      rw [List.mapM_nil] at h
      obtain rfl := Except.ok.inj h
      rfl
  | cons row rows ih =>
      intro sink texts h
      simp only [List.mapM_cons, bind_eq_ok_iff, pure_eq_ok_iff] at h
      obtain ⟨line, hline, rest, hrest, rfl⟩ := h
      unfold writeRows Sink.writeAll
      rw [hline]
      rcases hwrite : sink.write line with ⟨sink', refusal⟩
      simp only [hwrite]
      cases refusal with
      | some problem => rfl
      | none => exact ih hrest

/-- **The two ways to write** the answer of the workers agree: each path they count has a line. -/
theorem deliver_census (g : GraphView) (m : Mapping) (length : PathLength) (sink : Sink) :
    deliver m sink (census g m length) = writeCensus g m length sink := by
  unfold writeCensus
  cases hcensus : census g m length with
  | error fault => rfl
  | ok table =>
      obtain ⟨texts, htexts⟩ := exists_lines_of_census hcensus
      simp only [bind, Except.bind, htexts, pure, Except.pure, deliver]
      rw [writeRows_eq htexts]
      rcases sink.writeAll texts with ⟨sink', refusal⟩
      cases refusal <;> rfl

/-! ## §3. Labels in order. -/

/-- The two dictionaries of the mapping of a graph number labels in order. -/
theorem Mapping.ordered_of_ofView (h : Mapping.ofView g = .ok m) :
    m.nodes.Ordered ∧ m.edges.Ordered := by
  obtain ⟨-, -, -, rfl⟩ := Mapping.ofView_eq_ok_iff.1 h
  exact ⟨Dictionary.ordered_after (Mapping.pairwise_toList _),
    Dictionary.ordered_after (Mapping.pairwise_toList _)⟩

/-- At one place the greater of two tokens has the greater label. -/
theorem label_lt (hnodes : m.nodes.Ordered) (hedges : m.edges.Ordered) {place : Place}
    {token token' : LabelIndex} {label label' : Label} (h : place.label m token = .ok label)
    (h' : place.label m token' = .ok label') (hlt : token < token') : label < label' := by
  cases place with
  | node =>
      have hindex := elim_error_eq_ok_iff.1 (Mapping.nodeLabel_eq_ok_iff.1 h)
      have hindex' := elim_error_eq_ok_iff.1 (Mapping.nodeLabel_eq_ok_iff.1 h')
      exact (hnodes hindex hindex').2 hlt
  | edge =>
      have hindex := elim_error_eq_ok_iff.1 (Mapping.edgeLabel_eq_ok_iff.1 h)
      have hindex' := elim_error_eq_ok_iff.1 (Mapping.edgeLabel_eq_ok_iff.1 h')
      exact (hedges hindex hindex').2 hlt

/-- **Greater tokens have greater labels**, since the first two that differ stand at one place. -/
theorem rawLabels_lt (hnodes : m.nodes.Ordered) (hedges : m.edges.Ordered)
    {tokens tokens' : List LabelIndex} (hlt : tokens < tokens') :
    ∀ {place : Place} {labels labels' : List Label}, rawLabels m place tokens = .ok labels →
      rawLabels m place tokens' = .ok labels' → labels < labels' := by
  induction hlt with
  | nil =>
      intro place labels labels' h h'
      obtain rfl := Except.ok.inj h
      obtain ⟨label', -, rest', -, rfl⟩ := rawLabels_cons_eq_ok_iff.1 h'
      exact .nil
  | rel hless =>
      intro place labels labels' h h'
      obtain ⟨label, hlabel, rest, -, rfl⟩ := rawLabels_cons_eq_ok_iff.1 h
      obtain ⟨label', hlabel', rest', -, rfl⟩ := rawLabels_cons_eq_ok_iff.1 h'
      exact .rel (label_lt hnodes hedges hlabel hlabel' hless)
  | cons _ ih =>
      intro place labels labels' h h'
      obtain ⟨label, hlabel, rest, hrest, rfl⟩ := rawLabels_cons_eq_ok_iff.1 h
      obtain ⟨label', hlabel', rest', hrest', rfl⟩ := rawLabels_cons_eq_ok_iff.1 h'
      obtain rfl := Except.ok.inj (hlabel.symm.trans hlabel')
      exact .cons (ih hrest hrest')

/-! ## §4. The text of a table. -/

/-- The path and the count that a line writes. -/
def readRow (m : Mapping) (line : List Char) : Option PathCount := do
  let (path, count) ← cut? ':' line
  let p ← readPath m (String.ofList path)
  let n ← numeral? count
  return (p, n)

/-- The table that a text writes. -/
def readCensus (m : Mapping) (text : String) : Option Census := do
  let rows ← (split '\n' text.toList).dropLast.mapM (readRow m)
  return rows.foldl (fun table row => table.insert row.1 row.2) ∅

/-- The raw labels that a line writes. -/
def labelsOfLine (line : String) : Option (List Label) := do
  let (path, _) ← cut? ':' line.toList
  (HubIndex.labels? path).toOption

theorem readRow_of_countLine {row : PathCount} {line : String} (h : CountLine m row line) :
    readRow m line.toList = some row := by
  obtain ⟨text, htext, rfl⟩ := h
  unfold readRow
  rw [cut?_of_countLine htext]
  show (do
    let p ← readPath m (String.ofList text.toList)
    let n ← numeral? (toString row.2).toList
    return (p, n)) = some row
  rw [String.ofList_toList, readPath_of_render htext, numeral?_toString]
  rfl

/-- **The text of a table tells the table.** -/
theorem readCensus_textOf {lines : List String}
    (h : List.Forall₂ (CountLine m) table.toList lines) :
    readCensus m (textOf lines) = some table := by
  have hbreak : ∀ line ∈ lines, '\n' ∉ line.toList := by
    intro line hline
    obtain ⟨row, -, hrow⟩ := exists_mem_of_forall₂ h.flip hline
    exact newline_not_mem_of_countLine hrow
  have hread : List.Forall₂ (fun row line => readRow m line = some row) table.toList
      (lines.map String.toList) := by
    rw [List.forall₂_map_right_iff]
    exact h.imp fun row line hline => readRow_of_countLine hline
  unfold readCensus
  rw [split_textOf hbreak, List.dropLast_concat, mapM_eq_some_of_forall₂ hread]
  refine congrArg some (Std.ExtTreeMap.ext_toList (toList_foldl_insert_perm ?_))
  exact List.pairwise_map.2 (Std.ExtTreeMap.distinct_keys_toList.imp fun hne hsame => hne (by
    rw [hsame]
    exact Std.ReflCmp.compare_self))

theorem exists_labels_of_countLine {row : PathCount} {line : String} (h : CountLine m row line) :
    ∃ labels, labelsOfLine line = some labels ∧ rawLabels m .node row.1.tokens = .ok labels := by
  obtain ⟨text, htext, rfl⟩ := h
  obtain ⟨labels, hlabels, rfl⟩ := MetaPath.render_eq_ok_iff.1 htext
  refine ⟨labels, ?_, hlabels⟩
  unfold labelsOfLine
  rw [cut?_of_countLine htext]
  show (HubIndex.labels? (String.toList _)).toOption = _
  rw [HubIndex.labels?_toList]
  rfl

/-- The lines that a table is written as: one for each path with its count, in ascending order
of the tokens; read again, they are the table, and if the mapping is that of a graph, their
labels ascend as well. -/
structure Canonical (m : Mapping) (table : Census) (lines : List String) : Prop where
  rows : List.Forall₂ (CountLine m) table.toList lines
  ascending : table.toList.Pairwise fun row row' => row.1.tokens < row'.1.tokens
  decoded : readCensus m (textOf lines) = some table
  labelled : ∀ g, Mapping.ofView g = .ok m → lines.Pairwise fun line line' =>
    ∃ labels labels', labelsOfLine line = some labels ∧ labelsOfLine line' = some labels'
      ∧ labels < labels'

theorem canonical_of_rows {lines : List String}
    (h : List.Forall₂ (CountLine m) table.toList lines) : Canonical m table lines := by
  have hascending : table.toList.Pairwise fun row row' => row.1.tokens < row'.1.tokens :=
    Std.ExtTreeMap.ordered_keys_toList.imp fun {row row'} hlt =>
      compare_tokens_eq_lt_iff.1 (show compare row.1.tokens row'.1.tokens = .lt from hlt)
  refine ⟨h, hascending, readCensus_textOf h, fun g hg => ?_⟩
  obtain ⟨hnodes, hedges⟩ := Mapping.ordered_of_ofView hg
  refine pairwise_of_forall₂ h hascending fun row line row' line' hline hline' hlt => ?_
  obtain ⟨labels, hlabels, hraw⟩ := exists_labels_of_countLine hline
  obtain ⟨labels', hlabels', hraw'⟩ := exists_labels_of_countLine hline'
  exact ⟨labels, labels', hlabels, hlabels', rawLabels_lt hnodes hedges hlt hraw hraw'⟩

/-! ## §5. What is written. -/

/-- **When the workers come to their end**, the sink is offered the lines of their table up to
its first refusal, and then asked to keep them. -/
theorem writeCensus_written (sink : Sink) (hcensus : census g m length = .ok table)
    {texts : List String} (htexts : Census.lines m table = .ok texts) :
    (writeCensus g m length sink).1.written = (sink.writeAll texts).1.written
      ∧ ((writeCensus g m length sink).2 = .ok table
        ∨ ∃ problem, (writeCensus g m length sink).2 = .error (.storage problem)) := by
  unfold writeCensus
  simp only [bind, Except.bind, hcensus, htexts, pure, Except.pure]
  rcases sink.writeAll texts with ⟨sink', refusal⟩
  cases refusal with
  | some problem => exact ⟨rfl, .inr ⟨problem, rfl⟩⟩
  | none =>
      rcases hflush : sink'.flush with ⟨sink'', refusal⟩
      have hwritten : sink''.written = sink'.written := Sink.written_of_flush hflush
      simp only [hflush]
      cases refusal with
      | some problem => exact ⟨hwritten, .inr ⟨problem, rfl⟩⟩
      | none => exact ⟨hwritten, .inl rfl⟩

/-- What one census does to the sink of its engine: it leaves it alone when it fails for another
reason than the sink, and otherwise it writes the lines of its table from the first one on, and
all of them just when the sink refuses none. -/
structure NothingOrPrefix (g : GraphView) (m : Mapping) (length : PathLength)
    (call : CensusCall) : Prop where
  nothing : ∀ fault, call.answer = .error fault → (∀ problem, fault ≠ .storage problem) →
    call.after = call.before
  start : (∀ fault, call.answer = .error fault → ∃ problem, fault = .storage problem) →
    ∃ table lines text rest, census g m length = .ok table ∧ Canonical m table lines
      ∧ call.after.written = call.before.written ++ text ∧ text ++ rest = textOf lines
      ∧ (rest = "" ↔ (call.before.writeAll (lines.map fun line => line ++ "\n")).2 = none)
      ∧ (∀ table', call.answer = .ok table' ↔
        table' = table ∧ rest = "" ∧ call.before.flush.2 = none)

theorem nothingOrPrefix_of_takes {workers : Nat} {call : CensusCall} {left : Sink}
    (h : Takes g m length workers sink call left) : NothingOrPrefix g m length call := by
  obtain ⟨before, answer, after⟩ := call
  obtain ⟨rfl, rfl, given, hcounts, hdelivered⟩ := h
  rw [counts_iff.1 hcounts, deliver_census] at hdelivered
  have hafter : after = (writeCensus g m length before).1 := congrArg Prod.fst hdelivered
  have hanswer : answer = (writeCensus g m length before).2 := congrArg Prod.snd hdelivered
  cases hcensus : census g m length with
  | error fault =>
      have hnone : writeCensus g m length before = (before, .error fault) := by
        rw [← deliver_census, hcensus]
        rfl
      rw [hnone] at hafter hanswer
      refine ⟨fun _ _ _ => hafter, fun hsink => ?_⟩
      -- the workers do not fail for a sink
      obtain ⟨problem, hproblem⟩ := hsink fault hanswer
      rcases census_eq_error_cases hcensus with ⟨what, id, hcause⟩ | ⟨unit, reason, hcause⟩
      · cases hproblem.symm.trans hcause
      · cases hproblem.symm.trans hcause
  | ok table =>
      obtain ⟨texts, htexts⟩ := exists_lines_of_census hcensus
      obtain ⟨hwritten, hcases⟩ := writeCensus_written before hcensus htexts
      obtain ⟨lines, hrows, rfl⟩ := exists_countLines htexts
      refine ⟨fun fault hfault hother => ?_, fun _ => ?_⟩
      · rw [← hanswer] at hcases
        rcases hcases with hok | ⟨problem, hproblem⟩
        · cases hok.symm.trans hfault
        · exact absurd (Except.error.inj (hfault.symm.trans hproblem)) (hother problem)
      · obtain ⟨text, rest, hstart, happend, hrest⟩ :=
          Sink.exists_prefix_writeAll (lines.map fun line => line ++ "\n") before
        refine ⟨table, lines, text, rest, hcensus, canonical_of_rows hrows, ?_, happend, hrest,
          fun table' => ?_⟩
        · rw [hafter, hwritten, hstart]
        · rw [hanswer, writeCensus_eq_ok_iff, hrest]
          constructor
          · intro h
            obtain ⟨hsame, texts, htexts', hwrite, hflush⟩ := h
            obtain rfl := Except.ok.inj (hcensus.symm.trans hsame)
            obtain rfl := Except.ok.inj (htexts.symm.trans htexts')
            exact ⟨rfl, hwrite, hflush⟩
          · intro h
            obtain ⟨rfl, hwrite, hflush⟩ := h
            exact ⟨hcensus, _, htexts, hwrite, hflush⟩

/-- An engine can take a census whatever its sink is. -/
theorem takes_writeCensus (g : GraphView) (m : Mapping) (length : PathLength) (workers : Nat)
    (sink : Sink) : Takes g m length workers sink
      ⟨sink, (writeCensus g m length sink).2, (writeCensus g m length sink).1⟩
      (writeCensus g m length sink).1 :=
  ⟨rfl, rfl, census g m length, counts_iff.2 rfl, (deliver_census g m length sink).symm⟩

/-- **A census writes all, a start of it, or nothing**, whatever the graph, the mapping and the
sink are, under every schedule, and whatever the censuses before it on the same engine wrote.  A
census that fails, but not for its sink, leaves the sink as it was.  Any other writes a start of
the canonical text of its table, and the whole of it just when the sink refuses no line; it has
the table for its answer just when the sink keeps the text as well. -/
theorem census_writes_nothing_or_prefix {workers : Nat} {calls : List CensusCall} {last : Sink}
    (h : InTurn (Takes g m length workers) sink calls last) :
    ∀ call ∈ calls, NothingOrPrefix g m length call :=
  h.forall_mem (P := NothingOrPrefix g m length) fun _ _ _ => nothingOrPrefix_of_takes

/-- Of 30 characters the text of `twins` takes 24, so that a second census writes 6 of them. -/
theorem census_writes_nothing_or_prefix_twins :
    ∃ first second last, InTurn (Takes twins.view twinLabels ⟨2, by decide, by decide⟩ 1)
        (.limited 30) [first, second] last
      ∧ first.after.written = "1:1\n1|7|2:2\n2:1\n2|7|1:2\n"
      ∧ second.after.written = first.after.written ++ "1:1\n1|"
      ∧ ∃ table lines rest, Canonical twinLabels table lines ∧ "1:1\n1|" ++ rest = textOf lines := by
  have hturn := InTurn.call
    (takes_writeCensus twins.view twinLabels ⟨2, by decide, by decide⟩ 1 (.limited 30))
    (.call (takes_writeCensus twins.view twinLabels ⟨2, by decide, by decide⟩ 1 _) .done)
  have hfirst : (writeCensus twins.view twinLabels ⟨2, by decide, by decide⟩
      (.limited 30)).1.written = "1:1\n1|7|2:2\n2:1\n2|7|1:2\n" := by decide +kernel
  have hsecond : (writeCensus twins.view twinLabels ⟨2, by decide, by decide⟩
      (writeCensus twins.view twinLabels ⟨2, by decide, by decide⟩ (.limited 30)).1).1.written
        = "1:1\n1|7|2:2\n2:1\n2|7|1:2\n" ++ "1:1\n1|" := by decide +kernel
  obtain ⟨hnothing, hstart⟩ := census_writes_nothing_or_prefix hturn _
    (List.mem_cons_of_mem _ List.mem_cons_self)
  -- the second census fails for its sink: for another reason it would have written nothing
  obtain ⟨table, lines, text, rest, -, hcanonical, hwritten, happend, -⟩ := hstart (by
    intro fault hfault
    by_contra hother
    have hsame := congrArg Sink.written
      (hnothing fault hfault fun problem hproblem => hother ⟨problem, hproblem⟩)
    rw [hfirst, hsecond, String.append_eq_left_iff] at hsame
    exact absurd hsame (by decide))
  rw [hfirst, hsecond, String.append_right_inj] at hwritten
  subst hwritten
  exact ⟨_, _, _, hturn, hfirst, by rw [hfirst]; exact hsecond, table, lines, rest, hcanonical,
    happend⟩

end LabelWalks
