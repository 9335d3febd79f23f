/-
  LabelWalks.Proofs.HubIndex.Crew
  ───────────────────────────────
  **THE INDEX WORKERS DO NOT DISTURB EACH OTHER.**

  Under any schedule the workers come to the sink one by one, so what a call leaves is
  what some sequence of its workers leaves.  Which one it is does not matter for a sink that
  takes everything: there is a whole record of every node that has one and nothing of
  the others, and the report says so.

    • `Turn`, `turn_of_crew` — all that one turn can do,
    • `Logged`, `crew_diligent` — the log of the workers in the order in which they came,
    • `exists_order_of_over` — any run is a run in some order,
    • `writeNodes_of_accepting` — what one order leaves in a sink that takes everything,
    • `crew_isolates_faults` — faults stay with the workers that have them.
-/
import LabelWalks.HubIndex.Crew
import LabelWalks.Proofs.HubIndex.Builder
import LabelWalks.Proofs.Pool.Progress

namespace LabelWalks.HubIndex

variable {g : GraphView} {m : Mapping} {length : PathLength}

/-! ## §1. The report does not depend on the order. -/

theorem ofBooked_concat (xs : List (NodeId × Except Halt Unit)) (x : NodeId × Except Halt Unit) :
    Report.ofBooked (xs ++ [x]) = (Report.ofBooked xs).book x := by
  unfold Report.ofBooked
  rw [List.foldl_append]
  rfl

/-- The report says how many outcomes are good, and of which nodes the others are. -/
theorem ofBooked_eq (booked : List (NodeId × Except Halt Unit)) :
    Report.ofBooked booked = ⟨(booked.filter fun x => x.2.isOk).length,
      (booked.filter fun x => !x.2.isOk).map Prod.fst⟩ := by
  -- from the end, where the last outcome is booked
  induction booked using List.reverseRecOn with
  | nil => rfl
  | append_singleton xs x ih =>
      rw [ofBooked_concat, ih, List.filter_append, List.filter_append]
      obtain ⟨v, outcome⟩ := x
      cases outcome with
      | ok u => simp [Report.book, Except.isOk, Except.toBool]
      | error halt => simp [Report.book, Except.isOk, Except.toBool]

theorem ofBooked_perm {xs ys : List (NodeId × Except Halt Unit)} (h : xs.Perm ys) :
    (Report.ofBooked xs).written = (Report.ofBooked ys).written
      ∧ (Report.ofBooked xs).failed.Perm (Report.ofBooked ys).failed := by
  rw [ofBooked_eq, ofBooked_eq]
  exact ⟨(h.filter _).length_eq, (h.filter _).map _⟩

/-! ## §2. The log of a run. -/

/-- The suffix map that a worker has found. -/
def Errand.map? : Errand → Option SuffixMap
  | .search => none
  | .queue map | .write map => some map

/-- All that a turn of the worker of `v` can do. -/
inductive Turn (g : GraphView) (m : Mapping) (length : PathLength) (v : NodeId) (desk : Desk) :
    Errand → Desk → Errand ⊕ Except Halt Unit → Prop
  | found {map : SuffixMap} (hmap : suffixesFrom g m v length = .ok map) :
      Turn g m length v desk .search desk (.inl (.queue map))
  | halts {halt : Halt} (hmap : suffixesFrom g m v length = .error halt) :
      Turn g m length v desk .search desk (.inr (.error halt))
  | takes {map : SuffixMap} (hfree : desk.holder = none) :
      Turn g m length v desk (.queue map) { desk with holder := some v } (.inl (.write map))
  | writes {map : SuffixMap} :
      Turn g m length v desk (.write map) ⟨(offer m desk.sink v map).1, none⟩
        (.inr (offer m desk.sink v map).2)

theorem turn_of_crew {v : NodeId} {errand : Errand} {desk desk' : Desk}
    {next : Errand ⊕ Except Halt Unit}
    (h : (crew g m length).turn v errand desk = some (desk', next)) :
    Turn g m length v desk errand desk' next := by
  cases errand with
  | search =>
      cases hmap : suffixesFrom g m v length with
      | ok map =>
          obtain ⟨rfl, rfl⟩ : desk = desk' ∧ .inl (.queue map) = next := by
            simpa [crew, hmap] using h
          exact .found hmap
      | error halt =>
          obtain ⟨rfl, rfl⟩ : desk = desk' ∧ .inr (.error halt) = next := by
            simpa [crew, hmap] using h
          exact .halts hmap
  | queue map =>
      cases hholder : desk.holder with
      | some u => simp [crew, hholder] at h
      | none =>
          obtain ⟨rfl, rfl⟩ : { desk with holder := some v } = desk' ∧ .inl (.write map) = next := by
            simpa [crew, hholder] using h
          exact .takes hholder
  | write map =>
      obtain ⟨rfl, rfl⟩ := Prod.mk.inj (Option.some.inj h)
      exact .writes

/-- The state of an index that began with the sink `start`: there is a log of the workers
that are over, in the order in which they came to the sink. -/
structure Logged (g : GraphView) (m : Mapping) (length : PathLength) (start : Sink) (desk : Desk)
    (busy : Multiset (NodeId × Errand)) (ended : Multiset (NodeId × Except Halt Unit)) : Prop where
  log : ∃ log : List (NodeId × Except Halt Unit), (log : Multiset _) = ended
    ∧ writeNodes g m length start (log.map Prod.fst) = (desk.sink, Report.ofBooked log)
  /-- A map that a worker has is that of its node. -/
  found : ∀ task ∈ busy, ∀ map, task.2.map? = some map → suffixesFrom g m task.1 length = .ok map
  /-- Whoever has the sink is about to write. -/
  held : ∀ v, desk.holder = some v → ∃ map, (v, .write map) ∈ busy

/-- Whoever has the sink has it whether or not another worker is searching. -/
theorem held_cons_search_iff {desk : Desk} {busy : Multiset (NodeId × Errand)} {v : NodeId} :
    (∀ u, desk.holder = some u → ∃ map, (u, Errand.write map) ∈ (v, Errand.search) ::ₘ busy) ↔
      ∀ u, desk.holder = some u → ∃ map, (u, Errand.write map) ∈ busy := by
  simp

/-- The log with one worker more. -/
theorem writeNodes_log_concat {start : Sink} {log : List (NodeId × Except Halt Unit)}
    {sink sink' : Sink} {v : NodeId} {outcome : Except Halt Unit}
    (hlog : writeNodes g m length start (log.map Prod.fst) = (sink, Report.ofBooked log))
    (hnode : writeNode g m length sink v = (sink', outcome.isOk)) :
    writeNodes g m length start ((log ++ [(v, outcome)]).map Prod.fst)
      = (sink', Report.ofBooked (log ++ [(v, outcome)])) := by
  rw [List.map_append, ofBooked_concat]
  show writeNodes g m length start (log.map Prod.fst ++ [v]) = _
  rw [writeNodes_concat, hlog, hnode]
  cases outcome with
  | ok u => rfl
  | error halt => rfl

/-- A worker that found no suffix map leaves the sink alone. -/
theorem writeNode_of_halt {v : NodeId} {halt : Halt} (sink : Sink)
    (h : suffixesFrom g m v length = .error halt) :
    writeNode g m length sink v = (sink, false) := by
  apply writeNode_eq_of_none
  unfold recordOf?
  rw [h]

/-- A worker that found its suffix map offers the record. -/
theorem writeNode_of_map {v : NodeId} {map : SuffixMap} (sink : Sink)
    (h : suffixesFrom g m v length = .ok map) :
    writeNode g m length sink v = ((offer m sink v map).1, (offer m sink v map).2.isOk) := by
  cases hrecord : record m v map with
  | error fault =>
      have hoffer : offer m sink v map = (sink, .error (.fault fault)) := by simp [offer, hrecord]
      rw [hoffer]
      apply writeNode_eq_of_none
      unfold recordOf?
      rw [h]
      show (record m v map).toOption = none
      rw [hrecord]
      rfl
  | ok text =>
      rw [writeNode_eq_of_some (recordOf?_eq_some.2 ⟨map, h, hrecord⟩)]
      rcases hwrite : sink.write text with ⟨sink', refusal⟩
      cases refusal with
      | none => simp [offer, hrecord, hwrite, Except.isOk, Except.toBool]
      | some problem => simp [offer, hrecord, hwrite, Except.isOk, Except.toBool]

/-- How many tasks are left to a worker. -/
def Errand.left (_ : NodeId) : Errand → Nat
  | .search => 2
  | .queue _ => 1
  | .write _ => 0

/-- **One worker at a time**: each turn of a worker keeps the log. -/
theorem crew_keeps (start : Sink) (jobs : List (NodeId × Errand))
    (hjobs : ∀ job ∈ jobs, job.2 = .search) :
    (crew g m length).Keeps jobs (Logged g m length start) where
  starts := by
    intro desk busy ended v errand h hmem _ _
    have hsearch : errand = .search := hjobs _ hmem
    subst hsearch
    refine ⟨h.log, ?_, held_cons_search_iff.2 h.held⟩
    refine Multiset.forall_mem_cons.2 ⟨fun map hmap => ?_, h.found⟩
    cases hmap
  works := by
    intro desk desk' busy ended v errand errand' h hturn
    obtain ⟨hmine, hothers⟩ := Multiset.forall_mem_cons.1 h.found
    cases turn_of_crew hturn with
    | @found map hmap =>
        refine ⟨h.log, ?_, fun u hu => ?_⟩
        · refine Multiset.forall_mem_cons.2 ⟨fun map' hmap' => ?_, hothers⟩
          rw [← Option.some.inj hmap']
          exact hmap
        · obtain ⟨map', hmem⟩ := held_cons_search_iff.1 h.held u hu
          exact ⟨map', Multiset.mem_cons_of_mem hmem⟩
    | @takes map hfree =>
        refine ⟨h.log, Multiset.forall_mem_cons.2 ⟨hmine, hothers⟩, fun u hu => ?_⟩
        obtain rfl : v = u := Option.some.inj hu
        exact ⟨map, Multiset.mem_cons_self _ _⟩
  ends := by
    intro desk desk' busy ended v errand outcome h hturn
    obtain ⟨log, rfl, hlog⟩ := h.log
    obtain ⟨hmine, hothers⟩ := Multiset.forall_mem_cons.1 h.found
    have hcons : ((log ++ [(v, outcome)] : List _) : Multiset (NodeId × Except Halt Unit))
        = (v, outcome) ::ₘ log :=
      Multiset.coe_eq_coe.2 (List.perm_append_singleton _ log)
    cases turn_of_crew hturn with
    | halts hmap =>
        refine ⟨⟨_, hcons, ?_⟩, hothers, held_cons_search_iff.1 h.held⟩
        exact writeNodes_log_concat hlog (writeNode_of_halt _ hmap)
    | @writes map =>
        refine ⟨⟨_, hcons, ?_⟩, hothers, fun u hu => ?_⟩
        · exact writeNodes_log_concat hlog (writeNode_of_map _ (hmine map rfl))
        · -- the sink was let go
          cases hu

/-- **The workers never block each other for good**: whoever has the sink can go on. -/
theorem crew_diligent (g : GraphView) (m : Mapping) (length : PathLength) (nodes : List NodeId)
    (start : Sink) :
    (crew g m length).Diligent (nodes.eraseDups.map fun v => (v, .search)) ⟨start, none⟩
      (Logged g m length start) Errand.left where
  keys := by
    rw [List.map_map]
    show (nodes.eraseDups.map id).Nodup
    rw [List.map_id]
    exact nodup_eraseDups nodes
  keeps := by
    refine crew_keeps start _ fun job hjob => ?_
    obtain ⟨v, -, rfl⟩ := List.mem_map.1 hjob
    rfl
  starts := by
    refine ⟨⟨[], rfl, rfl⟩, ?_, ?_⟩
    · intro task htask
      exact absurd htask (Multiset.notMem_zero task)
    · intro v hv
      cases hv
  lively := by
    intro desk busy ended h hbusy
    obtain ⟨⟨v, errand⟩, hv⟩ := Multiset.exists_mem_of_ne_zero hbusy
    cases errand with
    | search =>
        refine ⟨v, .search, hv, ?_⟩
        cases hmap : suffixesFrom g m v length <;> simp [crew, hmap]
    | write map => exact ⟨v, .write map, hv, by simp [crew]⟩
    | queue map =>
        cases hholder : desk.holder with
        | none => exact ⟨v, .queue map, hv, by simp [crew, hholder]⟩
        | some u =>
            -- another worker has the sink, and nothing keeps that one from writing
            obtain ⟨map', hu⟩ := h.held u hholder
            exact ⟨u, .write map', hu, by simp [crew]⟩
  shrinks := by
    intro desk desk' v errand errand' hturn
    cases turn_of_crew hturn with
    | found hmap =>
        show 1 < 2
        omega
    | takes hfree =>
        show 0 < 1
        omega

/-- Every reachable state has its account and its log. -/
theorem staffed_and_logged {nodes : List NodeId} {workers : Nat} {sink : Sink}
    {turns : List (Actor NodeId)} {p : Pool NodeId Errand Desk (Except Halt Unit)}
    (hp : p = (crew g m length).run (opening nodes workers sink) turns) :
    Staffed (nodes.eraseDups.map fun v => (v, Errand.search)) workers p.account
      ∧ Logged g m length sink p.shared p.account.busy p.account.outcomes := by
  have hdiligent := crew_diligent g m length nodes sink
  subst hp
  exact ⟨staffed_run (crew g m length) hdiligent.keys workers ⟨sink, none⟩ turns,
    keeps_run hdiligent.keeps hdiligent.keys hdiligent.starts turns⟩

/-- Every call comes to some end. -/
theorem exists_builds (g : GraphView) (m : Mapping) (length : PathLength) (nodes : List NodeId)
    (workers : Nat) (sink : Sink) : ∃ result, Builds g m length nodes workers sink result := by
  obtain ⟨turns, hover⟩ := (crew_diligent g m length nodes sink).exists_over workers
  exact ⟨_, turns, hover, rfl⟩

/-! ## §3. Any run is a run in some order. -/

/-- **Any run is a run in some order** of the distinct nodes, up to the order of the nodes in
the report. -/
theorem exists_order_of_over {nodes : List NodeId} {workers : Nat} {sink : Sink}
    {turns : List (Actor NodeId)} {p : Pool NodeId Errand Desk (Except Halt Unit)}
    (hp : p = (crew g m length).run (opening nodes workers sink) turns) (hover : p.Over) :
    ∃ order : List NodeId, order.Perm nodes.eraseDups
      ∧ p.shared.sink = (writeNodes g m length sink order).1
      ∧ (Report.ofBooked p.booked).written = (writeNodes g m length sink order).2.written
      ∧ (Report.ofBooked p.booked).failed.Perm (writeNodes g m length sink order).2.failed := by
  obtain ⟨hstaffed, hlogged⟩ := staffed_and_logged hp
  obtain ⟨log, hlog, hwrite⟩ := hlogged.log
  rw [(busy_over_of_over hover).2] at hlog
  have hperm : log.Perm p.booked := Multiset.coe_eq_coe.1 hlog
  refine ⟨log.map Prod.fst, ?_, ?_, ?_, ?_⟩
  · have hkeys := (hperm.map Prod.fst).trans (hstaffed.of_over hover).1
    rw [List.map_map] at hkeys
    rwa [show (nodes.eraseDups.map (Prod.fst ∘ fun v => (v, Errand.search))) = nodes.eraseDups from
      List.map_id _] at hkeys
  · rw [hwrite]
  · rw [hwrite]
    exact (ofBooked_perm hperm.symm).1
  · rw [hwrite]
    exact (ofBooked_perm hperm.symm).2

/-! ## §4. A sink that takes everything. -/

theorem isOk_suffixesFrom_eq (v : NodeId) :
    (suffixesFrom g m v length).isOk = (recordOf? g m length v).isSome := by
  cases hmap : suffixesFrom g m v length with
  | ok map =>
      obtain ⟨text, htext⟩ := exists_recordOf?_iff.2 ⟨map, hmap⟩
      rw [htext]
      rfl
  | error halt =>
      unfold recordOf?
      rw [hmap]
      rfl

/-- **One order**: the records of the nodes that have one, in that order. -/
theorem writeNodes_of_accepting {sink : Sink} (hsink : sink.Accepting) (order : List NodeId) :
    (writeNodes g m length sink order).1.written
        = sink.written ++ String.join (order.filterMap (recordOf? g m length))
      ∧ (writeNodes g m length sink order).2 =
        ⟨(order.filter fun v => (suffixesFrom g m v length).isOk).length,
          order.filter fun v => !(suffixesFrom g m v length).isOk⟩ := by
  induction order using List.reverseRecOn with
  | nil => exact ⟨String.append_empty.symm, rfl⟩
  | append_singleton xs v ih =>
      obtain ⟨htext, hreport⟩ := ih
      rw [writeNodes_concat, List.filterMap_append, List.filter_append, List.filter_append,
        hreport]
      cases hrecord : recordOf? g m length v with
      | none =>
          have hno : (suffixesFrom g m v length).isOk = false := by
            rw [isOk_suffixesFrom_eq, hrecord]
            rfl
          rw [writeNode_eq_of_none hrecord]
          refine ⟨?_, ?_⟩
          · show (writeNodes g m length sink xs).1.written = _
            rw [htext]
            simp [hrecord]
          · simp [hno]
      | some text =>
          have hyes : (suffixesFrom g m v length).isOk = true := by
            rw [isOk_suffixesFrom_eq, hrecord]
            rfl
          have hwrite : (writeNodes g m length sink xs).1.write text
              = ((writeNodes g m length sink xs).1.accept text, none) :=
            (accepting_writeNodes xs hsink).write_eq text
          rw [writeNode_eq_of_some hrecord, hwrite]
          refine ⟨?_, ?_⟩
          · show (writeNodes g m length sink xs).1.written ++ text = _
            rw [htext, String.append_assoc, String.join_append]
            simp [hrecord]
          · simp [hyes]

/-- What a call leaves that has done its work: the report tells the nodes that have a
suffix map from the others, and the sink has a whole record of each of them and no more. -/
structure Delivers (g : GraphView) (m : Mapping) (length : PathLength) (nodes : List NodeId)
    (sink : Sink) (result : Sink × Except Fault Report) (report : Report) : Prop where
  answer : result.2 = .ok report
  written : report.written =
    (nodes.eraseDups.filter fun v => (suffixesFrom g m v length).isOk).length
  failed : report.failed.Perm
    (nodes.eraseDups.filter fun v => !(suffixesFrom g m v length).isOk)
  text : ∃ order : List NodeId, order.Perm nodes.eraseDups
    ∧ result.1.written = sink.written ++ String.join (order.filterMap (recordOf? g m length))
  /-- The sink goes on taking everything. -/
  accepting : result.1.Accepting

/-- **Any run of all workers** delivers. -/
theorem exists_delivers_of_over {nodes : List NodeId} {workers : Nat} {sink : Sink}
    (hsink : sink.Accepting) {turns : List (Actor NodeId)}
    {p : Pool NodeId Errand Desk (Except Halt Unit)}
    (hp : p = (crew g m length).run (opening nodes workers sink) turns) (hover : p.Over) :
    ∃ report, Delivers g m length nodes sink (closing p) report := by
  obtain ⟨order, horder, hlast, hwritten, hfailed⟩ := exists_order_of_over hp hover
  obtain ⟨htext, hreport⟩ := writeNodes_of_accepting (g := g) (m := m)  hsink order
  have haccepting : p.shared.sink.Accepting := by
    rw [hlast]
    exact accepting_writeNodes order hsink
  have hclosing : closing p =
      ({ p.shared.sink with flushes := p.shared.sink.flushes + 1 }, .ok (.ofBooked p.booked)) := by
    unfold closing
    rw [haccepting.flush_eq]
  rw [hreport] at hwritten hfailed
  refine ⟨.ofBooked p.booked, ?_, ?_, ?_, ?_, ?_⟩
  · rw [hclosing]
  · rw [hwritten]
    exact (horder.filter _).length_eq
  · exact hfailed.trans (horder.filter _)
  · refine ⟨order, horder, ?_⟩
    rw [hclosing, ← htext, ← hlast]
  · rw [hclosing]
    exact ⟨haccepting.takes, haccepting.keeps⟩

/-- **Faults stay with the workers that have them.**  Under every schedule, at most as many
workers run as there are permits, the foreman never waits for a permit in vain, and when all is
over the call delivers and no permit is lost; and every schedule that leaves nobody out
for good comes to that end. -/
theorem crew_isolates_faults {sink : Sink} (hsink : sink.Accepting) (nodes : List NodeId)
    (workers : Nat) :
    (∀ turns p, p = (crew g m length).run (opening nodes workers sink) turns →
      (p.crew.filter Worker.running).length ≤ max workers 1
      ∧ (p.Waiting → ∃ w ∈ p.crew, w.running = true
        ∧ (crew g m length).step? p (.worker w.key) ≠ none)
      ∧ (p.Over → p.permits.free = max workers 1
        ∧ ∃ report, Delivers g m length nodes sink (closing p) report))
    ∧ ∀ schedule, Fair nodes schedule →
      ∃ k, ((crew g m length).run (opening nodes workers sink) (turnsOf schedule k)).Over := by
  have hdiligent := crew_diligent g m length nodes sink
  constructor
  · intro turns p hp
    obtain ⟨hstaffed, hlogged⟩ := staffed_and_logged hp
    refine ⟨hstaffed.running_le, ?_, ?_⟩
    · exact hdiligent.exists_running_of_waiting hstaffed hlogged
    · intro hover
      exact ⟨(hstaffed.of_over hover).2.1, exists_delivers_of_over hsink hp hover⟩
  · intro schedule hfair
    apply hdiligent.exists_over_of_fair
    intro a ha
    apply hfair
    rcases ha with hforeman | ⟨v, hv, hworker⟩
    · exact .inl hforeman
    · refine .inr ⟨v, ?_, hworker⟩
      rw [List.map_map] at hv
      simpa using hv

/-- The foreman and the workers of nodes 1 and 9, in turn. -/
def inTurn (k : Nat) : Actor NodeId :=
  if k % 3 = 0 then .foreman else .worker (if k % 3 = 1 then 1 else 9)

/-- Node 9 is not in `twins`.  Its worker fails, and that of node 1, which waited for the one
permit, writes its record. -/
theorem crew_isolates_faults_twins :
    Sink.unlimited.Accepting ∧ ∃ p,
      p = (crew twins.view twinLabels ⟨2, by decide, by decide⟩).run
        (opening [9, 1, 9] 1 .unlimited) (turnsOf inTurn 40)
      ∧ p.Over ∧ p.permits.free = 1
      ∧ ∃ report, Delivers twins.view twinLabels ⟨2, by decide, by decide⟩ [9, 1, 9] .unlimited
        (closing p) report ∧ report.written = 1 ∧ report.failed.Perm [9] := by
  have hover : ((crew twins.view twinLabels ⟨2, by decide, by decide⟩).run
      (opening [9, 1, 9] 1 .unlimited) (turnsOf inTurn 40)).Over := by decide +kernel
  have hruns := (@crew_isolates_faults twins.view twinLabels ⟨2, by decide, by decide⟩ .unlimited
    Sink.unlimited_accepting [9, 1, 9] 1).1 (turnsOf inTurn 40) _ rfl
  obtain ⟨hfree, report, hreport⟩ := hruns.2.2 hover
  refine ⟨Sink.unlimited_accepting, _, rfl, hover, hfree, report, hreport, ?_, ?_⟩
  · rw [hreport.written]
    decide +kernel
  · have hnine : ([9, 1, 9] : List NodeId).eraseDups.filter (fun v =>
        !(suffixesFrom twins.view twinLabels v ⟨2, by decide, by decide⟩).isOk) = [9] := by
      decide +kernel
    rw [← hnine]
    exact hreport.failed

end LabelWalks.HubIndex
