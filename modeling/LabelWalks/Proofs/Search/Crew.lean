/-
  LabelWalks.Proofs.Search.Crew
  ─────────────────────────────
  **A SEARCH WRITES EACH PATH ONCE, UNDER EVERY SCHEDULE.**

  The workers of a search take turns in any order, and which of them finds a path
  first depends on it.  What is written does not: at any time it is the found
  paths, each on one line, in the order in which they were found.  A worker comes
  to the verdict on its trail under every schedule, so the answer is the same.

    • `Sought`, `searchCrew_keeps` — what is found and what is yet to come,
    • `closing_eq_search` — the end of a run is the answer of `search`,
    • `Searches.answer_and_adds` — the answer of every schedule, and its lines,
    • `search_writes_each_path_once` — all of this.
-/
import LabelWalks.Proofs.Pool.Progress
import LabelWalks.Proofs.Search.Findings
import LabelWalks.Proofs.Search.Journal

namespace LabelWalks

variable {g : GraphView} {m : Mapping} {index : HubIndex} {length : PathLength}
  {wanted : NodeSet} {groups : Std.ExtTreeMap LabelIndex NodeSet} {sink : Sink}

/-! ## §1. What is found and what is yet to come. -/

/-- What the workers have found of the given jobs, and how far each of them is. -/
structure Sought (m : Mapping) (jobs : List (LabelIndex × Trail MetaPath)) (f : Findings)
    (busy : Multiset (LabelIndex × Trail MetaPath))
    (ended : Multiset (LabelIndex × Option Halt)) : Prop where
  sound : f.Sound m
  found : ∀ path ∈ f.seen, ∃ job ∈ jobs, path ∈ job.2.items
  /-- A worker will come to the verdict on its whole trail; what it has behind it is found. -/
  rest : ∀ task ∈ busy, ∃ job, (task.1, job) ∈ jobs ∧ task.2.verdict m = job.verdict m
    ∧ (∀ path ∈ task.2.items, path ∈ job.items)
    ∧ ∀ path ∈ job.items, path ∈ f.seen ∨ path ∈ task.2.items
  results : ∀ result ∈ ended, ∃ job, (result.1, job) ∈ jobs ∧ result.2 = job.verdict m
    ∧ (result.2 = none → ∀ path ∈ job.items, path ∈ f.seen)

variable {jobs : List (LabelIndex × Trail MetaPath)}

/-- What is found stays found. -/
theorem Sought.results_of_subset {f f' : Findings}
    {busy : Multiset (LabelIndex × Trail MetaPath)} {ended : Multiset (LabelIndex × Option Halt)}
    (h : Sought m jobs f busy ended) (hmore : ∀ path ∈ f.seen, path ∈ f'.seen) :
    ∀ result ∈ ended, ∃ job, (result.1, job) ∈ jobs ∧ result.2 = job.verdict m
      ∧ (result.2 = none → ∀ path ∈ job.items, path ∈ f'.seen) := by
  intro result hresult
  obtain ⟨job, hjob, hverdict, hall⟩ := h.results result hresult
  exact ⟨job, hjob, hverdict, fun hnone path hpath => hmore path (hall hnone path hpath)⟩

/-- **Each turn of a worker** keeps what is found, and the verdict on what is to come. -/
theorem searchCrew_keeps : (searchCrew m).Keeps jobs (Sought m jobs) where
  starts := by
    intro f busy ended label trail h hjob _ _
    refine ⟨h.sound, h.found, Multiset.forall_mem_cons.2 ⟨?_, h.rest⟩, h.results⟩
    exact ⟨trail, hjob, rfl, fun _ hpath => hpath, fun _ hpath => .inr hpath⟩
  works := by
    intro f f' busy ended label trail trail' h hturn
    obtain ⟨⟨job, hjob, hverdict, hpart, hcovered⟩, hothers⟩ := Multiset.forall_mem_cons.1 h.rest
    cases turn_of_searchCrew hturn with
    | @enters path paths halt hnote =>
        obtain ⟨hsound, hfault, hmem⟩ := h.sound.note path
        rw [hnote] at hfault
        have hmore : ∀ q ∈ f.seen, q ∈ (f.note m path).1.seen := fun q hq => (hmem q).2 (.inl hq)
        refine ⟨hsound, fun q hq => ?_, Multiset.forall_mem_cons.2 ⟨?_, fun task htask => ?_⟩,
          h.results_of_subset hmore⟩
        · rcases (hmem q).1 hq with hq | ⟨rfl, -⟩
          · exact h.found q hq
          · exact ⟨_, hjob, hpart q List.mem_cons_self⟩
        · refine ⟨job, hjob, ?_, fun q hq => hpart q (List.mem_cons_of_mem _ hq), fun q hq => ?_⟩
          · rw [← hverdict]
            exact (Trail.verdict_cons hfault.symm).symm
          · -- the path goes from what is to come to what is found
            rcases hcovered q hq with hseen | hrest
            · exact .inl (hmore q hseen)
            · rcases List.mem_cons.1 hrest with rfl | hrest
              · exact .inl ((hmem q).2 (.inr ⟨rfl, hfault.symm⟩))
              · exact .inr hrest
        · obtain ⟨other, hother, hsame, hsub, hcov⟩ := hothers task htask
          refine ⟨other, hother, hsame, hsub, fun q hq => ?_⟩
          rcases hcov q hq with hseen | hrest
          · exact .inl (hmore q hseen)
          · exact .inr hrest
  ends := by
    intro f f' busy ended label trail outcome h hturn
    obtain ⟨⟨job, hjob, hverdict, hpart, hcovered⟩, hothers⟩ := Multiset.forall_mem_cons.1 h.rest
    cases turn_of_searchCrew hturn with
    | @fails path paths halt fault hnote =>
        obtain ⟨hsound, hfault, hmem⟩ := h.sound.note path
        rw [hnote] at hfault
        -- a path without a line is not found, so nothing has changed
        have hsame : ∀ q, q ∈ (f.note m path).1.seen ↔ q ∈ f.seen := by
          intro q
          rw [hmem, ← hfault]
          simp
        refine ⟨hsound, fun q hq => h.found q ((hsame q).1 hq), fun task htask => ?_,
          Multiset.forall_mem_cons.2 ⟨⟨job, hjob, ?_, fun hnone => nomatch hnone⟩,
            h.results_of_subset fun q hq => (hsame q).2 hq⟩⟩
        · obtain ⟨other, hother, hsame', hsub, hcov⟩ := hothers task htask
          exact ⟨other, hother, hsame', hsub, fun q hq => (hcov q hq).imp_left (hsame q).2⟩
        · rw [← hverdict]
          exact (Trail.verdict_cons_of_fault hfault.symm).symm
    | @ends halt =>
        refine ⟨h.sound, h.found, hothers, Multiset.forall_mem_cons.2 ⟨⟨job, hjob, ?_,
          fun _ q hq => ?_⟩, h.results⟩⟩
        · rw [← hverdict]
          rfl
        · rcases hcovered q hq with hseen | hrest
          · exact hseen
          · cases hrest

/-- **The workers of a search** never wait, and each has finitely many paths. -/
theorem searchCrew_diligent (hsink : sink.Accepting) (hkeys : (jobs.map Prod.fst).Nodup) :
    (searchCrew m).Diligent jobs ⟨∅, sink⟩ (Sought m jobs) fun _ trail => trail.items.length where
  keys := hkeys
  keeps := searchCrew_keeps
  starts := by
    refine ⟨.start hsink, ?_, ?_, ?_⟩
    · intro path hpath
      exact absurd hpath Std.ExtTreeSet.not_mem_empty
    · intro task htask
      exact absurd htask (Multiset.notMem_zero task)
    · intro result hresult
      exact absurd hresult (Multiset.notMem_zero result)
  lively := by
    intro f busy ended _ hbusy
    obtain ⟨⟨label, ⟨items, halt⟩⟩, hmem⟩ := Multiset.exists_mem_of_ne_zero hbusy
    refine ⟨label, ⟨items, halt⟩, hmem, ?_⟩
    cases items with
    | nil => simp [searchCrew]
    | cons path paths =>
        rcases hnote : f.note m path with ⟨f', fault⟩
        cases fault <;> simp [searchCrew, hnote]
  shrinks := by
    intro f f' label trail trail' hturn
    cases turn_of_searchCrew hturn with
    | @enters path paths halt hnote =>
        show paths.length < paths.length + 1
        omega

/-! ## §2. The end of a run. -/

theorem map_fst_searchWorkers (index : HubIndex) (length : PathLength) (wanted : NodeSet)
    (groups : Std.ExtTreeMap LabelIndex NodeSet) :
    (searchWorkers g m index length wanted groups).map Prod.fst = groups.keys := by
  unfold searchWorkers
  rw [List.map_map, ← Std.ExtTreeMap.map_fst_toList_eq_keys]
  rfl

theorem searchWorkers_diligent (g : GraphView) (index : HubIndex) (length : PathLength)
    (wanted : NodeSet) (groups : Std.ExtTreeMap LabelIndex NodeSet) (hsink : sink.Accepting) :
    (searchCrew m).Diligent (searchWorkers g m index length wanted groups) ⟨∅, sink⟩
      (Sought m (searchWorkers g m index length wanted groups))
      fun _ trail => trail.items.length := by
  refine searchCrew_diligent hsink ?_
  rw [map_fst_searchWorkers]
  exact Std.ExtTreeMap.nodup_keys

section
variable {turns : List (Actor LabelIndex)}
  {p : Pool LabelIndex (Trail MetaPath) Findings (Option Halt)}
  (hp : p = (searchCrew m).run (searchOpening g m index length wanted groups sink) turns)
include hp

/-- What is written in a run is what is found in it. -/
theorem journal_of_run (hsink : sink.Accepting) :
    ∃ lines, Journal m sink p.shared
      (foundInOrder m (searchOpening g m index length wanted groups sink) turns) lines := by
  subst hp
  exact journal_run turns (p := searchOpening g m index length wanted groups sink)
    (.start hsink)

/-- **At the end** each worker has come to its verdict, the verdicts are booked by label,
and without a fault all is found. -/
theorem booked_and_seen_of_over (hsink : sink.Accepting) (hover : p.Over) :
    p.booked = (searchWorkers g m index length wanted groups).map (fun w => (w.1, w.2.verdict m))
      ∧ p.shared.sink.Accepting
      ∧ ((∀ w ∈ searchWorkers g m index length wanted groups, w.2.verdict m = none) →
        ∀ path, path ∈ p.shared.seen ↔
          ∃ w ∈ searchWorkers g m index length wanted groups, path ∈ w.2.items) := by
  have hdiligent := searchWorkers_diligent (m := m) g index length wanted groups hsink
  have hsought : Sought m (searchWorkers g m index length wanted groups) p.shared
      p.account.busy p.account.outcomes := by
    subst hp
    exact keeps_run hdiligent.keeps hdiligent.keys hdiligent.starts turns
  have hbooked : p.booked
      = (searchWorkers g m index length wanted groups).map fun w => (w.1, w.2.verdict m) := by
    refine booked_eq_of_over rfl hdiligent.keys hp hover fun result hresult => ?_
    obtain ⟨job, hjob, hverdict, -⟩ := hsought.results result hresult
    exact ⟨job, hjob, hverdict⟩
  refine ⟨hbooked, hsought.sound.accepting, fun hnone path => ?_⟩
  constructor
  · exact hsought.found path
  · intro h
    obtain ⟨⟨label, trail⟩, hw, hpath⟩ := h
    have hended : (label, trail.verdict m) ∈ p.account.outcomes := by
      rw [(busy_over_of_over hover).2, hbooked]
      exact List.mem_map_of_mem (f := fun w => (w.1, Trail.verdict m w.2)) hw
    obtain ⟨job, hjob, -, hall⟩ := hsought.results _ hended
    have hsame : (label, job) = (label, trail) :=
      List.inj_on_of_nodup_map hdiligent.keys hjob hw rfl
    obtain ⟨-, rfl⟩ := Prod.mk.inj hsame
    exact hall (hnone _ hw) path hpath

/-- **Any run of all workers** gives the answer of the search. -/
theorem closing_eq_search (hsink : sink.Accepting) {starts ends : List NodeId}
    (hstarts : startsByLabel g m starts = .ok groups) (hends : wantedNodes g m ends = .ok wanted)
    (hover : p.Over) :
    (searchClosing p).2 = (search g m index length starts ends sink).2 := by
  obtain ⟨hbooked, haccepting, hseen⟩ := booked_and_seen_of_over hp hsink hover
  obtain ⟨hsound, hfault⟩ := (Findings.Sound.start (m := m) hsink).noteTrails
    (searchWorkers g m index length wanted groups)
  unfold searchClosing search
  rw [hstarts, hends, hbooked, List.findSome?_map]
  simp only [bind, Except.bind, pure, Except.pure]
  rcases hnotes : Findings.noteTrails ⟨∅, sink⟩ m
    (searchWorkers g m index length wanted groups) with ⟨f, fault⟩
  rw [hnotes] at hsound hfault
  have hsame : (searchWorkers g m index length wanted groups).findSome?
      ((fun x => x.2.map (Halt.report (.startLabel x.1))) ∘ fun w => (w.1, w.2.verdict m))
        = fault := hfault.symm
  rw [hsame]
  cases fault with
  | some fault => rfl
  | none =>
      -- nobody halted, so both sets are all that there is to be found
      obtain ⟨-, hmem⟩ := Findings.noteTrails_spec hnotes
      have hnone : ∀ w ∈ searchWorkers g m index length wanted groups, w.2.verdict m = none := by
        intro w hw
        have hno := List.findSome?_eq_none_iff.1 hfault.symm w hw
        exact Option.map_eq_none_iff.1 hno
      have hset : p.shared.seen = f.seen := by
        refine Std.ExtTreeSet.ext_mem fun path => ?_
        rw [hseen hnone, hmem]
        simp
      have hkept : f.sink.Accepting := hsound.accepting
      simp only [haccepting.flush_eq, hkept.flush_eq, hset]

end

/-- A closing adds nothing to what was written, and its set is what was found. -/
theorem searchClosing_spec (p : Pool LabelIndex (Trail MetaPath) Findings (Option Halt)) :
    (searchClosing p).1.written = p.shared.sink.written
      ∧ ∀ found, (searchClosing p).2 = .ok found → found = p.shared.seen := by
  unfold searchClosing
  split
  · refine ⟨rfl, fun found h => ?_⟩
    cases h
  · rcases hflush : p.shared.sink.flush with ⟨sink', refusal⟩
    have hwritten : sink'.written = p.shared.sink.written := Sink.written_of_flush hflush
    cases refusal with
    | some problem =>
        refine ⟨hwritten, fun found h => ?_⟩
        cases h
    | none =>
        refine ⟨hwritten, fun found h => ?_⟩
        injection h with h
        exact h.symm

/-! ## §3. All schedules. -/

theorem searches_of_over {starts ends : List NodeId}
    (hstarts : startsByLabel g m starts = .ok groups) (hends : wantedNodes g m ends = .ok wanted)
    {turns : List (Actor LabelIndex)}
    (hover : ((searchCrew m).run (searchOpening g m index length wanted groups sink) turns).Over) :
    Searches g m index length starts ends sink (searchClosing
      ((searchCrew m).run (searchOpening g m index length wanted groups sink) turns)) := by
  unfold Searches
  rw [hstarts, hends]
  exact ⟨turns, hover, rfl⟩

/-- Some schedule leads to an answer. -/
theorem exists_searches (g : GraphView) (index : HubIndex) (length : PathLength)
    (hsink : sink.Accepting) (starts ends : List NodeId) :
    ∃ answer, Searches g m index length starts ends sink answer := by
  unfold Searches
  split
  · exact ⟨_, rfl⟩
  · next groups wanted _ =>
      obtain ⟨turns, hover⟩ :=
        (searchWorkers_diligent g index length wanted groups hsink).exists_over groups.size
      exact ⟨_, turns, hover, rfl⟩

/-- An answer comes before any worker starts, and nothing is written then, or it is the
closing of a run. -/
theorem Searches.eq_or {starts ends : List NodeId} {answer : Sink × Except Fault PathSet}
    (h : Searches g m index length starts ends sink answer) :
    (∃ fault, answer = (sink, .error fault)
      ∧ search g m index length starts ends sink = (sink, .error fault))
    ∨ ∃ groups wanted turns, startsByLabel g m starts = .ok groups
      ∧ wantedNodes g m ends = .ok wanted
      ∧ ((searchCrew m).run (searchOpening g m index length wanted groups sink) turns).Over
      ∧ answer = searchClosing
        ((searchCrew m).run (searchOpening g m index length wanted groups sink) turns) := by
  unfold Searches at h
  unfold search
  cases hstarts : startsByLabel g m starts with
  | error fault =>
      rw [hstarts] at h
      exact .inl ⟨fault, h, rfl⟩
  | ok groups =>
      cases hends : wantedNodes g m ends with
      | error fault =>
          rw [hstarts, hends] at h
          exact .inl ⟨fault, h, rfl⟩
      | ok wanted =>
          rw [hstarts, hends] at h
          obtain ⟨turns, hover, hanswer⟩ := h
          exact .inr ⟨groups, wanted, turns, rfl, rfl, hover, hanswer⟩

/-- **Every schedule gives the answer of the search**, and what is written then is a line for
each path. -/
theorem Searches.answer_and_adds (hsink : sink.Accepting) {starts ends : List NodeId}
    {answer : Sink × Except Fault PathSet}
    (h : Searches g m index length starts ends sink answer) :
    answer.2 = (search g m index length starts ends sink).2
      ∧ ∀ found, answer.2 = .ok found →
        Adds sink answer.1 fun line => ∃ path ∈ found, path.render m = .ok line := by
  rcases h.eq_or with ⟨fault, rfl, hsearch⟩ | ⟨groups, wanted, turns, hstarts, hends, hover, rfl⟩
  · rw [hsearch]
    refine ⟨rfl, fun found hfound => ?_⟩
    cases hfound
  · refine ⟨closing_eq_search rfl hsink hstarts hends hover, fun found hfound => ?_⟩
    obtain ⟨lines, hjournal⟩ : ∃ lines, Journal m sink
        ((searchCrew m).run (searchOpening g m index length wanted groups sink) turns).shared
        (foundInOrder m (searchOpening g m index length wanted groups sink) turns) lines :=
      journal_of_run rfl hsink
    obtain ⟨hwritten, hseen⟩ := searchClosing_spec
      ((searchCrew m).run (searchOpening g m index length wanted groups sink) turns)
    rw [hseen found hfound]
    simp only [hjournal.seen]
    exact adds_of_forall₂ (biUnique_render m) (fun _ _ hline => newline_not_mem_of_render hline)
      hjournal.forall₂ hjournal.once (hwritten.trans hjournal.written)

/-- **A search writes each path once, under every schedule.**  The sink takes everything.
Whatever the trails of the workers are and whoever takes the turns, in every reachable state
the text written since the start is the lines of the found paths, in the order in which the set
of these grew; no two lines are the same and none holds a line break.  So it is at the end of
every search, also of one that fails: the lines are whole and distinct, and each is read back as
a path.  All schedules that leave nobody out come to an end, with the answer of `search`; if it
is a set, there are as many lines as paths in it, and what is read back is that set. -/
theorem search_writes_each_path_once (hsink : sink.Accepting) :
    (∀ (jobs : List (LabelIndex × Trail MetaPath)) (n : Nat) turns paths p,
      p = (searchCrew m).run (.start jobs n ⟨∅, sink⟩) turns →
      paths = foundInOrder m (.start jobs n ⟨∅, sink⟩) turns →
      paths.Nodup ∧ (∀ path, path ∈ p.shared.seen ↔ path ∈ paths)
        ∧ ∃ lines : List String, p.shared.sink.written = sink.written ++ textOf lines
          ∧ paths.map (fun path => path.render m) = lines.map .ok
          ∧ lines.Nodup ∧ ∀ line ∈ lines, '\n' ∉ line.toList)
    ∧ (∀ (g : GraphView) index length wanted groups schedule, Fair groups.keys schedule → ∃ k,
      ((searchCrew m).run (searchOpening g m index length wanted groups sink)
        (turnsOf schedule k)).Over)
    ∧ ∀ g index length starts ends answer, Searches g m index length starts ends sink answer →
      answer.2 = (search g m index length starts ends sink).2
        ∧ ∃ (lines : List String) (paths : List MetaPath),
          answer.1.written = sink.written ++ textOf lines
          ∧ lines.Nodup ∧ (∀ line ∈ lines, '\n' ∉ line.toList)
          ∧ lines.map (readPath m) = paths.map some
          ∧ ∀ found, answer.2 = .ok found →
            lines.length = found.size ∧ ∀ path, path ∈ paths ↔ path ∈ found := by
  have hstart : Journal m sink ⟨∅, sink⟩ [] [] := .start hsink
  refine ⟨?_, ?_, ?_⟩
  · intro jobs n turns paths p hp hpaths
    obtain ⟨lines, hjournal⟩ := journal_run turns
      (p := (.start jobs n ⟨∅, sink⟩ : Pool _ _ _ (Option Halt))) hstart
    rw [List.nil_append, List.nil_append, ← hp, ← hpaths] at hjournal
    exact ⟨hjournal.once, hjournal.seen, lines, hjournal.written, hjournal.rendered,
      hjournal.nodup_lines, fun line hline => hjournal.newline_not_mem hline⟩
  · intro g index length wanted groups schedule hfair
    refine (searchWorkers_diligent g index length wanted groups hsink).exists_over_of_fair ?_
    rw [map_fst_searchWorkers]
    exact hfair
  · intro g index length starts ends answer hanswer
    rcases hanswer.eq_or with ⟨fault, rfl, hsearch⟩ |
      ⟨groups, wanted, turns, hstarts, hends, hover, rfl⟩
    · refine ⟨by rw [hsearch], [], [], ?_, List.nodup_nil, by simp, rfl, fun found h => nomatch h⟩
      exact hstart.written
    · refine ⟨closing_eq_search rfl hsink hstarts hends hover, ?_⟩
      have hrun : ∃ lines, Journal m sink
          ((searchCrew m).run (searchOpening g m index length wanted groups sink) turns).shared
          (foundInOrder m (searchOpening g m index length wanted groups sink) turns) lines :=
        journal_of_run rfl hsink
      obtain ⟨lines, hjournal⟩ := hrun
      obtain ⟨hwritten, hfound⟩ := searchClosing_spec
        ((searchCrew m).run (searchOpening g m index length wanted groups sink) turns)
      refine ⟨lines, _, hwritten.trans hjournal.written, hjournal.nodup_lines,
        fun line hline => hjournal.newline_not_mem hline, hjournal.read_lines, fun found h => ?_⟩
      rw [hfound found h]
      exact ⟨hjournal.length_lines, fun path => (hjournal.seen path).symm⟩

/-- Both nodes are start and end, and both edges between them give the same path: four lines
are written. -/
theorem search_writes_each_path_once_twins :
    ∃ answer, Searches twins.view twinLabels .empty ⟨2, by decide, by decide⟩ [1, 2] [1, 2]
        .unlimited answer
      ∧ ∃ lines : List String, answer.1.written = textOf lines ∧ lines.Nodup
        ∧ lines.length = 4 := by
  have hgroups : (startsByLabel twins.view twinLabels [1, 2]).toOption.isSome = true := by
    decide +kernel
  have hwanted : (wantedNodes twins.view twinLabels [1, 2]).toOption.isSome = true := by
    decide +kernel
  obtain ⟨groups, hgroups⟩ := Option.isSome_iff_exists.1 hgroups
  obtain ⟨wanted, hwanted⟩ := Option.isSome_iff_exists.1 hwanted
  have hover : ((searchCrew twinLabels).run (searchOpening twins.view twinLabels .empty
      ⟨2, by decide, by decide⟩ ((wantedNodes twins.view twinLabels [1, 2]).toOption.getD ∅)
      ((startsByLabel twins.view twinLabels [1, 2]).toOption.getD ∅) .unlimited)
      ((List.range 12).flatMap fun _ => [.foreman, .worker 1, .worker 0])).Over := by
    decide +kernel
  have hsize : (search twins.view twinLabels .empty ⟨2, by decide, by decide⟩ [1, 2] [1, 2]
      .unlimited).2.toOption.map (fun found => found.size) = some 4 := by decide +kernel
  rw [hgroups, hwanted] at hover
  have hanswer := searches_of_over (toOption_eq_some_iff.1 hgroups) (toOption_eq_some_iff.1 hwanted)
    hover
  obtain ⟨hsame, lines, paths, hwritten, hnodup, -, -, hfound⟩ :=
    (search_writes_each_path_once Sink.unlimited_accepting).2.2 _ _ _ _ _ _ hanswer
  obtain ⟨found, hok, hfour⟩ := Option.map_eq_some_iff.1 hsize
  have hok := hsame.trans (toOption_eq_some_iff.1 hok)
  refine ⟨_, hanswer, lines, ?_, hnodup, (hfound found hok).1.trans hfour⟩
  rw [hwritten]
  exact String.empty_append

end LabelWalks
