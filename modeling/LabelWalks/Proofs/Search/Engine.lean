/-
  LabelWalks.Proofs.Search.Engine
  ───────────────────────────────
  **AN ENGINE HAS NO MEMORY.**

  Whatever an engine was used for before, and however that ended, its next search
  comes to what it would come to on a new engine.  A search begins with forgetting
  the paths of the one before; and no turn of a worker tells two sinks apart that
  take everything, so under one schedule the two engines find the same paths and
  write the same text.

    • `Matched`, `searchCrew_blind` — the same findings, written to two sinks,
    • `Performs.searches`, `Searches.exists_performs` — a search on an engine is a search
      with its sink,
    • `searches_elsewhere`, `performs_elsewhere` — the same search with another sink,
    • `accepting_of_performs` — what all searches keep,
    • `engine_has_no_memory` — all of this.
-/
import LabelWalks.Proofs.Pool.Lockstep
import LabelWalks.Proofs.Search.Crew
import LabelWalks.Search.Engine

namespace LabelWalks

variable {g : GraphView} {m : Mapping} {index : HubIndex} {length : PathLength}
  {sink sink' : Sink}

/-! ## §1. The same findings in two places. -/

/-- The same paths were found, and the same text was written since the sinks, which take
everything, were `sink` and `sink'`. -/
structure Matched (sink sink' : Sink) (f f' : Findings) : Prop where
  seen : f.seen = f'.seen
  accepting : f.sink.Accepting
  accepting' : f'.sink.Accepting
  text : ∃ text, f.sink.written = sink.written ++ text ∧ f'.sink.written = sink'.written ++ text

theorem Matched.start (hsink : sink.Accepting) (hsink' : sink'.Accepting) :
    Matched sink sink' ⟨∅, sink⟩ ⟨∅, sink'⟩ where
  seen := rfl
  accepting := hsink
  accepting' := hsink'
  text := ⟨"", String.append_empty.symm, String.append_empty.symm⟩

/-- **One entry** goes the same way in both places. -/
theorem Matched.note {f f' : Findings} (h : Matched sink sink' f f') (path : MetaPath) :
    Matched sink sink' (f.note m path).1 (f'.note m path).1
      ∧ (f.note m path).2 = (f'.note m path).2 := by
  obtain ⟨text, htext, htext'⟩ := h.text
  unfold Findings.note
  rw [← h.seen]
  by_cases hseen : f.seen.contains path = true
  · rw [if_pos hseen, if_pos hseen]
    exact ⟨h, rfl⟩
  · rw [if_neg hseen, if_neg hseen]
    cases path.render m with
    | error fault => exact ⟨h, rfl⟩
    | ok line =>
        simp only [h.accepting.write_eq, h.accepting'.write_eq, and_true]
        refine ⟨rfl, h.accepting.accept _, h.accepting'.accept _, text ++ (line ++ "\n"), ?_, ?_⟩
        · show f.sink.written ++ (line ++ "\n") = _
          rw [htext, String.append_assoc]
        · show f'.sink.written ++ (line ++ "\n") = _
          rw [htext', String.append_assoc]

/-- **No worker tells the two places apart.** -/
theorem searchCrew_blind (m : Mapping) (sink sink' : Sink) :
    (searchCrew m).Blind (Matched sink sink') := by
  intro label trail f f' h
  obtain ⟨items, halt⟩ := trail
  cases items with
  | nil => exact .some ⟨h, rfl⟩
  | cons path paths =>
      obtain ⟨hmatched, hfault⟩ := h.note (m := m) path
      simp only [searchCrew]
      rcases hnote : f.note m path with ⟨f₁, fault⟩
      rcases hnote' : f'.note m path with ⟨f₁', fault'⟩
      rw [hnote, hnote'] at hmatched hfault
      obtain rfl : fault = fault' := hfault
      cases fault <;> exact .some ⟨hmatched, rfl⟩

/-! ## §2. One search. -/

theorem searchClosing_eq (p : Pool LabelIndex (Trail MetaPath) Findings (Option Halt)) :
    searchClosing p = ((engineClosing p).1.sink, (engineClosing p).2) := by
  unfold searchClosing engineClosing
  generalize p.booked.findSome? _ = first
  cases first with
  | some fault => rfl
  | none =>
      rcases hflush : p.shared.sink.flush with ⟨sink', refusal⟩
      cases refusal <;> rfl

/-- A search on an engine is a search with the sink of the engine, whatever was found before. -/
theorem Performs.searches {f left : Findings} {call : SearchCall}
    (h : Performs g m index length f call left) :
    Searches g m index length call.starts call.ends f.sink (left.sink, call.answer) := by
  obtain ⟨-, h⟩ := h
  unfold Searches
  generalize (do return (← startsByLabel g m call.starts, ← wantedNodes g m call.ends) :
    Except Fault _) = opened at h ⊢
  cases opened with
  | error fault =>
      obtain ⟨hleft, hanswer⟩ := Prod.mk.inj h
      rw [hleft, hanswer]
      rfl
  | ok groups =>
      obtain ⟨turns, hover, hclosing⟩ := h
      obtain ⟨hleft, hanswer⟩ := Prod.mk.inj hclosing
      refine ⟨turns, hover, ?_⟩
      rw [hleft, hanswer]
      exact (searchClosing_eq _).symm

/-- An engine can perform every search with its sink. -/
theorem Searches.exists_performs {f : Findings} {call : SearchCall} {last : Sink}
    (h : Searches g m index length call.starts call.ends f.sink (last, call.answer))
    (hwritten : last.written = f.sink.written ++ call.text) :
    ∃ left, Performs g m index length f call left := by
  unfold Searches at h
  unfold Performs
  generalize (do return (← startsByLabel g m call.starts, ← wantedNodes g m call.ends) :
    Except Fault _) = opened at h ⊢
  cases opened with
  | error fault =>
      obtain ⟨rfl, hanswer⟩ := Prod.mk.inj h
      exact ⟨f.forget, hwritten, by rw [hanswer]⟩
  | ok groups =>
      obtain ⟨turns, hover, hclosing⟩ := h
      obtain ⟨rfl, hanswer⟩ := Prod.mk.inj (hclosing.trans (searchClosing_eq _))
      exact ⟨_, hwritten, turns, hover, by rw [hanswer]; rfl⟩

/-! ## §3. The same search elsewhere. -/

/-- Pools that differ in the place of their findings close with the same answer. -/
theorem searchClosing_of_alike {p q : Pool LabelIndex (Trail MetaPath) Findings (Option Halt)}
    (h : p.Alike (Matched sink sink') q) : (searchClosing q).2 = (searchClosing p).2 := by
  unfold searchClosing
  rw [h.booked_eq]
  generalize p.booked.findSome? _ = first
  cases first with
  | some fault => rfl
  | none => simp only [h.shared.accepting.flush_eq, h.shared.accepting'.flush_eq, h.shared.seen]

/-- **Another sink that takes everything** leads to the same answer with the same text: the
schedule is the same. -/
theorem searches_elsewhere (hsink : sink.Accepting) (hsink' : sink'.Accepting)
    {starts ends : List NodeId} {last : Sink} {answer : Except Fault PathSet} {text : String}
    (h : Searches g m index length starts ends sink (last, answer))
    (hwritten : last.written = sink.written ++ text) :
    ∃ last', Searches g m index length starts ends sink' (last', answer)
      ∧ last'.written = sink'.written ++ text := by
  unfold Searches at h ⊢
  generalize (do return (← startsByLabel g m starts, ← wantedNodes g m ends) :
    Except Fault _) = opened at h ⊢
  cases opened with
  | error fault =>
      obtain ⟨rfl, hanswer⟩ := Prod.mk.inj h
      obtain rfl : text = "" := String.append_eq_left_iff.1 hwritten.symm
      exact ⟨sink', by rw [hanswer], String.append_empty.symm⟩
  | ok opening =>
      obtain ⟨groups, wanted⟩ := opening
      obtain ⟨turns, hover, hclosing⟩ := h
      have halike := alike_run (searchCrew_blind m sink sink')
        (p := searchOpening g m index length wanted groups sink)
        (q := searchOpening g m index length wanted groups sink') ⟨.start hsink hsink', rfl⟩ turns
      have hanswer := (congrArg Prod.snd hclosing).trans (searchClosing_of_alike halike).symm
      refine ⟨_, ⟨turns, halike.over hover, Prod.ext rfl hanswer⟩, ?_⟩
      generalize (searchCrew m).run (searchOpening g m index length wanted groups sink) turns = p
        at hclosing halike
      have hlast : last = (searchClosing p).1 := congrArg Prod.fst hclosing
      obtain ⟨text', htext, htext'⟩ := halike.shared.text
      rw [hlast, (searchClosing_spec p).1, htext] at hwritten
      rw [(searchClosing_spec _).1, htext', (String.append_right_inj _).1 hwritten]

/-! ## §4. Searches one after another. -/

/-- A search of any schedule writes lines, and leaves a sink that takes everything as one that
takes everything. -/
theorem Searches.accepting_and_lines (hsink : sink.Accepting) {starts ends : List NodeId}
    {last : Sink} {answer : Except Fault PathSet}
    (h : Searches g m index length starts ends sink (last, answer)) :
    last.Accepting ∧ ∃ lines, last.written = sink.written ++ textOf lines := by
  rcases h.eq_or with ⟨fault, hanswer, -⟩ | ⟨groups, wanted, turns, -, -, hover, hanswer⟩
  · obtain ⟨rfl, -⟩ := Prod.mk.inj hanswer
    exact ⟨hsink, [], String.append_empty.symm⟩
  · obtain ⟨lines, hjournal⟩ : ∃ lines, Journal m sink
        ((searchCrew m).run (searchOpening g m index length wanted groups sink) turns).shared
        (foundInOrder m (searchOpening g m index length wanted groups sink) turns) lines :=
      journal_of_run rfl hsink
    generalize (searchCrew m).run (searchOpening g m index length wanted groups sink) turns = p
      at hanswer hjournal
    have hlast : last = (searchClosing p).1 := congrArg Prod.fst hanswer
    have haccepting : (searchClosing p).1.Accepting := by
      unfold searchClosing
      split
      · exact hjournal.accepting
      · rw [hjournal.accepting.flush_eq]
        exact ⟨hjournal.accepting.takes, hjournal.accepting.keeps⟩
    rw [hlast]
    exact ⟨haccepting, lines, (searchClosing_spec p).1.trans hjournal.written⟩

theorem accepting_of_performs {f left : Findings} {call : SearchCall}
    (h : Performs g m index length f call left) (hsink : f.sink.Accepting) :
    left.sink.Accepting :=
  (h.searches.accepting_and_lines hsink).1

/-- **Whatever one engine can perform** another one can, with the same answer and text. -/
theorem performs_elsewhere {f f' left : Findings} (hf : f.sink.Accepting)
    (hf' : f'.sink.Accepting) {call : SearchCall} (h : Performs g m index length f call left) :
    ∃ left', Performs g m index length f' call left' := by
  obtain ⟨last, hsearches, hwritten⟩ := searches_elsewhere hf hf' h.searches h.1
  exact hsearches.exists_performs hwritten

/-- An engine can perform a search between any nodes. -/
theorem exists_performs (g : GraphView) (m : Mapping) (index : HubIndex) (length : PathLength)
    {f : Findings} (hsink : f.sink.Accepting) (starts ends : List NodeId) :
    ∃ call left, call.starts = starts ∧ call.ends = ends ∧ Performs g m index length f call left := by
  obtain ⟨⟨last, answer⟩, hsearches⟩ :=
    exists_searches (m := m) g index length hsink starts ends
  obtain ⟨-, lines, hwritten⟩ := hsearches.accepting_and_lines hsink
  obtain ⟨left, hleft⟩ : ∃ left,
      Performs g m index length f ⟨starts, ends, answer, textOf lines⟩ left :=
    hsearches.exists_performs hwritten
  exact ⟨_, left, rfl, rfl, hleft⟩

/-- **A search on an engine** has the answer of `search`, and if that is a set of paths, its text
is a line for each of them. -/
theorem Performs.answer_and_lines {f left : Findings} (hsink : f.sink.Accepting)
    {call : SearchCall} (h : Performs g m index length f call left) :
    call.answer = (search g m index length call.starts call.ends f.sink).2
      ∧ ∀ found, call.answer = .ok found → ∃ lines, call.text = textOf lines ∧ lines.Nodup
        ∧ ∀ line, line ∈ lines ↔ ∃ path ∈ found, path.render m = .ok line := by
  obtain ⟨hanswer, hadds⟩ := h.searches.answer_and_adds hsink
  refine ⟨hanswer, fun found hfound => ?_⟩
  obtain ⟨lines, hwritten, hnodup, -, hlines⟩ := hadds found hfound
  refine ⟨lines, ?_, hnodup, hlines⟩
  rw [h.1] at hwritten
  exact (String.append_right_inj _).1 hwritten

/-- **A search that is turned away** for a node without a label writes nothing. -/
theorem Performs.rejected {f left : Findings} {call : SearchCall}
    (h : Performs g m index length f call left)
    (hunknown : ¬ (Labelled g m call.starts ∧ Labelled g m call.ends)) :
    call.text = "" ∧ ∃ fault, call.answer = .error fault := by
  rcases h.searches.eq_or with ⟨fault, hanswer, -⟩ | ⟨groups, wanted, turns, hstarts, hends, -⟩
  · obtain ⟨hsink, hfault⟩ := Prod.mk.inj hanswer
    have hwritten := h.1
    rw [hsink] at hwritten
    exact ⟨String.append_eq_left_iff.1 hwritten.symm, fault, hfault⟩
  · exact absurd ⟨exists_startsByLabel_iff.1 ⟨groups, hstarts⟩,
      (wantedNodes_eq_ok_iff.1 hends).1⟩ hunknown

/-- **An engine has no memory.**  Its sink takes everything.  After any searches on it, whether
they succeeded, were turned away or failed in the course of their work, it can perform the
same searches as a new engine that writes to another sink: from the same nodes to the same nodes
with the same answer and the same text.  Between any nodes there is such a search; under
every schedule it has the answer of `search`, and if that is a set of paths, a line is written
for each of them and for nothing else, whatever was written before.  A search with a start node or
an end node that has no label fails and writes nothing. -/
theorem engine_has_no_memory {fresh : Sink} (hsink : sink.Accepting) (hfresh : fresh.Accepting)
    {calls : List SearchCall} {f : Findings}
    (h : InTurn (Performs g m index length) ⟨∅, sink⟩ calls f) :
    (∀ call, (∃ left, Performs g m index length f call left) ↔
        ∃ left, Performs g m index length ⟨∅, fresh⟩ call left)
      ∧ (∀ starts ends, ∃ call left, call.starts = starts ∧ call.ends = ends
        ∧ Performs g m index length f call left)
      ∧ ∀ call left, Performs g m index length f call left →
        call.answer = (search g m index length call.starts call.ends fresh).2
        ∧ (∀ found, call.answer = .ok found → ∃ lines, call.text = textOf lines ∧ lines.Nodup
          ∧ ∀ line, line ∈ lines ↔ ∃ path ∈ found, path.render m = .ok line)
        ∧ (¬ (Labelled g m call.starts ∧ Labelled g m call.ends) →
          call.text = "" ∧ ∃ fault, call.answer = .error fault) := by
  have hf : f.sink.Accepting :=
    h.preserves (I := fun f => f.sink.Accepting) (fun _ _ _ => accepting_of_performs) hsink
  refine ⟨fun call => ⟨?_, ?_⟩, exists_performs g m index length hf, fun call left hcall => ?_⟩
  · intro hcall
    obtain ⟨left, hcall⟩ := hcall
    exact performs_elsewhere hf hfresh hcall
  · intro hcall
    obtain ⟨left, hcall⟩ := hcall
    exact performs_elsewhere hfresh hf hcall
  · obtain ⟨left', hcall'⟩ : ∃ left', Performs g m index length ⟨∅, fresh⟩ call left' :=
      performs_elsewhere hf hfresh hcall
    obtain ⟨hanswer, hlines⟩ := hcall'.answer_and_lines hfresh
    exact ⟨hanswer, hlines, hcall.rejected⟩

/-- The four paths within one hop of the nodes of `twins` are found and written again by an engine
that has written them. -/
theorem engine_has_no_memory_twins :
    ∃ first left, InTurn (Performs twins.view twinLabels .empty ⟨2, by decide, by decide⟩)
        ⟨∅, .unlimited⟩ [first] left
      ∧ first.starts = [1, 2] ∧ first.ends = [1, 2]
      ∧ ∃ call last, call.starts = [1, 2] ∧ call.ends = [1, 2]
        ∧ Performs twins.view twinLabels .empty ⟨2, by decide, by decide⟩ left call last
        ∧ ∃ found lines, call.answer = .ok found ∧ found.size = 4 ∧ call.text = textOf lines
          ∧ ∀ line, line ∈ lines ↔ ∃ path ∈ found, path.render twinLabels = .ok line := by
  obtain ⟨first, left, hstarts, hends, hfirst⟩ := exists_performs twins.view twinLabels .empty
    ⟨2, by decide, by decide⟩ (f := ⟨∅, .unlimited⟩) Sink.unlimited_accepting [1, 2] [1, 2]
  have hturn : InTurn (Performs twins.view twinLabels .empty ⟨2, by decide, by decide⟩)
      ⟨∅, .unlimited⟩ [first] left := .call hfirst .done
  obtain ⟨-, hnext, hsame⟩ :=
    engine_has_no_memory Sink.unlimited_accepting Sink.unlimited_accepting hturn
  obtain ⟨call, last, hstarts', hends', hcall⟩ := hnext [1, 2] [1, 2]
  obtain ⟨hanswer, hlines, -⟩ := hsame call last hcall
  have hsize : (search twins.view twinLabels .empty ⟨2, by decide, by decide⟩ [1, 2] [1, 2]
      .unlimited).2.toOption.map (fun found => found.size) = some 4 := by decide +kernel
  obtain ⟨found, hok, hfour⟩ := Option.map_eq_some_iff.1 hsize
  rw [hstarts', hends', toOption_eq_some_iff.1 hok] at hanswer
  obtain ⟨lines, htext, -, hiff⟩ := hlines found hanswer
  exact ⟨first, left, hturn, hstarts, hends, call, last, hstarts', hends', hcall, found, lines,
    hanswer, hfour, htext, hiff⟩

end LabelWalks
