/-
  LabelWalks.Proofs.Census.Line
  ─────────────────────────────
  **THE LINES OF A CENSUS.**

  A census is written when it is complete: a line for each path, with raw labels, a
  colon and the count.  No label holds a colon, so a line tells its path and its
  count, and the lines are as many and as different as the paths.  Whether a sink
  takes them all depends on their lengths together and not on their order.

    • `CountLine`, `biUnique_countLine` — one line,
    • `writeCensus_eq_ok_iff` — what it takes to write a census,
    • `adds_of_writeCensus` — what is written.
-/
import LabelWalks.Proofs.Census.Completion
import LabelWalks.Proofs.Search.Room

namespace LabelWalks

open Text

variable {g : GraphView} {m : Mapping} {length : PathLength} {sink : Sink} {table : Census}

/-! ## §1. One line. -/

/-- The line of a path with its count, its line break left out. -/
def CountLine (m : Mapping) (row : PathCount) (line : String) : Prop :=
  ∃ text, row.1.render m = .ok text ∧ line = text ++ ":" ++ toString row.2

theorem line_eq_ok_iff {row : PathCount} {text : String} :
    PathCount.line m row = .ok text ↔ ∃ line, CountLine m row line ∧ text = line ++ "\n" := by
  unfold PathCount.line CountLine
  rw [map_eq_ok_iff]
  constructor
  · intro h
    obtain ⟨path, hpath, rfl⟩ := h
    exact ⟨_, ⟨path, hpath, rfl⟩, rfl⟩
  · intro h
    obtain ⟨_, ⟨path, hpath, rfl⟩, rfl⟩ := h
    exact ⟨path, hpath, rfl⟩

/-- The first colon of a line is the one behind the path. -/
theorem cut?_of_countLine {row : PathCount} {text : String} (h : row.1.render m = .ok text) :
    cut? ':' (text ++ ":" ++ toString row.2).toList
      = some (text.toList, (toString row.2).toList) := by
  have hcolon : ':' ∉ text.toList := fun hmem => (plain_of_render h hmem).ne (.inr (.inl rfl)) rfl
  rw [String.toList_append, String.toList_append, List.append_assoc]
  exact cut?_append_cons hcolon _

/-- **A path with its count has one line**, and a line tells both. -/
theorem biUnique_countLine (m : Mapping) : Relator.BiUnique (CountLine m) := by
  constructor
  · intro row row' line h h'
    obtain ⟨text, htext, rfl⟩ := h
    obtain ⟨text', htext', hsame⟩ := h'
    have hcut := cut?_of_countLine htext
    -- cut at its first colon, the one line gives both paths and both counts
    rw [hsame, cut?_of_countLine htext'] at hcut
    obtain ⟨hpath, hcount⟩ := Prod.mk.inj (Option.some.inj hcut)
    rw [String.toList_inj.1 hpath] at htext'
    have hread := numeral?_toString row.2
    rw [← hcount, numeral?_toString] at hread
    exact Prod.ext (MetaPath.eq_of_render_eq htext htext') (Option.some.inj hread).symm
  · intro row line line' h h'
    obtain ⟨text, htext, rfl⟩ := h
    obtain ⟨text', htext', rfl⟩ := h'
    rw [htext] at htext'
    rw [Except.ok.inj htext']

theorem newline_not_mem_of_countLine {row : PathCount} {line : String} (h : CountLine m row line) :
    '\n' ∉ line.toList := by
  obtain ⟨text, htext, rfl⟩ := h
  rw [String.toList_append, String.toList_append, List.mem_append, List.mem_append]
  intro hmem
  rcases hmem with (hmem | hmem) | hmem
  · exact newline_not_mem_of_render htext hmem
  · exact absurd hmem (by decide)
  · exact not_mem_toString (by decide) hmem

/-! ## §2. All lines. -/

/-- The lines of a census are those of its paths in order. -/
theorem exists_countLines {texts : List String} (h : Census.lines m table = .ok texts) :
    ∃ lines, List.Forall₂ (CountLine m) table.toList lines
      ∧ texts = lines.map fun line => line ++ "\n" := by
  unfold Census.lines at h
  rw [mapM_eq_ok_iff_forall₂] at h
  simp only [line_eq_ok_iff] at h
  generalize table.toList = rows at h
  induction h with
  | nil => exact ⟨[], .nil, rfl⟩
  | cons hrow _ ih =>
      obtain ⟨line, hline, rfl⟩ := hrow
      obtain ⟨lines, hlines, rfl⟩ := ih
      exact ⟨line :: lines, .cons hline hlines, rfl⟩

/-- **A census is written** when it can be taken, its lines are taken by the sink, and the sink
can be flushed. -/
theorem writeCensus_eq_ok_iff :
    (writeCensus g m length sink).2 = .ok table ↔ census g m length = .ok table
      ∧ ∃ texts, Census.lines m table = .ok texts ∧ (sink.writeAll texts).2 = none
        ∧ sink.flush.2 = none := by
  constructor
  · intro h
    have hcensus := writeCensus_eq_ok h
    obtain ⟨texts, htexts⟩ := exists_lines_of_census hcensus
    refine ⟨hcensus, texts, htexts, ?_⟩
    -- a flush is answered as before the writes
    unfold writeCensus at h
    simp only [bind, Except.bind, hcensus, htexts, pure, Except.pure] at h
    rw [← Sink.flush_writeAll_eq texts]
    rcases hwrite : sink.writeAll texts with ⟨sink', refusal⟩
    rw [hwrite] at h
    cases refusal with
    | some problem => cases h
    | none =>
        rcases hflush : sink'.flush with ⟨sink'', refusal⟩
        simp only [hflush] at h
        cases refusal with
        | some problem => cases h
        | none => exact ⟨rfl, rfl⟩
  · intro h
    obtain ⟨hcensus, texts, htexts, hwrite, hflush⟩ := h
    rw [← Sink.flush_writeAll_eq texts] at hflush
    unfold writeCensus
    simp only [bind, Except.bind, hcensus, htexts, pure, Except.pure]
    rcases hall : sink.writeAll texts with ⟨sink', refusal⟩
    rw [hall] at hwrite hflush
    obtain rfl : refusal = none := hwrite
    rcases hlast : sink'.flush with ⟨sink'', refusal⟩
    rw [hlast] at hflush
    obtain rfl : refusal = none := hflush
    simp only [hlast]

/-- **What is written** when a census succeeds, into whatever sink: a line for each path. -/
theorem adds_of_writeCensus (h : (writeCensus g m length sink).2 = .ok table) :
    Adds sink (writeCensus g m length sink).1
      fun line => ∃ row ∈ table.toList, CountLine m row line := by
  obtain ⟨hcensus, texts, htexts, hwrite, -⟩ := writeCensus_eq_ok_iff.1 h
  have hlast : (writeCensus g m length sink).1.written = (sink.writeAll texts).1.written := by
    unfold writeCensus
    simp only [bind, Except.bind, hcensus, htexts, pure, Except.pure]
    rcases hall : sink.writeAll texts with ⟨sink', refusal⟩
    rw [hall] at hwrite
    obtain rfl : refusal = none := hwrite
    rcases hflush : sink'.flush with ⟨sink'', refusal⟩
    have hwritten : sink''.written = sink'.written := Sink.written_of_flush hflush
    simp only [hflush]
    cases refusal <;> exact hwritten
  obtain ⟨lines, hlines, rfl⟩ := exists_countLines htexts
  exact adds_of_forall₂ (biUnique_countLine m) (fun _ _ => newline_not_mem_of_countLine) hlines
    (nodup_toList table) (hlast.trans (Sink.written_of_writeAll hwrite))

end LabelWalks
