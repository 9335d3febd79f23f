/-
  LabelWalks.Proofs.Search.Line
  ─────────────────────────────
  **A WRITTEN PATH IS READ AS THE SAME PATH.**

  A path is written as raw labels with bars between them.  Both dictionaries are
  bijections and no number holds a bar, so the tokens can be found again: two
  paths never have the same line.  A line holds no line break, so the lines of a
  text are found again as well.

    • `readPath`, `readPath_of_render` — there and back,
    • `eq_of_render_eq`, `biUnique_render` — paths with the same line,
    • `newline_not_mem_of_render`, `split_textOf` — lines in a text,
    • `Adds`, `adds_of_forall₂` — lines that were written.
-/
import LabelWalks.Proofs.HubIndex.Record
import LabelWalks.Sink

namespace LabelWalks

open Text

variable {m : Mapping}

/-! ## §1. Reading a line. -/

/-- The tokens of labels that alternate between nodes and edges. -/
def tokensOfPath (m : Mapping) : List Label → Except Fault (List LabelIndex)
  | [] => .ok []
  | node :: rest => do
    let n ← m.nodeIndex node
    let tokens ← HubIndex.tokensOf m rest
    return n :: tokens

/-- The path that a line writes, if it writes one. -/
def readPath (m : Mapping) (line : String) : Option MetaPath := do
  let labels ← (HubIndex.labels? line.toList).toOption
  let tokens ← (tokensOfPath m labels).toOption
  (MetaPath.ofTokens tokens).toOption

/-- **The labels of a path** have the tokens of the path. -/
theorem tokensOfPath_of_rawLabels {p : MetaPath} {labels : List Label}
    (h : rawLabels m .node p.tokens = .ok labels) : tokensOfPath m labels = .ok p.tokens := by
  obtain ⟨tokens, hodd⟩ := p
  cases tokens with
  | nil => cases hodd
  | cons node rest =>
      obtain ⟨label, hnode, others, hrest, rfl⟩ := rawLabels_cons_eq_ok_iff.1 h
      have heven : rest.length % 2 = 0 := by
        rw [List.length_cons] at hodd
        omega
      have hback : HubIndex.tokensOf m others = .ok rest := tokensOf_of_rawLabels heven hrest
      have hindex : m.nodeIndex label = .ok node := Mapping.nodeLabel_eq_ok_iff.1 hnode
      show (do
        let n ← m.nodeIndex label
        let tokens ← HubIndex.tokensOf m others
        return n :: tokens : Except Fault (List LabelIndex)) = .ok (node :: rest)
      rw [hindex, hback]
      rfl

theorem MetaPath.render_eq_ok_iff {p : MetaPath} {line : String} :
    p.render m = .ok line ↔ ∃ labels, rawLabels m .node p.tokens = .ok labels
      ∧ "|".intercalate (labels.map fun label => toString label.toNat) = line :=
  renderTokens_eq_ok_iff

/-- **Reading back what was rendered.** -/
theorem readPath_of_render {p : MetaPath} {line : String} (h : p.render m = .ok line) :
    readPath m line = some p := by
  obtain ⟨labels, hlabels, rfl⟩ := MetaPath.render_eq_ok_iff.1 h
  unfold readPath
  rw [HubIndex.labels?_toList]
  show (tokensOfPath m labels).toOption.bind (fun tokens => (MetaPath.ofTokens tokens).toOption) = _
  rw [tokensOfPath_of_rawLabels hlabels]
  show (MetaPath.ofTokens p.tokens).toOption = some p
  rw [MetaPath.ofTokens_eq_ok_iff.2 rfl]
  rfl

/-- **Two paths with the same line** are the same path. -/
theorem MetaPath.eq_of_render_eq {p q : MetaPath} {line : String} (hp : p.render m = .ok line)
    (hq : q.render m = .ok line) : p = q := by
  have hread := readPath_of_render hp
  rw [readPath_of_render hq] at hread
  exact (Option.some.inj hread).symm

/-- A path has one line at most, and a line is that of one path at most. -/
theorem biUnique_render (m : Mapping) :
    Relator.BiUnique fun (p : MetaPath) (line : String) => p.render m = .ok line := by
  constructor
  · intro p q line hp hq
    exact MetaPath.eq_of_render_eq hp hq
  · intro p line line' h h'
    exact Except.ok.inj (h.symm.trans h')

/-! ## §2. Lines in a text. -/

theorem plain_of_render {p : MetaPath} {line : String} (h : p.render m = .ok line) {c : Char}
    (hc : c ∈ line.toList) : HubIndex.Plain c := by
  obtain ⟨labels, -, rfl⟩ := MetaPath.render_eq_ok_iff.1 h
  rw [HubIndex.toList_intercalate_words] at hc
  exact HubIndex.plain_of_mem_intercalate (.inl rfl) hc

theorem newline_not_mem_of_render {p : MetaPath} {line : String} (h : p.render m = .ok line) :
    '\n' ∉ line.toList :=
  fun hmem => (plain_of_render h hmem).ne (.inr (.inr rfl)) rfl

/-- Lines, each with a line break behind it. -/
def textOf (lines : List String) : String :=
  String.join (lines.map fun line => line ++ "\n")

theorem textOf_cons (line : String) (lines : List String) :
    textOf (line :: lines) = line ++ "\n" ++ textOf lines := by
  unfold textOf
  rw [List.map_cons, String.join_cons]

theorem textOf_append (lines : List String) (line : String) :
    textOf (lines ++ [line]) = textOf lines ++ (line ++ "\n") := by
  unfold textOf
  rw [List.map_append, String.join_append]
  simp

/-- **The lines of a text** are found again between its line breaks; behind the last one
there is nothing. -/
theorem split_textOf {lines : List String} (h : ∀ line ∈ lines, '\n' ∉ line.toList) :
    split '\n' (textOf lines).toList = lines.map String.toList ++ [[]] := by
  have hpieces : ∀ piece ∈ lines.map String.toList, '\n' ∉ piece := by
    intro piece hpiece
    obtain ⟨line, hline, rfl⟩ := List.mem_map.1 hpiece
    exact h line hline
  have htext : (textOf lines).toList
      = ((lines.map String.toList).flatMap fun piece => piece ++ ['\n']) ++ [] := by
    unfold textOf
    rw [String.toList_join, List.flatMap_map, List.flatMap_map, List.append_nil]
    refine List.flatMap_congr fun line _ => ?_
    rw [String.toList_append]
    rfl
  rw [htext, split_flatMap hpieces]
  rfl

/-! ## §3. Lines that were written. -/

/-- What `last` has more than `sink` is the given lines, each of them once. -/
def Adds (sink last : Sink) (given : String → Prop) : Prop :=
  ∃ lines : List String, last.written = sink.written ++ textOf lines ∧ lines.Nodup
    ∧ (∀ line ∈ lines, '\n' ∉ line.toList) ∧ ∀ line, line ∈ lines ↔ given line

/-- **A line for each member** of a list without duplicates. -/
theorem adds_of_forall₂ {α : Type} {r : α → String → Prop} (hr : Relator.BiUnique r)
    (hbreak : ∀ x line, r x line → '\n' ∉ line.toList) {xs : List α} {lines : List String}
    (h : List.Forall₂ r xs lines) (hnodup : xs.Nodup) {sink last : Sink}
    (hwritten : last.written = sink.written ++ textOf lines) :
    Adds sink last fun line => ∃ x ∈ xs, r x line := by
  have hmem : ∀ line, line ∈ lines ↔ ∃ x ∈ xs, r x line := fun _ => mem_iff_of_forall₂ hr.2 h
  refine ⟨lines, hwritten, (List.rel_nodup hr h).1 hnodup, fun line hline => ?_, hmem⟩
  obtain ⟨x, -, hx⟩ := (hmem line).1 hline
  exact hbreak x line hx

end LabelWalks
