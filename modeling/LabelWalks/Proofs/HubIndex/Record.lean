/-
  LabelWalks.Proofs.HubIndex.Record
  ─────────────────────────────────
  **A RECORD IS READ AS WHAT WAS WRITTEN.**

  Numbers and separators share no character, so each separator of a record can be
  found again: the colon behind the node, the dashes behind the suffixes, the
  equals sign, the bars and the commas.  A record is one line without a blank.

    • `parsePart_of_part` — one suffix with its ends,
    • `exists_line_of_rows` — a whole line,
    • `exists_line_of_record` — the record of a map,
    • `exists_record` — every map of registered tokens has one.
-/
import LabelWalks.HubIndex.Record
import LabelWalks.Proofs.Rendering
import LabelWalks.Proofs.Text.Numeral
import LabelWalks.Proofs.Text.Split

namespace LabelWalks.HubIndex

open Text

variable {m : Mapping}

/-! ## §1. Numbers between separators. -/

/-- Words that were written with a separator between them are read back. -/
theorem mapM_split_intercalate {ω ε : Type} {sep : Char} {text : ω → String}
    {read : List Char → Except ε ω} {words : List ω} (hne : words ≠ [])
    (hsep : ∀ w ∈ words, sep ∉ (text w).toList)
    (hread : ∀ w ∈ words, read (text w).toList = .ok w) :
    ((split sep ([sep].intercalate (words.map fun w => (text w).toList))).mapM read :
      Except ε (List ω)) = .ok words := by
  have hpieces : words.map (fun w => (text w).toList) ≠ [] := by
    rw [Ne, List.map_eq_nil_iff]
    exact hne
  rw [split_intercalate hpieces, mapM_map_eq_ok words hread]
  intro p hp
  obtain ⟨w, hw, rfl⟩ := List.mem_map.1 hp
  exact hsep w hw

/-- The characters of words with a separator between them. -/
theorem toList_intercalate_words {ω : Type} (sep : String) (text : ω → String) (words : List ω) :
    (sep.intercalate (words.map text)).toList =
      sep.toList.intercalate (words.map fun w => (text w).toList) := by
  rw [String.toList_intercalate, List.map_map]
  rfl

theorem mem_intercalate {sep c : Char} {pieces : List (List Char)}
    (h : c ∈ [sep].intercalate pieces) : c = sep ∨ ∃ p ∈ pieces, c ∈ p := by
  induction pieces with
  | nil => cases h
  | cons p pieces ih =>
      cases pieces with
      | nil =>
          rw [List.intercalate_singleton] at h
          exact .inr ⟨p, List.mem_cons_self, h⟩
      | cons q pieces =>
          rw [List.intercalate_cons_cons, List.mem_append, List.mem_append] at h
          rcases h with (h | h) | h
          · exact .inr ⟨p, List.mem_cons_self, h⟩
          · exact .inl (List.mem_singleton.1 h)
          · rcases ih h with h | ⟨r, hr, hc⟩
            · exact .inl h
            · exact .inr ⟨r, List.mem_cons_of_mem _ hr, hc⟩

/-! ## §2. One suffix. -/

/-- What the part of a suffix is made of, its dash left out. -/
def Plain (c : Char) : Prop :=
  c.isDigit = true ∨ c = '|' ∨ c = '=' ∨ c = ','

theorem Plain.ne {c d : Char} (hc : Plain c) (hd : d = '-' ∨ d = ':' ∨ d = '\n') : c ≠ d := by
  intro h
  subst h
  rcases hc with hc | hc | hc | hc
  · rcases hd with rfl | rfl | rfl <;> exact absurd hc (by decide)
  · rcases hd with rfl | rfl | rfl <;> exact absurd hc (by decide)
  · rcases hd with rfl | rfl | rfl <;> exact absurd hc (by decide)
  · rcases hd with rfl | rfl | rfl <;> exact absurd hc (by decide)

theorem Plain.isBlank {c : Char} (hc : Plain c) : isBlank c = false := by
  rcases hc with hc | rfl | rfl | rfl
  · exact isBlank_of_isDigit hc
  · decide
  · decide
  · decide

/-- Numbers with bars or commas between them are plain. -/
theorem plain_of_mem_intercalate {ω : Type} {sep : Char} (hsep : sep = '|' ∨ sep = ',')
    {number : ω → Nat} {words : List ω} {c : Char}
    (hc : c ∈ [sep].intercalate (words.map fun w => (toString (number w)).toList)) :
    Plain c := by
  rcases mem_intercalate hc with rfl | ⟨p, hp, hc⟩
  · rcases hsep with rfl | rfl
    · exact .inr (.inl rfl)
    · exact .inr (.inr (.inr rfl))
  · obtain ⟨w, -, rfl⟩ := List.mem_map.1 hp
    exact .inl (isDigit_of_mem_toString hc)

theorem labels?_of_rendered (labels : List Label) :
    labels? (['|'].intercalate (labels.map fun l => (toString l.toNat).toList)) = .ok labels := by
  cases labels with
  | nil => rfl
  | cons l labels =>
      have hread : ((split '|' (['|'].intercalate ((l :: labels).map fun l =>
          (toString l.toNat).toList))).mapM fun s =>
            (word32? s).elim (.error (.badLabel (quote s))) .ok :
              Except LineProblem (List Label)) = .ok (l :: labels) := by
        refine mapM_split_intercalate (List.cons_ne_nil _ _) ?_ ?_
        · intro w _
          exact not_mem_toString (by decide)
        · intro w _
          rw [word32?_toString]
          rfl
      have hne : ['|'].intercalate ((l :: labels).map fun l => (toString l.toNat).toList) ≠ [] := by
        have hfirst := toString_ne_nil l.toNat
        cases labels with
        | nil =>
            rw [List.map_singleton, List.intercalate_singleton]
            exact hfirst
        | cons k labels =>
            rw [List.map_cons, List.map_cons, List.intercalate_cons_cons]
            simp
      unfold labels?
      rw [if_neg (by rw [List.isEmpty_iff]; exact hne)]
      exact hread

theorem labels?_toList (labels : List Label) :
    labels? ("|".intercalate (labels.map fun l => toString l.toNat)).toList = .ok labels := by
  rw [toList_intercalate_words]
  exact labels?_of_rendered labels

theorem ends?_of_rendered {ends : List NodeId} (hne : ends ≠ []) :
    ends? ([','].intercalate (ends.map fun v => (toString v.toNat).toList)) = .ok ends := by
  refine mapM_split_intercalate hne ?_ ?_
  · intro w _
    exact not_mem_toString (by decide)
  · intro w _
    rw [word64?_toString]
    rfl

theorem part_eq_ok_iff {row : SuffixEnds} {text : String} :
    part m row = .ok text ↔ ∃ labels, rawLabels m .edge row.1 = .ok labels
      ∧ text = "|".intercalate (labels.map fun label => toString label.toNat) ++ "="
          ++ ",".intercalate (row.2.toList.map fun v => toString v.toNat) ++ "-" := by
  simp only [part, bind_eq_ok_iff, pure_eq_ok_iff, renderTokens_eq_ok_iff]
  constructor
  · intro h
    obtain ⟨_, ⟨labels, hlabels, rfl⟩, rfl⟩ := h
    exact ⟨labels, hlabels, rfl⟩
  · intro h
    obtain ⟨labels, hlabels, rfl⟩ := h
    exact ⟨_, ⟨labels, hlabels, rfl⟩, rfl⟩

theorem ofList_toList (ends : NodeSet) : Std.ExtTreeSet.ofList ends.toList = ends := by
  refine Std.ExtTreeSet.ext_mem fun v => ?_
  rw [Std.ExtTreeSet.mem_ofList, List.contains_iff_mem, Std.ExtTreeSet.mem_toList]

/-- **One suffix**: its part is read as the suffix and its ends. -/
theorem parsePart_of_part {row : SuffixEnds} {text : String} (h : part m row = .ok text)
    (heven : row.1.length % 2 = 0) (hends : ∃ w, w ∈ row.2) :
    ∃ body, text.toList = body ++ ['-'] ∧ body ≠ [] ∧ (∀ c ∈ body, Plain c)
      ∧ ∀ number, parsePart m number body = .ok row := by
  obtain ⟨labels, hlabels, rfl⟩ := part_eq_ok_iff.1 h
  obtain ⟨w, hw⟩ := hends
  have hne : row.2.toList ≠ [] := List.ne_nil_of_mem (Std.ExtTreeSet.mem_toList.2 hw)
  have htokens : tokensOf m labels = .ok row.1 := tokensOf_of_rawLabels heven hlabels
  have hcount : labels.length % 2 = 0 := by
    rw [length_of_rawLabels hlabels]
    exact heven
  have hbars : '=' ∉ ['|'].intercalate (labels.map fun l => (toString l.toNat).toList) := by
    intro hmem
    rcases mem_intercalate hmem with hmem | ⟨p, hp, hmem⟩
    · cases hmem
    · obtain ⟨l, -, rfl⟩ := List.mem_map.1 hp
      exact not_mem_toString (by decide) hmem
  refine ⟨['|'].intercalate (labels.map fun l => (toString l.toNat).toList) ++ '='
    :: [','].intercalate (row.2.toList.map fun v => (toString v.toNat).toList), ?_, ?_, ?_, ?_⟩
  · simp only [String.toList_append, toList_intercalate_words, List.append_assoc]
    rfl
  · simp
  · intro c hc
    rw [List.mem_append, List.mem_cons] at hc
    rcases hc with hc | rfl | hc
    · exact plain_of_mem_intercalate (.inl rfl) hc
    · exact .inr (.inr (.inl rfl))
    · exact plain_of_mem_intercalate (.inr rfl) hc
  · intro number
    unfold parsePart
    rw [cut?_append_cons hbars]
    simp only [Option.elim, labels?_of_rendered, ends?_of_rendered hne, htokens, hcount,
      Except.mapError, bind, Except.bind, pure, Except.pure, ofList_toList]
    rfl

/-! ## §3. The whole record. -/

/-- A map that a record can hold: pairs of tokens only, each suffix with an end. -/
def Writable (map : SuffixMap) : Prop :=
  ∀ (s : Suffix) (ends : NodeSet), map[s]? = some ends → s.length % 2 = 0 ∧ ∃ w, w ∈ ends

/-- The line of rows in any order, which may name a suffix more than once. -/
def lineOf (m : Mapping) (v : NodeId) (rows : List SuffixEnds) : Except Fault String := do
  let parts ← rows.mapM (part m)
  return toString v.toNat ++ ":" ++ String.join parts ++ "\n"

/-- A record is the line of its map, in ascending order. -/
theorem record_eq_lineOf (v : NodeId) (map : SuffixMap) : record m v map = lineOf m v map.toList :=
  rfl

theorem lineOf_eq_ok_iff {v : NodeId} {rows : List SuffixEnds} {text : String} :
    lineOf m v rows = .ok text ↔ ∃ parts, LookedUp (part m) rows parts
      ∧ text = toString v.toNat ++ ":" ++ String.join (parts.map Prod.snd) ++ "\n" := by
  simp only [lineOf, bind_eq_ok_iff, pure_eq_ok_iff, mapM_eq_ok_iff]
  constructor
  · intro h
    obtain ⟨_, ⟨parts, hparts, rfl⟩, rfl⟩ := h
    exact ⟨parts, hparts, rfl⟩
  · intro h
    obtain ⟨parts, hparts, rfl⟩ := h
    exact ⟨_, ⟨parts, hparts, rfl⟩, rfl⟩

/-- A line that is read as a record has a node before its first colon, and parts behind. -/
theorem parseLine_eq_ok_iff {number : Nat} {line : List Char} {v : NodeId}
    {rows : List SuffixEnds} :
    parseLine m number line = .ok (v, rows) ↔
      ∃ nodeText rest, cut? ':' line = some (nodeText, rest) ∧ word64? (trim nodeText) = some v
        ∧ ((split '-' rest).filter fun part => !part.isEmpty).mapM (parsePart m number) =
          .ok rows := by
  unfold parseLine
  simp only [bind_eq_ok_iff, elim_error_eq_ok_iff, pure_eq_ok_iff, Prod.exists, Prod.mk.injEq]
  constructor
  · intro h
    obtain ⟨nodeText, rest, hcut, v', hnode, rows', hrows, rfl, rfl⟩ := h
    exact ⟨nodeText, rest, hcut, hnode, hrows⟩
  · intro h
    obtain ⟨nodeText, rest, hcut, hnode, hrows⟩ := h
    exact ⟨nodeText, rest, hcut, v, hnode, rows, hrows, rfl, rfl⟩

/-- The parts of a record, cut at their dashes, are read as the rows of its map. -/
theorem exists_bodies {rows : List (SuffixEnds × String)}
    (h : ∀ row ∈ rows, part m row.1 = .ok row.2 ∧ row.1.1.length % 2 = 0 ∧ ∃ w, w ∈ row.1.2) :
    ∃ bodies : List (List Char),
      (String.join (rows.map Prod.snd)).toList = bodies.flatMap (fun b => b ++ ['-'])
        ∧ (∀ b ∈ bodies, b ≠ [] ∧ ∀ c ∈ b, Plain c)
        ∧ ∀ number, (bodies.mapM (parsePart m number) : Except Fault (List SuffixEnds)) =
          .ok (rows.map Prod.fst) := by
  induction rows with
  | nil => exact ⟨[], rfl, by simp, fun _ => rfl⟩
  | cons row rows ih =>
      obtain ⟨hpart, heven, hends⟩ := h row List.mem_cons_self
      obtain ⟨body, htext, hne, hplain, hparse⟩ := parsePart_of_part hpart heven hends
      obtain ⟨bodies, hjoin, hbodies, hparses⟩ := ih fun r hr => h r (List.mem_cons_of_mem _ hr)
      refine ⟨body :: bodies, ?_, ?_, fun number => ?_⟩
      · rw [String.toList_join, List.flatMap_map] at hjoin ⊢
        rw [List.flatMap_cons, List.flatMap_cons, ← hjoin, htext]
      · intro b hb
        rcases List.mem_cons.1 hb with rfl | hb
        · exact ⟨hne, hplain⟩
        · exact hbodies b hb
      · rw [List.mapM_cons, hparse, hparses]
        rfl

/-- Parts without a dash are found again between their dashes; what stands behind the last
dash is empty and skipped. -/
theorem filter_split_bodies {bodies : List (List Char)}
    (h : ∀ b ∈ bodies, b ≠ [] ∧ ∀ c ∈ b, Plain c) :
    (split '-' (bodies.flatMap fun b => b ++ ['-'])).filter (fun b => !b.isEmpty) = bodies := by
  have hdash : ∀ b ∈ bodies, '-' ∉ b := by
    intro b hb hmem
    exact ((h b hb).2 _ hmem).ne (.inl rfl) rfl
  have hcut := split_flatMap hdash []
  rw [List.append_nil] at hcut
  rw [hcut, List.filter_append, List.filter_eq_self.2]
  · exact List.append_nil _
  · intro b hb
    simp [(h b hb).1]

/-- A node, a colon and parts stand on one line and without a blank. -/
theorem isBlank_of_mem_line {v : NodeId} {bodies : List (List Char)}
    (h : ∀ b ∈ bodies, b ≠ [] ∧ ∀ c ∈ b, Plain c) {c : Char}
    (hc : c ∈ (toString v.toNat).toList ++ ':' :: bodies.flatMap fun b => b ++ ['-']) :
    isBlank c = false ∧ c ≠ '\n' := by
  rw [List.mem_append, List.mem_cons, List.mem_flatMap] at hc
  rcases hc with hc | rfl | ⟨b, hb, hc⟩
  · have hdigit := isDigit_of_mem_toString hc
    refine ⟨isBlank_of_isDigit hdigit, ?_⟩
    intro h
    subst h
    exact absurd hdigit (by decide)
  · decide
  · rcases List.mem_append.1 hc with hc | hc
    · have hplain := (h b hb).2 c hc
      exact ⟨hplain.isBlank, hplain.ne (.inr (.inr rfl))⟩
    · rw [List.mem_singleton.1 hc]
      decide

/-- **The line of rows** is read as the node and the rows. -/
theorem exists_line_of_rows {v : NodeId} {rows : List SuffixEnds} {text : String}
    (h : lineOf m v rows = .ok text)
    (hrows : ∀ row ∈ rows, row.1.length % 2 = 0 ∧ ∃ w, w ∈ row.2) :
    ∃ line, text.toList = line ++ ['\n'] ∧ (∀ c ∈ line, isBlank c = false ∧ c ≠ '\n')
      ∧ (∃ rest, line = (toString v.toNat).toList ++ ':' :: rest)
      ∧ ∀ number, parseLine m number line = .ok (v, rows) := by
  obtain ⟨parts, hlooked, rfl⟩ := lineOf_eq_ok_iff.1 h
  have hparts : ∀ row ∈ parts,
      part m row.1 = .ok row.2 ∧ row.1.1.length % 2 = 0 ∧ ∃ w, w ∈ row.1.2 := by
    intro row hrow
    obtain ⟨hmem, hpart⟩ := hlooked.mem_iff.1 hrow
    exact ⟨hpart, hrows _ hmem⟩
  obtain ⟨bodies, hjoin, hbodies, hparses⟩ := exists_bodies hparts
  refine ⟨(toString v.toNat).toList ++ ':' :: bodies.flatMap fun b => b ++ ['-'], ?_,
    fun c hc => isBlank_of_mem_line hbodies hc, ⟨_, rfl⟩, fun number => ?_⟩
  · simp only [String.toList_append, hjoin, List.append_assoc]
    rfl
  · have hnode : ':' ∉ (toString v.toNat).toList := not_mem_toString (by decide)
    have htrim : trim (toString v.toNat).toList = (toString v.toNat).toList :=
      trim_eq_self fun c hc => isBlank_of_isDigit (isDigit_of_mem_toString hc)
    refine parseLine_eq_ok_iff.2 ⟨_, _, cut?_append_cons hnode _, ?_, ?_⟩
    · rw [htrim, word64?_toString]
    · rw [filter_split_bodies hbodies, hparses, hlooked.1]

/-- Rows of registered tokens have a line. -/
theorem exists_lineOf {v : NodeId} {rows : List SuffixEnds}
    (h : ∀ row ∈ rows, Registered m .edge row.1) : ∃ text, lineOf m v rows = .ok text := by
  simp only [lineOf_eq_ok_iff]
  have hparts : ∀ row ∈ rows, ∃ text, part m row = .ok text := by
    intro row hrow
    obtain ⟨labels, hlabels⟩ := (exists_rawLabels_iff row.1).2 (h row hrow)
    exact ⟨_, part_eq_ok_iff.2 ⟨labels, hlabels, rfl⟩⟩
  obtain ⟨parts, hlooked⟩ := (exists_lookedUp_iff rows).2 hparts
  exact ⟨_, parts, hlooked, rfl⟩

/-- **The whole record** is a line, and it is read as the node and the rows of its map. -/
theorem exists_line_of_record {v : NodeId} {map : SuffixMap} {text : String}
    (h : record m v map = .ok text) (hmap : Writable map) :
    ∃ line, text.toList = line ++ ['\n'] ∧ (∀ c ∈ line, isBlank c = false ∧ c ≠ '\n')
      ∧ (∃ rest, line = (toString v.toNat).toList ++ ':' :: rest)
      ∧ ∀ number, parseLine m number line = .ok (v, map.toList) := by
  rw [record_eq_lineOf] at h
  exact exists_line_of_rows h fun row hrow =>
    hmap _ _ (Std.ExtTreeMap.mem_toList_iff_getElem?_eq_some.1 hrow)

/-- A map of registered tokens has a record. -/
theorem exists_record {v : NodeId} {map : SuffixMap}
    (h : ∀ (s : Suffix) (ends : NodeSet), map[s]? = some ends → Registered m .edge s) :
    ∃ text, record m v map = .ok text := by
  rw [record_eq_lineOf]
  exact exists_lineOf fun row hrow =>
    h row.1 row.2 (Std.ExtTreeMap.mem_toList_iff_getElem?_eq_some.1 hrow)

end LabelWalks.HubIndex
