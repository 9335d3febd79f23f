/-
  LabelWalks.Proofs.HubIndex.Grammar
  ──────────────────────────────────
  **WHAT AN INDEX TEXT IS, AND WHAT IS WRONG WITH ANY OTHER.**

  The language of index texts is told here without the reader: numerals between
  separators, parts, records, lines.  Beside each of them stands what can be wrong
  with it, in the order in which it is noticed, so that every text has either a
  meaning or a first fault.  The reader gives just that meaning and just that fault.

    • `IsPart`, `PartFault` — one suffix with its ends,
    • `IsRecord`, `RecordFault` — one line,
    • `ofText_eq_ok_iff`, `ofText_eq_error_iff` — all lines,
    • `ofText_accepts_grammar` — the language, and the first line outside it.
-/
import LabelWalks.Proofs.HubIndex.Record

namespace LabelWalks.HubIndex

open Text

variable {m : Mapping}

/-! ## §1. Numerals between separators. -/

/-- The pieces between the separators are numerals, of these words in order.  There is at least
one piece, and an empty one is no numeral. -/
def Words {ω : Type} (sep : Char) (value : ω → Nat) (s : List Char) (words : List ω) : Prop :=
  List.Forall₂ (fun piece w => Numeral piece (value w)) (split sep s) words

/-- The first piece between the separators that is no numeral of a word. -/
def FirstBad {ω : Type} (sep : Char) (value : ω → Nat) (s piece : List Char) : Prop :=
  ∃ before after, split sep s = before ++ piece :: after
    ∧ (∀ p ∈ before, ∃ w, Numeral p (value w)) ∧ ¬ ∃ w, Numeral piece (value w)

section Reader

variable {ω : Type} {sep : Char} {value : ω → Nat} {word? : List Char → Option ω}
  {problem : String → LineProblem} {s : List Char}

theorem word?_eq_none_iff (hword : ∀ {s w}, word? s = some w ↔ Numeral s (value w)) :
    word? s = none ↔ ¬ ∃ w, Numeral s (value w) := by
  simp only [Option.eq_none_iff_forall_ne_some, ne_eq, hword, not_exists]

theorem mapM_split_eq_ok_iff (hword : ∀ {s w}, word? s = some w ↔ Numeral s (value w))
    {words : List ω} :
    ((split sep s).mapM fun s => (word? s).elim (.error (problem (quote s))) .ok :
      Except LineProblem (List ω)) = .ok words ↔ Words sep value s words := by
  rw [mapM_eq_ok_iff_forall₂]
  simp only [elim_error_eq_ok_iff, hword]
  rfl

theorem mapM_split_eq_error_iff (hword : ∀ {s w}, word? s = some w ↔ Numeral s (value w))
    {p : LineProblem} :
    ((split sep s).mapM fun s => (word? s).elim (.error (problem (quote s))) .ok :
      Except LineProblem (List ω)) = .error p ↔
      ∃ piece, FirstBad sep value s piece ∧ p = problem (quote piece) := by
  rw [mapM_eq_error_iff]
  simp only [elim_error_eq_ok_iff, elim_error_eq_error_iff, word?_eq_none_iff hword, hword]
  constructor
  · intro h
    obtain ⟨before, piece, after, hsplit, hbefore, hbad, rfl⟩ := h
    exact ⟨piece, ⟨before, after, hsplit, hbefore, hbad⟩, rfl⟩
  · intro h
    obtain ⟨piece, ⟨before, after, hsplit, hbefore, hbad⟩, rfl⟩ := h
    exact ⟨before, piece, after, hsplit, hbefore, hbad, rfl⟩

end Reader

/-! ## §2. One part. -/

/-- The labels before the equals sign: none, or numerals between bars. -/
inductive Labels : List Char → List Label → Prop where
  | none : Labels [] []
  | some {path : List Char} {labels : List Label} (hne : path ≠ [])
      (hwords : Words '|' UInt32.toNat path labels) : Labels path labels

/-- Labels of edges and nodes by turns, and their tokens. -/
inductive Pairs (m : Mapping) : List Label → Suffix → Prop where
  | none : Pairs m [] []
  | pair {edge node : Label} {labels : List Label} {e n : LabelIndex} {tokens : Suffix}
      (hedge : m.edges.indexOf? edge = some e) (hnode : m.nodes.indexOf? node = some n)
      (rest : Pairs m labels tokens) : Pairs m (edge :: node :: labels) (e :: n :: tokens)

/-- The fault of the first label that has no token. -/
inductive FirstUnknown (m : Mapping) : List Label → Fault → Prop where
  | edge {edge node : Label} {labels : List Label} (hedge : m.edges.indexOf? edge = none) :
      FirstUnknown m (edge :: node :: labels) (.unregistered .edgeLabel edge.toNat)
  | node {edge node : Label} {labels : List Label} {e : LabelIndex}
      (hedge : m.edges.indexOf? edge = some e) (hnode : m.nodes.indexOf? node = none) :
      FirstUnknown m (edge :: node :: labels) (.unregistered .nodeLabel node.toNat)
  | later {edge node : Label} {labels : List Label} {e n : LabelIndex} {fault : Fault}
      (hedge : m.edges.indexOf? edge = some e) (hnode : m.nodes.indexOf? node = some n)
      (rest : FirstUnknown m labels fault) : FirstUnknown m (edge :: node :: labels) fault

/-- A part of a record: labels, an equals sign and end nodes between commas. -/
inductive IsPart (m : Mapping) : List Char → SuffixEnds → Prop where
  | intro {path endText : List Char} {labels : List Label} {tokens : Suffix} {ends : List NodeId}
      (hpath : '=' ∉ path) (hlabels : Labels path labels) (htokens : Pairs m labels tokens)
      (hends : Words ',' UInt64.toNat endText ends) :
      IsPart m (path ++ '=' :: endText) (tokens, .ofList ends)

/-- What is noticed first about a part that is none. -/
inductive PartFault (m : Mapping) (number : Nat) : List Char → Fault → Prop where
  | noEquals {part : List Char} (hpart : '=' ∉ part) :
      PartFault m number part (.indexLine number (.missingEquals (quote part)))
  | badLabel {path endText piece : List Char} (hpath : '=' ∉ path) (hne : path ≠ [])
      (hbad : FirstBad '|' UInt32.toNat path piece) :
      PartFault m number (path ++ '=' :: endText) (.indexLine number (.badLabel (quote piece)))
  | unpaired {path endText : List Char} {labels : List Label} (hpath : '=' ∉ path)
      (hlabels : Labels path labels) (hodd : labels.length % 2 = 1) :
      PartFault m number (path ++ '=' :: endText) (.indexLine number (.unpaired (quote path)))
  | unknown {path endText : List Char} {labels : List Label} {fault : Fault} (hpath : '=' ∉ path)
      (hlabels : Labels path labels) (heven : labels.length % 2 = 0)
      (hunknown : FirstUnknown m labels fault) : PartFault m number (path ++ '=' :: endText) fault
  | badEnd {path endText piece : List Char} {labels : List Label} {tokens : Suffix}
      (hpath : '=' ∉ path) (hlabels : Labels path labels) (htokens : Pairs m labels tokens)
      (hbad : FirstBad ',' UInt64.toNat endText piece) :
      PartFault m number (path ++ '=' :: endText) (.indexLine number (.badEnd (quote piece)))

theorem labels?_eq_ok_iff {path : List Char} {labels : List Label} :
    labels? path = .ok labels ↔ Labels path labels := by
  unfold labels?
  by_cases hpath : path = []
  · subst hpath
    constructor
    · intro h
      injection h with h
      subst h
      exact .none
    · intro h
      cases h with
      | none => rfl
      | some hne hwords => exact absurd rfl hne
  · rw [if_neg (by rw [List.isEmpty_iff]; exact hpath), mapM_split_eq_ok_iff word32?_eq_some_iff]
    constructor
    · exact .some hpath
    · intro h
      cases h with
      | none => exact absurd rfl hpath
      | some hne hwords => exact hwords

theorem labels?_eq_error_iff {path : List Char} {p : LineProblem} :
    labels? path = .error p ↔
      path ≠ [] ∧ ∃ piece, FirstBad '|' UInt32.toNat path piece ∧ p = .badLabel (quote piece) := by
  unfold labels?
  by_cases hpath : path = []
  · subst hpath
    simp
  · rw [if_neg (by rw [List.isEmpty_iff]; exact hpath),
      mapM_split_eq_error_iff word32?_eq_some_iff]
    exact (and_iff_right hpath).symm

theorem ends?_eq_ok_iff {s : List Char} {ends : List NodeId} :
    ends? s = .ok ends ↔ Words ',' UInt64.toNat s ends :=
  mapM_split_eq_ok_iff word64?_eq_some_iff

theorem ends?_eq_error_iff {s : List Char} {p : LineProblem} :
    ends? s = .error p ↔
      ∃ piece, FirstBad ',' UInt64.toNat s piece ∧ p = .badEnd (quote piece) :=
  mapM_split_eq_error_iff word64?_eq_some_iff

theorem Pairs.even {labels : List Label} {tokens : Suffix} (h : Pairs m labels tokens) :
    labels.length % 2 = 0 := by
  induction h with
  | none => rfl
  | pair _ _ _ ih =>
      simp only [List.length_cons]
      omega

theorem edgeIndex_eq_ok_iff {label : Label} {index : LabelIndex} :
    m.edgeIndex label = .ok index ↔ m.edges.indexOf? label = some index :=
  elim_error_eq_ok_iff

theorem nodeIndex_eq_ok_iff {label : Label} {index : LabelIndex} :
    m.nodeIndex label = .ok index ↔ m.nodes.indexOf? label = some index :=
  elim_error_eq_ok_iff

/-- An even number of labels is read as pairs. -/
theorem tokensOf_eq_ok_iff :
    ∀ {labels : List Label} {tokens : Suffix}, labels.length % 2 = 0 →
      (tokensOf m labels = .ok tokens ↔ Pairs m labels tokens)
  | [], tokens, _ => by
      constructor
      · intro h
        injection h with h
        subst h
        exact .none
      · intro h
        cases h
        rfl
  | [_], _, heven => by
      cases heven
  | edge :: node :: labels, tokens, heven => by
      have hrest : labels.length % 2 = 0 := by
        simp only [List.length_cons] at heven
        omega
      unfold tokensOf
      simp only [bind_eq_ok_iff, pure_eq_ok_iff, edgeIndex_eq_ok_iff, nodeIndex_eq_ok_iff,
        tokensOf_eq_ok_iff hrest]
      constructor
      · intro h
        obtain ⟨e, hedge, n, hnode, rest, hpairs, rfl⟩ := h
        exact .pair hedge hnode hpairs
      · intro h
        cases h with
        | pair hedge hnode hpairs => exact ⟨_, hedge, _, hnode, _, hpairs, rfl⟩

theorem tokensOf_eq_error_iff :
    ∀ {labels : List Label} {fault : Fault},
      tokensOf m labels = .error fault ↔ FirstUnknown m labels fault
  | [], fault => by
      constructor
      · intro h
        cases h
      · intro h
        cases h
  | [_], fault => by
      constructor
      · intro h
        cases h
      · intro h
        cases h
  | edge :: node :: labels, fault => by
      unfold tokensOf
      simp only [bind_eq_error_iff, Mapping.edgeIndex, Mapping.nodeIndex, elim_error_eq_ok_iff,
        elim_error_eq_error_iff, tokensOf_eq_error_iff]
      constructor
      · intro h
        rcases h with ⟨hedge, rfl⟩ | ⟨e, hedge, ⟨hnode, rfl⟩ | ⟨n, hnode, hrest | ⟨_, -, hpure⟩⟩⟩
        · exact .edge hedge
        · exact .node hedge hnode
        · exact .later hedge hnode hrest
        · cases hpure
      · intro h
        cases h with
        | edge hedge => exact .inl ⟨hedge, rfl⟩
        | node hedge hnode => exact .inr ⟨_, hedge, .inl ⟨hnode, rfl⟩⟩
        | later hedge hnode hrest => exact .inr ⟨_, hedge, .inr ⟨_, hnode, .inl hrest⟩⟩

/-- **One part is read** as its tokens and ends. -/
theorem parsePart_eq_ok_iff {number : Nat} {part : List Char} {row : SuffixEnds} :
    parsePart m number part = .ok row ↔ IsPart m part row := by
  unfold parsePart
  simp only [bind_eq_ok_iff, elim_error_eq_ok_iff, mapError_eq_ok_iff, pure_eq_ok_iff,
    guard_eq_ok_iff, Prod.exists, cut?_eq_some_iff, labels?_eq_ok_iff, ends?_eq_ok_iff]
  constructor
  · intro h
    obtain ⟨path, endText, ⟨rfl, hpath⟩, labels, hlabels, heven, tokens, htokens, ends, hends, rfl⟩
      := h
    exact .intro hpath hlabels ((tokensOf_eq_ok_iff (by omega)).1 htokens) hends
  · intro h
    obtain ⟨hpath, hlabels, htokens, hends⟩ := h
    have heven := htokens.even
    exact ⟨_, _, ⟨rfl, hpath⟩, _, hlabels, by omega, _, (tokensOf_eq_ok_iff heven).2 htokens, _,
      hends, rfl⟩

/-- A part is read as one row at most. -/
theorem rightUnique_isPart (m : Mapping) : Relator.RightUnique (IsPart m) := by
  intro part row row' h h'
  rw [← @parsePart_eq_ok_iff m 0] at h h'
  exact Except.ok.inj (h.symm.trans h')

theorem parsePart_eq_error_iff {number : Nat} {part : List Char} {fault : Fault} :
    parsePart m number part = .error fault ↔ PartFault m number part fault := by
  unfold parsePart
  simp only [bind_eq_error_iff, elim_error_eq_ok_iff, elim_error_eq_error_iff, mapError_eq_ok_iff,
    mapError_eq_error_iff, guard_eq_error_iff, Prod.exists, cut?_eq_some_iff, cut?_eq_none_iff,
    labels?_eq_ok_iff, labels?_eq_error_iff, ends?_eq_ok_iff, ends?_eq_error_iff,
    tokensOf_eq_error_iff]
  -- one constructor for each look-up that can be the first to find nothing
  constructor
  · intro h
    rcases h with ⟨hpart, rfl⟩ | ⟨path, endText, ⟨rfl, hpath⟩, h⟩
    · exact .noEquals hpart
    · rcases h with ⟨_, ⟨hne, piece, hbad, rfl⟩, rfl⟩ | ⟨labels, hlabels, h⟩
      · exact .badLabel hpath hne hbad
      · rcases h with ⟨hodd, rfl⟩ | ⟨heven, hunknown | ⟨tokens, htokens, h⟩⟩
        · exact .unpaired hpath hlabels (by omega)
        · exact .unknown hpath hlabels (by omega) hunknown
        · rcases h with ⟨_, ⟨piece, hbad, rfl⟩, rfl⟩ | ⟨_, -, hpure⟩
          · exact .badEnd hpath hlabels ((tokensOf_eq_ok_iff (by omega)).1 htokens) hbad
          · cases hpure
  · intro h
    cases h with
    | noEquals hpart => exact .inl ⟨hpart, rfl⟩
    | badLabel hpath hne hbad =>
        exact .inr ⟨_, _, ⟨rfl, hpath⟩, .inl ⟨_, ⟨hne, _, hbad, rfl⟩, rfl⟩⟩
    | unpaired hpath hlabels hodd =>
        exact .inr ⟨_, _, ⟨rfl, hpath⟩, .inr ⟨_, hlabels, .inl ⟨by omega, rfl⟩⟩⟩
    | unknown hpath hlabels heven hunknown =>
        exact .inr ⟨_, _, ⟨rfl, hpath⟩, .inr ⟨_, hlabels, .inr ⟨by omega, .inl hunknown⟩⟩⟩
    | badEnd hpath hlabels htokens hbad =>
        have heven := htokens.even
        exact .inr ⟨_, _, ⟨rfl, hpath⟩, .inr ⟨_, hlabels, .inr ⟨by omega,
          .inr ⟨_, (tokensOf_eq_ok_iff heven).2 htokens, .inl ⟨_, ⟨_, hbad, rfl⟩, rfl⟩⟩⟩⟩⟩

/-! ## §3. One record. -/

/-- What a record says of its node. -/
abbrev Entry := NodeId × List SuffixEnds

/-- The parts between the dashes; an empty one is skipped. -/
def parts (rest : List Char) : List (List Char) :=
  (split '-' rest).filter fun part => !part.isEmpty

/-- A record: a node, which may have white space around it, a colon and parts. -/
inductive IsRecord (m : Mapping) : List Char → Entry → Prop where
  | intro {nodeText rest : List Char} {v : NodeId} {rows : List SuffixEnds}
      (hnode : ':' ∉ nodeText) (hv : Numeral (trim nodeText) v.toNat)
      (hrows : List.Forall₂ (IsPart m) (parts rest) rows) :
      IsRecord m (nodeText ++ ':' :: rest) (v, rows)

/-- What is noticed first about a line that is no record. -/
inductive RecordFault (m : Mapping) (number : Nat) : List Char → Fault → Prop where
  | noColon {line : List Char} (hline : ':' ∉ line) :
      RecordFault m number line (.indexLine number .missingColon)
  | badNode {nodeText rest : List Char} (hnode : ':' ∉ nodeText)
      (hbad : ¬ ∃ v : NodeId, Numeral (trim nodeText) v.toNat) :
      RecordFault m number (nodeText ++ ':' :: rest)
        (.indexLine number (.badNode (quote nodeText)))
  | badPart {nodeText rest part : List Char} {v : NodeId} {before after : List (List Char)}
      {fault : Fault} (hnode : ':' ∉ nodeText) (hv : Numeral (trim nodeText) v.toNat)
      (hparts : parts rest = before ++ part :: after) (hbefore : ∀ p ∈ before, ∃ row, IsPart m p row)
      (hpart : PartFault m number part fault) :
      RecordFault m number (nodeText ++ ':' :: rest) fault

/-- **One record is read** as what it says. -/
theorem parseLine_eq_ok_iff_isRecord {number : Nat} {line : List Char} {entry : Entry} :
    parseLine m number line = .ok entry ↔ IsRecord m line entry := by
  obtain ⟨v, rows⟩ := entry
  simp only [parseLine_eq_ok_iff, cut?_eq_some_iff, word64?_eq_some_iff, mapM_eq_ok_iff_forall₂,
    parsePart_eq_ok_iff]
  constructor
  · intro h
    obtain ⟨nodeText, rest, ⟨rfl, hnode⟩, hv, hrows⟩ := h
    exact .intro hnode hv hrows
  · intro h
    obtain ⟨hnode, hv, hrows⟩ := h
    exact ⟨_, _, ⟨rfl, hnode⟩, hv, hrows⟩

/-- A record is read as one entry at most. -/
theorem rightUnique_isRecord (m : Mapping) : Relator.RightUnique (IsRecord m) := by
  intro line entry entry' h h'
  rw [← @parseLine_eq_ok_iff_isRecord m 0] at h h'
  exact Except.ok.inj (h.symm.trans h')

theorem parseLine_eq_error_iff {number : Nat} {line : List Char} {fault : Fault} :
    parseLine m number line = .error fault ↔ RecordFault m number line fault := by
  unfold parseLine
  simp only [bind_eq_error_iff, elim_error_eq_ok_iff, elim_error_eq_error_iff, Prod.exists,
    cut?_eq_some_iff, cut?_eq_none_iff, word64?_eq_some_iff, word?_eq_none_iff word64?_eq_some_iff]
  simp only [mapM_eq_error_iff, parsePart_eq_ok_iff, parsePart_eq_error_iff]
  constructor
  · intro h
    rcases h with ⟨hline, rfl⟩ | ⟨nodeText, rest, ⟨rfl, hnode⟩, h⟩
    · exact .noColon hline
    · rcases h with ⟨hbad, rfl⟩ | ⟨v, hv, h⟩
      · exact .badNode hnode hbad
      · rcases h with ⟨before, part, after, hparts, hbefore, hpart⟩ | ⟨_, -, hpure⟩
        · exact .badPart hnode hv hparts hbefore hpart
        · cases hpure
  · intro h
    cases h with
    | noColon hline => exact .inl ⟨hline, rfl⟩
    | badNode hnode hbad =>
        exact .inr ⟨_, _, ⟨rfl, hnode⟩, .inl ⟨hbad, rfl⟩⟩
    | badPart hnode hv hparts hbefore hpart =>
        exact .inr ⟨_, _, ⟨rfl, hnode⟩, .inr ⟨_, hv, .inl ⟨_, _, _, hparts, hbefore, hpart⟩⟩⟩

/-! ## §4. One line after another. -/

/-- A line of an index text: without its white space it is empty or a record. -/
def IsLine (m : Mapping) (line : List Char) : Prop :=
  trim line = [] ∨ ∃ entry, IsRecord m (trim line) entry

/-- The lines that are not blank, without the white space around them. -/
def records (lines : List (List Char)) : List (List Char) :=
  (lines.map trim).filter fun line => !line.isEmpty

/-- The maps with what a record says of its node. -/
def addEntry (maps : Std.ExtTreeMap NodeId SuffixMap) (entry : Entry) :
    Std.ExtTreeMap NodeId SuffixMap :=
  maps.alter entry.1 fun map => some ((map.getD ∅).mergeAll entry.2)

theorem records_cons (line : List Char) (lines : List (List Char)) :
    records (line :: lines) =
      if trim line = [] then records lines else trim line :: records lines := by
  unfold records
  rw [List.map_cons, List.filter_cons]
  by_cases hblank : trim line = []
  · simp [hblank]
  · simp [hblank]

theorem parseLines_cons_of_blank {line : List Char} (h : trim line = []) (number : Nat)
    (maps : Std.ExtTreeMap NodeId SuffixMap) (lines : List (Option (List Char))) :
    parseLines m number maps (some line :: lines) = parseLines m (number + 1) maps lines := by
  rw [parseLines]
  exact if_pos (List.isEmpty_iff.2 h)

theorem parseLines_cons_of_not_blank {line : List Char} (h : trim line ≠ []) (number : Nat)
    (maps : Std.ExtTreeMap NodeId SuffixMap) (lines : List (Option (List Char))) :
    parseLines m number maps (some line :: lines) =
      (parseLine m number (trim line) >>= fun entry =>
        parseLines m (number + 1) (addEntry maps entry) lines) := by
  rw [parseLines]
  refine (if_neg (by rw [List.isEmpty_iff]; exact h)).trans ?_
  cases parseLine m number (trim line) with
  | error fault => rfl
  | ok entry => rfl

/-- **All lines are read** as the records among them say. -/
theorem parseLines_eq_ok_iff {lines : List (List Char)} :
    ∀ {number : Nat} {maps maps' : Std.ExtTreeMap NodeId SuffixMap},
      parseLines m number maps (lines.map some) = .ok maps' ↔
        ∃ entries, List.Forall₂ (IsRecord m) (records lines) entries
          ∧ maps' = entries.foldl addEntry maps := by
  -- on the lines, whatever was read before; a blank one only counts
  induction lines with
  | nil =>
      intro number maps maps'
      have hnone : records [] = [] := rfl
      rw [hnone]
      show Except.ok maps = .ok maps' ↔ _
      simp only [List.forall₂_nil_left_iff, exists_eq_left, List.foldl_nil, Except.ok.injEq]
      exact eq_comm
  | cons line lines ih =>
      intro number maps maps'
      rw [List.map_cons]
      by_cases hblank : trim line = []
      · rw [parseLines_cons_of_blank hblank, records_cons, if_pos hblank, ih]
      · rw [parseLines_cons_of_not_blank hblank, records_cons, if_neg hblank]
        simp only [bind_eq_ok_iff, parseLine_eq_ok_iff_isRecord, ih, List.forall₂_cons_left_iff]
        constructor
        · intro h
          obtain ⟨entry, hentry, entries, hentries, rfl⟩ := h
          exact ⟨_, ⟨entry, entries, hentry, hentries, rfl⟩, rfl⟩
        · intro h
          obtain ⟨_, ⟨entry, entries, hentry, hentries, rfl⟩, rfl⟩ := h
          exact ⟨entry, hentry, entries, hentries, rfl⟩

theorem isLine_of_blank {line : List Char} (h : trim line = []) : IsLine m line :=
  .inl h

theorem isLine_iff_of_not_blank {line : List Char} (h : trim line ≠ []) :
    IsLine m line ↔ ∃ entry, IsRecord m (trim line) entry :=
  or_iff_right h

/-- **The first line that is none** gives the fault. -/
theorem parseLines_eq_error_iff {fault : Fault} {lines : List (List Char)} :
    ∀ {number : Nat} {maps : Std.ExtTreeMap NodeId SuffixMap},
      parseLines m number maps (lines.map some) = .error fault ↔
        ∃ (before : List (List Char)) (line : List Char) (after : List (List Char)),
          lines = before ++ line :: after ∧ (∀ l ∈ before, IsLine m l)
          ∧ trim line ≠ [] ∧ RecordFault m (number + before.length) (trim line) fault := by
  -- on the lines, with their first number left open: it is one more for the rest
  induction lines with
  | nil =>
      intro number maps
      show Except.ok maps = .error fault ↔ _
      simp
  | cons line lines ih =>
      intro number maps
      rw [List.map_cons, exists_place_cons_iff]
      simp only [List.mem_cons, forall_eq_or_imp, List.length_cons, List.length_nil, Nat.add_zero,
        List.not_mem_nil, false_implies, implies_true, true_and, ← Nat.add_assoc]
      by_cases hblank : trim line = []
      · rw [parseLines_cons_of_blank hblank, ih]
        simp only [Nat.add_right_comm number 1, hblank, ne_eq, not_true_eq_false, false_and,
          false_or, isLine_of_blank hblank, true_and]
      · rw [parseLines_cons_of_not_blank hblank, bind_eq_error_iff]
        simp only [parseLine_eq_error_iff, parseLine_eq_ok_iff_isRecord, ih,
          Nat.add_right_comm number 1, isLine_iff_of_not_blank hblank]
        refine or_congr (by simp [hblank]) ?_
        constructor
        · intro h
          obtain ⟨entry, hentry, before, line', after, rfl, hbefore, hfault⟩ := h
          exact ⟨before, line', after, rfl, ⟨⟨entry, hentry⟩, hbefore⟩, hfault⟩
        · intro h
          obtain ⟨before, line', after, rfl, ⟨⟨entry, hentry⟩, hbefore⟩, hfault⟩ := h
          exact ⟨entry, hentry, before, line', after, rfl, hbefore, hfault⟩

/-- **The meaning of a text**: what its records say. -/
theorem ofText_eq_ok_iff {text : String} {index : HubIndex} :
    ofText m text = .ok index ↔
      ∃ entries, List.Forall₂ (IsRecord m) (records (split '\n' text.toList)) entries
        ∧ index = ⟨(entries.foldl addEntry ∅).map withSelf⟩ := by
  unfold ofText ofLines
  rw [map_eq_ok_iff]
  simp only [parseLines_eq_ok_iff]
  constructor
  · intro h
    obtain ⟨_, ⟨entries, hentries, rfl⟩, rfl⟩ := h
    exact ⟨entries, hentries, rfl⟩
  · intro h
    obtain ⟨entries, hentries, rfl⟩ := h
    exact ⟨_, ⟨entries, hentries, rfl⟩, rfl⟩

/-- **The fault of a text**: that of the first line that is none. -/
theorem ofText_eq_error_iff {text : String} {fault : Fault} :
    ofText m text = .error fault ↔
      ∃ (before : List (List Char)) (line : List Char) (after : List (List Char)),
        split '\n' text.toList = before ++ line :: after
        ∧ (∀ l ∈ before, IsLine m l)
        ∧ trim line ≠ [] ∧ RecordFault m (before.length + 1) (trim line) fault := by
  unfold ofText ofLines
  rw [map_eq_error_iff, parseLines_eq_error_iff]
  simp only [Nat.add_comm 1]

/-! ## §5. The language. -/

theorem RecordFault.not_isRecord {number : Nat} {line : List Char} {fault : Fault}
    (h : RecordFault m number line fault) : ¬ ∃ entry, IsRecord m line entry := by
  intro hline
  obtain ⟨entry, hentry⟩ := hline
  have hok : parseLine m number line = .ok entry := parseLine_eq_ok_iff_isRecord.2 hentry
  rw [parseLine_eq_error_iff.2 h] at hok
  cases hok

/-- A fault that names a line of the text or a label that is not registered. -/
inductive Points (m : Mapping) (number : Nat) : Fault → Prop where
  | line (problem : LineProblem) : Points m number (.indexLine number problem)
  | edge {label : Label} (h : m.edges.indexOf? label = none) :
      Points m number (.unregistered .edgeLabel label.toNat)
  | node {label : Label} (h : m.nodes.indexOf? label = none) :
      Points m number (.unregistered .nodeLabel label.toNat)

theorem FirstUnknown.points {labels : List Label} {fault : Fault}
    (h : FirstUnknown m labels fault) (number : Nat) : Points m number fault := by
  induction h with
  | edge hedge => exact .edge hedge
  | node _ hnode => exact .node hnode
  | later _ _ _ ih => exact ih

theorem PartFault.points {number : Nat} {part : List Char} {fault : Fault}
    (h : PartFault m number part fault) : Points m number fault := by
  cases h with
  | unknown _ _ _ hunknown => exact hunknown.points number
  | _ => exact .line _

theorem RecordFault.points {number : Nat} {line : List Char} {fault : Fault}
    (h : RecordFault m number line fault) : Points m number fault := by
  cases h with
  | badPart _ _ _ _ hpart => exact hpart.points
  | _ => exact .line _

theorem exists_ofText_iff {text : String} :
    (∃ index, ofText m text = .ok index) ↔ ∀ line ∈ split '\n' text.toList, IsLine m line := by
  have hrecords : (∃ index, ofText m text = .ok index) ↔
      ∀ line ∈ records (split '\n' text.toList), ∃ entry, IsRecord m line entry := by
    rw [← exists_forall₂_iff]
    simp only [ofText_eq_ok_iff]
    constructor
    · intro h
      obtain ⟨index, entries, hentries, -⟩ := h
      exact ⟨entries, hentries⟩
    · intro h
      obtain ⟨entries, hentries⟩ := h
      exact ⟨_, entries, hentries, rfl⟩
  rw [hrecords]
  unfold records IsLine
  simp only [List.mem_filter, List.mem_map, Bool.not_eq_true', List.isEmpty_eq_false_iff]
  constructor
  · intro h line hline
    by_cases hblank : trim line = []
    · exact .inl hblank
    · exact .inr (h _ ⟨⟨line, hline, rfl⟩, hblank⟩)
  · intro h _ hline
    obtain ⟨⟨line, hline, rfl⟩, hblank⟩ := hline
    exact (h line hline).resolve_left hblank

/-- **The language of index texts.**  A text has an index just when each of its lines is
blank or a record.  Any other text has the fault of its first line that is neither, and
that fault names the line, counted from one with the blank lines, or a label in it that
is not registered. -/
theorem ofText_accepts_grammar (m : Mapping) (text : String) :
    ((∃ index, ofText m text = .ok index) ↔ ∀ line ∈ split '\n' text.toList, IsLine m line)
      ∧ (∀ fault, ofText m text = .error fault ↔
          ∃ (before : List (List Char)) (line : List Char) (after : List (List Char)),
            split '\n' text.toList = before ++ line :: after ∧ (∀ l ∈ before, IsLine m l)
              ∧ ¬ IsLine m line ∧ RecordFault m (before.length + 1) (trim line) fault)
      ∧ ∀ number line fault, RecordFault m number line fault → Points m number fault := by
  refine ⟨exists_ofText_iff, fun fault => ?_, fun number line fault h => h.points⟩
  -- where there is a fault there is no record, so only a blank line could still be one
  have hnone : ∀ {number : Nat} {line : List Char}, RecordFault m number (trim line) fault →
      (trim line ≠ [] ↔ ¬ IsLine m line) := by
    intro number line h
    unfold IsLine
    rw [or_iff_left h.not_isRecord]
  rw [ofText_eq_error_iff]
  constructor
  · intro h
    obtain ⟨before, line, after, hlines, hbefore, hblank, hfault⟩ := h
    exact ⟨before, line, after, hlines, hbefore, (hnone hfault).1 hblank, hfault⟩
  · intro h
    obtain ⟨before, line, after, hlines, hbefore, hline, hfault⟩ := h
    exact ⟨before, line, after, hlines, hbefore, (hnone hfault).2 hline, hfault⟩

end LabelWalks.HubIndex
