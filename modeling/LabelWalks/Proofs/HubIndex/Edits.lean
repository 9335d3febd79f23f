/-
  LabelWalks.Proofs.HubIndex.Edits
  ────────────────────────────────
  **A TEXT IS READ AS THE UNION OF ITS RECORDS.**

  Workers write their records in any order, and runs are appended to each other.  A
  reader merges line after line, part after part and end after end, and each of these
  merges is a union; so nothing is left of the order in which things came, of how often
  they came, or of which record of a node they stood in.

    • `Rewrites`, `Edit` — what may be done to the lines of a text,
    • `Mentions`, `Tells`, `SameSaid` — what lines say, and what no edit changes,
    • `ofText_of_sameSaid` — lines that say the same are read as the same index,
    • `exists_ofText_append` — two texts, one behind the other,
    • `ofText_union_of_records` — both.
-/
import LabelWalks.Proofs.Recoding.Index

namespace LabelWalks.HubIndex

open Text

variable {m : Mapping}

/-! ## §1. Edits. -/

/-- A way to write a node before the colon of a record. -/
structure Names (text : List Char) (v : NodeId) : Prop where
  colon : ':' ∉ text
  newline : '\n' ∉ text
  value : Numeral (trim text) v.toNat

/-- The line of a record, from what stands before its colon and behind it. -/
def recordLine (r : List Char × List Char) : List Char :=
  r.1 ++ ':' :: r.2

/-- Lines next to each other, and the lines that they are replaced with. -/
inductive Rewrites : List (List Char) → List (List Char) → Prop where
  /-- A blank line is added. -/
  | blank {line : List Char} (hblank : trim line = []) (hbreak : '\n' ∉ line) : Rewrites [] [line]
  /-- A record is cut into records of the same node, which have its parts in order. -/
  | cut {v : NodeId} {r : List Char × List Char} {rs : List (List Char × List Char)} (hne : rs ≠ [])
      (hnode : Names r.1 v) (hnodes : ∀ s ∈ rs, Names s.1 v)
      (hparts : parts r.2 = rs.flatMap fun s => parts s.2) :
      Rewrites [recordLine r] (rs.map recordLine)
  /-- The parts of a record come in another order or number. -/
  | order {v : NodeId} {node rest rest' : List Char} (hnode : Names node v)
      (hparts : ∀ part, part ∈ parts rest ↔ part ∈ parts rest') :
      Rewrites [recordLine (node, rest)] [recordLine (node, rest')]
  /-- The ends of one part come in another order or number. -/
  | ends {v : NodeId} {node rest rest' path endText endText' : List Char}
      {before after : List (List Char)} (hnode : Names node v) (hpath : '=' ∉ path)
      (hrest : parts rest = before ++ (path ++ '=' :: endText) :: after)
      (hrest' : parts rest' = before ++ (path ++ '=' :: endText') :: after)
      (hends : ∀ piece, piece ∈ split ',' endText ↔ piece ∈ split ',' endText') :
      Rewrites [recordLine (node, rest)] [recordLine (node, rest')]

/-- One edit of the lines of a text. -/
inductive Edit : List (List Char) → List (List Char) → Prop where
  /-- The lines come in another order or number. -/
  | lines {lines lines' : List (List Char)} (h : ∀ line, line ∈ lines ↔ line ∈ lines') :
      Edit lines lines'
  /-- Lines in the middle of others are replaced. -/
  | inside {mid mid' : List (List Char)} (before after : List (List Char))
      (h : Rewrites mid mid') : Edit (before ++ mid ++ after) (before ++ mid' ++ after)

/-! ## §2. What lines say. -/

/-- The line is a name of the node, a colon and the rest. -/
def OfNode (line : List Char) (v : NodeId) (rest : List Char) : Prop :=
  ∃ node, Names node v ∧ line = recordLine (node, rest)

/-- The line is blank, or a record with parts that can be read. -/
def Readable (m : Mapping) (line : List Char) : Prop :=
  (trim line = [] ∧ '\n' ∉ line)
    ∨ ∃ v rest, OfNode line v rest ∧ ∀ part ∈ parts rest, ∃ row, IsPart m part row

/-- One of the lines is a record of the node. -/
def Mentions (lines : List (List Char)) (v : NodeId) : Prop :=
  ∃ line ∈ lines, ∃ rest, OfNode line v rest

/-- One of the lines is a record of the node with a part for the row. -/
def Tells (m : Mapping) (lines : List (List Char)) (v : NodeId) (row : SuffixEnds) : Prop :=
  ∃ line ∈ lines, ∃ rest, OfNode line v rest ∧ ∃ part ∈ parts rest, IsPart m part row

/-- **The lines say the same.** -/
structure SameSaid (m : Mapping) (lines lines' : List (List Char)) : Prop where
  readable : (∀ line ∈ lines, Readable m line) ↔ ∀ line ∈ lines', Readable m line
  mentions : ∀ v, Mentions lines v ↔ Mentions lines' v
  tells : ∀ v row, Tells m lines v row ↔ Tells m lines' v row

theorem SameSaid.refl (lines : List (List Char)) : SameSaid m lines lines :=
  ⟨Iff.rfl, fun _ => Iff.rfl, fun _ _ => Iff.rfl⟩

theorem SameSaid.symm {lines lines' : List (List Char)} (h : SameSaid m lines lines') :
    SameSaid m lines' lines :=
  ⟨h.readable.symm, fun v => (h.mentions v).symm, fun v row => (h.tells v row).symm⟩

theorem SameSaid.trans {lines lines' lines'' : List (List Char)} (h : SameSaid m lines lines')
    (h' : SameSaid m lines' lines'') : SameSaid m lines lines'' :=
  ⟨h.readable.trans h'.readable, fun v => (h.mentions v).trans (h'.mentions v),
    fun v row => (h.tells v row).trans (h'.tells v row)⟩

theorem sameSaid_of_mem_iff {lines lines' : List (List Char)}
    (h : ∀ line, line ∈ lines ↔ line ∈ lines') : SameSaid m lines lines' where
  readable := by simp only [h]
  mentions v := by simp only [Mentions, h]
  tells v row := by simp only [Tells, h]

/-- Lines in the middle of others that say the same do not change what all of them say. -/
theorem SameSaid.inside {mid mid' : List (List Char)} (h : SameSaid m mid mid')
    (before after : List (List Char)) :
    SameSaid m (before ++ mid ++ after) (before ++ mid' ++ after) where
  readable := by
    simp only [List.mem_append, or_imp, forall_and]
    rw [h.readable]
  mentions v := by
    have hmid : (∃ line ∈ mid, ∃ rest, OfNode line v rest) ↔
        ∃ line ∈ mid', ∃ rest, OfNode line v rest := h.mentions v
    simp only [Mentions, List.mem_append, or_and_right, exists_or, hmid]
  tells v row := by
    have hmid : (∃ line ∈ mid, ∃ rest, OfNode line v rest ∧ ∃ part ∈ parts rest, IsPart m part row) ↔
        ∃ line ∈ mid', ∃ rest, OfNode line v rest ∧ ∃ part ∈ parts rest, IsPart m part row :=
      h.tells v row
    simp only [Tells, List.mem_append, or_and_right, exists_or, hmid]

/-! ## §3. No edit changes what lines say. -/

theorem Names.unique {text : List Char} {v v' : NodeId} (h : Names text v) (h' : Names text v') :
    v' = v := by
  have hword := word64?_eq_some_iff.2 h.value
  rw [word64?_eq_some_iff.2 h'.value] at hword
  exact Option.some.inj hword

/-- A line has one colon that is the first, so it is a record of one node at most. -/
theorem ofNode_recordLine_iff {r : List Char × List Char} {v v' : NodeId} {rest : List Char}
    (h : Names r.1 v) : OfNode (recordLine r) v' rest ↔ v' = v ∧ rest = r.2 := by
  constructor
  · intro hline
    obtain ⟨node, hnode, hsame⟩ := hline
    -- neither name holds a colon, so both end at the first one
    have hcut := cut?_append_cons h.colon r.2
    rw [show r.1 ++ ':' :: r.2 = node ++ ':' :: rest from hsame,
      cut?_append_cons hnode.colon] at hcut
    obtain ⟨rfl, rfl⟩ := Prod.mk.inj (Option.some.inj hcut)
    exact ⟨h.unique hnode, rfl⟩
  · intro hsame
    obtain ⟨rfl, rfl⟩ := hsame
    exact ⟨r.1, h, rfl⟩

theorem not_ofNode_of_blank {line rest : List Char} {v : NodeId} (hblank : trim line = []) :
    ¬ OfNode line v rest := by
  intro h
  obtain ⟨node, -, rfl⟩ := h
  have hcolon : ':' ∈ recordLine (node, rest) := List.mem_append_right _ List.mem_cons_self
  exact trim_ne_nil hcolon (by decide) hblank

theorem readable_recordLine_iff {r : List Char × List Char} {v : NodeId} (h : Names r.1 v) :
    Readable m (recordLine r) ↔ ∀ part ∈ parts r.2, ∃ row, IsPart m part row := by
  have hline : OfNode (recordLine r) v r.2 := ⟨r.1, h, rfl⟩
  unfold Readable
  rw [or_iff_right fun hblank => not_ofNode_of_blank hblank.1 hline]
  simp only [ofNode_recordLine_iff h]
  constructor
  · intro hsome
    obtain ⟨v', rest, ⟨rfl, rfl⟩, hparts⟩ := hsome
    exact hparts
  · intro hparts
    exact ⟨v, r.2, ⟨rfl, rfl⟩, hparts⟩

/-- **Records of one node** say the same as others when they have parts for the same rows. -/
theorem sameSaid_of_records {v : NodeId} {rs rs' : List (List Char × List Char)} (hne : rs ≠ [])
    (hne' : rs' ≠ []) (hnodes : ∀ s ∈ rs, Names s.1 v) (hnodes' : ∀ s ∈ rs', Names s.1 v)
    (hread : (∀ s ∈ rs, ∀ part ∈ parts s.2, ∃ row, IsPart m part row) ↔
      ∀ s ∈ rs', ∀ part ∈ parts s.2, ∃ row, IsPart m part row)
    (hrows : ∀ row, (∃ s ∈ rs, ∃ part ∈ parts s.2, IsPart m part row) ↔
      ∃ s ∈ rs', ∃ part ∈ parts s.2, IsPart m part row) :
    SameSaid m (rs.map recordLine) (rs'.map recordLine) := by
  -- what such lines say is told by their parts alone, and it is said of this node only
  have hreadable : ∀ {rs : List (List Char × List Char)}, (∀ s ∈ rs, Names s.1 v) →
      ((∀ line ∈ rs.map recordLine, Readable m line) ↔
        ∀ s ∈ rs, ∀ part ∈ parts s.2, ∃ row, IsPart m part row) := by
    intro rs hnodes
    rw [List.forall_mem_map]
    exact forall₂_congr fun s hs => readable_recordLine_iff (hnodes s hs)
  have hmentions : ∀ {rs : List (List Char × List Char)}, rs ≠ [] → (∀ s ∈ rs, Names s.1 v) →
      ∀ u, Mentions (rs.map recordLine) u ↔ u = v := by
    intro rs hne hnodes u
    simp only [Mentions, List.mem_map, exists_exists_and_eq_and]
    constructor
    · intro h
      obtain ⟨s, hs, rest, hline⟩ := h
      exact ((ofNode_recordLine_iff (hnodes s hs)).1 hline).1
    · intro h
      obtain ⟨s, hs⟩ := List.exists_mem_of_ne_nil _ hne
      exact ⟨s, hs, s.2, (ofNode_recordLine_iff (hnodes s hs)).2 ⟨h, rfl⟩⟩
  have htells : ∀ {rs : List (List Char × List Char)}, (∀ s ∈ rs, Names s.1 v) → ∀ u row,
      Tells m (rs.map recordLine) u row ↔
        u = v ∧ ∃ s ∈ rs, ∃ part ∈ parts s.2, IsPart m part row := by
    intro rs hnodes u row
    simp only [Tells, List.mem_map, exists_exists_and_eq_and]
    constructor
    · intro h
      obtain ⟨s, hs, rest, hline, hpart⟩ := h
      obtain ⟨rfl, rfl⟩ := (ofNode_recordLine_iff (hnodes s hs)).1 hline
      exact ⟨rfl, s, hs, hpart⟩
    · intro h
      obtain ⟨rfl, s, hs, hpart⟩ := h
      exact ⟨s, hs, s.2, (ofNode_recordLine_iff (hnodes s hs)).2 ⟨rfl, rfl⟩, hpart⟩
  refine ⟨?_, fun u => ?_, fun u row => ?_⟩
  · rw [hreadable hnodes, hreadable hnodes', hread]
  · rw [hmentions hne hnodes, hmentions hne' hnodes']
  · rw [htells hnodes, htells hnodes', hrows]

/-- One record says the same as another when it has parts for the same rows. -/
theorem sameSaid_of_record {v : NodeId} {node rest rest' : List Char} (hnode : Names node v)
    (hread : (∀ part ∈ parts rest, ∃ row, IsPart m part row) ↔
      ∀ part ∈ parts rest', ∃ row, IsPart m part row)
    (hrows : ∀ row, (∃ part ∈ parts rest, IsPart m part row) ↔
      ∃ part ∈ parts rest', IsPart m part row) :
    SameSaid m [recordLine (node, rest)] [recordLine (node, rest')] := by
  have hnodes : ∀ rest : List Char, ∀ s ∈ [(node, rest)], Names s.1 v := fun rest => by
    simpa using hnode
  refine sameSaid_of_records (List.cons_ne_nil _ _) (List.cons_ne_nil _ _) (hnodes rest)
    (hnodes rest') ?_ fun row => ?_
  · simpa only [List.mem_singleton, forall_eq] using hread
  · simpa only [List.mem_singleton, exists_eq_left] using hrows row

/-- The ends of a part are a set, so the part is read as the same row. -/
theorem isPart_ends_iff {path endText endText' : List Char} (hpath : '=' ∉ path)
    (hends : ∀ piece, piece ∈ split ',' endText ↔ piece ∈ split ',' endText') {row : SuffixEnds} :
    IsPart m (path ++ '=' :: endText) row ↔ IsPart m (path ++ '=' :: endText') row := by
  have hone : ∀ {endText endText' : List Char},
      (∀ piece, piece ∈ split ',' endText ↔ piece ∈ split ',' endText') →
        IsPart m (path ++ '=' :: endText) row → IsPart m (path ++ '=' :: endText') row := by
    intro endText endText' hends h
    obtain ⟨_, _, labels, ends, hcut, hlabels, hread, hset, heven, htokens⟩ := isPart_iff.1 h
    rw [cut?_append_cons hpath] at hcut
    obtain ⟨rfl, rfl⟩ := Prod.mk.inj (Option.some.inj hcut)
    have hwords := ends?_eq_ok_iff.1 hread
    obtain ⟨ends', hwords'⟩ : ∃ ends', Words ',' UInt64.toNat endText' ends' := by
      refine (exists_forall₂_iff _).2 fun piece hpiece => ?_
      obtain ⟨w, -, hw⟩ := exists_mem_of_forall₂ hwords ((hends piece).2 hpiece)
      exact ⟨w, hw⟩
    -- a numeral has one value, so the words are those of the pieces
    have hunique : Relator.RightUnique fun (piece : List Char) (w : NodeId) =>
        Numeral piece w.toNat := by
      intro piece w w' hw hw'
      rw [← word64?_eq_some_iff] at hw hw'
      exact Option.some.inj (hw.symm.trans hw')
    have hsame : (Std.ExtTreeSet.ofList ends : NodeSet) = .ofList ends' := by
      refine Std.ExtTreeSet.ext_mem fun w => ?_
      rw [mem_ofList_iff, mem_ofList_iff, mem_iff_of_forall₂ hunique hwords,
        mem_iff_of_forall₂ hunique hwords']
      simp only [hends]
    exact isPart_iff.2 ⟨path, endText', labels, ends', cut?_append_cons hpath endText', hlabels,
      ends?_eq_ok_iff.2 hwords', hset.trans hsame, heven, htokens⟩
  exact ⟨hone hends, hone fun piece => (hends piece).symm⟩

/-- **What is replaced says the same** as what it is replaced with. -/
theorem Rewrites.sameSaid {mid mid' : List (List Char)} (h : Rewrites mid mid') :
    SameSaid m mid mid' := by
  cases h with
  | @blank line hblank hbreak =>
      have hnone : ∀ {v : NodeId} {rest : List Char}, ¬ OfNode line v rest :=
        not_ofNode_of_blank hblank
      have hreadable : Readable m line := .inl ⟨hblank, hbreak⟩
      refine ⟨?_, fun v => ?_, fun v row => ?_⟩
      · simp [hreadable]
      · simp [Mentions, hnone]
      · simp [Tells, hnone]
  | @cut v r rs hne hnode hnodes hparts =>
      have hpart : ∀ part, part ∈ parts r.2 ↔ ∃ s ∈ rs, part ∈ parts s.2 := by
        intro part
        rw [hparts, List.mem_flatMap]
      refine sameSaid_of_records (List.cons_ne_nil r []) hne ?_ hnodes ?_ fun row => ?_
      · simpa using hnode
      · simp only [List.mem_singleton, forall_eq, hpart, forall_exists_index, and_imp]
        exact ⟨fun h s hs part => h part s hs, fun h part s hs => h s hs part⟩
      · simp only [List.mem_singleton, exists_eq_left, hpart]
        constructor
        · intro h
          obtain ⟨part, ⟨s, hs, hmem⟩, hrow⟩ := h
          exact ⟨s, hs, part, hmem, hrow⟩
        · intro h
          obtain ⟨s, hs, part, hmem, hrow⟩ := h
          exact ⟨part, ⟨s, hs, hmem⟩, hrow⟩
  | order hnode hparts =>
      refine sameSaid_of_record hnode ?_ fun row => ?_
      · simp only [hparts]
      · simp only [hparts]
  | @ends v node rest rest' path endText endText' before after hnode hpath hrest hrest' hends =>
      have hsame : ∀ row, IsPart m (path ++ '=' :: endText) row ↔
          IsPart m (path ++ '=' :: endText') row := fun _ => isPart_ends_iff hpath hends
      refine sameSaid_of_record hnode ?_ fun row => ?_
      · simp only [hrest, hrest', List.forall_mem_append, List.forall_mem_cons, hsame]
      · simp only [hrest, hrest', List.mem_append, List.mem_cons, or_and_right, exists_or,
          exists_eq_left, hsame]

/-- **Edits**, one after another and there and back, do not change what the lines say. -/
theorem sameSaid_of_edits {lines lines' : List (List Char)}
    (h : Relation.EqvGen Edit lines lines') : SameSaid m lines lines' := by
  induction h with
  | rel lines lines' h =>
      cases h with
      | lines h => exact sameSaid_of_mem_iff h
      | inside before after h => exact h.sameSaid.inside before after
  | refl lines => exact .refl lines
  | symm _ _ _ ih => exact ih.symm
  | trans _ _ _ _ _ ih ih' => exact ih.trans ih'

/-! ## §4. Lines that say the same are read as the same index. -/

theorem isBlank_of_mem_words {ω : Type} {sep : Char} {value : ω → Nat} {s : List Char}
    {words : List ω} (h : Words sep value s words) (hsep : isBlank sep = false) {c : Char}
    (hc : c ∈ s) : isBlank c = false := by
  by_cases hne : c = sep
  · rw [hne]
    exact hsep
  · obtain ⟨piece, hpiece, hmem⟩ := exists_mem_split hc hne
    obtain ⟨w, -, hw⟩ := exists_mem_of_forall₂ h hpiece
    exact isBlank_of_mem_numeral hw hmem

/-- A part that can be read has no blank. -/
theorem IsPart.isBlank {part : List Char} {row : SuffixEnds} (h : IsPart m part row) {c : Char}
    (hc : c ∈ part) : isBlank c = false := by
  obtain ⟨hpath, hlabels, -, hends⟩ := h
  rw [List.mem_append, List.mem_cons] at hc
  rcases hc with hc | rfl | hc
  · cases hlabels with
    | none => cases hc
    | some _ hwords => exact isBlank_of_mem_words hwords (by decide) hc
  · decide
  · exact isBlank_of_mem_words hends (by decide) hc

theorem isBlank_of_mem_rest {rest : List Char}
    (h : ∀ part ∈ parts rest, ∃ row, IsPart m part row) {c : Char} (hc : c ∈ rest) :
    isBlank c = false := by
  by_cases hne : c = '-'
  · rw [hne]
    decide
  · obtain ⟨part, hpart, hmem⟩ := exists_mem_split hc hne
    obtain ⟨row, hrow⟩ := h part (List.mem_filter.2 ⟨hpart, by simp [List.ne_nil_of_mem hmem]⟩)
    exact hrow.isBlank hmem

theorem newline_not_mem_of_readable {line : List Char} (h : Readable m line) : '\n' ∉ line := by
  rcases h with ⟨-, hbreak⟩ | ⟨v, rest, ⟨node, hnode, rfl⟩, hparts⟩
  · exact hbreak
  · intro hmem
    unfold recordLine at hmem
    rw [List.mem_append, List.mem_cons] at hmem
    rcases hmem with hmem | hmem | hmem
    · exact hnode.newline hmem
    · cases hmem
    · exact absurd (isBlank_of_mem_rest hparts hmem) (by decide)

/-- Without the white space around it a record is still one, of the same node with the same
parts; and nothing else is one. -/
theorem isRecord_trim_iff {line : List Char} (h : Readable m line) {v : NodeId}
    {rows : List SuffixEnds} :
    IsRecord m (trim line) (v, rows) ↔
      ∃ rest, OfNode line v rest ∧ List.Forall₂ (IsPart m) (parts rest) rows := by
  rcases h with ⟨hblank, -⟩ | ⟨u, rest, ⟨node, hnode, rfl⟩, hparts⟩
  · rw [hblank]
    constructor
    · intro hrecord
      obtain ⟨_, _, hcut, -⟩ := isRecord_iff.1 hrecord
      cases hcut
    · intro hsome
      obtain ⟨rest, hline, -⟩ := hsome
      exact absurd hline (not_ofNode_of_blank hblank)
  · -- behind the colon there is no blank, so only the name of the node can be trimmed
    have hchars : ∀ c ∈ ':' :: rest, isBlank c = false := by
      intro c hc
      rcases List.mem_cons.1 hc with rfl | hc
      · decide
      · exact isBlank_of_mem_rest hparts hc
    have htrim : trim (recordLine (node, rest)) = trimStart node ++ ':' :: rest :=
      trim_append_cons node hchars
    have hcolon : ':' ∉ trimStart node := fun hmem => hnode.colon ((List.dropWhile_sublist _).mem hmem)
    have hname : Names (node, rest).1 u := hnode
    rw [isRecord_iff, htrim, cut?_append_cons hcolon]
    simp only [Option.some.injEq, Prod.mk.injEq, ofNode_recordLine_iff hname]
    constructor
    · intro hrecord
      obtain ⟨_, _, ⟨rfl, rfl⟩, hword, hrows⟩ := hrecord
      rw [trim_trimStart, word64?_eq_some_iff.2 hnode.value] at hword
      exact ⟨rest, ⟨(Option.some.inj hword).symm, rfl⟩, hrows⟩
    · intro hsome
      obtain ⟨_, ⟨rfl, rfl⟩, hrows⟩ := hsome
      refine ⟨_, _, ⟨rfl, rfl⟩, ?_, hrows⟩
      rw [trim_trimStart]
      exact word64?_eq_some_iff.2 hnode.value

theorem isLine_of_readable {line : List Char} (h : Readable m line) : IsLine m line := by
  rcases id h with ⟨hblank, -⟩ | ⟨v, rest, hline, hparts⟩
  · exact .inl hblank
  · obtain ⟨rows, hrows⟩ := (exists_forall₂_iff _).2 hparts
    exact .inr ⟨(v, rows), (isRecord_trim_iff h).2 ⟨rest, hline, hrows⟩⟩

/-- A line that is read and has no white space around it is as it is said here. -/
theorem readable_of_trimmed {line : List Char} (h : IsLine m line) (htrim : trim line = line)
    (hbreak : '\n' ∉ line) : Readable m line := by
  rcases h with hblank | ⟨entry, hrecord⟩
  · exact .inl ⟨hblank, hbreak⟩
  · rw [htrim] at hrecord
    obtain ⟨node, rest, hcut, hword, hrows⟩ := isRecord_iff.1 hrecord
    obtain ⟨rfl, hcolon⟩ := cut?_eq_some_iff.1 hcut
    have hnode : Names node entry.1 :=
      ⟨hcolon, fun hmem => hbreak (List.mem_append_left _ hmem), word64?_eq_some_iff.1 hword⟩
    exact .inr ⟨entry.1, rest, ⟨node, hnode, rfl⟩, (exists_forall₂_iff _).1 ⟨entry.2, hrows⟩⟩

section
variable {lines : List (List Char)} (hlines : ∀ line ∈ lines, Readable m line)
  {entries : List Entry} (hentries : List.Forall₂ (IsRecord m) (records lines) entries)
include hlines hentries

/-- The entries of lines are what their records say. -/
theorem mem_entries_iff_of_lines {v : NodeId} {rows : List SuffixEnds} :
    (v, rows) ∈ entries ↔
      ∃ line ∈ lines, ∃ rest, OfNode line v rest ∧ List.Forall₂ (IsPart m) (parts rest) rows := by
  rw [mem_iff_of_forall₂ (rightUnique_isRecord m) hentries]
  unfold records
  simp only [List.mem_filter, List.mem_map, Bool.not_eq_true', List.isEmpty_eq_false_iff]
  constructor
  · intro h
    obtain ⟨_, ⟨⟨line, hline, rfl⟩, -⟩, hrecord⟩ := h
    exact ⟨line, hline, (isRecord_trim_iff (hlines line hline)).1 hrecord⟩
  · intro h
    obtain ⟨line, hline, rest, hnode, hrows⟩ := h
    refine ⟨trim line, ⟨⟨line, hline, rfl⟩, fun hblank => not_ofNode_of_blank hblank hnode⟩, ?_⟩
    exact (isRecord_trim_iff (hlines line hline)).2 ⟨rest, hnode, hrows⟩

/-- A record that stands in readable lines has rows for its parts. -/
theorem exists_rows_of_lines {line rest : List Char} {v : NodeId} (hline : line ∈ lines)
    (hnode : OfNode line v rest) :
    ∃ rows, (v, rows) ∈ entries ∧ List.Forall₂ (IsPart m) (parts rest) rows := by
  rcases hlines line hline with ⟨hblank, -⟩ | ⟨v', rest', ⟨node, hname, rfl⟩, hparts⟩
  · exact absurd hnode (not_ofNode_of_blank hblank)
  · obtain ⟨rfl, rfl⟩ := (ofNode_recordLine_iff hname).1 hnode
    obtain ⟨rows, hrows⟩ := (exists_forall₂_iff _).2 hparts
    exact ⟨rows, (mem_entries_iff_of_lines hlines hentries).2 ⟨_, hline, _, hnode, hrows⟩, hrows⟩

theorem exists_entry_iff_mentions (v : NodeId) :
    (∃ entry ∈ entries, entry.1 = v) ↔ Mentions lines v := by
  constructor
  · intro h
    obtain ⟨⟨v, rows⟩, hentry, rfl⟩ := h
    obtain ⟨line, hline, rest, hnode, -⟩ := (mem_entries_iff_of_lines hlines hentries).1 hentry
    exact ⟨line, hline, rest, hnode⟩
  · intro h
    obtain ⟨line, hline, rest, hnode⟩ := h
    obtain ⟨rows, hentry, -⟩ := exists_rows_of_lines hlines hentries hline hnode
    exact ⟨(v, rows), hentry, rfl⟩

theorem mem_rowsFor_iff_tells (v : NodeId) (row : SuffixEnds) :
    row ∈ rowsFor entries v ↔ Tells m lines v row := by
  unfold rowsFor
  rw [List.mem_flatMap]
  constructor
  · intro h
    obtain ⟨⟨u, rows⟩, hunder, hrow⟩ := h
    obtain ⟨hentry, rfl⟩ := mem_under.1 hunder
    obtain ⟨line, hline, rest, hnode, hrows⟩ := (mem_entries_iff_of_lines hlines hentries).1 hentry
    exact ⟨line, hline, rest, hnode,
      (mem_iff_of_forall₂ (rightUnique_isPart m) hrows).1 hrow⟩
  · intro h
    obtain ⟨line, hline, rest, hnode, hpart⟩ := h
    obtain ⟨rows, hentry, hrows⟩ := exists_rows_of_lines hlines hentries hline hnode
    exact ⟨(v, rows), mem_under.2 ⟨hentry, rfl⟩,
      (mem_iff_of_forall₂ (rightUnique_isPart m) hrows).2 hpart⟩

end

/-- Entries for the same nodes, with the same rows for each, make the same index. -/
theorem foldl_addEntry_eq_of_rows {entries entries' : List Entry}
    (hnodes : ∀ v, (∃ entry ∈ entries, entry.1 = v) ↔ ∃ entry ∈ entries', entry.1 = v)
    (hrows : ∀ v row, row ∈ rowsFor entries v ↔ row ∈ rowsFor entries' v) :
    entries.foldl addEntry ∅ = entries'.foldl addEntry ∅ := by
  refine Std.ExtTreeMap.ext_getElem? fun v => Option.ext fun map => ?_
  rw [getElem?_foldl_addEntry, getElem?_foldl_addEntry, hnodes]
  have hsame : SuffixMap.mergeAll ∅ ((under Prod.fst v entries).flatMap Prod.snd) =
      SuffixMap.mergeAll ∅ ((under Prod.fst v entries').flatMap Prod.snd) :=
    SuffixMap.mergeAll_eq_of_mem_iff (hrows v)
  rw [hsame]

/-- **Lines that say the same** are read as the same index. -/
theorem ofText_of_sameSaid {text text' : String} {index : HubIndex}
    (hread : ofText m text = .ok index)
    (hlines : ∀ line ∈ split '\n' text.toList, Readable m line)
    (hsame : SameSaid m (split '\n' text.toList) (split '\n' text'.toList)) :
    ofText m text' = .ok index := by
  have hlines' := hsame.readable.1 hlines
  obtain ⟨index', hread'⟩ := exists_ofText_iff.2 fun line hline => isLine_of_readable (hlines' line hline)
  obtain ⟨entries, hentries, rfl⟩ := ofText_eq_ok_iff.1 hread
  obtain ⟨entries', hentries', rfl⟩ := ofText_eq_ok_iff.1 hread'
  -- the entries may come in another order and be grouped in another way, but not say more or less
  have hmaps : entries'.foldl addEntry ∅ = entries.foldl addEntry ∅ := by
    refine foldl_addEntry_eq_of_rows (fun v => ?_) fun v row => ?_
    · rw [exists_entry_iff_mentions hlines hentries, exists_entry_iff_mentions hlines' hentries',
        hsame.mentions]
    · rw [mem_rowsFor_iff_tells hlines hentries, mem_rowsFor_iff_tells hlines' hentries',
        hsame.tells]
  rw [hread', hmaps]

/-- Lines that are joined come back, but for the one empty line of the empty text. -/
theorem sameSaid_split_join {lines : List (List Char)} (h : ∀ line ∈ lines, '\n' ∉ line) :
    SameSaid m lines (split '\n' (join '\n' lines)) := by
  by_cases hne : lines = []
  · subst hne
    exact (Rewrites.blank rfl List.not_mem_nil).sameSaid
  · rw [split_join hne h]
    exact .refl lines

/-- **A text after edits** is read as the same index. -/
theorem ofText_of_edits {text : String} {index : HubIndex} (hread : ofText m text = .ok index)
    (htrim : ∀ line ∈ split '\n' text.toList, trim line = line) {lines : List (List Char)}
    (hedits : Relation.EqvGen Edit (split '\n' text.toList) lines) :
    ofText m (String.ofList (join '\n' lines)) = .ok index := by
  have hlines : ∀ line ∈ split '\n' text.toList, Readable m line := by
    intro line hline
    exact readable_of_trimmed (exists_ofText_iff.1 ⟨index, hread⟩ line hline) (htrim line hline)
      (not_mem_of_mem_split _ _ line hline)
  have hsame : SameSaid m (split '\n' text.toList) lines := sameSaid_of_edits hedits
  have hbreaks : ∀ line ∈ lines, '\n' ∉ line := fun line hline =>
    newline_not_mem_of_readable (hsame.readable.1 hlines line hline)
  refine ofText_of_sameSaid hread hlines ?_
  rw [String.toList_ofList]
  exact hsame.trans (sameSaid_split_join hbreaks)

/-! ## §5. One text behind the other. -/

/-- The ends of a suffix of a node, if the node is indexed and has the suffix. -/
def endsOf? (index : HubIndex) (v : NodeId) (s : Suffix) : Option NodeSet :=
  (index.get? v).bind fun map => map[s]?

theorem getElem?_withSelf_of_ne {s : Suffix} (hs : s ≠ []) (v : NodeId) (map : SuffixMap) :
    (withSelf v map)[s]? = map[s]? := by
  unfold withSelf
  rw [Std.ExtTreeMap.getElem?_insertIfNew, if_neg]
  exact fun hself => hs (Std.LawfulEqCmp.compare_eq_iff_eq.1 hself.1).symm

/-- The ends of a suffix that is not empty are those of the rows that were given for the node. -/
theorem endsOf?_read (entries : List Entry) (v : NodeId) {s : Suffix} (hs : s ≠ []) :
    endsOf? ⟨(entries.foldl addEntry ∅).map withSelf⟩ v s =
      (SuffixMap.mergeAll ∅ (rowsFor entries v))[s]? := by
  unfold endsOf?
  rw [get?_read]
  unfold readBatch
  by_cases hnone : under Prod.fst v entries = []
  · rw [if_pos hnone]
    unfold rowsFor
    rw [hnone]
    exact Std.ExtTreeMap.getElem?_empty.symm
  · rw [if_neg hnone]
    exact getElem?_withSelf_of_ne hs v _

theorem contains_read (entries : List Entry) (v : NodeId) :
    contains ⟨(entries.foldl addEntry ∅).map withSelf⟩ v = true ↔ ∃ entry ∈ entries, entry.1 = v := by
  have hbatches : ∀ v, get? ⟨(entries.foldl addEntry ∅).map withSelf⟩ v =
      grow v none (batchesOf entries [] v) := by
    intro v
    rw [get?_read]
    exact congrArg (grow v none) (List.append_nil _).symm
  rw [contains_iff_of_history hbatches, List.append_nil]

theorem rowsFor_append (entries entries' : List Entry) (v : NodeId) :
    rowsFor (entries ++ entries') v = rowsFor entries v ++ rowsFor entries' v := by
  unfold rowsFor under
  rw [List.filter_append, List.flatMap_append]

theorem records_append (lines lines' : List (List Char)) :
    records (lines ++ lines') = records lines ++ records lines' := by
  unfold records
  rw [List.map_append, List.filter_append]

/-- A line break at the end adds no record. -/
theorem records_split_newline (a : String) :
    records (split '\n' (a ++ "\n").toList) = records (split '\n' a.toList) := by
  have hnone : records (split '\n' []) = [] := rfl
  rw [String.toList_append, show "\n".toList = ['\n'] from rfl, split_append_sep_cons,
    records_append, hnone, List.append_nil]

/-- **Two texts, one behind the other**, are read when each of them is, and a node has the ends
of a suffix that the one or the other gives it. -/
theorem exists_ofText_append {a b : String} {i j : HubIndex} (hi : ofText m (a ++ "\n") = .ok i)
    (hj : ofText m b = .ok j) :
    ∃ k, ofText m (a ++ "\n" ++ b) = .ok k
      ∧ ∀ v, k.contains v = (i.contains v || j.contains v)
        ∧ ∀ s, s ≠ [] → k.endsOf? v s = (i.endsOf? v s).merge (· ∪ ·) (j.endsOf? v s) := by
  obtain ⟨entries, hentries, rfl⟩ := ofText_eq_ok_iff.1 hi
  obtain ⟨entries', hentries', rfl⟩ := ofText_eq_ok_iff.1 hj
  rw [records_split_newline] at hentries
  have hboth : records (split '\n' (a ++ "\n" ++ b).toList) =
      records (split '\n' a.toList) ++ records (split '\n' b.toList) := by
    rw [String.toList_append, String.toList_append, List.append_assoc,
      show "\n".toList ++ b.toList = '\n' :: b.toList from rfl, split_append_sep_cons,
      records_append]
  refine ⟨_, ofText_eq_ok_iff.2 ⟨entries ++ entries', ?_, rfl⟩, fun v => ⟨?_, fun s hs => ?_⟩⟩
  · rw [hboth]
    exact List.rel_append hentries hentries'
  · rw [Bool.eq_iff_iff, Bool.or_eq_true, contains_read, contains_read, contains_read]
    simp only [List.mem_append, or_and_right, exists_or]
  · rw [endsOf?_read _ v hs, endsOf?_read _ v hs, endsOf?_read _ v hs, rowsFor_append,
      SuffixMap.getElem?_mergeAll_append]

/-! ## §6. The union of records. -/

/-- **Reading is a union of records.**  The lines of a text that is read have no white space around
them.  They may come in another order and number, and so may the parts of a record and the
ends of a part; blank lines may be added, and a record may be cut into records of its node;
all this as often as one likes and in both directions.  Then the text is read, and the index
is the same.  Of two texts that are read the first one ends with a line break.  Then the one
with the other behind it is read, it has the nodes of both, and the ends of a suffix that is
not empty are the union of its ends in the two. -/
theorem ofText_union_of_records (m : Mapping) :
    (∀ text index, ofText m text = .ok index →
      (∀ line ∈ split '\n' text.toList, trim line = line) →
        ∀ lines, Relation.EqvGen Edit (split '\n' text.toList) lines →
          ofText m (String.ofList (join '\n' lines)) = .ok index)
      ∧ ∀ a b i j, ofText m (a ++ "\n") = .ok i → ofText m b = .ok j →
        ∃ k, ofText m (a ++ "\n" ++ b) = .ok k
          ∧ ∀ v, k.contains v = (i.contains v || j.contains v)
            ∧ ∀ s, s ≠ [] → k.endsOf? v s = (i.endsOf? v s).merge (· ∪ ·) (j.endsOf? v s) := by
  constructor
  · intro text index hread htrim lines hedits
    exact ofText_of_edits hread htrim hedits
  · intro a b i j hi hj
    exact exists_ofText_append hi hj

/-- The one record of node 2 is cut, the node of one half is written in another way, the halves
change places, and the ends of one part change places and come again. -/
theorem edits_twins :
    Relation.EqvGen Edit ["2:7|1=1-7|1|7|2=1,2-".toList]
      ["2:7|1|7|2=2,1,2-".toList, "+02 :7|1=1-".toList] := by
  have htwo : Names "2".toList 2 := ⟨by decide, by decide, word64?_eq_some_iff.1 (by decide)⟩
  have hplus : Names "+02 ".toList 2 :=
    ⟨by decide, by decide, word64?_eq_some_iff.1 (by decide)⟩
  have hcut : Rewrites ["2:7|1=1-7|1|7|2=1,2-".toList]
      ["+02 :7|1=1-".toList, "2:7|1|7|2=1,2-".toList] := by
    refine @Rewrites.cut 2 ("2".toList, "7|1=1-7|1|7|2=1,2-".toList)
      [("+02 ".toList, "7|1=1-".toList), ("2".toList, "7|1|7|2=1,2-".toList)] (by decide) htwo ?_
      (by decide)
    exact List.forall_mem_cons.2 ⟨hplus, List.forall_mem_singleton.2 htwo⟩
  have hends : Rewrites ["2:7|1|7|2=1,2-".toList] ["2:7|1|7|2=2,1,2-".toList] := by
    refine @Rewrites.ends 2 "2".toList "7|1|7|2=1,2-".toList "7|1|7|2=2,1,2-".toList
      "7|1|7|2".toList "1,2".toList "2,1,2".toList [] [] htwo (by decide) (by decide) (by decide)
      fun piece => ?_
    rw [show split ',' "1,2".toList = [['1'], ['2']] by decide,
      show split ',' "2,1,2".toList = [['2'], ['1'], ['2']] by decide]
    grind
  have hswap : Edit ["+02 :7|1=1-".toList, "2:7|1|7|2=1,2-".toList]
      ["2:7|1|7|2=1,2-".toList, "+02 :7|1=1-".toList] :=
    .lines fun line => (List.Perm.swap _ _ []).mem_iff
  exact .trans _ _ _ (.rel _ _ (.inside [] [] hcut))
    (.trans _ _ _ (.rel _ _ hswap) (.rel _ _ (.inside [] ["+02 :7|1=1-".toList] hends)))

/-- The text of that record after these edits, and with a record of node 1 behind it. -/
theorem ofText_union_of_records_twins :
    (∃ index, ofText twinLabels "2:7|1=1-7|1|7|2=1,2-" = .ok index
        ∧ ofText twinLabels "2:7|1|7|2=2,1,2-\n+02 :7|1=1-" = .ok index)
      ∧ ∃ i j k, ofText twinLabels ("2:7|1=1-7|1|7|2=1,2-" ++ "\n") = .ok i
        ∧ ofText twinLabels "1:7|2=2\n" = .ok j
        ∧ ofText twinLabels ("2:7|1=1-7|1|7|2=1,2-" ++ "\n" ++ "1:7|2=2\n") = .ok k
        ∧ k.contains 1 = (i.contains 1 || j.contains 1)
        ∧ k.endsOf? 1 [0, 1] = (i.endsOf? 1 [0, 1]).merge (· ∪ ·) (j.endsOf? 1 [0, 1]) := by
  have hsome : ∀ {text : String}, (ofText twinLabels text).toOption.isSome = true →
      ∃ index, ofText twinLabels text = .ok index := by
    intro text hok
    obtain ⟨index, hindex⟩ := Option.isSome_iff_exists.1 hok
    exact ⟨index, toOption_eq_some_iff.1 hindex⟩
  constructor
  · have hok : (ofText twinLabels "2:7|1=1-7|1|7|2=1,2-").toOption.isSome = true := by
      decide +kernel
    obtain ⟨index, hread⟩ := hsome hok
    have hlines : split '\n' "2:7|1=1-7|1|7|2=1,2-".toList = ["2:7|1=1-7|1|7|2=1,2-".toList] := by
      decide +kernel
    have htrim : trim "2:7|1=1-7|1|7|2=1,2-".toList = "2:7|1=1-7|1|7|2=1,2-".toList := by
      decide +kernel
    have htext : String.ofList (join '\n' ["2:7|1|7|2=2,1,2-".toList, "+02 :7|1=1-".toList]) =
        "2:7|1|7|2=2,1,2-\n+02 :7|1=1-" := by decide +kernel
    have hedited := (ofText_union_of_records twinLabels).1 "2:7|1=1-7|1|7|2=1,2-" index hread
    rw [hlines, List.forall_mem_singleton] at hedited
    refine ⟨index, hread, ?_⟩
    rw [← htext]
    exact hedited htrim _ edits_twins
  · have hok : (ofText twinLabels ("2:7|1=1-7|1|7|2=1,2-" ++ "\n")).toOption.isSome = true := by
      decide +kernel
    have hok' : (ofText twinLabels "1:7|2=2\n").toOption.isSome = true := by decide +kernel
    obtain ⟨i, hi⟩ := hsome hok
    obtain ⟨j, hj⟩ := hsome hok'
    obtain ⟨k, hk, hunion⟩ := (ofText_union_of_records twinLabels).2 _ _ i j hi hj
    exact ⟨i, j, k, hi, hj, hk, (hunion 1).1, (hunion 1).2 [0, 1] (by decide)⟩

end LabelWalks.HubIndex
