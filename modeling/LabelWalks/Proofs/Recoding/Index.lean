/-
  LabelWalks.Proofs.Recoding.Index
  ────────────────────────────────
  **AN INDEX TEXT IS FOR EVERY MAPPING.**

  A text holds raw labels, and each of them is looked up again when the text is read;
  the mapping under which it was written has left nothing in it but an order of lines
  and of suffixes, and a reader does not look at these.  So a text that two mappings can
  read is read as the same index up to the indices of labels, and what was written
  under the one is read under the other as what the other would have written.

    • `SuffixMap.Recoded`, `HubIndex.Recoded` — the same suffixes by their labels,
    • `HubIndex.recoded_of_ofText`, `HubIndex.exists_ofText_recoded` — one text, two mappings,
    • `Recoding.exists_suffixesFrom` — the suffix map of a node,
    • `HubIndex.exists_ofText_both` — texts that were written under either mapping.
-/
import LabelWalks.Proofs.HubIndex.History
import LabelWalks.Proofs.HubIndex.Session
import LabelWalks.Proofs.Recoding.Walk

namespace LabelWalks

open Text

variable {m m' : Mapping}

/-! ## §1. Suffix maps. -/

/-- Suffixes under two mappings for the same labels, with the same ends. -/
structure RecodedRow (m m' : Mapping) (row row' : SuffixEnds) : Prop where
  suffix : SameLabels m m' .edge row.1 row'.1
  ends : row'.2 = row.2

theorem RecodedRow.symm {row row' : SuffixEnds} (h : RecodedRow m m' row row') :
    RecodedRow m' m row' row :=
  ⟨h.suffix.symm, h.ends.symm⟩

/-- Suffix maps under two mappings: the same suffixes by their labels, with the same ends. -/
structure SuffixMap.Recoded (m m' : Mapping) (map map' : SuffixMap) : Prop where
  same : ∀ s s', SameLabels m m' .edge s s' → map'[s']? = map[s]?
  forth : ∀ s ends, map[s]? = some ends → ∃ s', SameLabels m m' .edge s s'
  back : ∀ s' ends, map'[s']? = some ends → ∃ s, SameLabels m m' .edge s s'

namespace SuffixMap.Recoded

variable {map map' : SuffixMap}

theorem symm (h : map.Recoded m m' map') : map'.Recoded m' m map where
  same s' s hs := (h.same s s' hs.symm).symm
  forth s' ends hget := (h.back s' ends hget).imp fun _ hs => hs.symm
  back s ends hget := (h.forth s ends hget).imp fun _ hs => hs.symm

theorem empty : Recoded m m' (∅ : SuffixMap) ∅ where
  same s s' _ := by rw [Std.ExtTreeMap.getElem?_empty, Std.ExtTreeMap.getElem?_empty]
  forth s ends hget := by
    rw [Std.ExtTreeMap.getElem?_empty] at hget
    cases hget
  back s' ends hget := by
    rw [Std.ExtTreeMap.getElem?_empty] at hget
    cases hget

/-- **The map under one mapping determines the map under the other.** -/
theorem unique {other : SuffixMap} (h : map.Recoded m m' map') (hother : map.Recoded m m' other) :
    map' = other := by
  refine Std.ExtTreeMap.ext_getElem? fun s' => ?_
  by_cases hs : ∃ s, SameLabels m m' .edge s s'
  · obtain ⟨s, hs⟩ := hs
    rw [h.same s s' hs, hother.same s s' hs]
  · have hnone : ∀ {map' : SuffixMap}, map.Recoded m m' map' → map'[s']? = none := by
      intro map' h
      refine Option.eq_none_iff_forall_ne_some.2 fun ends hget => hs ?_
      exact h.back s' ends hget
    rw [hnone h, hnone hother]

theorem merge_forth (h : map.Recoded m m' map') {row row' : SuffixEnds}
    (hrow : RecodedRow m m' row row') (s : Suffix) (ends : NodeSet)
    (hget : (map.merge row)[s]? = some ends) : ∃ s', SameLabels m m' .edge s s' := by
  rw [getElem?_merge] at hget
  by_cases hs : row.1 = s
  · subst hs
    exact ⟨row'.1, hrow.suffix⟩
  · rw [if_neg hs] at hget
    exact h.forth s ends hget

/-- **One more row** for both. -/
theorem merge (h : map.Recoded m m' map') {row row' : SuffixEnds}
    (hrow : RecodedRow m m' row row') : Recoded m m' (map.merge row) (map'.merge row') where
  same s s' hs := by
    rw [getElem?_merge, getElem?_merge, h.same s s' hs, hrow.ends]
    by_cases hkey : row.1 = s
    · rw [if_pos hkey, if_pos ((hrow.suffix.eq_iff hs).1 hkey)]
    · rw [if_neg hkey, if_neg fun hkey' => hkey ((hrow.suffix.eq_iff hs).2 hkey')]
  forth := h.merge_forth hrow
  back s' ends hget := by
    obtain ⟨s, hs⟩ := h.symm.merge_forth hrow.symm s' ends hget
    exact ⟨s, hs.symm⟩

theorem mergeAll {rows rows' : List SuffixEnds}
    (hrows : List.Forall₂ (RecodedRow m m') rows rows') :
    ∀ {map map' : SuffixMap}, map.Recoded m m' map' →
      Recoded m m' (map.mergeAll rows) (map'.mergeAll rows') := by
  induction hrows with
  | nil => intro map map' h; exact h
  | cons hrow _ ih => intro map map' h; exact ih (h.merge hrow)

theorem contains_nil_iff (h : map.Recoded m m' map') : ([] : Suffix) ∈ map ↔ ([] : Suffix) ∈ map' := by
  rw [Std.ExtTreeMap.mem_iff_isSome_getElem?, Std.ExtTreeMap.mem_iff_isSome_getElem?,
    h.same [] [] sameLabels_nil]

/-- The node itself is added to both maps or to neither. -/
theorem withSelf (h : map.Recoded m m' map') (v : NodeId) :
    Recoded m m' (HubIndex.withSelf v map) (HubIndex.withSelf v map') := by
  by_cases hself : ([] : Suffix) ∈ map
  · have hkeep : ∀ {map : SuffixMap}, ([] : Suffix) ∈ map → HubIndex.withSelf v map = map := by
      intro map hmem
      obtain ⟨ends, hends⟩ := Option.isSome_iff_exists.1 (Std.ExtTreeMap.mem_iff_isSome_getElem?.1 hmem)
      exact HubIndex.withSelf_eq_self hends
    rw [hkeep hself, hkeep (h.contains_nil_iff.1 hself)]
    exact h
  · -- then it is one more row, which nothing was known of
    rw [HubIndex.withSelf_eq_merge hself,
      HubIndex.withSelf_eq_merge fun hmem => hself (h.contains_nil_iff.2 hmem)]
    exact h.merge ⟨sameLabels_nil, rfl⟩

end SuffixMap.Recoded

/-! ## §2. Indexes. -/

/-- Maps of nodes under two mappings: the same nodes, with the same suffixes by their labels. -/
def RecodedMaps (m m' : Mapping) (maps maps' : Std.ExtTreeMap NodeId SuffixMap) : Prop :=
  ∀ v : NodeId, Option.Rel (SuffixMap.Recoded m m') maps[v]? maps'[v]?

/-- Indexes under two mappings: the same nodes, with the same suffixes by their labels. -/
def HubIndex.Recoded (m m' : Mapping) (index index' : HubIndex) : Prop :=
  RecodedMaps m m' index.entries index'.entries

namespace HubIndex

/-- What two records under two mappings say of one node. -/
structure RecodedEntry (m m' : Mapping) (entry entry' : Entry) : Prop where
  node : entry'.1 = entry.1
  rows : List.Forall₂ (RecodedRow m m') entry.2 entry'.2

theorem ext_get? {index index' : HubIndex} (h : ∀ v, index.get? v = index'.get? v) :
    index = index' := by
  obtain ⟨entries⟩ := index
  obtain ⟨entries'⟩ := index'
  exact congrArg HubIndex.mk (Std.ExtTreeMap.ext_getElem? h)

variable {index index' : HubIndex}

theorem Recoded.symm (h : index.Recoded m m' index') : index'.Recoded m' m index := by
  intro v
  have hv := h v
  generalize index.entries[v]? = map, index'.entries[v]? = map' at hv ⊢
  cases hv with
  | none => exact .none
  | some hmap => exact .some hmap.symm

/-- The suffix map of a node is there under the other mapping. -/
theorem Recoded.exists_get? (h : index.Recoded m m' index') {v : NodeId} {map : SuffixMap}
    (hmap : index.get? v = some map) :
    ∃ map', index'.get? v = some map' ∧ map.Recoded m m' map' := by
  have hv : Option.Rel (SuffixMap.Recoded m m') (index.get? v) (index'.get? v) := h v
  rw [hmap] at hv
  generalize index'.get? v = found at hv ⊢
  cases hv with
  | some hrecoded => exact ⟨_, rfl, hrecoded⟩

theorem Recoded.contains_eq (h : index.Recoded m m' index') (v : NodeId) :
    index'.contains v = index.contains v := by
  rw [Bool.eq_iff_iff, contains_iff, contains_iff]
  constructor
  · intro hsome
    obtain ⟨map', hmap'⟩ := hsome
    obtain ⟨map, hmap, -⟩ := h.symm.exists_get? hmap'
    exact ⟨map, hmap⟩
  · intro hsome
    obtain ⟨map, hmap⟩ := hsome
    obtain ⟨map', hmap', -⟩ := h.exists_get? hmap
    exact ⟨map', hmap'⟩

/-- **The index under one mapping determines the index under the other.** -/
theorem Recoded.unique {other : HubIndex} (h : index.Recoded m m' index')
    (hother : index.Recoded m m' other) : index' = other := by
  refine ext_get? fun v => ?_
  show index'.entries[v]? = other.entries[v]?
  have hv := h v
  have hv' := hother v
  generalize index.entries[v]? = map, index'.entries[v]? = map',
    other.entries[v]? = map'' at hv hv' ⊢
  cases hv with
  | none =>
      cases hv'
      rfl
  | some hmap =>
      cases hv' with
      | some hmap' => rw [hmap.unique hmap']

/-- **One more record** for both. -/
theorem RecodedMaps.addEntry {maps maps' : Std.ExtTreeMap NodeId SuffixMap}
    (h : RecodedMaps m m' maps maps') {entry entry' : Entry}
    (hentry : RecodedEntry m m' entry entry') :
    RecodedMaps m m' (addEntry maps entry) (addEntry maps' entry') := by
  intro v
  unfold HubIndex.addEntry
  rw [Std.ExtTreeMap.getElem?_alter, Std.ExtTreeMap.getElem?_alter, hentry.node]
  by_cases hv : compare entry.1 v = .eq
  · rw [if_pos hv, if_pos hv]
    have hold : SuffixMap.Recoded m m' (maps[entry.1]?.getD ∅) (maps'[entry.1]?.getD ∅) := by
      have hrel := h entry.1
      generalize maps[entry.1]? = map, maps'[entry.1]? = map' at hrel ⊢
      cases hrel with
      | none => exact .empty
      | some hmap => exact hmap
    exact .some (.mergeAll hentry.rows hold)
  · rw [if_neg hv, if_neg hv]
    exact h v

theorem RecodedMaps.addAll {entries entries' : List Entry}
    (hentries : List.Forall₂ (RecodedEntry m m') entries entries') :
    ∀ {maps maps' : Std.ExtTreeMap NodeId SuffixMap}, RecodedMaps m m' maps maps' →
      RecodedMaps m m' (entries.foldl HubIndex.addEntry maps)
        (entries'.foldl HubIndex.addEntry maps') := by
  induction hentries with
  | nil => intro maps maps' h; exact h
  | cons hentry _ ih => intro maps maps' h; exact ih (RecodedMaps.addEntry h hentry)

/-- The indexes of the same records, each under a mapping of its own. -/
theorem recoded_of_entries {entries entries' : List Entry}
    (hentries : List.Forall₂ (RecodedEntry m m') entries entries') :
    Recoded m m' ⟨(entries.foldl addEntry ∅).map withSelf⟩
      ⟨(entries'.foldl addEntry ∅).map withSelf⟩ := by
  have hmaps : RecodedMaps m m' (entries.foldl addEntry ∅) (entries'.foldl addEntry ∅) := by
    refine RecodedMaps.addAll hentries fun v => ?_
    show Option.Rel (SuffixMap.Recoded m m') none none
    exact .none
  intro v
  show Option.Rel (SuffixMap.Recoded m m') ((entries.foldl addEntry ∅).map withSelf)[v]?
    ((entries'.foldl addEntry ∅).map withSelf)[v]?
  rw [Std.ExtTreeMap.getElem?_map, Std.ExtTreeMap.getElem?_map]
  have hrel := hmaps v
  generalize (entries.foldl addEntry ∅)[v]? = map, (entries'.foldl addEntry ∅)[v]? = map' at hrel ⊢
  cases hrel with
  | none => exact .none
  | some hmap => exact .some (hmap.withSelf v)

/-! ## §3. One text, two mappings. -/

/-- Pairs of labels are the labels of an even number of tokens. -/
theorem pairs_iff {labels : List Label} {tokens : Suffix} :
    Pairs m labels tokens ↔ tokens.length % 2 = 0 ∧ rawLabels m .edge tokens = .ok labels := by
  constructor
  · intro h
    induction h with
    | none => exact ⟨rfl, rfl⟩
    | @pair edge node labels e n tokens hedge hnode _ ih =>
        obtain ⟨heven, hrest⟩ := ih
        refine ⟨by simp only [List.length_cons]; omega, ?_⟩
        refine rawLabels_cons_eq_ok_iff.2 ⟨edge, ?_, _, rawLabels_cons_eq_ok_iff.2
          ⟨node, ?_, labels, hrest, rfl⟩, rfl⟩
        · exact Mapping.edgeLabel_eq_ok_iff.2 (edgeIndex_eq_ok_iff.2 hedge)
        · exact Mapping.nodeLabel_eq_ok_iff.2 (nodeIndex_eq_ok_iff.2 hnode)
  · intro h
    obtain ⟨heven, hlabels⟩ := h
    refine (tokensOf_eq_ok_iff ?_).1 (tokensOf_of_rawLabels heven hlabels)
    rw [length_of_rawLabels hlabels]
    exact heven

/-- A part is cut and read in one way only. -/
theorem isPart_iff {part : List Char} {row : SuffixEnds} :
    IsPart m part row ↔ ∃ path endText labels ends, cut? '=' part = some (path, endText)
      ∧ labels? path = .ok labels ∧ ends? endText = .ok ends ∧ row.2 = .ofList ends
      ∧ row.1.length % 2 = 0 ∧ rawLabels m .edge row.1 = .ok labels := by
  simp only [cut?_eq_some_iff, labels?_eq_ok_iff, ends?_eq_ok_iff, ← pairs_iff]
  constructor
  · intro h
    obtain ⟨hpath, hlabels, htokens, hends⟩ := h
    exact ⟨_, _, _, _, ⟨rfl, hpath⟩, hlabels, hends, rfl, htokens⟩
  · intro h
    obtain ⟨tokens, rowEnds⟩ := row
    obtain ⟨path, endText, labels, ends, ⟨rfl, hpath⟩, hlabels, hends, rfl, htokens⟩ := h
    exact .intro hpath hlabels htokens hends

theorem isRecord_iff {line : List Char} {entry : Entry} :
    IsRecord m line entry ↔ ∃ nodeText rest, cut? ':' line = some (nodeText, rest)
      ∧ word64? (trim nodeText) = some entry.1
      ∧ List.Forall₂ (IsPart m) (parts rest) entry.2 := by
  simp only [cut?_eq_some_iff, word64?_eq_some_iff]
  constructor
  · intro h
    obtain ⟨hnode, hv, hrows⟩ := h
    exact ⟨_, _, ⟨rfl, hnode⟩, hv, hrows⟩
  · intro h
    obtain ⟨v, rows⟩ := entry
    obtain ⟨nodeText, rest, ⟨rfl, hnode⟩, hv, hrows⟩ := h
    exact .intro hnode hv hrows

/-- **A part under two mappings** has the same labels and the same ends. -/
theorem IsPart.recoded {part : List Char} {row row' : SuffixEnds} (h : IsPart m part row)
    (h' : IsPart m' part row') : RecodedRow m m' row row' := by
  obtain ⟨path, endText, labels, ends, hcut, hlabels, hends, hset, -, htokens⟩ := isPart_iff.1 h
  obtain ⟨_, _, _, _, hcut', hlabels', hends', hset', -, htokens'⟩ := isPart_iff.1 h'
  rw [hcut] at hcut'
  obtain ⟨rfl, rfl⟩ := Prod.mk.inj (Option.some.inj hcut')
  -- the labels and the ends are read without a mapping, so only the tokens can differ
  rw [hlabels] at hlabels'
  rw [hends] at hends'
  obtain rfl := Except.ok.inj hlabels'
  obtain rfl := Except.ok.inj hends'
  exact ⟨⟨labels, htokens, htokens'⟩, hset'.trans hset.symm⟩

/-- A part can be read under a mapping that has tokens for its labels. -/
theorem IsPart.exists_recoded {part : List Char} {row : SuffixEnds} (h : IsPart m part row)
    (hknown : ∃ s', SameLabels m m' .edge row.1 s') : ∃ row', IsPart m' part row' := by
  obtain ⟨path, endText, labels, ends, hcut, hlabels, hends, -, heven, htokens⟩ := isPart_iff.1 h
  obtain ⟨s', hs'⟩ := hknown
  obtain ⟨labels', hsame, htokens'⟩ := id hs'
  rw [htokens] at hsame
  obtain rfl := Except.ok.inj hsame
  refine ⟨(s', .ofList ends), isPart_iff.2 ⟨path, endText, labels, ends, hcut, hlabels, hends, rfl,
    ?_, htokens'⟩⟩
  rw [hs'.length_eq]
  exact heven

theorem IsRecord.recoded {line : List Char} {entry entry' : Entry} (h : IsRecord m line entry)
    (h' : IsRecord m' line entry') : RecodedEntry m m' entry entry' := by
  obtain ⟨nodeText, rest, hcut, hv, hrows⟩ := isRecord_iff.1 h
  obtain ⟨_, _, hcut', hv', hrows'⟩ := isRecord_iff.1 h'
  rw [hcut] at hcut'
  obtain ⟨rfl, rfl⟩ := Prod.mk.inj (Option.some.inj hcut')
  rw [hv] at hv'
  exact ⟨(Option.some.inj hv').symm, forall₂_of_same hrows hrows' fun _ _ _ => IsPart.recoded⟩

theorem IsRecord.exists_recoded {line : List Char} {entry : Entry} (h : IsRecord m line entry)
    (hknown : ∀ row ∈ entry.2, ∃ s', SameLabels m m' .edge row.1 s') :
    ∃ entry', IsRecord m' line entry' := by
  obtain ⟨nodeText, rest, hcut, hv, hrows⟩ := isRecord_iff.1 h
  have hparts : ∀ part ∈ parts rest, ∃ row', IsPart m' part row' := by
    intro part hpart
    obtain ⟨row, hrow, hread⟩ := exists_mem_of_forall₂ hrows hpart
    exact hread.exists_recoded (hknown row hrow)
  obtain ⟨rows', hrows'⟩ := (exists_forall₂_iff _).2 hparts
  exact ⟨(entry.1, rows'), isRecord_iff.2 ⟨nodeText, rest, hcut, hv, hrows'⟩⟩

/-- **A text that two mappings can read** is read as the same index by its labels. -/
theorem recoded_of_ofText {text : String} (h : ofText m text = .ok index)
    (h' : ofText m' text = .ok index') : index.Recoded m m' index' := by
  obtain ⟨entries, hentries, rfl⟩ := ofText_eq_ok_iff.1 h
  obtain ⟨entries', hentries', rfl⟩ := ofText_eq_ok_iff.1 h'
  exact recoded_of_entries (forall₂_of_same hentries hentries' fun _ _ _ => IsRecord.recoded)

/-- Every suffix of a record is in the index. -/
theorem exists_get?_of_mem_entries {entries : List Entry} {entry : Entry} (hentry : entry ∈ entries)
    {row : SuffixEnds} (hrow : row ∈ entry.2) :
    ∃ map ends, get? ⟨(entries.foldl addEntry ∅).map withSelf⟩ entry.1 = some map
      ∧ map[row.1]? = some ends := by
  -- merging never drops a suffix
  have hrows : row ∈ (under Prod.fst entry.1 entries).flatMap Prod.snd :=
    List.mem_flatMap.2 ⟨entry, mem_under.2 ⟨hentry, rfl⟩, hrow⟩
  obtain ⟨ends, hends⟩ := exists_getElem?_gather Prod.fst ∅
    (fun (s : NodeSet) (row : SuffixEnds) => s ∪ row.2) hrows
  rw [← mergeAll_eq_gather] at hends
  refine ⟨withSelf entry.1 (SuffixMap.mergeAll ∅ ((under Prod.fst entry.1 entries).flatMap
    Prod.snd)), ends, ?_, ?_⟩
  · show ((entries.foldl addEntry ∅).map withSelf)[entry.1]? = _
    rw [Std.ExtTreeMap.getElem?_map, getElem?_foldl_addEntry.2 ⟨⟨entry, hentry, rfl⟩, rfl⟩]
    rfl
  · -- a suffix that is there is not the one that is added
    unfold withSelf
    rw [Std.ExtTreeMap.getElem?_insertIfNew, if_neg, hends]
    intro hnew
    rw [Std.LawfulEqCmp.compare_eq_iff_eq.1 hnew.1, Std.ExtTreeMap.mem_iff_isSome_getElem?,
      hends] at hnew
    exact hnew.2 rfl

/-- **A text can be read under another mapping** that has tokens for the labels of all
suffixes in it. -/
theorem exists_ofText_recoded {text : String} (h : ofText m text = .ok index)
    (hknown : ∀ v map (s : Suffix) (ends : NodeSet), index.get? v = some map → map[s]? = some ends →
      ∃ s', SameLabels m m' .edge s s') :
    ∃ index', ofText m' text = .ok index' ∧ index.Recoded m m' index' := by
  obtain ⟨entries, hentries, rfl⟩ := ofText_eq_ok_iff.1 h
  have hlines : ∀ line ∈ records (split '\n' text.toList), ∃ entry', IsRecord m' line entry' := by
    intro line hline
    -- all suffixes of the line are in the index, and what is in the index has tokens
    obtain ⟨entry, hentry, hread⟩ := exists_mem_of_forall₂ hentries hline
    refine hread.exists_recoded fun row hrow => ?_
    obtain ⟨map, ends, hmap, hends⟩ := exists_get?_of_mem_entries hentry hrow
    exact hknown _ map row.1 ends hmap hends
  obtain ⟨entries', hentries'⟩ := (exists_forall₂_iff _).2 hlines
  have h' : ofText m' text = .ok ⟨(entries'.foldl addEntry ∅).map withSelf⟩ :=
    ofText_eq_ok_iff.2 ⟨entries', hentries', rfl⟩
  exact ⟨_, h', recoded_of_ofText h h'⟩

end HubIndex

/-! ## §4. The suffix map of a node. -/

namespace Recoding

variable {g : GraphView} {length : PathLength} (h : Recoding g m m')
include h

theorem suffixesFrom_forth {v : NodeId} {map : SuffixMap}
    (hmap : suffixesFrom g m v length = .ok map) (s : Suffix) (ends : NodeSet)
    (hget : map[s]? = some ends) : ∃ s', SameLabels m m' .edge s s' := by
  obtain ⟨-, ⟨w, hw⟩, hends⟩ := (getElem?_suffixesFrom hmap).1 hget
  obtain ⟨s', hs', -⟩ := h.exists_endsAt ((hends w).1 hw)
  exact ⟨s', hs'⟩

/-- **The suffix map of a node** under the other mapping has the same suffixes by their labels. -/
theorem exists_suffixesFrom {v : NodeId} {map : SuffixMap}
    (hmap : suffixesFrom g m v length = .ok map) :
    ∃ map', suffixesFrom g m' v length = .ok map' ∧ map.Recoded m m' map' := by
  obtain ⟨⟨n, hn⟩, hclear⟩ := exists_suffixesFrom_iff.1 ⟨map, hmap⟩
  obtain ⟨n', hn', -⟩ := h.exists_indexOfNode hn
  obtain ⟨map', hmap'⟩ := exists_suffixesFrom_iff.2 ⟨⟨n', hn'⟩, h.clear (fun _ => rfl) hclear⟩
  refine ⟨map', hmap', ?_, h.suffixesFrom_forth hmap, fun s' ends hget => ?_⟩
  · intro s s' hs
    refine Option.ext fun ends => ?_
    have hends : ∀ w, EndsAt g m' v s' w ↔ EndsAt g m v s w := fun w =>
      ⟨h.symm.endsAt hs.symm, h.endsAt hs⟩
    rw [getElem?_suffixesFrom hmap, getElem?_suffixesFrom hmap', hs.length_eq]
    simp only [hends]
  · obtain ⟨s, hs⟩ := h.symm.suffixesFrom_forth hmap' s' ends hget
    exact ⟨s, hs.symm⟩

end Recoding

/-! ## §5. Texts that were written under either mapping. -/

namespace HubIndex

/-- Indexes of the suffix maps of the same nodes, each under a mapping of its own. -/
theorem recoded_of_suffixesFrom {g : GraphView} (hrecoding : Recoding g m m') {length : PathLength}
    {nodes : List NodeId} {index index' : HubIndex}
    (hindex : ∀ v map, index.get? v = some map ↔ v ∈ nodes ∧ suffixesFrom g m v length = .ok map)
    (hindex' : ∀ v map, index'.get? v = some map ↔
      v ∈ nodes ∧ suffixesFrom g m' v length = .ok map) :
    index.Recoded m m' index' := by
  intro v
  show Option.Rel _ (index.get? v) (index'.get? v)
  cases hget : index.get? v with
  | some map =>
      obtain ⟨hv, hmap⟩ := (hindex v map).1 hget
      obtain ⟨map', hmap', hrecoded⟩ := hrecoding.exists_suffixesFrom hmap
      rw [(hindex' v map').2 ⟨hv, hmap'⟩]
      exact .some hrecoded
  | none =>
      -- a map under the other mapping would be one under this mapping too
      cases hget' : index'.get? v with
      | none => exact .none
      | some map' =>
          obtain ⟨hv, hmap'⟩ := (hindex' v map').1 hget'
          obtain ⟨map, hmap, -⟩ := hrecoding.symm.exists_suffixesFrom hmap'
          rw [(hindex v map).2 ⟨hv, hmap⟩] at hget
          cases hget

/-- **Portability**: what was written under one mapping is read under another as what the other
would have written.  Both mappings know all labels of the graph; the calls may have any number
of workers and any schedule, and each writes to a new sink that takes everything.  Then both
texts are read under the second mapping as one index, with the same nodes, the same suffixes
and the same ends. -/
theorem exists_ofText_both {g : GraphView} (hm : m.Knows g) (hm' : m'.Knows g)
    {length : PathLength} {nodes : List NodeId} {workers workers' : Nat} {sink sink' : Sink}
    (hsink : sink.Accepting) (hempty : sink.written = "") (hsink' : sink'.Accepting)
    (hempty' : sink'.written = "") {result result' : Sink × Except Fault Report}
    (h : Builds g m length nodes workers sink result)
    (h' : Builds g m' length nodes workers' sink' result') :
    ∃ index, ofText m' result.1.written = .ok index ∧ ofText m' result'.1.written = .ok index := by
  have hrecoding : Recoding g m m' := ⟨hm, hm'⟩
  -- each text under the mapping that wrote it
  obtain ⟨first, hread, hfirst⟩ := Builds.exists_ofText hsink hempty h
  obtain ⟨second, hread', hsecond⟩ := Builds.exists_ofText hsink' hempty' h'
  -- the first text under the other mapping
  obtain ⟨moved, hmoved, hrecoded⟩ : ∃ moved, ofText m' result.1.written = .ok moved
      ∧ first.Recoded m m' moved := by
    refine exists_ofText_recoded hread fun v map s ends hmap hends => ?_
    exact hrecoding.suffixesFrom_forth ((hfirst v map).1 hmap).2 s ends hends
  have hsame : first.Recoded m m' second := recoded_of_suffixesFrom hrecoding hfirst hsecond
  refine ⟨second, ?_, hread'⟩
  rw [hmoved, hrecoded.unique hsame]

/-- Under `twinLabels` node label 1 has index 0, under `otherLabels` it has index 2. -/
theorem exists_ofText_both_twins :
    ∃ result result', Builds twins.view twinLabels ⟨2, by decide, by decide⟩ [2, 1] 1 .unlimited result
      ∧ Builds twins.view otherLabels ⟨2, by decide, by decide⟩ [2, 1] 3 .unlimited result'
      ∧ ∃ index, ofText otherLabels result.1.written = .ok index
        ∧ ofText otherLabels result'.1.written = .ok index := by
  obtain ⟨result, hbuilds⟩ :=
    exists_builds twins.view twinLabels ⟨2, by decide, by decide⟩ [2, 1] 1 .unlimited
  obtain ⟨result', hbuilds'⟩ :=
    exists_builds twins.view otherLabels ⟨2, by decide, by decide⟩ [2, 1] 3 .unlimited
  exact ⟨result, result', hbuilds, hbuilds', exists_ofText_both twinLabels_knows otherLabels_knows
    Sink.unlimited_accepting rfl Sink.unlimited_accepting rfl hbuilds hbuilds'⟩

end HubIndex

end LabelWalks
