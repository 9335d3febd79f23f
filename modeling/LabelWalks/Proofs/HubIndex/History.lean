/-
  LabelWalks.Proofs.HubIndex.History
  ──────────────────────────────────
  **AN INDEX AND ALL THAT WAS SAID TO IT.**

  An index is read from a text, and suffixes are inserted after that, for any node and
  as often as one likes.  Reading merges all records of a node before it completes the
  entry; an insertion takes the entry of its node apart, merges and completes it
  again.  Here an entry is told from what was given for its node: the rows come in
  batches, all records of the text together as the first one and each insertion as one
  more, and the entry unites them all with the row of the node itself, unless the first
  batch has the empty suffix already.

    • `Says`, `insertAll`, `batchesOf` — what is said to an index, and for which node,
    • `get?_after` — an entry, told from its batches,
    • `upheld_after` — what an index is after any history.
-/
import LabelWalks.Proofs.HubIndex.Grammar
import LabelWalks.Proofs.HubIndex.RoundTrip

namespace LabelWalks

/-! ## §1. Rows. -/

namespace SuffixMap

theorem getElem?_merge (map : SuffixMap) (row : SuffixEnds) (s : Suffix) :
    (map.merge row)[s]? = if row.1 = s then some ((map[s]?).getD ∅ ∪ row.2) else map[s]? := by
  unfold merge
  rw [Std.ExtTreeMap.getElem?_alter]
  by_cases hs : row.1 = s
  · rw [if_pos hs, if_pos (Std.LawfulEqCmp.compare_eq_iff_eq.2 hs), hs]
  · rw [if_neg hs, if_neg fun heq => hs (Std.LawfulEqCmp.compare_eq_iff_eq.1 heq)]

theorem mergeAll_append (map : SuffixMap) (rows rows' : List SuffixEnds) :
    map.mergeAll (rows ++ rows') = (map.mergeAll rows).mergeAll rows' :=
  List.foldl_append

/-- One more set of ends may be added before two entries are united or after. -/
theorem getD_merge_union (ends ends' : Option NodeSet) (more : NodeSet) :
    some ((ends.merge (· ∪ ·) ends').getD ∅ ∪ more) =
      ends.merge (· ∪ ·) (some (ends'.getD ∅ ∪ more)) := by
  cases ends with
  | none => cases ends' <;> rfl
  | some a =>
      cases ends' with
      | none =>
          show some (a ∪ more) = some (a ∪ (∅ ∪ more))
          rw [NodeSet.empty_union]
      | some b =>
          show some (a ∪ b ∪ more) = some (a ∪ (b ∪ more))
          rw [NodeSet.union_assoc]

/-- **More rows** unite their ends with those that were there. -/
theorem getElem?_mergeAll_append (rows rows' : List SuffixEnds) (s : Suffix) :
    (mergeAll ∅ (rows ++ rows'))[s]? =
      ((mergeAll ∅ rows)[s]?).merge (· ∪ ·) ((mergeAll ∅ rows')[s]?) := by
  -- on the second list from its end, where one row more comes in on both sides
  induction rows' using List.reverseRecOn with
  | nil =>
      rw [List.append_nil]
      show _ = Option.merge _ _ (∅ : SuffixMap)[s]?
      rw [Std.ExtTreeMap.getElem?_empty, Option.merge_none_right]
  | append_singleton rows' row ih =>
      have hlast : ∀ rows : List SuffixEnds, (mergeAll ∅ (rows ++ [row]))[s]? =
          if row.1 = s then some ((mergeAll ∅ rows)[s]?.getD ∅ ∪ row.2)
          else (mergeAll ∅ rows)[s]? := by
        intro rows
        rw [mergeAll_append]
        exact getElem?_merge _ row s
      rw [← List.append_assoc, hlast, hlast, ih]
      by_cases hs : row.1 = s
      · rw [if_pos hs, if_pos hs]
        exact getD_merge_union _ _ row.2
      · rw [if_neg hs, if_neg hs]

/-- **Rows that give the same** suffixes and ends make the same map. -/
theorem mergeAll_eq_of_same {rows rows' : List SuffixEnds}
    (hsuffixes : ∀ s, (∃ row ∈ rows, row.1 = s) ↔ ∃ row ∈ rows', row.1 = s)
    (hends : ∀ s w, (∃ row ∈ rows, row.1 = s ∧ w ∈ row.2) ↔
      ∃ row ∈ rows', row.1 = s ∧ w ∈ row.2) :
    mergeAll ∅ rows = mergeAll ∅ rows' := by
  refine Std.ExtTreeMap.ext_getElem? fun s => Option.ext fun ends => ?_
  rw [getElem?_mergeAll_empty, getElem?_mergeAll_empty]
  simp only [hsuffixes, hends]

/-- The order and the number of rows do not matter. -/
theorem mergeAll_eq_of_mem_iff {rows rows' : List SuffixEnds}
    (h : ∀ row, row ∈ rows ↔ row ∈ rows') : mergeAll ∅ rows = mergeAll ∅ rows' := by
  refine mergeAll_eq_of_same (fun s => ?_) fun s w => ?_
  · simp only [h]
  · simp only [h]

theorem exists_getElem?_mergeAll_iff {rows : List SuffixEnds} {s : Suffix} :
    (∃ ends, (mergeAll ∅ rows)[s]? = some ends) ↔ ∃ row ∈ rows, row.1 = s := by
  constructor
  · intro h
    obtain ⟨ends, hends⟩ := h
    exact (getElem?_mergeAll_empty.1 hends).1
  · intro h
    obtain ⟨row, hrow, rfl⟩ := h
    exact exists_getElem?_gather Prod.fst ∅ (fun (s : NodeSet) (row : SuffixEnds) => s ∪ row.2) hrow

/-- An end of a suffix comes from a row. -/
theorem exists_end_mergeAll_iff {rows : List SuffixEnds} {s : Suffix} {w : NodeId} :
    (∃ ends, (mergeAll ∅ rows)[s]? = some ends ∧ w ∈ ends) ↔ ∃ row ∈ rows, row.1 = s ∧ w ∈ row.2 := by
  constructor
  · intro h
    obtain ⟨ends, hends, hw⟩ := h
    exact ((getElem?_mergeAll_empty.1 hends).2 w).1 hw
  · intro h
    obtain ⟨row, hrow, hs, hw⟩ := h
    obtain ⟨ends, hends⟩ := exists_getElem?_mergeAll_iff.2 ⟨row, hrow, hs⟩
    exact ⟨ends, hends, ((getElem?_mergeAll_empty.1 hends).2 w).2 ⟨row, hrow, hs, hw⟩⟩

end SuffixMap

namespace HubIndex

open Text

variable {m : Mapping}

/-- The row of the node itself: the empty suffix ends there. -/
def selfRow (v : NodeId) : SuffixEnds :=
  ([], (∅ : NodeSet).insert v)

/-- The row that rows without the empty suffix are completed with. -/
def missingRow (v : NodeId) (rows : List SuffixEnds) : List SuffixEnds :=
  if ∃ row ∈ rows, row.1 = [] then [] else [selfRow v]

/-- A map without the empty suffix gets the row of the node itself. -/
theorem withSelf_eq_merge {v : NodeId} {map : SuffixMap} (h : ([] : Suffix) ∉ map) :
    withSelf v map = map.merge (selfRow v) := by
  refine Std.ExtTreeMap.ext_getElem? fun s => ?_
  unfold withSelf selfRow
  rw [Std.ExtTreeMap.getElem?_insertIfNew, SuffixMap.getElem?_merge]
  by_cases hs : ([] : Suffix) = s
  · subst hs
    have hnone : map[([] : Suffix)]? = none := Std.ExtTreeMap.getElem?_eq_none h
    rw [if_pos ⟨Std.LawfulEqCmp.compare_eq_iff_eq.2 rfl, h⟩, if_pos rfl, hnone]
    refine congrArg some (Std.ExtTreeSet.ext_mem fun w => ?_)
    simp [Std.ExtTreeSet.mem_union_iff]
  · rw [if_neg hs, if_neg fun heq => hs (Std.LawfulEqCmp.compare_eq_iff_eq.1 heq.1)]

/-- **An entry is completed** with at most one row. -/
theorem withSelf_mergeAll (v : NodeId) (rows : List SuffixEnds) :
    withSelf v (SuffixMap.mergeAll ∅ rows) = SuffixMap.mergeAll ∅ (rows ++ missingRow v rows) := by
  unfold missingRow
  by_cases hself : ∃ row ∈ rows, row.1 = []
  · obtain ⟨ends, hends⟩ := SuffixMap.exists_getElem?_mergeAll_iff.2 hself
    rw [if_pos hself, List.append_nil, withSelf_eq_self hends]
  · have hnone : ([] : Suffix) ∉ SuffixMap.mergeAll ∅ rows := by
      rw [Std.ExtTreeMap.mem_iff_isSome_getElem?, Option.isSome_iff_exists,
        SuffixMap.exists_getElem?_mergeAll_iff]
      exact hself
    rw [if_neg hself, SuffixMap.mergeAll_append, withSelf_eq_merge hnone]
    rfl

/-! ## §2. What is said to an index. -/

/-- The text consists of these records, blank lines left out. -/
def Says (m : Mapping) (text : String) (entries : List Entry) : Prop :=
  List.Forall₂ (IsRecord m) (records (split '\n' text.toList)) entries

/-- The index after insertions, one after another. -/
def insertAll (index : HubIndex) (calls : List Entry) : HubIndex :=
  calls.foldl (fun index call => index.insert call.1 call.2) index

/-- All rows that were given for a node, in records or in insertions. -/
def rowsFor (given : List Entry) (v : NodeId) : List SuffixEnds :=
  (under Prod.fst v given).flatMap Prod.snd

/-- The batch of a node in a text: all of its records together, if it has one. -/
def readBatch (entries : List Entry) (v : NodeId) : List (List SuffixEnds) :=
  if under Prod.fst v entries = [] then [] else [rowsFor entries v]

/-- The batches of a node in a list of insertions. -/
def insertedBatches (calls : List Entry) (v : NodeId) : List (List SuffixEnds) :=
  (under Prod.fst v calls).map Prod.snd

/-- The batches of a node in a text and in the insertions after it. -/
def batchesOf (entries calls : List Entry) (v : NodeId) : List (List SuffixEnds) :=
  readBatch entries v ++ insertedBatches calls v

theorem flatten_batchesOf (entries calls : List Entry) (v : NodeId) :
    (batchesOf entries calls v).flatten = rowsFor (entries ++ calls) v := by
  unfold batchesOf readBatch rowsFor under
  rw [List.filter_append, List.flatMap_append, List.flatten_append]
  refine congrArg (· ++ _) ?_
  by_cases hnone : (entries.filter fun entry => decide (entry.1 = v)) = []
  · rw [if_pos hnone, hnone]
    rfl
  · rw [if_neg hnone, List.flatten_singleton]

/-- A node without a batch is in no record and in no insertion. -/
theorem batchesOf_eq_nil_iff {entries calls : List Entry} {v : NodeId} :
    batchesOf entries calls v = [] ↔ ¬ ∃ entry ∈ entries ++ calls, entry.1 = v := by
  have hread : readBatch entries v = [] ↔ ∀ entry ∈ entries, entry.1 ≠ v := by
    unfold readBatch
    rw [← under_eq_nil_iff]
    by_cases hnone : under Prod.fst v entries = []
    · simp [hnone]
    · simp [hnone]
  unfold batchesOf insertedBatches
  rw [List.append_eq_nil_iff, List.map_eq_nil_iff, under_eq_nil_iff, hread]
  simp only [not_exists, not_and, List.mem_append, or_imp, forall_and, ne_eq]

/-! ## §3. One entry. -/

/-- An entry after batches, one after another. -/
def grow (v : NodeId) (entry : Option SuffixMap) (batches : List (List SuffixEnds)) :
    Option SuffixMap :=
  batches.foldl (fun entry rows => some (withSelf v ((entry.getD ∅).mergeAll rows))) entry

theorem get?_insert (index : HubIndex) (v : NodeId) (rows : List SuffixEnds) (w : NodeId) :
    (index.insert v rows).get? w =
      if v = w then grow v (index.get? v) [rows] else index.get? w := by
  show (index.entries.insert v _)[w]? = _
  rw [Std.ExtTreeMap.getElem?_insert, Std.ExtTreeMap.getD_eq_getD_getElem?]
  by_cases hvw : v = w
  · rw [if_pos hvw, if_pos (Std.LawfulEqCmp.compare_eq_iff_eq.2 hvw)]
    rfl
  · rw [if_neg hvw, if_neg fun heq => hvw (Std.LawfulEqCmp.compare_eq_iff_eq.1 heq)]
    rfl

/-- **All insertions**: an entry grows by the batches of its node. -/
theorem get?_insertAll (calls : List Entry) (v : NodeId) :
    ∀ index : HubIndex,
      (index.insertAll calls).get? v = grow v (index.get? v) (insertedBatches calls v) := by
  induction calls with
  | nil => intro index; rfl
  | cons call calls ih =>
      intro index
      show ((index.insert call.1 call.2).insertAll calls).get? v = _
      rw [ih, get?_insert]
      unfold insertedBatches under
      by_cases hv : call.1 = v
      · rw [if_pos hv, List.filter_cons_of_pos (by simpa using hv), hv]
        rfl
      · rw [if_neg hv, List.filter_cons_of_neg (by simpa using hv)]

/-- What the records of a node say together. -/
theorem getElem?_foldl_addEntry {entries : List Entry} {v : NodeId} {map : SuffixMap} :
    (entries.foldl addEntry ∅)[v]? = some map ↔ (∃ entry ∈ entries, entry.1 = v)
      ∧ map = SuffixMap.mergeAll ∅ ((under Prod.fst v entries).flatMap Prod.snd) := by
  have hgather : entries.foldl addEntry ∅ = gather Prod.fst ∅
      (fun (map : SuffixMap) (entry : Entry) => map.mergeAll entry.2) ∅ entries := rfl
  rw [hgather, getElem?_gather_empty_eq_some_iff]
  unfold SuffixMap.mergeAll
  rw [List.foldl_flatMap]

/-- **The whole text**: an entry is its one batch. -/
theorem get?_read (entries : List Entry) (v : NodeId) :
    get? ⟨(entries.foldl addEntry ∅).map withSelf⟩ v = grow v none (readBatch entries v) := by
  show ((entries.foldl addEntry ∅).map withSelf)[v]? = _
  rw [Std.ExtTreeMap.getElem?_map]
  unfold readBatch
  by_cases hnone : under Prod.fst v entries = []
  · have hget : (entries.foldl addEntry ∅)[v]? = none := by
      refine Option.eq_none_iff_forall_ne_some.2 fun map hmap => ?_
      obtain ⟨⟨entry, hentry, hv⟩, -⟩ := getElem?_foldl_addEntry.1 hmap
      exact under_eq_nil_iff.1 hnone entry hentry hv
    rw [if_pos hnone, hget]
    rfl
  · obtain ⟨entry, hentry⟩ := List.exists_mem_of_ne_nil _ hnone
    rw [if_neg hnone, getElem?_foldl_addEntry.2 ⟨⟨entry, mem_under.1 hentry⟩, rfl⟩]
    rfl

/-- **A text and insertions after it**: an entry is made of the batches of its node. -/
theorem get?_after {text : String} {base : HubIndex} (hread : ofText m text = .ok base) :
    ∃ entries, Says m text entries ∧ ∀ calls v,
      (base.insertAll calls).get? v = grow v none (batchesOf entries calls v) := by
  obtain ⟨entries, hentries, rfl⟩ := ofText_eq_ok_iff.1 hread
  refine ⟨entries, hentries, fun calls v => ?_⟩
  rw [get?_insertAll, get?_read]
  exact List.foldl_append.symm

/-- More batches for a map that has the empty suffix are only merged. -/
theorem grow_some (v : NodeId) (batches : List (List SuffixEnds)) :
    ∀ {rows : List SuffixEnds}, (∃ row ∈ rows, row.1 = []) →
      grow v (some (SuffixMap.mergeAll ∅ rows)) batches =
        some (SuffixMap.mergeAll ∅ (rows ++ batches.flatten)) := by
  induction batches with
  | nil =>
      intro rows _
      rw [List.flatten_nil, List.append_nil]
      rfl
  | cons batch batches ih =>
      intro rows hself
      have hmore : ∃ row ∈ rows ++ batch, row.1 = [] := by
        obtain ⟨row, hrow, hnil⟩ := hself
        exact ⟨row, List.mem_append_left _ hrow, hnil⟩
      have hnothing : missingRow v (rows ++ batch) = [] := if_pos hmore
      show grow v (some (withSelf v ((SuffixMap.mergeAll ∅ rows).mergeAll batch))) batches = _
      rw [← SuffixMap.mergeAll_append, withSelf_mergeAll, hnothing, List.append_nil, ih hmore,
        List.flatten_cons, List.append_assoc]

theorem exists_nil_mem_missingRow (v : NodeId) (rows : List SuffixEnds) :
    ∃ row ∈ rows ++ missingRow v rows, row.1 = [] := by
  unfold missingRow
  by_cases hself : ∃ row ∈ rows, row.1 = []
  · rw [if_pos hself, List.append_nil]
    exact hself
  · rw [if_neg hself]
    exact ⟨selfRow v, List.mem_append_right _ List.mem_cons_self, rfl⟩

/-- **An entry from nothing**: all rows together, and the row of the node itself if the first
batch has no empty suffix. -/
theorem grow_none_cons (v : NodeId) (first : List SuffixEnds) (rest : List (List SuffixEnds)) :
    grow v none (first :: rest) =
      some (SuffixMap.mergeAll ∅ ((first ++ missingRow v first) ++ rest.flatten)) := by
  show grow v (some (withSelf v (SuffixMap.mergeAll ∅ first))) rest = _
  rw [withSelf_mergeAll, grow_some v rest (exists_nil_mem_missingRow v first)]

theorem grow_none_eq_none_iff {v : NodeId} {batches : List (List SuffixEnds)} :
    grow v none batches = none ↔ batches = [] := by
  cases batches with
  | nil => exact iff_of_true rfl rfl
  | cons first rest =>
      rw [grow_none_cons]
      simp

/-- The rows of an entry are those that were given, but for the row of the node itself. -/
theorem exists_completed_iff {v : NodeId} {first : List SuffixEnds}
    {rest : List (List SuffixEnds)} {p : SuffixEnds → Prop} (hself : ¬ p (selfRow v)) :
    (∃ row ∈ (first ++ missingRow v first) ++ rest.flatten, p row) ↔
      ∃ row ∈ (first :: rest).flatten, p row := by
  have hmissing : ∀ row ∈ missingRow v first, ¬ p row := by
    intro row hrow
    unfold missingRow at hrow
    by_cases hnil : ∃ row ∈ first, row.1 = []
    · rw [if_pos hnil] at hrow
      cases hrow
    · rw [if_neg hnil, List.mem_singleton] at hrow
      rw [hrow]
      exact hself
  rw [List.flatten_cons]
  constructor
  · intro h
    obtain ⟨row, hrow, hp⟩ := h
    rcases List.mem_append.1 hrow with hrow | hrow
    · rcases List.mem_append.1 hrow with hrow | hrow
      · exact ⟨row, List.mem_append_left _ hrow, hp⟩
      · exact absurd hp (hmissing row hrow)
    · exact ⟨row, List.mem_append_right _ hrow, hp⟩
  · intro h
    obtain ⟨row, hrow, hp⟩ := h
    rcases List.mem_append.1 hrow with hrow | hrow
    · exact ⟨row, List.mem_append_left _ (List.mem_append_left _ hrow), hp⟩
    · exact ⟨row, List.mem_append_right _ hrow, hp⟩

/-! ## §4. What an index is after any history. -/

theorem pairwise_suffixes (map : SuffixMap) : (map.toList.map Prod.fst).Pairwise (· < ·) := by
  rw [List.pairwise_map]
  exact Std.ExtTreeMap.ordered_keys_toList.imp compare_tokens_eq_lt_iff.1

/-- The empty suffix comes before all others. -/
theorem exists_toList_eq_cons {map : SuffixMap} {ends : NodeSet}
    (h : map[([] : Suffix)]? = some ends) : ∃ rest, map.toList = ([], ends) :: rest := by
  have hmem : (([] : Suffix), ends) ∈ map.toList :=
    Std.ExtTreeMap.mem_toList_iff_getElem?_eq_some.2 h
  have hascending := pairwise_suffixes map
  cases hlist : map.toList with
  | nil =>
      rw [hlist] at hmem
      cases hmem
  | cons row rest =>
      rw [hlist] at hmem hascending
      rcases List.mem_cons.1 hmem with hfirst | hlater
      · exact ⟨rest, by rw [hfirst]⟩
      · have hless : row.1 < [] :=
          List.rel_of_pairwise_cons hascending (List.mem_map_of_mem hlater)
        exact absurd hless (List.not_lt_nil _)

/-- **An insertion loses nothing** of the entry of its node. -/
theorem exists_get?_insert {index : HubIndex} {v : NodeId} {map : SuffixMap}
    (h : index.get? v = some map) (rows : List SuffixEnds) :
    ∃ map', (index.insert v rows).get? v = some map' ∧ ∀ (s : Suffix) (ends : NodeSet),
      map[s]? = some ends → ∃ ends', map'[s]? = some ends' ∧ ∀ w ∈ ends, w ∈ ends' := by
  have hget : (index.insert v rows).get? v = some (SuffixMap.mergeAll ∅
      ((map.toList ++ rows) ++ missingRow v (map.toList ++ rows))) := by
    rw [get?_insert, if_pos rfl, h, ← withSelf_mergeAll, SuffixMap.mergeAll_append, mergeAll_toList]
    rfl
  refine ⟨_, hget, fun s ends hends => ?_⟩
  have hrow : (s, ends) ∈ (map.toList ++ rows) ++ missingRow v (map.toList ++ rows) :=
    List.mem_append_left _ (List.mem_append_left _
      (Std.ExtTreeMap.mem_toList_iff_getElem?_eq_some.2 hends))
  obtain ⟨ends', hends'⟩ := SuffixMap.exists_getElem?_mergeAll_iff.2 ⟨_, hrow, rfl⟩
  exact ⟨ends', hends', fun w hw => ((getElem?_mergeAll_empty.1 hends').2 w).2 ⟨_, hrow, rfl, hw⟩⟩

/-- **What holds of an index** that was told these records and insertions. -/
structure Upheld (entries calls : List Entry) (index : HubIndex) : Prop where
  /-- The suffixes of an entry ascend, so none of them comes twice. -/
  ascending : ∀ v map, index.get? v = some map → (map.toList.map Prod.fst).Pairwise (· < ·)
  /-- The first one is empty. -/
  first : ∀ v map, index.get? v = some map → ∃ ends rest, map.toList = ([], ends) :: rest
  /-- The indexed nodes are those of the records and of the insertions. -/
  contains_iff : ∀ v, index.contains v = true ↔ ∃ entry ∈ entries ++ calls, entry.1 = v
  contains_eq : ∀ v, index.contains v = (index.get? v).isSome
  size : index.size = ((entries ++ calls).map Prod.fst).eraseDups.length
  /-- A suffix that is not empty is there when it was given, with all ends that were given for it
  and no others. -/
  ends_iff : ∀ v map, index.get? v = some map → ∀ s : Suffix, s ≠ [] → ∀ ends : NodeSet,
    map[s]? = some ends ↔ (∃ row ∈ rowsFor (entries ++ calls) v, row.1 = s)
      ∧ ∀ w, w ∈ ends ↔ ∃ row ∈ rowsFor (entries ++ calls) v, row.1 = s ∧ w ∈ row.2
  /-- One more insertion changes no entry but that of its node. -/
  others : ∀ v rows w, v ≠ w → (index.insert v rows).get? w = index.get? w
  /-- Of that entry it loses nothing. -/
  kept : ∀ v rows map, index.get? v = some map → ∃ map', (index.insert v rows).get? v = some map'
    ∧ ∀ (s : Suffix) (ends : NodeSet), map[s]? = some ends →
      ∃ ends', map'[s]? = some ends' ∧ ∀ w ∈ ends, w ∈ ends'

variable {entries calls : List Entry} {index : HubIndex}

/-- An entry comes from the batches of its node, of which there is one at least. -/
theorem exists_batches_of_get? (h : ∀ v, index.get? v = grow v none (batchesOf entries calls v))
    {v : NodeId} {map : SuffixMap} (hmap : index.get? v = some map) :
    ∃ first rest, batchesOf entries calls v = first :: rest
      ∧ map = SuffixMap.mergeAll ∅ ((first ++ missingRow v first) ++ rest.flatten) := by
  rw [h] at hmap
  cases hbatches : batchesOf entries calls v with
  | nil =>
      rw [hbatches] at hmap
      cases hmap
  | cons first rest =>
      rw [hbatches, grow_none_cons] at hmap
      exact ⟨first, rest, rfl, (Option.some.inj hmap).symm⟩

/-- Every entry has the empty suffix. -/
theorem exists_getElem?_nil (h : ∀ v, index.get? v = grow v none (batchesOf entries calls v))
    {v : NodeId} {map : SuffixMap} (hmap : index.get? v = some map) :
    ∃ ends, map[([] : Suffix)]? = some ends := by
  obtain ⟨first, rest, -, rfl⟩ := exists_batches_of_get? h hmap
  obtain ⟨row, hrow, hnil⟩ := exists_nil_mem_missingRow v first
  exact SuffixMap.exists_getElem?_mergeAll_iff.2 ⟨row, List.mem_append_left _ hrow, hnil⟩

theorem contains_iff_of_history (h : ∀ v, index.get? v = grow v none (batchesOf entries calls v))
    (v : NodeId) : index.contains v = true ↔ ∃ entry ∈ entries ++ calls, entry.1 = v := by
  rw [← not_iff_not, Bool.not_eq_true, contains_eq_false_iff, h, grow_none_eq_none_iff,
    batchesOf_eq_nil_iff]

theorem size_of_history (h : ∀ v, index.get? v = grow v none (batchesOf entries calls v)) :
    index.size = ((entries ++ calls).map Prod.fst).eraseDups.length := by
  have hperm : index.entries.keys.Perm ((entries ++ calls).map Prod.fst).eraseDups := by
    refine (List.perm_ext_iff_of_nodup Std.ExtTreeMap.nodup_keys (nodup_eraseDups _)).2 fun v => ?_
    rw [Std.ExtTreeMap.mem_keys, List.mem_eraseDups, List.mem_map]
    exact contains_iff_of_history h v
  rw [← hperm.length_eq, Std.ExtTreeMap.length_keys]
  rfl

theorem upheld_of_history (h : ∀ v, index.get? v = grow v none (batchesOf entries calls v)) :
    Upheld entries calls index where
  ascending _ map _ := pairwise_suffixes map
  first v map hmap := by
    obtain ⟨ends, hends⟩ := exists_getElem?_nil h hmap
    exact ⟨ends, exists_toList_eq_cons hends⟩
  contains_iff := contains_iff_of_history h
  contains_eq _ := Std.ExtTreeMap.contains_eq_isSome_getElem?
  size := size_of_history h
  ends_iff v map hmap s hs ends := by
    obtain ⟨first, rest, hbatches, rfl⟩ := exists_batches_of_get? h hmap
    rw [getElem?_mergeAll_empty, exists_completed_iff fun hself => hs hself.symm,
      ← flatten_batchesOf, hbatches]
    refine and_congr_right fun _ => forall_congr' fun w => ?_
    rw [exists_completed_iff fun hself => hs hself.1.symm]
  others v rows w hvw := by rw [get?_insert, if_neg hvw]
  kept v rows map hmap := exists_get?_insert hmap rows

/-- **An index after any history.**  A text that can be read consists of records, and whatever is
inserted after them, the index has ascending suffixes with the empty one first; it has
entries for just the nodes that were given, and these have just the suffixes and ends that
were given for them, the empty suffix apart. -/
theorem upheld_after {m : Mapping} {text : String} {base : HubIndex}
    (hread : ofText m text = .ok base) :
    ∃ entries, Says m text entries ∧ ∀ calls, Upheld entries calls (base.insertAll calls) := by
  obtain ⟨entries, htold, hget⟩ := get?_after hread
  exact ⟨entries, htold, fun calls => upheld_of_history (hget calls)⟩

/-- Two records of node 2 that share no suffix, and then a suffix of odd length without an end
for it and nothing at all for node 9. -/
theorem upheld_after_twins :
    ∃ base, ofText twinLabels "2:7|1=1-\n\n2:=1-" = .ok base
      ∧ ∃ entries, Says twinLabels "2:7|1=1-\n\n2:=1-" entries
        ∧ Upheld entries [(2, [([0], ∅)]), (9, [])]
          (base.insertAll [(2, [([0], ∅)]), (9, [])]) := by
  have hok : (ofText twinLabels "2:7|1=1-\n\n2:=1-").toOption.isSome = true := by decide +kernel
  obtain ⟨base, hbase⟩ := Option.isSome_iff_exists.1 hok
  have hread := toOption_eq_some_iff.1 hbase
  obtain ⟨entries, htold, hupheld⟩ := upheld_after hread
  exact ⟨base, hread, entries, htold, hupheld _⟩

end HubIndex

end LabelWalks
