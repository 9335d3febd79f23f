/-
  LabelWalks.Proofs.HubIndex.Batches
  ──────────────────────────────────
  **THE ORDER OF BATCHES DOES NOT MATTER.**

  An entry is completed with the row of its node after the first batch, and so it can
  depend on which batch came first.  It does not when every batch that has an empty
  suffix gives the node as an end of it: then the row of the node is united with all the
  others sooner or later, and an entry is what its rows are, in whatever order and
  however often they came, inserted one batch after another, inserted at once or read
  from a text.

    • `Sound`, `united` — such a batch, and the map of rows with that of the node,
    • `grow_of_sound`, `FromSound.exists_grow` — what such batches make of an entry,
    • `exists_says_of_lines` — a text of one line for each batch,
    • `get?_insertAll_eq_of_sound` — all ways to give the same batches.
-/
import LabelWalks.Proofs.HubIndex.History

namespace LabelWalks

namespace HubIndex

open Text

variable {m : Mapping} {v : NodeId}

/-! ## §1. Sound batches. -/

/-- If the batch has the empty suffix, then it gives the node as an end of it. -/
def Sound (v : NodeId) (batch : List SuffixEnds) : Prop :=
  (∃ row ∈ batch, row.1 = []) → ∃ row ∈ batch, row.1 = [] ∧ v ∈ row.2

/-- The map of rows and the row of the node itself. -/
def united (v : NodeId) (rows : List SuffixEnds) : SuffixMap :=
  SuffixMap.mergeAll ∅ (selfRow v :: rows)

/-- The same rows in another order or number make the same map. -/
theorem united_eq_of_mem_iff {rows rows' : List SuffixEnds} (h : ∀ row, row ∈ rows ↔ row ∈ rows') :
    united v rows = united v rows' := by
  refine SuffixMap.mergeAll_eq_of_mem_iff fun row => ?_
  rw [List.mem_cons, List.mem_cons, h]

/-- The first batch with what it lacks, and all other rows, are the rows and that of the node. -/
theorem mergeAll_missingRow {first : List SuffixEnds} (hfirst : Sound v first)
    (rest : List SuffixEnds) :
    SuffixMap.mergeAll ∅ ((first ++ missingRow v first) ++ rest) = united v (first ++ rest) := by
  unfold united missingRow
  by_cases hself : ∃ row ∈ first, row.1 = []
  · -- the row of the node says what another row says already
    obtain ⟨row, hrow, hnil, hv⟩ := hfirst hself
    have hmem : row ∈ first ++ rest := List.mem_append_left _ hrow
    rw [if_pos hself, List.append_nil]
    refine SuffixMap.mergeAll_eq_of_same (fun s => ?_) fun s w => ?_
    · rw [List.exists_mem_cons_iff]
      refine (or_iff_right_of_imp fun hs => ?_).symm
      exact ⟨row, hmem, hnil.trans hs⟩
    · rw [List.exists_mem_cons_iff]
      refine (or_iff_right_of_imp fun hs => ?_).symm
      obtain ⟨hs, hw⟩ := hs
      rw [← NodeSet.mem_insert_empty.1 hw]
      exact ⟨row, hmem, hnil.trans hs, hv⟩
  · rw [if_neg hself]
    refine SuffixMap.mergeAll_eq_of_mem_iff fun row => ?_
    rw [List.append_assoc, List.singleton_append]
    exact List.perm_middle.mem_iff

theorem Sound.flatten {batches : List (List SuffixEnds)} (h : ∀ batch ∈ batches, Sound v batch) :
    Sound v batches.flatten := by
  intro hself
  obtain ⟨row, hrow, hnil⟩ := hself
  obtain ⟨batch, hbatch, hrow⟩ := List.mem_flatten.1 hrow
  obtain ⟨row', hrow', hends⟩ := h batch hbatch ⟨row, hrow, hnil⟩
  exact ⟨row', List.mem_flatten.2 ⟨batch, hbatch, hrow'⟩, hends⟩

theorem mem_flatten_iff_of_mem_iff {batches batches' : List (List SuffixEnds)}
    (h : ∀ batch, batch ∈ batches ↔ batch ∈ batches') (row : SuffixEnds) :
    row ∈ batches.flatten ↔ row ∈ batches'.flatten := by
  rw [List.mem_flatten, List.mem_flatten]
  simp only [h]

/-! ## §2. What sound batches make of an entry. -/

/-- **Of no entry**: all rows and that of the node. -/
theorem grow_of_sound {batches : List (List SuffixEnds)} (hne : batches ≠ [])
    (h : ∀ batch ∈ batches, Sound v batch) :
    grow v none batches = some (united v batches.flatten) := by
  cases batches with
  | nil => exact absurd rfl hne
  | cons first rest =>
      rw [grow_none_cons, mergeAll_missingRow (h first List.mem_cons_self), List.flatten_cons]

/-- The index has no entry for the node, or one that was made by the insertion of sound batches. -/
def FromSound (v : NodeId) (index : HubIndex) : Prop :=
  index.get? v = none ∨ ∃ (start : HubIndex) (batches : List (List SuffixEnds)),
    start.get? v = none ∧ batches ≠ [] ∧ (∀ batch ∈ batches, Sound v batch)
      ∧ index.get? v = (start.insertAll (batches.map fun batch => (v, batch))).get? v

theorem insertedBatches_map (v : NodeId) (batches : List (List SuffixEnds)) :
    insertedBatches (batches.map fun batch => (v, batch)) v = batches := by
  have hall : under Prod.fst v (batches.map fun batch => (v, batch)) =
      batches.map fun batch => (v, batch) := by
    unfold under
    refine List.filter_eq_self.2 fun entry hentry => ?_
    obtain ⟨batch, -, rfl⟩ := List.mem_map.1 hentry
    simp
  unfold insertedBatches
  rw [hall, List.map_map]
  exact List.map_id _

/-- **Of any such entry**: its rows, all rows and that of the node. -/
theorem FromSound.exists_grow {index : HubIndex} (h : FromSound v index) :
    ∃ old : List SuffixEnds, ∀ batches : List (List SuffixEnds), batches ≠ [] →
      (∀ batch ∈ batches, Sound v batch) →
        grow v (index.get? v) batches = some (united v (old ++ batches.flatten)) := by
  rcases h with hnone | ⟨start, before, hstart, hne, hsound, hsame⟩
  · refine ⟨[], fun batches hne hsound => ?_⟩
    rw [hnone, List.nil_append]
    exact grow_of_sound hne hsound
  · refine ⟨before.flatten, fun batches _ _ => ?_⟩
    rw [hsame, get?_insertAll, insertedBatches_map, hstart, grow_of_sound hne hsound]
    exact grow_some v batches ⟨selfRow v, List.mem_cons_self, rfl⟩

/-! ## §3. A text of batches. -/

/-- A record can hold the batch: pairs of registered tokens, each suffix with an end. -/
def Recordable (m : Mapping) (batch : List SuffixEnds) : Prop :=
  ∀ row ∈ batch, Registered m .edge row.1 ∧ row.1.length % 2 = 0 ∧ ∃ w, w ∈ row.2

/-- Lines of batches, one after another, are records of the batches. -/
theorem exists_lines_of_batches {batches : List (List SuffixEnds)} {texts : List String}
    (htexts : List.Forall₂ (fun batch text => lineOf m v batch = .ok text) batches texts) :
    (∀ batch ∈ batches, Recordable m batch) → ∃ lines : List (List Char),
      (String.join texts).toList = (lines.flatMap fun line => line ++ ['\n'])
        ∧ (∀ line ∈ lines, line ≠ [] ∧ ∀ c ∈ line, isBlank c = false ∧ c ≠ '\n')
        ∧ List.Forall₂ (IsRecord m) lines (batches.map fun batch => (v, batch)) := by
  rw [String.toList_join]
  induction htexts with
  | nil => exact fun _ => ⟨[], rfl, by simp, .nil⟩
  | @cons batch text batches texts htext _ ih =>
      intro hbatches
      obtain ⟨lines, hjoin, hlines, hrecords⟩ :=
        ih fun b hb => hbatches b (List.mem_cons_of_mem _ hb)
      obtain ⟨line, hline, hchars, ⟨rest, hrest⟩, hparse⟩ := exists_line_of_rows htext
        fun row hrow => (hbatches batch List.mem_cons_self row hrow).2
      refine ⟨line :: lines, ?_, ?_, ?_⟩
      · rw [List.flatMap_cons, List.flatMap_cons, hline, hjoin]
      · intro l hl
        rcases List.mem_cons.1 hl with rfl | hl
        · refine ⟨?_, hchars⟩
          rw [hrest]
          simp
        · exact hlines l hl
      · exact .cons (parseLine_eq_ok_iff_isRecord.1 (hparse 1)) hrecords

/-- **A text of one line for each batch** says the batches. -/
theorem exists_says_of_lines {batches : List (List SuffixEnds)}
    (hbatches : ∀ batch ∈ batches, Recordable m batch) :
    ∃ texts, (batches.mapM (lineOf m v) : Except Fault (List String)) = .ok texts
      ∧ Says m (String.join texts) (batches.map fun batch => (v, batch)) := by
  have hexists : ∀ batch ∈ batches, ∃ text, lineOf m v batch = .ok text := fun batch hbatch =>
    exists_lineOf fun row hrow => (hbatches batch hbatch row hrow).1
  obtain ⟨texts, htexts⟩ := (exists_forall₂_iff batches).2 hexists
  obtain ⟨lines, hjoin, hlines, hrecords⟩ := exists_lines_of_batches htexts hbatches
  refine ⟨texts, (mapM_eq_ok_iff_forall₂ batches).2 htexts, ?_⟩
  have hbreak : ∀ line ∈ lines, '\n' ∉ line := fun line hline hmem =>
    ((hlines line hline).2 _ hmem).2 rfl
  have hcut := split_flatMap hbreak []
  rw [List.append_nil, ← hjoin] at hcut
  -- what follows the last break is blank
  have hall : records (split '\n' (String.join texts).toList) = lines := by
    rw [hcut]
    unfold records
    have htrim : lines.map trim = lines := by
      refine (List.map_congr_left fun line hline => ?_).trans (List.map_id lines)
      exact trim_eq_self fun c hc => ((hlines line hline).2 c hc).1
    rw [List.map_append, htrim, List.filter_append, List.filter_eq_self.2]
    · exact List.append_nil _
    · intro line hline
      simp [(hlines line hline).1]
  unfold Says
  rw [hall]
  exact hrecords

/-- A text that says records is read as they say. -/
theorem exists_ofText_of_said {text : String} {entries : List Entry} (h : Says m text entries) :
    ∃ base, ofText m text = .ok base ∧ ∀ w, base.get? w = grow w none (readBatch entries w) :=
  ⟨_, ofText_eq_ok_iff.2 ⟨entries, h, rfl⟩, get?_read entries⟩

/-- **A text whose records of the node are sound batches** is read as the batches inserted. -/
theorem exists_ofText_of_sound {batches : List (List SuffixEnds)} (hne : batches ≠ [])
    (hsound : ∀ batch ∈ batches, Sound v batch) {text : String} {entries : List Entry}
    (htold : Says m text entries)
    (hentries : ∀ batch, batch ∈ insertedBatches entries v ↔ batch ∈ batches) :
    ∃ base, ofText m text = .ok base ∧ base.get? v = grow v none batches := by
  obtain ⟨base, hread, hget⟩ := exists_ofText_of_said htold
  refine ⟨base, hread, ?_⟩
  have hsome : under Prod.fst v entries ≠ [] := by
    intro hnone
    obtain ⟨batch, hbatch⟩ := List.exists_mem_of_ne_nil _ hne
    have hmem := (hentries batch).2 hbatch
    unfold insertedBatches at hmem
    rw [hnone] at hmem
    cases hmem
  have hone : Sound v (rowsFor entries v) :=
    Sound.flatten fun batch hbatch => hsound batch ((hentries batch).1 hbatch)
  rw [hget, grow_of_sound hne hsound]
  unfold readBatch
  rw [if_neg hsome, grow_of_sound (List.cons_ne_nil _ _) (by simpa using hone),
    List.flatten_singleton]
  exact congrArg some (united_eq_of_mem_iff (mem_flatten_iff_of_mem_iff hentries))

/-! ## §4. All ways to give the same batches. -/

/-- **The order of batches does not matter.**  Let every batch that has the empty suffix give the
node as an end of it, and let the entry to begin with be none or made by such batches.  Then
the batches make the same entry in any order and with any of them repeated, and inserted
at once.  If there was no entry, then this is also what any text is read as whose records of the
node are the batches; and when the batches consist of pairs of registered tokens with
an end each, the text of one line for each batch is such a text. -/
theorem get?_insertAll_eq_of_sound {v : NodeId} {index : HubIndex}
    {batches : List (List SuffixEnds)} (hindex : FromSound v index) (hne : batches ≠ [])
    (hsound : ∀ batch ∈ batches, Sound v batch) :
    (∀ batches' : List (List SuffixEnds), (∀ batch, batch ∈ batches' ↔ batch ∈ batches) →
        (index.insertAll (batches'.map fun batch => (v, batch))).get? v =
          (index.insertAll (batches.map fun batch => (v, batch))).get? v)
      ∧ (index.insert v batches.flatten).get? v =
          (index.insertAll (batches.map fun batch => (v, batch))).get? v
      ∧ (index.get? v = none → ∀ m : Mapping,
          (∀ text entries, Says m text entries →
            (∀ batch, batch ∈ insertedBatches entries v ↔ batch ∈ batches) →
              ∃ base, ofText m text = .ok base ∧ base.get? v =
                (index.insertAll (batches.map fun batch => (v, batch))).get? v)
          ∧ ((∀ batch ∈ batches, Recordable m batch) →
            ∃ texts base, (batches.mapM (lineOf m v) : Except Fault (List String)) = .ok texts
              ∧ ofText m (String.join texts) = .ok base ∧ base.get? v =
                (index.insertAll (batches.map fun batch => (v, batch))).get? v)) := by
  obtain ⟨old, hold⟩ := hindex.exists_grow
  simp only [get?_insertAll, insertedBatches_map]
  refine ⟨fun batches' hsame => ?_, ?_, fun hnone m => ⟨fun text entries htold hentries => ?_,
    fun hbatches => ?_⟩⟩
  · have hne' : batches' ≠ [] := by
      obtain ⟨batch, hbatch⟩ := List.exists_mem_of_ne_nil _ hne
      exact List.ne_nil_of_mem ((hsame batch).2 hbatch)
    rw [hold batches hne hsound, hold batches' hne' fun batch hbatch =>
      hsound batch ((hsame batch).1 hbatch)]
    refine congrArg some (united_eq_of_mem_iff fun row => ?_)
    rw [List.mem_append, List.mem_append, mem_flatten_iff_of_mem_iff hsame]
  · have hone : ∀ batch ∈ [batches.flatten], Sound v batch := by
      intro batch hbatch
      rw [List.mem_singleton.1 hbatch]
      exact .flatten hsound
    rw [get?_insert, if_pos rfl, hold _ (List.cons_ne_nil _ _) hone, hold batches hne hsound,
      List.flatten_singleton]
  · rw [hnone]
    exact exists_ofText_of_sound hne hsound htold hentries
  · rw [hnone]
    obtain ⟨texts, htexts, htold⟩ := exists_says_of_lines (v := v) hbatches
    obtain ⟨base, hread, hget⟩ := exists_ofText_of_sound hne hsound htold fun batch => by
      rw [insertedBatches_map]
    exact ⟨texts, base, htexts, hread, hget⟩

/-- Two batches for node 1 of `twins`: a suffix to node 2, and the empty suffix, which ends at
node 1 and elsewhere. -/
def twinBatches : List (List SuffixEnds) :=
  [[([0, 1], (∅ : NodeSet).insert 2)], [([], ((∅ : NodeSet).insert 1).insert 9)]]

theorem sound_twinBatches : ∀ batch ∈ twinBatches, Sound 1 batch := by
  intro batch hbatch
  rcases List.mem_cons.1 hbatch with rfl | hbatch
  · intro hself
    obtain ⟨row, hrow, hnil⟩ := hself
    rw [List.mem_singleton.1 hrow] at hnil
    cases hnil
  · intro _
    rw [List.mem_singleton.1 hbatch]
    exact ⟨_, List.mem_cons_self, rfl, by decide +kernel⟩

theorem recordable_twinBatches : ∀ batch ∈ twinBatches, Recordable twinLabels batch := by
  intro batch hbatch row hrow
  rcases List.mem_cons.1 hbatch with rfl | hbatch
  · rw [List.mem_singleton.1 hrow]
    exact ⟨⟨⟨7, by decide +kernel⟩, ⟨2, by decide +kernel⟩, trivial⟩, rfl, 2, by decide +kernel⟩
  · rw [List.mem_singleton.1 hbatch, List.mem_singleton] at hrow
    rw [hrow]
    exact ⟨trivial, rfl, 1, by decide +kernel⟩

/-- Both batches inserted the other way round, one of them twice, and written into a text. -/
theorem get?_insertAll_eq_of_sound_twins :
    (empty.insertAll ((twinBatches.reverse ++ twinBatches.take 1).map fun batch => (1, batch))).get?
        1 = (empty.insertAll (twinBatches.map fun batch => (1, batch))).get? 1
      ∧ ∃ texts base, (twinBatches.mapM (lineOf twinLabels 1) : Except Fault (List String)) =
          .ok texts
        ∧ ofText twinLabels (String.join texts) = .ok base
        ∧ base.get? 1 = (empty.insertAll (twinBatches.map fun batch => (1, batch))).get? 1 := by
  obtain ⟨hsame, -, htext⟩ := get?_insertAll_eq_of_sound (.inl (get?_empty 1))
    (List.cons_ne_nil _ _) sound_twinBatches
  refine ⟨hsame _ fun batch => ?_, (htext (get?_empty 1) twinLabels).2 recordable_twinBatches⟩
  rw [List.mem_append, List.mem_reverse]
  exact or_iff_left_of_imp List.mem_of_mem_take

end HubIndex

end LabelWalks
