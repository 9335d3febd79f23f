/-
  LabelWalks.Proofs.HubIndex.NormalForm
  ─────────────────────────────────────
  **RECORDS ARE A NORMAL FORM OF INDEX TEXTS.**

  A reader is lenient: records come in any order and again and again, numerals may
  have signs and zeros before them, parts may be empty or missing.  Nothing of this is
  left in an index.  Whatever a text was, its entries have pairs of registered tokens,
  ends for each suffix and the empty suffix, and this is what a record can express; so
  the index can be written, and what is written is read as the index.  Since maps have
  their rows in order and a number has one way to be written, a record is told by its
  node and its map, and it tells both.

    • `Expressible`, `expressible_of_ofText` — what comes out of a reader,
    • `eq_of_record_eq` — entries with the same record,
    • `exists_records_of_ofText`, `ofText_written` — there and back,
    • `record_normal_form` — all of it.
-/
import LabelWalks.Proofs.Recoding.Index

namespace LabelWalks.HubIndex

open Text

variable {m : Mapping}

/-! ## §1. What comes out of a reader. -/

/-- An entry that a record can express. -/
structure Expressible (m : Mapping) (map : SuffixMap) : Prop where
  writable : Writable map
  registered : ∀ (s : Suffix) (ends : NodeSet), map[s]? = some ends → Registered m .edge s
  self : ∃ ends, map[([] : Suffix)]? = some ends

/-- A row that a part of a record can express. -/
structure ExpressibleRow (m : Mapping) (row : SuffixEnds) : Prop where
  even : row.1.length % 2 = 0
  ends : ∃ w, w ∈ row.2
  registered : Registered m .edge row.1

/-- There is at least one piece, so there is at least one word. -/
theorem Words.exists_mem {ω : Type} {sep : Char} {value : ω → Nat} {s : List Char}
    {words : List ω} (h : Words sep value s words) : ∃ w, w ∈ words := by
  refine List.exists_mem_of_ne_nil _ fun hnil => ?_
  subst hnil
  exact split_ne_nil sep s (List.forall₂_nil_right_iff.1 h)

theorem IsPart.expressible {part : List Char} {row : SuffixEnds} (h : IsPart m part row) :
    ExpressibleRow m row := by
  obtain ⟨path, endText, labels, ends, -, -, hends, hset, heven, htokens⟩ := isPart_iff.1 h
  obtain ⟨w, hw⟩ := (ends?_eq_ok_iff.1 hends).exists_mem
  refine ⟨heven, ⟨w, ?_⟩, (exists_rawLabels_iff row.1).1 ⟨labels, htokens⟩⟩
  rw [hset, mem_ofList_iff]
  exact hw

theorem IsRecord.expressible {line : List Char} {entry : Entry} (h : IsRecord m line entry) :
    ∀ row ∈ entry.2, ExpressibleRow m row := by
  obtain ⟨nodeText, rest, -, -, hrows⟩ := isRecord_iff.1 h
  intro row hrow
  obtain ⟨part, -, hpart⟩ := exists_mem_of_forall₂ hrows.flip hrow
  exact hpart.expressible

theorem expressible_selfRow (v : NodeId) : ExpressibleRow m (selfRow v) :=
  ⟨rfl, ⟨v, NodeSet.mem_insert_empty.2 rfl⟩, trivial⟩

theorem eq_selfRow_of_mem_missingRow {v : NodeId} {rows : List SuffixEnds} {row : SuffixEnds}
    (h : row ∈ missingRow v rows) : row = selfRow v := by
  unfold missingRow at h
  by_cases hself : ∃ row ∈ rows, row.1 = []
  · rw [if_pos hself] at h
    cases h
  · rw [if_neg hself] at h
    exact List.mem_singleton.1 h

/-- Rows that can be expressed are united to suffixes that can. -/
theorem expressible_mergeAll {rows : List SuffixEnds} (h : ∀ row ∈ rows, ExpressibleRow m row)
    (hself : ∃ row ∈ rows, row.1 = []) : Expressible m (SuffixMap.mergeAll ∅ rows) where
  writable s ends hends := by
    obtain ⟨⟨row, hrow, rfl⟩, hmem⟩ := getElem?_mergeAll_empty.1 hends
    obtain ⟨w, hw⟩ := (h row hrow).ends
    exact ⟨(h row hrow).even, w, (hmem w).2 ⟨row, hrow, rfl, hw⟩⟩
  registered s ends hends := by
    obtain ⟨⟨row, hrow, rfl⟩, -⟩ := getElem?_mergeAll_empty.1 hends
    exact (h row hrow).registered
  self := SuffixMap.exists_getElem?_mergeAll_iff.2 hself

/-- **Every entry of an index that was read** can be expressed. -/
theorem expressible_of_ofText {text : String} {index : HubIndex}
    (hread : ofText m text = .ok index) {v : NodeId} {map : SuffixMap}
    (hmap : index.get? v = some map) : Expressible m map := by
  obtain ⟨entries, hentries, hget⟩ := get?_after hread
  obtain ⟨first, rest, hbatches, rfl⟩ := exists_batches_of_get? (hget []) hmap
  have hgiven : ∀ row ∈ (first :: rest).flatten, ExpressibleRow m row := by
    intro row hrow
    rw [← hbatches, flatten_batchesOf, List.append_nil] at hrow
    obtain ⟨entry, hentry, hrow⟩ := List.mem_flatMap.1 hrow
    obtain ⟨line, -, hline⟩ := exists_mem_of_forall₂ hentries.flip (mem_under.1 hentry).1
    exact hline.expressible row hrow
  refine expressible_mergeAll ?_ ?_
  · -- besides what was given there is only the row of the node itself
    intro row hrow
    rw [List.flatten_cons] at hgiven
    rcases List.mem_append.1 hrow with hrow | hrow
    · rcases List.mem_append.1 hrow with hrow | hrow
      · exact hgiven row (List.mem_append_left _ hrow)
      · rw [eq_selfRow_of_mem_missingRow hrow]
        exact expressible_selfRow v
    · exact hgiven row (List.mem_append_right _ hrow)
  · obtain ⟨row, hrow, hnil⟩ := exists_nil_mem_missingRow v first
    exact ⟨row, List.mem_append_left _ hrow, hnil⟩

/-! ## §2. Entries with the same record. -/

/-- Labels with bars between them. -/
def barred (labels : List Label) : List Char :=
  ['|'].intercalate (labels.map fun label => (toString label.toNat).toList)

/-- End nodes with commas between them. -/
def listed (ends : List NodeId) : List Char :=
  [','].intercalate (ends.map fun v => (toString v.toNat).toList)

theorem barred_injective {labels labels' : List Label} (h : barred labels = barred labels') :
    labels = labels' := by
  have hread : labels? (barred labels) = .ok labels := labels?_of_rendered labels
  rw [h, show labels? (barred labels') = .ok labels' from labels?_of_rendered labels'] at hread
  exact (Except.ok.inj hread).symm

/-- An empty list of end nodes is not read at all, and any other is read as it was. -/
theorem listed_injective {ends ends' : List NodeId} (h : listed ends = listed ends') :
    ends = ends' := by
  have hread : ∀ {ends : List NodeId}, ends ≠ [] → ends? (listed ends) = .ok ends :=
    fun hne => ends?_of_rendered hne
  have hnone : ∀ {ends : List NodeId}, ends? (listed []) ≠ .ok ends := by
    intro ends hok
    cases hok
  by_cases hne : ends = []
  · by_cases hne' : ends' = []
    · rw [hne, hne']
    · rw [hne] at h
      exact absurd (h ▸ hread hne') hnone
  · by_cases hne' : ends' = []
    · rw [hne'] at h
      exact absurd (h ▸ hread hne) hnone
    · have hsame := hread hne
      rw [h, hread hne'] at hsame
      exact (Except.ok.inj hsame).symm

/-- The part of a suffix, its dash left out. -/
def PartBody (m : Mapping) (row : SuffixEnds) (body : List Char) : Prop :=
  ∃ labels, rawLabels m .edge row.1 = .ok labels
    ∧ body = barred labels ++ '=' :: listed row.2.toList

/-- **A part tells its suffix and its ends.** -/
theorem leftUnique_partBody (m : Mapping) : Relator.LeftUnique (PartBody m) := by
  intro row row' body h h'
  obtain ⟨labels, hlabels, rfl⟩ := h
  obtain ⟨labels', hlabels', hsame⟩ := h'
  have hequals : ∀ labels : List Label, '=' ∉ barred labels := by
    intro labels hmem
    rcases mem_intercalate hmem with hmem | ⟨p, hp, hmem⟩
    · cases hmem
    · obtain ⟨label, -, rfl⟩ := List.mem_map.1 hp
      exact not_mem_toString (by decide) hmem
  -- cut at its first equals sign, the one part gives both labels and both lists of ends
  have hcut := cut?_append_cons (hequals labels) (listed row.2.toList)
  rw [hsame, cut?_append_cons (hequals labels')] at hcut
  obtain ⟨hbars, hcommas⟩ := Prod.mk.inj (Option.some.inj hcut)
  rw [barred_injective hbars] at hlabels'
  have hends : row'.2.toList = row.2.toList := listed_injective hcommas
  refine Prod.ext (rawLabels_injective hlabels hlabels') ?_
  rw [← ofList_toList row.2, ← ofList_toList row'.2, hends]

theorem dash_not_mem_of_partBody {row : SuffixEnds} {body : List Char} (h : PartBody m row body) :
    '-' ∉ body := by
  obtain ⟨labels, -, rfl⟩ := h
  intro hmem
  have hplain : Plain '-' := by
    rw [List.mem_append, List.mem_cons] at hmem
    rcases hmem with hmem | hmem | hmem
    · exact plain_of_mem_intercalate (.inl rfl) hmem
    · cases hmem
    · exact plain_of_mem_intercalate (.inr rfl) hmem
  exact hplain.ne (.inl rfl) rfl

theorem exists_partBodies {rows : List SuffixEnds} {texts : List String}
    (h : List.Forall₂ (fun row text => part m row = .ok text) rows texts) :
    ∃ bodies, List.Forall₂ (PartBody m) rows bodies
      ∧ (String.join texts).toList = bodies.flatMap fun body => body ++ ['-'] := by
  induction h with
  | nil => exact ⟨[], .nil, rfl⟩
  | @cons row text rows texts hpart _ ih =>
      obtain ⟨bodies, hbodies, hjoin⟩ := ih
      obtain ⟨labels, hlabels, rfl⟩ := part_eq_ok_iff.1 hpart
      refine ⟨_ :: bodies, .cons ⟨labels, hlabels, rfl⟩ hbodies, ?_⟩
      rw [String.join_cons, String.toList_append, hjoin, List.flatMap_cons]
      simp only [String.toList_append, toList_intercalate_words, barred, listed, List.append_assoc]
      rfl

/-- A record consists of its node and of a part for each row of its map. -/
theorem exists_bodies_of_record {v : NodeId} {map : SuffixMap} {text : String}
    (h : record m v map = .ok text) :
    ∃ bodies, List.Forall₂ (PartBody m) map.toList bodies
      ∧ text.toList = (toString v.toNat).toList
        ++ ':' :: ((bodies.flatMap fun body => body ++ ['-']) ++ ['\n']) := by
  unfold record at h
  simp only [bind_eq_ok_iff, pure_eq_ok_iff, mapM_eq_ok_iff_forall₂] at h
  obtain ⟨texts, htexts, rfl⟩ := h
  obtain ⟨bodies, hbodies, hjoin⟩ := exists_partBodies htexts
  refine ⟨bodies, hbodies, ?_⟩
  simp only [String.toList_append, hjoin, List.append_assoc]
  rfl

/-- Pieces are told by the list that has the separator behind each of them. -/
theorem eq_of_flatMap_eq {sep : Char} {pieces pieces' : List (List Char)}
    (h : ∀ p ∈ pieces, sep ∉ p) (h' : ∀ p ∈ pieces', sep ∉ p)
    (hsame : (pieces.flatMap fun p => p ++ [sep]) = pieces'.flatMap fun p => p ++ [sep]) :
    pieces = pieces' := by
  have hsplit := split_flatMap h []
  rw [hsame, split_flatMap h' []] at hsplit
  exact (List.append_cancel_right hsplit).symm

/-- **Entries with the same record** are the same. -/
theorem eq_of_record_eq {v v' : NodeId} {map map' : SuffixMap} {text : String}
    (h : record m v map = .ok text) (h' : record m v' map' = .ok text) : v = v' ∧ map = map' := by
  obtain ⟨bodies, hbodies, htext⟩ := exists_bodies_of_record h
  obtain ⟨bodies', hbodies', htext'⟩ := exists_bodies_of_record h'
  have hcolon : ∀ v : NodeId, ':' ∉ (toString v.toNat).toList := fun v =>
    not_mem_toString (by decide)
  have hdash : ∀ {map : SuffixMap} {bodies : List (List Char)},
      List.Forall₂ (PartBody m) map.toList bodies → ∀ body ∈ bodies, '-' ∉ body := by
    intro map bodies hbodies body hbody
    obtain ⟨row, -, hrow⟩ := exists_mem_of_forall₂ hbodies.flip hbody
    exact dash_not_mem_of_partBody hrow
  -- the first colon gives the node, and the dashes behind it give the parts
  have hcut := cut?_append_cons (hcolon v) ((bodies.flatMap fun body => body ++ ['-']) ++ ['\n'])
  rw [← htext, htext', cut?_append_cons (hcolon v')] at hcut
  obtain ⟨hnode, hrest⟩ := Prod.mk.inj (Option.some.inj hcut)
  constructor
  · have hread := word64?_toString v
    rw [← hnode, word64?_toString] at hread
    exact (Option.some.inj hread).symm
  · have hsame := eq_of_flatMap_eq (hdash hbodies') (hdash hbodies) (List.append_cancel_right hrest)
    rw [hsame] at hbodies'
    rw [← mergeAll_toList map, ← mergeAll_toList map',
      List.left_unique_forall₂' (leftUnique_partBody m) hbodies hbodies']

/-! ## §3. There and back. -/

theorem mem_entries_iff {index : HubIndex} {order : List (NodeId × SuffixMap)}
    (horder : order.Perm index.entries.toList) {v : NodeId} {map : SuffixMap} :
    (v, map) ∈ order ↔ index.get? v = some map := by
  rw [horder.mem_iff]
  exact Std.ExtTreeMap.mem_toList_iff_getElem?_eq_some

section
variable {index : HubIndex} {order : List (NodeId × SuffixMap)}
  (horder : order.Perm index.entries.toList)
include horder

/-- **All entries of an index that was read** have records, which can be read back. -/
theorem exists_records_of_ofText {text : String} (hread : ofText m text = .ok index) :
    ∃ rows : List Row, LookedUp (fun entry => record m entry.1 entry.2) order rows
      ∧ ∀ row ∈ rows, Recorded m row := by
  have hentry : ∀ entry ∈ order, Expressible m entry.2 := by
    intro entry hmem
    exact expressible_of_ofText hread ((mem_entries_iff horder).1 hmem)
  have hsome : ∀ entry ∈ order, ∃ record', record m entry.1 entry.2 = .ok record' := by
    intro entry hmem
    exact exists_record (hentry entry hmem).registered
  obtain ⟨rows, hlooked⟩ := (exists_lookedUp_iff order).2 hsome
  refine ⟨rows, hlooked, fun row hrow => ?_⟩
  obtain ⟨hmem, hrecord⟩ := hlooked.mem_iff.1 hrow
  exact ⟨hrecord, (hentry _ hmem).writable, (hentry _ hmem).self⟩

/-- **What is written is read as the index.** -/
theorem ofText_written {rows : List Row}
    (hlooked : LookedUp (fun entry => record m entry.1 entry.2) order rows)
    (hrecorded : ∀ row ∈ rows, Recorded m row) :
    ofText m (String.join (rows.map Prod.snd)) = .ok index := by
  have hrow : ∀ {v : NodeId} {map : SuffixMap}, (∃ row ∈ rows, row.1 = (v, map)) ↔
      index.get? v = some map := by
    intro v map
    rw [← mem_entries_iff horder, ← hlooked.1, List.mem_map]
  -- an index has one map for a node, so no two of its records contradict each other
  have hagree : Agree rows := by
    intro row hmem row' hmem' hnode
    have hget := hrow.1 ⟨row, hmem, rfl⟩
    rw [hnode, hrow.1 ⟨row', hmem', rfl⟩] at hget
    exact (Option.some.inj hget).symm
  obtain ⟨again, hagain, hget⟩ := ofText_records hrecorded hagree
  have hsame : again = index := by
    refine ext_get? fun v => Option.ext fun map => ?_
    rw [hget, hrow]
  rw [hagain, hsame]

end

/-- Records that are written in another order are the same records. -/
theorem exists_perm_records {order order' : List (NodeId × SuffixMap)} (horder : order'.Perm order)
    {records : List String}
    (hrecords : order.mapM (fun entry => record m entry.1 entry.2) = .ok records) :
    ∃ records', order'.mapM (fun entry => record m entry.1 entry.2) = .ok records'
      ∧ records'.Perm records := by
  rw [mapM_eq_ok_iff_forall₂] at hrecords
  obtain ⟨records', hrecords', hperm⟩ := List.perm_comp_forall₂ horder hrecords
  exact ⟨records', (mapM_eq_ok_iff_forall₂ order').2 hrecords', hperm⟩

/-! ## §4. All of it. -/

/-- **Writing is a normal form.**  When a text is read, whatever it was, each entry of the index
has a record, and these records, written in any order, are read as an index again: the same
one, of which the same records are written once more, in whatever order.  Two entries have the
same record just when they are of the same node and have the same suffixes with the same ends. -/
theorem record_normal_form (m : Mapping) :
    (∀ text index, ofText m text = .ok index →
      ∀ order : List (NodeId × SuffixMap), order.Perm index.entries.toList →
        ∃ records, order.mapM (fun entry => record m entry.1 entry.2) = .ok records
          ∧ ∃ again, ofText m (String.join records) = .ok again ∧ again = index
            ∧ ∀ order' : List (NodeId × SuffixMap), order'.Perm again.entries.toList →
              ∃ records', order'.mapM (fun entry => record m entry.1 entry.2) = .ok records'
                ∧ records'.Perm records)
      ∧ ∀ v v' map map' text text', record m v map = .ok text → record m v' map' = .ok text' →
        (text = text' ↔ v = v' ∧ map = map') := by
  constructor
  · intro text index hread order horder
    obtain ⟨rows, hlooked, hrecorded⟩ := exists_records_of_ofText horder hread
    have hrecords := (mapM_eq_ok_iff order).2 ⟨rows, hlooked, rfl⟩
    refine ⟨_, hrecords, index, ofText_written horder hlooked hrecorded, rfl, ?_⟩
    intro order' horder'
    exact exists_perm_records (horder'.trans horder.symm) hrecords
  · intro v v' map map' text text' h h'
    constructor
    · intro htext
      subst htext
      exact eq_of_record_eq h h'
    · intro hsame
      obtain ⟨rfl, rfl⟩ := hsame
      exact Except.ok.inj (h.symm.trans h')

/-- A text that nobody would write: two lines for node 2, signs and zeros, parts out of order, an
end twice, a part left empty, and no empty suffix. -/
theorem record_normal_form_twins :
    ∃ index, ofText twinLabels " +02 :7|1|7|2=1,2-7|01=2,+1,1--\n\n2:7|1=2" = .ok index
      ∧ ∃ records, index.entries.toList.mapM (fun entry => record twinLabels entry.1 entry.2) =
          .ok records
        ∧ ∃ again, ofText twinLabels (String.join records) = .ok again ∧ again = index := by
  have hok : (ofText twinLabels
      " +02 :7|1|7|2=1,2-7|01=2,+1,1--\n\n2:7|1=2").toOption.isSome = true := by decide +kernel
  obtain ⟨index, hindex⟩ := Option.isSome_iff_exists.1 hok
  have hread := toOption_eq_some_iff.1 hindex
  obtain ⟨records, hrecords, again, hagain, hsame, -⟩ :=
    (record_normal_form twinLabels).1 _ index hread _ (.refl _)
  exact ⟨index, hread, records, hrecords, again, hagain, hsame⟩

end LabelWalks.HubIndex
