/-
  LabelWalks.Proofs.HubIndex.RoundTrip
  ────────────────────────────────────
  **AN INDEX TEXT IS READ AS WHAT WAS WRITTEN.**

  A text is read line by line, so records of different nodes do not disturb each
  other, and a record that is repeated adds nothing: the index has the maps of the
  nodes whose records stand in the text.
  What follows the last whole record is one line more; if it is the start of a
  record, then it is an entry of that record's node or it is not read at all.

    • `parseLines_records` — whole records first,
    • `ofText_records` — nothing but whole records,
    • `get?_of_torn_record` — the start of a record at the end.
-/
import LabelWalks.Proofs.HubIndex.Record
import LabelWalks.Proofs.Suffix

namespace LabelWalks.HubIndex

open Text

variable {m : Mapping}

/-- A node with its map and the record of it. -/
abbrev Row := (NodeId × SuffixMap) × String

/-- The record is that of the node, and the map can be read back from it. -/
structure Recorded (m : Mapping) (row : Row) : Prop where
  text : record m row.1.1 row.1.2 = .ok row.2
  writable : Writable row.1.2
  self : ∃ ends, row.1.2[([] : Suffix)]? = some ends

/-! ## §1. One line after another. -/

/-- The maps of nodes united with those of the rows. -/
def unite (maps : Std.ExtTreeMap NodeId SuffixMap) (rows : List Row) :
    Std.ExtTreeMap NodeId SuffixMap :=
  gather (fun row : Row => row.1.1) ∅ (fun (map : SuffixMap) row => map.mergeAll row.1.2.toList)
    maps rows

/-- A line that is not blank is read as a record, which adds to the map of its node. -/
theorem parseLines_cons {line : List Char} (hblank : ∀ c ∈ line, isBlank c = false)
    (hne : line ≠ []) (number : Nat) (maps : Std.ExtTreeMap NodeId SuffixMap)
    (lines : List (Option (List Char))) :
    parseLines m number maps (some line :: lines) =
      match parseLine m number line with
      | .error fault => .error fault
      | .ok (v, rows) => parseLines m (number + 1)
          (maps.alter v fun map => some ((map.getD ∅).mergeAll rows)) lines := by
  have hempty : ¬ line.isEmpty = true := by
    rw [List.isEmpty_iff]
    exact hne
  show (if (trim line).isEmpty = true then _ else _) = _
  rw [trim_eq_self hblank]
  exact if_neg hempty

/-- **Whole records first**: they are read one after another, then comes the rest. -/
theorem parseLines_records {rows : List Row} (tail : List Char) :
    (∀ row ∈ rows, Recorded m row) → ∀ number maps,
      parseLines m number maps
          ((split '\n' (rows.flatMap (fun row => row.2.toList) ++ tail)).map some) =
        parseLines m (number + rows.length) (unite maps rows)
          ((split '\n' tail).map some) := by
  induction rows with
  | nil => intro _ number maps; rfl
  | cons row rows ih =>
      intro h number maps
      obtain ⟨htext, hwritable, -⟩ := h row List.mem_cons_self
      obtain ⟨line, hline, hchars, ⟨rest, hrest⟩, hparse⟩ := exists_line_of_record htext hwritable
      -- the text is cut at the break behind the first record, and the rest is cut later
      have hbreak : '\n' ∉ line := fun hmem => (hchars _ hmem).2 rfl
      have hne : line ≠ [] := by
        rw [hrest]
        simp
      have hcons : (row :: rows).flatMap (fun row => row.2.toList) ++ tail =
          line ++ '\n' :: (rows.flatMap (fun row => row.2.toList) ++ tail) := by
        rw [List.flatMap_cons, hline, List.append_assoc, List.append_assoc]
        rfl
      rw [hcons, split_append_cons hbreak, List.map_cons,
        parseLines_cons (fun c hc => (hchars c hc).1) hne, hparse number]
      have hnumber : number + (row :: rows).length = number + 1 + rows.length := by
        rw [List.length_cons]
        omega
      rw [hnumber]
      exact ih (fun r hr => h r (List.mem_cons_of_mem _ hr)) _ _

/-! ## §2. Nothing but whole records. -/

/-- A map has one row for a suffix. -/
theorem snd_eq_of_mem_toList {map : SuffixMap} :
    ∀ row ∈ map.toList, ∀ row' ∈ map.toList, row.1 = row'.1 → row.2 = row'.2 := by
  intro row hrow row' hrow' hkey
  have hget := Std.ExtTreeMap.mem_toList_iff_getElem?_eq_some.1 hrow
  have hget' := Std.ExtTreeMap.mem_toList_iff_getElem?_eq_some.1 hrow'
  rw [hkey, hget'] at hget
  injection hget with hget
  exact hget.symm

theorem mergeAll_toList (map : SuffixMap) : SuffixMap.mergeAll ∅ map.toList = map := by
  refine Std.ExtTreeMap.ext_getElem? fun s => Option.ext fun ends => ?_
  rw [getElem?_mergeAll_empty_of_unique snd_eq_of_mem_toList,
    Std.ExtTreeMap.mem_toList_iff_getElem?_eq_some]

/-- A map is not changed when it is added to itself. -/
theorem mergeAll_self (map : SuffixMap) : map.mergeAll map.toList = map := by
  have hunique : ∀ row ∈ map.toList ++ map.toList, ∀ row' ∈ map.toList ++ map.toList,
      row.1 = row'.1 → row.2 = row'.2 := by
    intro row hrow row' hrow'
    rw [List.mem_append, or_self] at hrow hrow'
    exact snd_eq_of_mem_toList row hrow row' hrow'
  have htwice : map.mergeAll map.toList = SuffixMap.mergeAll ∅ (map.toList ++ map.toList) := by
    show _ = (map.toList ++ map.toList).foldl SuffixMap.merge ∅
    rw [List.foldl_append]
    show _ = (SuffixMap.mergeAll ∅ map.toList).mergeAll map.toList
    rw [mergeAll_toList]
  rw [htwice]
  refine Std.ExtTreeMap.ext_getElem? fun s => Option.ext fun ends => ?_
  rw [getElem?_mergeAll_empty_of_unique hunique, List.mem_append, or_self,
    Std.ExtTreeMap.mem_toList_iff_getElem?_eq_some]

/-- Records that say the same of a node whenever they are of the same node. -/
def Agree (rows : List Row) : Prop :=
  ∀ row ∈ rows, ∀ row' ∈ rows, row.1.1 = row'.1.1 → row.1.2 = row'.1.2

/-- The union of records that say the same is what they say. -/
theorem foldl_mergeAll_eq {rows : List Row} {map : SuffixMap} (h : ∀ row ∈ rows, row.1.2 = map) :
    rows.foldl (fun (map : SuffixMap) row => map.mergeAll row.1.2.toList) map = map := by
  induction rows with
  | nil => rfl
  | cons row rows ih =>
      rw [List.foldl_cons, h row List.mem_cons_self, mergeAll_self]
      exact ih fun r hr => h r (List.mem_cons_of_mem _ hr)

/-- When the records of each node say the same, the united maps are the maps. -/
theorem getElem?_unite {rows : List Row} (hagree : Agree rows) {v : NodeId} {map : SuffixMap} :
    (unite ∅ rows)[v]? = some map ↔ ∃ row ∈ rows, row.1 = (v, map) := by
  have hunder : ∀ row ∈ rows, (under (fun row : Row => row.1.1) row.1.1 rows).foldl
      (fun (map : SuffixMap) row => map.mergeAll row.1.2.toList) ∅ = row.1.2 := by
    intro row hrow
    cases hlist : under (fun row : Row => row.1.1) row.1.1 rows with
    | nil => exact absurd rfl (under_eq_nil_iff.1 hlist row hrow)
    | cons first rest =>
        have hsame : ∀ r ∈ first :: rest, r.1.2 = row.1.2 := by
          intro r hr
          rw [← hlist] at hr
          obtain ⟨hmem, hkey⟩ := mem_under.1 hr
          exact hagree r hmem row hrow hkey
        rw [List.foldl_cons, hsame first List.mem_cons_self, mergeAll_toList]
        exact foldl_mergeAll_eq fun r hr => hsame r (List.mem_cons_of_mem _ hr)
  unfold unite
  rw [getElem?_gather_empty_eq_some_iff]
  constructor
  · intro h
    obtain ⟨⟨row, hrow, hkey⟩, hmap⟩ := h
    subst hkey
    rw [hunder row hrow] at hmap
    exact ⟨row, hrow, Prod.ext rfl hmap.symm⟩
  · intro h
    obtain ⟨row, hrow, hkey⟩ := h
    have hnode : row.1.1 = v := congrArg Prod.fst hkey
    have hmap : row.1.2 = map := congrArg Prod.snd hkey
    subst hnode
    refine ⟨⟨row, hrow, rfl⟩, ?_⟩
    rw [hunder row hrow, hmap]

/-- A map that has the empty suffix is not changed. -/
theorem withSelf_eq_self {v : NodeId} {map : SuffixMap} {ends : NodeSet}
    (h : map[([] : Suffix)]? = some ends) : withSelf v map = map := by
  refine Std.ExtTreeMap.ext_getElem? fun s => ?_
  unfold withSelf
  rw [Std.ExtTreeMap.getElem?_insertIfNew]
  have hmem : ([] : Suffix) ∈ map := by
    rw [Std.ExtTreeMap.mem_iff_isSome_getElem?, h]
    rfl
  rw [if_neg fun hnew => hnew.2 hmem]

theorem toList_join_records (rows : List Row) :
    (String.join (rows.map Prod.snd)).toList = rows.flatMap fun row => row.2.toList := by
  rw [String.toList_join, List.flatMap_map]

/-- **Nothing but whole records**: the index has just the maps that were written. -/
theorem ofText_records {rows : List Row} (h : ∀ row ∈ rows, Recorded m row)
    (hagree : Agree rows) :
    ∃ index, ofText m (String.join (rows.map Prod.snd)) = .ok index
      ∧ ∀ v map, index.get? v = some map ↔ ∃ row ∈ rows, row.1 = (v, map) := by
  have hlines := parseLines_records [] h 1 ∅
  rw [List.append_nil] at hlines
  refine ⟨⟨(unite ∅ rows).map withSelf⟩, ?_, fun v map => ?_⟩
  · unfold ofText ofLines
    rw [toList_join_records, hlines]
    rfl
  · show ((unite ∅ rows).map withSelf)[v]? = some map ↔ _
    rw [Std.ExtTreeMap.getElem?_map, Option.map_eq_some_iff]
    constructor
    · intro hget
      obtain ⟨map', hmap', hself⟩ := hget
      obtain ⟨row, hrow, hkey⟩ := (getElem?_unite hagree).1 hmap'
      obtain ⟨ends, hends⟩ := (h row hrow).self
      rw [hkey] at hends
      have hmap : map' = map := (withSelf_eq_self hends).symm.trans hself
      exact ⟨row, hrow, by rw [hkey, hmap]⟩
    · intro hrow
      obtain ⟨row, hrow, hkey⟩ := hrow
      obtain ⟨ends, hends⟩ := (h row hrow).self
      rw [hkey] at hends
      exact ⟨map, (getElem?_unite hagree).2 ⟨row, hrow, hkey⟩, withSelf_eq_self hends⟩

/-! ## §3. A torn record. -/

/-- The start of a record that is cut off before its end is a line that is not blank and,
if it can be read, is read as a record of the same node. -/
theorem exists_torn_line {row : Row} (hrow : Recorded m row) {n : Nat} (hpos : 0 < n)
    (htorn : n < row.2.length) :
    ∃ line, row.2.toList.take n = line ∧ line ≠ [] ∧ (∀ c ∈ line, isBlank c = false ∧ c ≠ '\n')
      ∧ ∀ number v rows, parseLine m number line = .ok (v, rows) → v = row.1.1 := by
  obtain ⟨line, hline, hchars, ⟨rest, hrest⟩, -⟩ := exists_line_of_record hrow.text hrow.writable
  have hlength : n ≤ line.length := by
    have hlen : row.2.length = line.length + 1 := by
      rw [← String.length_toList, hline, List.length_append]
      rfl
    omega
  refine ⟨line.take n, ?_, ?_, fun c hc => hchars c (List.mem_of_mem_take hc), ?_⟩
  · rw [hline, List.take_append_of_le_length hlength]
  · intro hnil
    have hzero := congrArg List.length hnil
    rw [List.length_take, List.length_nil] at hzero
    omega
  · -- what can be read has a colon, so the record was torn behind the node
    intro number v rows hparse
    obtain ⟨nodeText, rest', hcut, hword, -⟩ := parseLine_eq_ok_iff.1 hparse
    rw [hrest] at hcut
    rw [cut?_take (not_mem_toString (by decide)) hcut,
      trim_eq_self fun c hc => isBlank_of_isDigit (isDigit_of_mem_toString hc),
      word64?_toString] at hword
    injection hword with hword
    exact hword.symm

/-- **The start of a record at the end**: if the text is read at all, then what is left of
the record is an entry of its node. -/
theorem get?_of_torn_record {rows : List Row} (h : ∀ row ∈ rows, Recorded m row)
    {row : Row} (hrow : Recorded m row) {n : Nat} (hpos : 0 < n) (htorn : n < row.2.length)
    {index : HubIndex}
    (hread : ofText m (String.join (rows.map Prod.snd) ++ String.ofList (row.2.toList.take n)) =
      .ok index) :
    ∃ map, index.get? row.1.1 = some map := by
  obtain ⟨line, htake, hne, hchars, hnode⟩ := exists_torn_line hrow hpos htorn
  have hbreak : '\n' ∉ line := fun hc => (hchars _ hc).2 rfl
  unfold ofText ofLines at hread
  -- whole records are read first, and the torn one is the last line
  rw [String.toList_append, toList_join_records, String.toList_ofList, htake,
    parseLines_records line h, split_of_not_mem hbreak, List.map_singleton,
    parseLines_cons (fun c hc => (hchars c hc).1) hne] at hread
  cases hparse : parseLine m (1 + rows.length) line with
  | error fault =>
      rw [hparse] at hread
      cases hread
  | ok entry =>
      obtain ⟨v, suffixes⟩ := entry
      rw [hparse] at hread
      injection hread with hread
      have hv : v = row.1.1 := hnode _ v suffixes hparse
      subst hv
      rw [← hread]
      refine ⟨withSelf row.1.1 ((((unite ∅ rows)[row.1.1]?).getD ∅).mergeAll suffixes), ?_⟩
      show (((unite ∅ rows).alter row.1.1 fun map =>
        some ((map.getD ∅).mergeAll suffixes)).map withSelf)[row.1.1]? = _
      rw [Std.ExtTreeMap.getElem?_map, Std.ExtTreeMap.getElem?_alter_self]
      rfl

end LabelWalks.HubIndex
