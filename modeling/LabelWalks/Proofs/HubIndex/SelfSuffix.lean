/-
  LabelWalks.Proofs.HubIndex.SelfSuffix
  ─────────────────────────────────────
  **WHEN THE EMPTY SUFFIX ENDS AT ITS NODE.**

  A search does not walk on from an indexed node, nor does it look whether the node is
  wanted: the path that ends there is found over the empty suffix of the node, which is
  to end at the node itself.  Every entry has an empty suffix.  But an entry is
  completed with the node only when its first batch has no empty suffix, so a batch
  that gives other ends for it can leave the node out, and then the path is lost.

    • `HasSelf`, `NamesSelf` — told from an entry, told from its batches,
    • `mem_paths_of_comesTo` — what a search finds over the empty suffix,
    • `hasSelf_after` — when the node is an end, after any history,
    • `not_hasSelf_twins` — a node that is left out, and the path that is lost.
-/
import LabelWalks.Proofs.HubIndex.History
import LabelWalks.Proofs.Search.Meaning

namespace LabelWalks

namespace HubIndex

/-! ## §1. The entry and its batches. -/

/-- The node is indexed, and its empty suffix ends at the node itself. -/
def HasSelf (index : HubIndex) (v : NodeId) : Prop :=
  ∃ map ends, index.get? v = some map ∧ map[([] : Suffix)]? = some ends ∧ v ∈ ends

/-- The first batch of a node has no empty suffix, or some batch has one that ends at the node. -/
def NamesSelf (v : NodeId) : List (List SuffixEnds) → Prop
  | [] => False
  | first :: rest =>
    (∀ row ∈ first, row.1 ≠ []) ∨ ∃ row ∈ (first :: rest).flatten, row.1 = [] ∧ v ∈ row.2

/-- The row of the node itself is added just when the first batch has no empty suffix. -/
theorem selfRow_mem_missingRow_iff {v : NodeId} {first : List SuffixEnds} :
    (∃ row ∈ missingRow v first, row.1 = [] ∧ v ∈ row.2) ↔ ∀ row ∈ first, row.1 ≠ [] := by
  unfold missingRow
  by_cases hself : ∃ row ∈ first, row.1 = []
  · rw [if_pos hself]
    refine iff_of_false (by simp) fun hnone => ?_
    obtain ⟨row, hrow, hnil⟩ := hself
    exact hnone row hrow hnil
  · rw [if_neg hself]
    refine iff_of_true ⟨selfRow v, List.mem_cons_self, rfl, NodeSet.mem_insert_empty.2 rfl⟩ ?_
    intro row hrow hnil
    exact hself ⟨row, hrow, hnil⟩

/-- **The node is an end of its empty suffix** just when its batches say so. -/
theorem hasSelf_iff_namesSelf {entries calls : List Entry} {index : HubIndex}
    (h : ∀ v, index.get? v = grow v none (batchesOf entries calls v)) (v : NodeId) :
    index.HasSelf v ↔ NamesSelf v (batchesOf entries calls v) := by
  unfold HasSelf
  rw [h]
  cases batchesOf entries calls v with
  | nil =>
      refine iff_of_false ?_ id
      intro hself
      obtain ⟨map, ends, hmap, -⟩ := hself
      cases hmap
  | cons first rest =>
      rw [grow_none_cons]
      have hrows : (∃ map ends, some (SuffixMap.mergeAll ∅
            ((first ++ missingRow v first) ++ rest.flatten)) = some map
            ∧ map[([] : Suffix)]? = some ends ∧ v ∈ ends) ↔
          ∃ row ∈ (first ++ missingRow v first) ++ rest.flatten, row.1 = [] ∧ v ∈ row.2 := by
        rw [← SuffixMap.exists_end_mergeAll_iff]
        simp only [Option.some.injEq, exists_and_left, exists_eq_left']
      rw [hrows]
      show _ ↔ (∀ row ∈ first, row.1 ≠ []) ∨
        ∃ row ∈ (first :: rest).flatten, row.1 = [] ∧ v ∈ row.2
      rw [← selfRow_mem_missingRow_iff (v := v), List.flatten_cons]
      simp only [List.mem_append, or_and_right, exists_or]
      exact or_assoc.trans or_left_comm

/-! ## §2. What a search finds over it. -/

/-- The path is the label sequence of a walk from a start node, within the length, that
comes to the node with its last hop and to no indexed node before. -/
def ComesTo (g : GraphView) (m : Mapping) (index : HubIndex) (length : PathLength)
    (starts : List NodeId) (v : NodeId) (p : MetaPath) : Prop :=
  ∃ u ∈ starts, ∃ as a, IsWalk g m u (as ++ [a]) ∧ as.length + 1 ≤ length.nodes - 1
    ∧ (∀ b ∈ as, index.get? b.node = none) ∧ a.node = v
    ∧ traceOf g m u (as ++ [a]) = some p.tokens

/-- **A search finds the path that ends at an indexed node** when the empty suffix ends there. -/
theorem mem_paths_of_comesTo {g : GraphView} {m : Mapping} {index : HubIndex}
    {length : PathLength} {starts ends : List NodeId} {sink : Sink} {paths : PathSet}
    (h : (search g m index length starts ends sink).2 = .ok paths) {v : NodeId}
    (hself : index.HasSelf v) (hv : v ∈ ends) {p : MetaPath}
    (hp : ComesTo g m index length starts v p) : p ∈ paths := by
  obtain ⟨wanted, hwanted, hpaths⟩ := mem_search h
  obtain ⟨map, targets, hmap, htargets, hmem⟩ := hself
  obtain ⟨u, hu, as, a, hwalk, hlen, has, rfl, htrace⟩ := hp
  rw [hpaths, found_iff hwanted]
  exact .inr ⟨u, hu, as, a, map, [], targets, p.tokens, hwalk, hlen, has, hmap, htargets,
    Nat.zero_le _, ⟨a.node, hmem, hv⟩, htrace, (List.append_nil _).symm⟩

/-! ## §3. After any history. -/

/-- **When the empty suffix ends at its node.**  A text that can be read consists of records,
and whatever is inserted after them, every entry has an empty suffix.  The node is an end of it
just when the first batch of the node (all its records, or its first insertion when it has
no record) has no empty suffix, or some batch gives the node as an end of it.  Then every
search that comes to the node and wants it finds the path that ends there. -/
theorem hasSelf_after {m : Mapping} {text : String} {base : HubIndex}
    (hread : ofText m text = .ok base) :
    ∃ entries, Says m text entries ∧ ∀ calls,
      (∀ v map, (base.insertAll calls).get? v = some map →
        ∃ ends, map[([] : Suffix)]? = some ends)
      ∧ (∀ v, (base.insertAll calls).HasSelf v ↔ NamesSelf v (batchesOf entries calls v))
      ∧ ∀ v, NamesSelf v (batchesOf entries calls v) →
          ∀ g m' length starts ends sink paths,
            (search g m' (base.insertAll calls) length starts ends sink).2 = .ok paths →
              v ∈ ends → ∀ p, ComesTo g m' (base.insertAll calls) length starts v p → p ∈ paths := by
  obtain ⟨entries, htold, hget⟩ := get?_after hread
  refine ⟨entries, htold, fun calls => ⟨fun v map hmap => exists_getElem?_nil (hget calls) hmap,
    hasSelf_iff_namesSelf (hget calls), ?_⟩⟩
  intro v hnames g m' length starts ends sink paths hsearch hv p hp
  exact mem_paths_of_comesTo hsearch ((hasSelf_iff_namesSelf (hget calls) v).2 hnames) hv hp

/-- A record of node 1 without the empty suffix: node 1 is an end of it afterwards. -/
theorem hasSelf_after_twins :
    ∃ base, ofText twinLabels "1:7|2=2-" = .ok base
      ∧ ∃ entries, Says twinLabels "1:7|2=2-" entries ∧ ∀ v,
        (base.insertAll [(1, [([], ∅)])]).HasSelf v ↔
          NamesSelf v (batchesOf entries [(1, [([], ∅)])] v) := by
  have hok : (ofText twinLabels "1:7|2=2-").toOption.isSome = true := by decide +kernel
  obtain ⟨base, hbase⟩ := Option.isSome_iff_exists.1 hok
  have hread := toOption_eq_some_iff.1 hbase
  obtain ⟨entries, htold, hafter⟩ := hasSelf_after hread
  exact ⟨base, hread, entries, htold, (hafter _).2.1⟩

/-- Where the empty suffix has other ends than the node, the node is not one of them. -/
theorem not_hasSelf_of_ends {index : HubIndex} {v : NodeId}
    (h : ((index.get? v).bind fun map => map[([] : Suffix)]?).map (·.contains v) = some false) :
    index.contains v = true ∧ ¬ index.HasSelf v := by
  cases hmap : index.get? v with
  | none =>
      rw [hmap] at h
      cases h
  | some map =>
      refine ⟨contains_iff.2 ⟨map, hmap⟩, fun hself => ?_⟩
      obtain ⟨map', ends, hmap', hends, hv⟩ := hself
      rw [hmap'] at hmap
      obtain rfl := Option.some.inj hmap
      rw [hmap', Option.bind_some, hends, Option.map_some, Option.some.injEq] at h
      rw [Std.ExtTreeSet.mem_iff_contains, h] at hv
      cases hv

/-- **A node that is left out**: a record gives node 2 as the only end of the empty suffix of
node 1, and an insertion does the same the other way round.  Neither node is an end of its own
empty suffix, and a search from node 2 does not find the path that ends at node 1. -/
theorem not_hasSelf_twins :
    ∃ base, ofText twinLabels "1:=2-" = .ok base
      ∧ (base.contains 1 = true ∧ ¬ base.HasSelf 1)
      ∧ ((base.insertAll [(2, [([], (∅ : NodeSet).insert 1)])]).contains 2 = true
        ∧ ¬ (base.insertAll [(2, [([], (∅ : NodeSet).insert 1)])]).HasSelf 2)
      ∧ ComesTo twins.view twinLabels base ⟨2, by decide, by decide⟩ [2] 1
          ⟨[1, 0, 0], by decide⟩
      ∧ ∃ paths, (search twins.view twinLabels base ⟨2, by decide, by decide⟩ [2] [1]
          .unlimited).2 = .ok paths ∧ (⟨[1, 0, 0], by decide⟩ : MetaPath) ∉ paths := by
  have hok : (ofText twinLabels "1:=2-").toOption.isSome = true := by decide +kernel
  obtain ⟨base, hbase⟩ := Option.isSome_iff_exists.1 hok
  have hread := toOption_eq_some_iff.1 hbase
  -- what is asked of the index is asked of what the text is read as
  have hask : ∀ {α : Type} (ask : HubIndex → α) (answer : α),
      (ofText twinLabels "1:=2-").toOption.map ask = some answer → ask base = answer := by
    intro α ask answer h
    rw [hbase, Option.map_some] at h
    exact Option.some.inj h
  refine ⟨base, hread, not_hasSelf_of_ends (hask (fun index =>
      ((index.get? 1).bind fun map => map[([] : Suffix)]?).map (·.contains 1)) _ (by decide +kernel)),
    not_hasSelf_of_ends (hask (fun index =>
      (((index.insertAll [(2, [([], (∅ : NodeSet).insert 1)])]).get? 2).bind fun map =>
        map[([] : Suffix)]?).map (·.contains 2)) _ (by decide +kernel)), ?_, ?_⟩
  · refine ⟨2, by decide, [], ⟨⟨0, 0⟩, 1⟩, .step ?_ (.stay _), by decide, by simp, rfl,
      by decide +kernel⟩
    exact ⟨_, rfl, 7, by decide +kernel, by decide +kernel, by decide +kernel⟩
  · have hlost := hask (fun index => (search twins.view twinLabels index
      ⟨2, by decide, by decide⟩ [2] [1] .unlimited).2.toOption.map fun (paths : PathSet) =>
        paths.contains ⟨[1, 0, 0], by decide⟩) (some false) (by decide +kernel)
    obtain ⟨paths, hpaths, hnot⟩ := Option.map_eq_some_iff.1 hlost
    refine ⟨paths, toOption_eq_some_iff.1 hpaths, fun hmem => ?_⟩
    rw [Std.ExtTreeSet.mem_iff_contains, hnot] at hmem
    cases hmem

end HubIndex

end LabelWalks
