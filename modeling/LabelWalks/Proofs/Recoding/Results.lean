/-
  LabelWalks.Proofs.Recoding.Results
  ──────────────────────────────────
  **DENSE INDICES DO NOT SHOW IN RAW RESULTS.**

  Under another mapping a census goes through its paths in another order, with
  other workers; a search has other start groups, and its workers come to a path in
  another order and find other suffixes first.  What they write does not show it:
  with all labels of the graph in both mappings, each of them succeeds under the one
  just when it succeeds under the other, and writes the same lines then.

    • `SameLines` — the same lines, each once, in whatever order,
    • `Recoding.exists_writeCensus`, `Recoding.countLine` — the census,
    • `Recoding.exists_finds`, `Recoding.exists_search` — the search,
    • `same_raw_results` — both.
-/
import LabelWalks.Proofs.Census.Line
import LabelWalks.Proofs.Recoding.Index
import LabelWalks.Proofs.Search.Crew

namespace LabelWalks

/-! ## §1. The same lines. -/

/-- What `last` and `last'` have more than `sink` is the given lines for both, each of them once
but perhaps in another order. -/
structure SameLines (sink last last' : Sink) (given : String → Prop) : Prop where
  left : Adds sink last given
  right : Adds sink last' given

theorem Adds.sameLines {sink last last' : Sink} {given given' : String → Prop}
    (h : Adds sink last given) (h' : Adds sink last' given')
    (hsame : ∀ line, given line ↔ given' line) : SameLines sink last last' given := by
  obtain rfl : given = given' := funext fun line => propext (hsame line)
  exact ⟨h, h'⟩

namespace Recoding

variable {g : GraphView} {m m' : Mapping} {length : PathLength} (h : Recoding g m m')
include h

/-! ## §2. The census. -/

theorem exists_census {table : Census} (hok : census g m length = .ok table) :
    ∃ table', census g m' length = .ok table' := by
  obtain ⟨hlabelled, hclear⟩ := exists_census_iff.1 ⟨table, hok⟩
  exact exists_census_iff.2 ⟨h.labelled hlabelled, fun v hv => h.clear (fun _ => rfl) (hclear v hv)⟩

/-- **The line of a path** with its count stands in both censuses or in none. -/
theorem countLine {table table' : Census} (hok : census g m length = .ok table)
    (hok' : census g m' length = .ok table') {line : String}
    (hline : ∃ row ∈ table.toList, CountLine m row line) :
    ∃ row ∈ table'.toList, CountLine m' row line := by
  obtain ⟨⟨p, n⟩, hrow, text, htext, rfl⟩ := hline
  obtain ⟨hcounted, hcount⟩ :=
    (getElem?_census hok).1 (Std.ExtTreeMap.mem_toList_iff_getElem?_eq_some.1 hrow)
  obtain ⟨p', hcounted', hp⟩ := h.exists_counted hcounted
  refine ⟨(p', n), ?_, text, ?_, rfl⟩
  · rw [Std.ExtTreeMap.mem_toList_iff_getElem?_eq_some, getElem?_census hok', h.walkCount_eq hp]
    exact ⟨hcounted', hcount⟩
  · rw [← hp.render_eq]
    exact htext

theorem countLine_iff {table table' : Census} (hok : census g m length = .ok table)
    (hok' : census g m' length = .ok table') (line : String) :
    (∃ row ∈ table.toList, CountLine m row line) ↔ ∃ row ∈ table'.toList, CountLine m' row line :=
  ⟨h.countLine hok hok', h.symm.countLine hok' hok⟩

/-- All lines of the two censuses are the same, in whatever order. -/
theorem countLines_perm {table table' : Census} (hok : census g m length = .ok table)
    (hok' : census g m' length = .ok table') {lines lines' : List String}
    (hlines : List.Forall₂ (CountLine m) table.toList lines)
    (hlines' : List.Forall₂ (CountLine m') table'.toList lines') : lines.Perm lines' := by
  refine (List.perm_ext_iff_of_nodup
    ((List.rel_nodup (biUnique_countLine m) hlines).1 (nodup_toList table))
    ((List.rel_nodup (biUnique_countLine m') hlines').1 (nodup_toList table'))).2 fun line => ?_
  rw [mem_iff_of_forall₂ (biUnique_countLine m).2 hlines,
    mem_iff_of_forall₂ (biUnique_countLine m').2 hlines', h.countLine_iff hok hok']

/-- **A census can be written** under the other mapping. -/
theorem exists_writeCensus {sink : Sink} {bound : Option Nat} (hroom : sink.HasRoom bound)
    (hsome : ∃ table, (writeCensus g m length sink).2 = .ok table) :
    ∃ table', (writeCensus g m' length sink).2 = .ok table' := by
  obtain ⟨table, hwrite⟩ := hsome
  obtain ⟨hok, texts, htexts, htaken, hflush⟩ := writeCensus_eq_ok_iff.1 hwrite
  obtain ⟨table', hok'⟩ := h.exists_census hok
  obtain ⟨texts', htexts'⟩ := exists_lines_of_census hok'
  refine ⟨table', writeCensus_eq_ok_iff.2 ⟨hok', texts', htexts', ?_, hflush⟩⟩
  -- the lines have the same lengths together
  obtain ⟨lines, hlines, rfl⟩ := exists_countLines htexts
  obtain ⟨lines', hlines', rfl⟩ := exists_countLines htexts'
  have hperm := ((h.countLines_perm hok hok' hlines hlines').map fun line => line ++ "\n").map
    String.length
  rw [hroom.writeAll_eq_none_iff] at htaken ⊢
  rw [← hperm.sum_eq]
  exact htaken

/-- **The lines of the two censuses** are the same. -/
theorem sameLines_writeCensus {sink : Sink} {table table' : Census}
    (hok : (writeCensus g m length sink).2 = .ok table)
    (hok' : (writeCensus g m' length sink).2 = .ok table') :
    SameLines sink (writeCensus g m length sink).1 (writeCensus g m' length sink).1
      fun line => ∃ row ∈ table.toList, CountLine m row line :=
  (adds_of_writeCensus hok).sameLines (adds_of_writeCensus hok')
    (h.countLine_iff (writeCensus_eq_ok hok) (writeCensus_eq_ok hok'))

/-! ## §3. The search. -/

section
variable {index index' : HubIndex} (hindex : index.Recoded m m' index') {wanted : NodeSet}
include hindex

/-- **What is found from a node** is found from it under the other mapping, by its labels. -/
theorem exists_finds {hops : Nat} {v : NodeId} {s : Suffix}
    (hfinds : Finds g m index wanted hops v s) :
    ∃ s', SameLabels m m' .edge s s' ∧ Finds g m' index' wanted hops v s' := by
  -- hop by hop; what is taken over at an indexed node stands in the other index as well
  induction hfinds with
  | @arrive hops v a first walked here =>
      obtain ⟨a', first', ha⟩ := h.exists_arrives first
      rw [← ha.node] at walked here
      rw [← hindex.contains_eq] at walked
      exact ⟨_, ha.hop, .arrive first' walked here⟩
  | @takeOver hops v a map s ends first indexed row fits there =>
      obtain ⟨a', first', ha⟩ := h.exists_arrives first
      rw [← ha.node] at indexed
      obtain ⟨map', indexed', hmap⟩ := hindex.exists_get? indexed
      obtain ⟨s', hs⟩ := hmap.forth s ends row
      refine ⟨_, sameLabels_append_pair.2 ⟨ha.hop, hs⟩, .takeOver first' indexed' ?_ ?_ there⟩
      · rw [hmap.same s s' hs]
        exact row
      · rw [hs.length_eq]
        exact fits
  | @walkOn hops v a s first walked rest ih =>
      obtain ⟨a', first', ha⟩ := h.exists_arrives first
      obtain ⟨s', hs, rest'⟩ := ih
      rw [← ha.node] at walked rest'
      rw [← hindex.contains_eq] at walked
      exact ⟨_, sameLabels_append_pair.2 ⟨ha.hop, hs⟩, .walkOn first' walked rest'⟩

theorem searchable {hops : Nat} {v : NodeId} (hsearchable : Searchable g m index wanted hops v) :
    Searchable g m' index' wanted hops v := by
  obtain ⟨hclear, hfound⟩ := hsearchable
  refine ⟨h.clear hindex.contains_eq hclear, fun s' hfinds' => ?_⟩
  obtain ⟨s, hs, hfinds⟩ := h.symm.exists_finds hindex.symm hfinds'
  refine ⟨?_, hs.registered⟩
  rw [← hs.length_eq]
  exact (hfound s hfinds).1

/-- **A path that is found** is found under the other mapping. -/
theorem exists_found {starts : List NodeId} {p : MetaPath}
    (hfound : Found g m index wanted length starts p) :
    ∃ p', p.Recoded m m' p' ∧ Found g m' index' wanted length starts p' := by
  obtain ⟨v, hv, label, hlabel, hfound⟩ := hfound
  obtain ⟨label', hlabel', hsame⟩ := h.exists_indexOfNode hlabel
  rcases hfound with ⟨hhere, htokens⟩ | ⟨s, hfinds, htokens⟩
  · have hp : SameLabels m m' .node p.tokens [label'] := by
      rw [htokens]
      exact sameLabels_cons.2 ⟨hsame, sameLabels_nil⟩
    obtain ⟨p', htokens', hp'⟩ := MetaPath.exists_recoded hp
    exact ⟨p', hp', v, hv, label', hlabel', .inl ⟨hhere, htokens'⟩⟩
  · obtain ⟨s', hs, hfinds'⟩ := h.exists_finds hindex hfinds
    have hp : SameLabels m m' .node p.tokens (label' :: s') := by
      rw [htokens]
      exact sameLabels_cons.2 ⟨hsame, hs⟩
    obtain ⟨p', htokens', hp'⟩ := MetaPath.exists_recoded hp
    exact ⟨p', hp', v, hv, label', hlabel', .inr ⟨s', hfinds', htokens'⟩⟩

theorem found {starts : List NodeId} {p p' : MetaPath} (hp : p.Recoded m m' p')
    (hfound : Found g m index wanted length starts p) :
    Found g m' index' wanted length starts p' := by
  obtain ⟨q', hq, hfound'⟩ := h.exists_found hindex hfound
  rw [hp.unique hq]
  exact hfound'

/-- Lines of all paths that are found fit under the other mapping, as they are the same lines. -/
theorem linesFit {starts : List NodeId} {sink : Sink} {bound : Option Nat}
    (hfits : LinesFit m sink bound (Found g m index wanted length starts)) :
    LinesFit m' sink bound (Found g m' index' wanted length starts) := by
  intro cap hcap paths' hnodup' hpaths'
  -- the paths under the one mapping for those under the other
  have hback : ∀ p' ∈ paths', ∃ p, p'.Recoded m' m p := fun p' hp' =>
    (h.symm.exists_found hindex.symm ((hpaths' p').1 hp')).imp fun p hp => hp.1
  obtain ⟨paths, hrecoded⟩ := (exists_forall₂_iff _).2 hback
  have hunique : Relator.BiUnique fun p' p : MetaPath => p'.Recoded m' m p :=
    ⟨fun _ _ _ hp hq => hp.symm.unique hq.symm, fun _ _ _ hp hq => hp.unique hq⟩
  have hsizes : paths'.map (lineSize m') = paths.map (lineSize m) := by
    refine map_eq_map_iff_forall₂.2 (hrecoded.imp fun p' p hp => ?_)
    unfold lineSize
    rw [hp.render_eq]
  rw [hsizes]
  refine hfits cap hcap paths ((List.rel_nodup hunique hrecoded).1 hnodup') fun p => ?_
  rw [mem_iff_of_forall₂ hunique.2 hrecoded]
  constructor
  · intro hsome
    obtain ⟨p', hp', hp⟩ := hsome
    exact h.symm.found hindex.symm hp ((hpaths' p').1 hp')
  · intro hfound
    obtain ⟨p', hp, hfound'⟩ := h.exists_found hindex hfound
    exact ⟨p', (hpaths' p').2 hfound', hp.symm⟩

/-- **A search succeeds** under the other mapping. -/
theorem exists_search {starts ends : List NodeId} {sink : Sink} {bound : Option Nat}
    (hroom : sink.HasRoom bound)
    (hsome : ∃ paths, (search g m index length starts ends sink).2 = .ok paths) :
    ∃ paths', (search g m' index' length starts ends sink).2 = .ok paths' := by
  have hwanted : ∀ v, v ∈ (Std.ExtTreeSet.ofList ends : NodeSet) ↔ v ∈ ends := fun _ =>
    mem_ofList_iff
  obtain ⟨hstarts, hends, hsearchable, hfits, hflush⟩ :=
    (exists_search_iff_fits hroom hwanted).1 hsome
  exact (exists_search_iff_fits hroom hwanted).2 ⟨h.labelled hstarts, h.labelled hends,
    fun v hv => h.searchable hindex (hsearchable v hv), h.linesFit hindex hfits, hflush⟩

/-- **The line of a path** that one search has found is that of one of the other search. -/
theorem pathLine {starts ends : List NodeId} {sink sink' : Sink} {paths paths' : PathSet}
    (hok : (search g m index length starts ends sink).2 = .ok paths)
    (hok' : (search g m' index' length starts ends sink').2 = .ok paths') {line : String}
    (hline : ∃ p ∈ paths, p.render m = .ok line) : ∃ p' ∈ paths', p'.render m' = .ok line := by
  obtain ⟨p, hmem, hrender⟩ := hline
  obtain ⟨p', hp, hfound'⟩ := h.exists_found hindex ((mem_search_ofList hok p).1 hmem)
  refine ⟨p', (mem_search_ofList hok' p').2 hfound', ?_⟩
  rw [← hp.render_eq]
  exact hrender

theorem pathLine_iff {starts ends : List NodeId} {sink sink' : Sink} {paths paths' : PathSet}
    (hok : (search g m index length starts ends sink).2 = .ok paths)
    (hok' : (search g m' index' length starts ends sink').2 = .ok paths') (line : String) :
    (∃ p ∈ paths, p.render m = .ok line) ↔ ∃ p' ∈ paths', p'.render m' = .ok line :=
  ⟨h.pathLine hindex hok hok', h.symm.pathLine hindex.symm hok' hok⟩

/-- **Any schedules of the two searches** come to the same end, with the same lines. -/
theorem searches {starts ends : List NodeId} {sink : Sink} (hsink : sink.Accepting)
    {answer answer' : Sink × Except Fault PathSet}
    (hanswer : Searches g m index length starts ends sink answer)
    (hanswer' : Searches g m' index' length starts ends sink answer')
    {paths : PathSet} (hok : answer.2 = .ok paths) :
    (∃ paths', answer'.2 = .ok paths')
      ∧ SameLines sink answer.1 answer'.1 fun line => ∃ p ∈ paths, p.render m = .ok line := by
  obtain ⟨hsame, hadds⟩ := hanswer.answer_and_adds hsink
  obtain ⟨hsame', hadds'⟩ := hanswer'.answer_and_adds hsink
  have hsearch := hsame.symm.trans hok
  obtain ⟨paths', hsearch'⟩ := h.exists_search hindex hsink.hasRoom ⟨paths, hsearch⟩
  have hok' := hsame'.trans hsearch'
  exact ⟨⟨paths', hok'⟩, (hadds paths hok).sameLines (hadds' paths' hok')
    (h.pathLine_iff hindex hsearch hsearch')⟩

end

end Recoding

/-! ## §4. Both. -/

/-- **Dense indices do not show in raw results.**  Two mappings know all labels of a graph,
whatever order they came in and whatever other labels there are.  Then a census succeeds under
the one just when it does under the other, and the lines of its table are written either way.
A search whose index is read from one text under either mapping succeeds just when the other
one does, and the lines of its paths are written either way: in a sink that takes anything or
all up to a bound, and with a sink that takes anything also under any two schedules. -/
theorem same_raw_results {g : GraphView} {m m' : Mapping} (hm : m.Knows g) (hm' : m'.Knows g)
    (length : PathLength) :
    (∀ sink bound, sink.HasRoom bound →
      ((∃ table, (writeCensus g m length sink).2 = .ok table) ↔
          ∃ table', (writeCensus g m' length sink).2 = .ok table')
        ∧ ∀ table, (writeCensus g m length sink).2 = .ok table →
          SameLines sink (writeCensus g m length sink).1 (writeCensus g m' length sink).1
            fun line => ∃ row ∈ table.toList, CountLine m row line)
    ∧ ∀ text index index', HubIndex.ofText m text = .ok index →
      HubIndex.ofText m' text = .ok index' → ∀ starts ends : List NodeId,
      (∀ sink bound, sink.HasRoom bound →
        ((∃ paths, (search g m index length starts ends sink).2 = .ok paths) ↔
            ∃ paths', (search g m' index' length starts ends sink).2 = .ok paths')
          ∧ ∀ paths, (search g m index length starts ends sink).2 = .ok paths →
            SameLines sink (search g m index length starts ends sink).1
              (search g m' index' length starts ends sink).1
              fun line => ∃ p ∈ paths, p.render m = .ok line)
      ∧ ∀ sink, sink.Accepting → ∀ answer answer',
        Searches g m index length starts ends sink answer →
        Searches g m' index' length starts ends sink answer' →
        ((∃ paths, answer.2 = .ok paths) ↔ ∃ paths', answer'.2 = .ok paths')
          ∧ ∀ paths, answer.2 = .ok paths → SameLines sink answer.1 answer'.1
            fun line => ∃ p ∈ paths, p.render m = .ok line := by
  have h : Recoding g m m' := ⟨hm, hm'⟩
  refine ⟨fun sink bound hroom => ?_, fun text index index' hread hread' starts ends => ?_⟩
  · refine ⟨⟨h.exists_writeCensus hroom, h.symm.exists_writeCensus hroom⟩, fun table hok => ?_⟩
    obtain ⟨table', hok'⟩ := h.exists_writeCensus hroom ⟨table, hok⟩
    exact h.sameLines_writeCensus hok hok'
  · have hindex := HubIndex.recoded_of_ofText hread hread'
    refine ⟨fun sink bound hroom => ?_, fun sink hsink answer answer' hanswer hanswer' => ?_⟩
    · refine ⟨⟨h.exists_search hindex hroom, h.symm.exists_search hindex.symm hroom⟩,
        fun paths hok => ?_⟩
      obtain ⟨paths', hok'⟩ := h.exists_search hindex hroom ⟨paths, hok⟩
      exact (adds_of_search hok).sameLines (adds_of_search hok') (h.pathLine_iff hindex hok hok')
    · refine ⟨⟨?_, ?_⟩, fun paths hok => (h.searches hindex hsink hanswer hanswer' hok).2⟩
      · intro hsome
        obtain ⟨paths, hok⟩ := hsome
        exact (h.searches hindex hsink hanswer hanswer' hok).1
      · intro hsome
        obtain ⟨paths', hok'⟩ := hsome
        exact (h.symm.searches hindex.symm hsink hanswer' hanswer hok').1

/-- A suffix from node 2 of `twins` to node 1, as raw labels. -/
def twinText : String :=
  "2:=2-7|1=1-\n"

/-- The path from node 1 over node 2 back to node 1 has different tokens under the two mappings, and
the same line. -/
theorem same_raw_results_twins :
    twinLabels.Knows twins.view ∧ otherLabels.Knows twins.view
      ∧ ∃ (table : Census) (index index' : HubIndex) (paths paths' : PathSet),
        (writeCensus twins.view twinLabels ⟨3, by decide, by decide⟩ .unlimited).2 = .ok table
        ∧ SameLines .unlimited
          (writeCensus twins.view twinLabels ⟨3, by decide, by decide⟩ .unlimited).1
          (writeCensus twins.view otherLabels ⟨3, by decide, by decide⟩ .unlimited).1
          (fun line => ∃ row ∈ table.toList, CountLine twinLabels row line)
        ∧ HubIndex.ofText twinLabels twinText = .ok index
        ∧ HubIndex.ofText otherLabels twinText = .ok index'
        ∧ (search twins.view otherLabels index' ⟨3, by decide, by decide⟩ [1] [1, 2] .unlimited).2
          = .ok paths'
        ∧ SameLines .unlimited
          (search twins.view twinLabels index ⟨3, by decide, by decide⟩ [1] [1, 2] .unlimited).1
          (search twins.view otherLabels index' ⟨3, by decide, by decide⟩ [1] [1, 2] .unlimited).1
          (fun line => ∃ p ∈ paths, p.render twinLabels = .ok line)
        ∧ "1|7|2|7|1" ∈ paths.toList.filterMap fun p => (p.render twinLabels).toOption := by
  have hok : (writeCensus twins.view twinLabels ⟨3, by decide, by decide⟩
      .unlimited).2.toOption.isSome = true := by decide +kernel
  have hread : (HubIndex.ofText twinLabels twinText).toOption.any (fun index =>
      (search twins.view twinLabels index ⟨3, by decide, by decide⟩ [1] [1, 2]
        .unlimited).2.toOption.any fun paths => (paths.toList.filterMap fun p =>
          (p.render twinLabels).toOption).contains "1|7|2|7|1") = true := by decide +kernel
  have hread' : (HubIndex.ofText otherLabels twinText).toOption.isSome = true := by decide +kernel
  obtain ⟨table, htable⟩ := Option.isSome_iff_exists.1 hok
  obtain ⟨index, hindex, hfound⟩ := (Option.any_eq_true _ _).1 hread
  obtain ⟨paths, hpaths, hline⟩ := (Option.any_eq_true _ _).1 hfound
  obtain ⟨index', hindex'⟩ := Option.isSome_iff_exists.1 hread'
  have htable := toOption_eq_some_iff.1 htable
  have hindex := toOption_eq_some_iff.1 hindex
  have hindex' := toOption_eq_some_iff.1 hindex'
  have hpaths := toOption_eq_some_iff.1 hpaths
  have hroom : Sink.unlimited.HasRoom none := Sink.unlimited_accepting.hasRoom
  obtain ⟨hcensus, hsearch⟩ :=
    same_raw_results twinLabels_knows otherLabels_knows ⟨3, by decide, by decide⟩
  obtain ⟨hiff, hlines⟩ := (hsearch twinText index index' hindex hindex' [1] [1, 2]).1 _ _ hroom
  obtain ⟨paths', hpaths'⟩ := hiff.1 ⟨paths, hpaths⟩
  exact ⟨twinLabels_knows, otherLabels_knows, table, index, index', paths, paths', htable,
    (hcensus _ _ hroom).2 table htable, hindex, hindex', hpaths', hlines paths hpaths,
    List.contains_iff_mem.1 hline⟩

end LabelWalks
