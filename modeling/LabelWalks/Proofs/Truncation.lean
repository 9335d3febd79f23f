/-
  LabelWalks.Proofs.Truncation
  ────────────────────────────
  **A SHORTER LENGTH LEAVES OUT WHAT IS LONGER, AND NOTHING ELSE.**

  The two runs soon have different frontiers, and a search can come to one path in
  many ways: it walks for a while and takes over the rest from the index, and how
  long a rest fits depends on how far it has walked.  In terms of what is found from
  a node the length is a bound on the sum of both, whichever way a path is split.
  What a longer run meets on its way a shorter one meets as well or never comes to, so
  it goes through when the longer one does.

    • `finds_iff_of_le`, `found_truncate_iff` — what a search finds,
    • `exists_writeCensus_of_longer`, `getElem?_census_truncate_iff` — the census,
    • `exists_suffixesFrom_of_longer`, `getElem?_suffixesFrom_truncate_iff` — suffix maps,
    • `exists_search_of_longer` — the search,
    • `shorter_lengths_truncate` — all three.
-/
import LabelWalks.Proofs.Census.Line
import LabelWalks.Proofs.Search.Meaning
import LabelWalks.Proofs.Suffix

namespace LabelWalks

variable {g : GraphView} {m : Mapping}

/-! ## §1. Fewer lines. -/

/-- Members of a list that are all different have no greater sum than the list. -/
theorem sum_map_le_of_subset {α : Type} (f : α → Nat) {xs ys : List α} (hnodup : xs.Nodup)
    (hsub : ∀ x ∈ xs, x ∈ ys) : (xs.map f).sum ≤ (ys.map f).sum := by
  obtain ⟨zs, hperm, hzs⟩ := hnodup.subperm hsub
  rw [← (hperm.map f).sum_eq]
  exact (hzs.map f).sum_le_sum fun _ _ => Nat.zero_le _

/-- The lines of some of the paths fit when those of all paths do. -/
theorem LinesFit.of_subset {sink : Sink} {bound : Option Nat} {given given' : MetaPath → Prop}
    (hfits : LinesFit m sink bound given') {all : List MetaPath} (hnodup : all.Nodup)
    (hall : ∀ p, p ∈ all ↔ given' p) (hsub : ∀ p, given p → given' p) :
    LinesFit m sink bound given := by
  intro cap hcap paths hpaths hgiven
  have htotal := hfits cap hcap all hnodup hall
  have hle := sum_map_le_of_subset (lineSize m) hpaths fun p hp =>
    (hall p).2 (hsub p ((hgiven p).1 hp))
  omega

/-! ## §2. What is found from a node. -/

section
variable {index : HubIndex} {wanted : NodeSet} {hops hops' : Nat} {v : NodeId} {s : Suffix}

/-- **With fewer hops left** just the longer suffixes are not found. -/
theorem finds_iff_of_le (hle : hops ≤ hops') :
    Finds g m index wanted hops v s ↔
      Finds g m index wanted hops' v s ∧ s.length / 2 ≤ hops := by
  constructor
  · intro h
    exact ⟨h.of_fits (fun _ hw => hw) (h.half_length_le.trans hle), h.half_length_le⟩
  · intro h
    exact h.1.of_fits (fun _ hw => hw) h.2

theorem Searchable.of_le (h : Searchable g m index wanted hops' v) (hle : hops ≤ hops') :
    Searchable g m index wanted hops v := by
  refine ⟨h.1.mono (fun _ hw => hw) hle, fun s hfinds => h.2 s ?_⟩
  exact ((finds_iff_of_le hle).1 hfinds).1

end

/-! ## §3. A shorter and a longer length. -/

section
variable {length longer : PathLength} (hle : length.nodes ≤ longer.nodes)
include hle

theorem PathLength.hops_le : length.hops ≤ longer.hops :=
  Nat.sub_le_sub_right hle 1

/-- **A path is found within the shorter length** when it is found and is short enough. -/
theorem found_truncate_iff {index : HubIndex} {wanted : NodeSet} {starts : List NodeId}
    {p : MetaPath} :
    Found g m index wanted length starts p ↔
      Found g m index wanted longer starts p ∧ p.tokens.length ≤ 2 * length.nodes - 1 := by
  have hpos := length.pos
  have hlength : length.hops = length.nodes - 1 := rfl
  have hodd := p.odd
  unfold Found
  simp only [finds_iff_of_le (PathLength.hops_le hle)]
  constructor
  · intro h
    obtain ⟨v, hv, label, hlabel, ⟨hhere, htokens⟩ | ⟨s, ⟨hfinds, hlen⟩, htokens⟩⟩ := h
    · refine ⟨⟨v, hv, label, hlabel, .inl ⟨hhere, htokens⟩⟩, ?_⟩
      rw [htokens, List.length_singleton]
      omega
    · refine ⟨⟨v, hv, label, hlabel, .inr ⟨s, hfinds, htokens⟩⟩, ?_⟩
      rw [htokens, List.length_cons] at hodd ⊢
      omega
  · intro h
    obtain ⟨⟨v, hv, label, hlabel, hhere | ⟨s, hfinds, htokens⟩⟩, hlen⟩ := h
    · exact ⟨v, hv, label, hlabel, .inl hhere⟩
    · refine ⟨v, hv, label, hlabel, .inr ⟨s, ⟨hfinds, ?_⟩, htokens⟩⟩
      rw [htokens, List.length_cons] at hlen
      omega

theorem counted_truncate_iff {p : MetaPath} :
    Counted g m length p ↔
      Counted g m longer p ∧ p.tokens.length ≤ 2 * length.nodes - 1 := by
  unfold Counted
  constructor
  · intro h
    obtain ⟨hlen, hwalk⟩ := h
    exact ⟨⟨by omega, hwalk⟩, hlen⟩
  · intro h
    exact ⟨h.2, h.1.2⟩

/-! ## §4. The census. -/

section
variable {table table' : Census}

theorem exists_census_of_longer (h' : census g m longer = .ok table') :
    ∃ table, census g m length = .ok table := by
  obtain ⟨hlabelled, hclear⟩ := exists_census_iff.1 ⟨table', h'⟩
  refine exists_census_iff.2 ⟨hlabelled, fun v hv => ?_⟩
  exact (hclear v hv).mono (fun _ hw => hw) (PathLength.hops_le hle)

/-- **The table of the shorter length** is that of the longer one without the longer paths. -/
theorem getElem?_census_truncate_iff (h : census g m length = .ok table)
    (h' : census g m longer = .ok table') (p : MetaPath) (n : Nat) :
    table[p]? = some n ↔ table'[p]? = some n ∧ p.tokens.length ≤ 2 * length.nodes - 1 := by
  rw [getElem?_census h, getElem?_census h', counted_truncate_iff hle]
  exact and_right_comm

/-- The lines of the smaller table are among those of the greater one. -/
theorem sum_countLines_le (h : census g m length = .ok table) (h' : census g m longer = .ok table')
    {texts texts' : List String} (htexts : Census.lines m table = .ok texts)
    (htexts' : Census.lines m table' = .ok texts') :
    (texts.map String.length).sum ≤ (texts'.map String.length).sum := by
  obtain ⟨lines, hlines, rfl⟩ := exists_countLines htexts
  obtain ⟨lines', hlines', rfl⟩ := exists_countLines htexts'
  rw [List.map_map, List.map_map]
  refine sum_map_le_of_subset _
    ((List.rel_nodup (biUnique_countLine m) hlines).1 (nodup_toList table)) fun line hline => ?_
  obtain ⟨⟨p, n⟩, hrow, hcount⟩ := (mem_iff_of_forall₂ (biUnique_countLine m).2 hlines).1 hline
  refine (mem_iff_of_forall₂ (biUnique_countLine m).2 hlines').2 ⟨(p, n), ?_, hcount⟩
  rw [Std.ExtTreeMap.mem_toList_iff_getElem?_eq_some] at hrow ⊢
  exact ((getElem?_census_truncate_iff hle h h' p n).1 hrow).1

/-- **A census that is written for the longer length** can be written for the shorter one. -/
theorem exists_writeCensus_of_longer {sink : Sink} {bound : Option Nat} (hroom : sink.HasRoom bound)
    (hok' : (writeCensus g m longer sink).2 = .ok table') :
    ∃ table, (writeCensus g m length sink).2 = .ok table := by
  obtain ⟨h', texts', htexts', htaken, hflush⟩ := writeCensus_eq_ok_iff.1 hok'
  obtain ⟨table, h⟩ := exists_census_of_longer hle h'
  obtain ⟨texts, htexts⟩ := exists_lines_of_census h
  refine ⟨table, writeCensus_eq_ok_iff.2 ⟨h, texts, htexts, ?_, hflush⟩⟩
  have hsum := sum_countLines_le hle h h' htexts htexts'
  rw [hroom.writeAll_eq_none_iff] at htaken ⊢
  intro cap hcap
  have hfits := htaken cap hcap
  omega

end

/-! ## §5. Suffix maps. -/

theorem exists_suffixesFrom_of_longer {v : NodeId} {map' : SuffixMap}
    (h' : suffixesFrom g m v longer = .ok map') : ∃ map, suffixesFrom g m v length = .ok map := by
  obtain ⟨hlabel, hclear⟩ := exists_suffixesFrom_iff.1 ⟨map', h'⟩
  exact exists_suffixesFrom_iff.2 ⟨hlabel, hclear.mono (fun _ hw => hw) (PathLength.hops_le hle)⟩

/-- **The suffixes within the shorter length** are those of the longer one that are short
enough, with the same ends. -/
theorem getElem?_suffixesFrom_truncate_iff {v : NodeId} {map map' : SuffixMap}
    (h : suffixesFrom g m v length = .ok map) (h' : suffixesFrom g m v longer = .ok map')
    (s : Suffix) (ends : NodeSet) :
    map[s]? = some ends ↔ map'[s]? = some ends ∧ s.length ≤ 2 * (length.nodes - 1) := by
  have hhops := PathLength.hops_le hle
  rw [getElem?_suffixesFrom h, getElem?_suffixesFrom h']
  show s.length ≤ 2 * length.hops ∧ _ ↔ _ ∧ s.length ≤ 2 * length.hops
  constructor
  · intro hrow
    exact ⟨⟨by omega, hrow.2⟩, hrow.1⟩
  · intro hrow
    exact ⟨hrow.2, hrow.1.2⟩

/-! ## §6. The search. -/

/-- **A search that comes to its end for the longer length** comes to its end for the shorter
one, and finds those of the paths that are short enough. -/
theorem exists_search_of_longer {index : HubIndex} {starts ends : List NodeId} {sink : Sink}
    {bound : Option Nat} (hroom : sink.HasRoom bound) {paths' : PathSet}
    (h' : (search g m index longer starts ends sink).2 = .ok paths') :
    ∃ paths, (search g m index length starts ends sink).2 = .ok paths
      ∧ ∀ p, p ∈ paths ↔ p ∈ paths' ∧ p.tokens.length ≤ 2 * length.nodes - 1 := by
  have hwanted : ∀ v, v ∈ (Std.ExtTreeSet.ofList ends : NodeSet) ↔ v ∈ ends := fun _ =>
    mem_ofList_iff
  obtain ⟨hstarts, hends, hsearchable, hfits, hflush⟩ :=
    (exists_search_iff_fits hroom hwanted).1 ⟨paths', h'⟩
  have hall : ∀ p, p ∈ paths'.toList ↔ Found g m index (.ofList ends) longer starts p := by
    intro p
    rw [Std.ExtTreeSet.mem_toList, mem_search_ofList h']
  obtain ⟨paths, h⟩ : ∃ paths, (search g m index length starts ends sink).2 = .ok paths := by
    refine (exists_search_iff_fits hroom hwanted).2 ⟨hstarts, hends, fun v hv => ?_, ?_, hflush⟩
    · exact (hsearchable v hv).of_le (PathLength.hops_le hle)
    · exact hfits.of_subset (nodup_toList_set paths') hall fun p hp =>
        ((found_truncate_iff hle).1 hp).1
  refine ⟨paths, h, fun p => ?_⟩
  rw [mem_search_ofList h, mem_search_ofList h', found_truncate_iff hle]

end

/-! ## §7. All three. -/

/-- **A length does nothing but truncate.**  A sink takes all up to some bound, or any amount.
When a census, a suffix map or a search comes to its end for the longer length it comes to
its end for the shorter one, and then it has what the longer one has, less what is
longer: paths of more than one token and two for each hop, and suffixes of more than two for
each hop.  The counts of the paths and the ends of the suffixes are the same. -/
theorem shorter_lengths_truncate (g : GraphView) (m : Mapping) {length longer : PathLength}
    (hle : length.nodes ≤ longer.nodes) :
    (∀ (sink : Sink) (bound : Option Nat), sink.HasRoom bound → ∀ table',
      (writeCensus g m longer sink).2 = .ok table' →
        ∃ table, (writeCensus g m length sink).2 = .ok table
          ∧ ∀ (p : MetaPath) (n : Nat), table[p]? = some n ↔
            table'[p]? = some n ∧ p.tokens.length ≤ 2 * length.nodes - 1)
      ∧ (∀ v map', suffixesFrom g m v longer = .ok map' →
        ∃ map, suffixesFrom g m v length = .ok map
          ∧ ∀ (s : Suffix) (ends : NodeSet), map[s]? = some ends ↔
            map'[s]? = some ends ∧ s.length ≤ 2 * (length.nodes - 1))
      ∧ ∀ (index : HubIndex) (starts ends : List NodeId) (sink : Sink) (bound : Option Nat),
        sink.HasRoom bound → ∀ paths', (search g m index longer starts ends sink).2 = .ok paths' →
          ∃ paths, (search g m index length starts ends sink).2 = .ok paths
            ∧ ∀ p, p ∈ paths ↔ p ∈ paths' ∧ p.tokens.length ≤ 2 * length.nodes - 1 := by
  refine ⟨fun sink bound hroom table' hok' => ?_, fun v map' h' => ?_,
    fun index starts ends sink bound hroom paths' h' => exists_search_of_longer hle hroom h'⟩
  · obtain ⟨table, hok⟩ := exists_writeCensus_of_longer hle hroom hok'
    refine ⟨table, hok, ?_⟩
    exact getElem?_census_truncate_iff hle (writeCensus_eq_ok hok) (writeCensus_eq_ok hok')
  · obtain ⟨map, h⟩ := exists_suffixesFrom_of_longer hle h'
    exact ⟨map, h, getElem?_suffixesFrom_truncate_iff hle h h'⟩

/-- From node 1 of `twins` past the indexed node 2 and back: what is left with one hop less. -/
theorem shorter_lengths_truncate_twins :
    ∃ paths', (search twins.view twinLabels twinIndex ⟨3, by decide, by decide⟩ [1] [1]
        .unlimited).2 = .ok paths'
      ∧ ∃ paths, (search twins.view twinLabels twinIndex ⟨2, by decide, by decide⟩ [1] [1]
          .unlimited).2 = .ok paths
        ∧ ∀ p, p ∈ paths ↔ p ∈ paths' ∧ p.tokens.length ≤ 3 := by
  have hok : (search twins.view twinLabels twinIndex ⟨3, by decide, by decide⟩ [1] [1]
      .unlimited).2.toOption.isSome = true := by decide +kernel
  obtain ⟨paths', hpaths'⟩ := Option.isSome_iff_exists.1 hok
  have hpaths' := toOption_eq_some_iff.1 hpaths'
  have htruncate := (@shorter_lengths_truncate twins.view twinLabels ⟨2, by decide, by decide⟩
    ⟨3, by decide, by decide⟩ (by decide)).2.2
  exact ⟨paths', hpaths', htruncate twinIndex [1] [1] .unlimited none
    Sink.unlimited_accepting.hasRoom paths' hpaths'⟩

end LabelWalks
