/-
  LabelWalks.Proofs.Search.Meaning
  ────────────────────────────────
  **WHAT THE PATHS OF A SEARCH ARE.**

  A search never looks at a walk: it keeps label sequences with the nodes at their
  ends, it leaves indexed nodes out of these, and it hands its start nodes to
  workers.  All the same its result is told by walks alone, whatever the index
  holds.

    • `Walked` — a walk to an end node that meets no indexed node after its start,
    • `Spliced` — a walk to its first indexed node, with a suffix of that node,
    • `mem_search_iff` — these two are the result.
-/
import LabelWalks.Proofs.Search.Findings

namespace LabelWalks

/-! ## §1. Two ways to be found. -/

/-- The path is the label sequence of a walk from a start node to an end node that is
within the length and comes to no indexed node. -/
def Walked (g : GraphView) (m : Mapping) (index : HubIndex) (length : PathLength)
    (starts ends : List NodeId) (p : MetaPath) : Prop :=
  ∃ v ∈ starts, ∃ as, IsWalk g m v as ∧ as.length ≤ length.nodes - 1 ∧ endOf v as ∈ ends
    ∧ (∀ a ∈ as, index.get? a.node = none) ∧ traceOf g m v as = some p.tokens

/-- The path is the label sequence of a walk from a start node that comes to an indexed
node with its last hop and not before, followed by a suffix of that node that ends at an
end node and is not longer than what is left of the length. -/
def Spliced (g : GraphView) (m : Mapping) (index : HubIndex) (length : PathLength)
    (starts ends : List NodeId) (p : MetaPath) : Prop :=
  ∃ v ∈ starts, ∃ as a map s targets trace, IsWalk g m v (as ++ [a])
    ∧ as.length + 1 ≤ length.nodes - 1 ∧ (∀ b ∈ as, index.get? b.node = none)
    ∧ index.get? a.node = some map ∧ map[s]? = some targets
    ∧ s.length / 2 ≤ length.nodes - 1 - (as.length + 1) ∧ (∃ w ∈ targets, w ∈ ends)
    ∧ traceOf g m v (as ++ [a]) = some trace ∧ p.tokens = trace ++ s

variable {g : GraphView} {m : Mapping} {index : HubIndex} {length : PathLength}
  {starts ends : List NodeId}

/-- What a worker finds from a start node, as walks. -/
theorem found_iff {wanted : NodeSet} (hwanted : ∀ v, v ∈ wanted ↔ v ∈ ends) {p : MetaPath} :
    Found g m index wanted length starts p ↔
      Walked g m index length starts ends p ∨ Spliced g m index length starts ends p := by
  simp only [Found, finds_iff, FoundByWalk, FoundBySplice, HubIndex.contains_eq_false_iff,
    NodeSet.meets_iff, hwanted]
  constructor
  · intro h
    rcases h with ⟨v, hv, label, hlabel, ⟨hend, htokens⟩ | ⟨_, ⟨as, -, hwalk, hlen, has, hend, rfl⟩
      | ⟨as, a, map, s, targets, hwalk, hlen, has, hmap, hrow, hfits, hmeets, rfl⟩, htokens⟩⟩
    · -- the walk that stays
      refine .inl ⟨v, hv, [], .stay v, Nat.zero_le _, hend, by simp, ?_⟩
      exact traceOf_eq_some_iff.2 ⟨label, hlabel, htokens⟩
    · refine .inl ⟨v, hv, as, hwalk, hlen, hend, has, ?_⟩
      exact traceOf_eq_some_iff.2 ⟨label, hlabel, htokens⟩
    · refine .inr ⟨v, hv, as, a, map, s, targets, label :: hopTokens (as ++ [a]), hwalk, hlen,
        has, hmap, hrow, hfits, hmeets, ?_, htokens⟩
      exact traceOf_eq_some_iff.2 ⟨label, hlabel, rfl⟩
  · intro h
    rcases h with ⟨v, hv, as, hwalk, hlen, hend, has, htrace⟩
      | ⟨v, hv, as, a, map, s, targets, trace, hwalk, hlen, has, hmap, hrow, hfits, hmeets, htrace,
        htokens⟩
    · obtain ⟨label, hlabel, htokens⟩ := traceOf_eq_some_iff.1 htrace
      refine ⟨v, hv, label, hlabel, ?_⟩
      by_cases hnil : as = []
      · subst hnil
        exact .inl ⟨hend, htokens⟩
      · exact .inr ⟨_, .inl ⟨as, hnil, hwalk, hlen, has, hend, rfl⟩, htokens⟩
    · obtain ⟨label, hlabel, rfl⟩ := traceOf_eq_some_iff.1 htrace
      exact ⟨v, hv, label, hlabel, .inr ⟨_, .inr ⟨as, a, map, s, targets, hwalk, hlen, has, hmap,
        hrow, hfits, hmeets, rfl⟩, htokens⟩⟩

/-! ## §2. Lengths, and the index without a node. -/

theorem Walked.length_le {p : MetaPath} (h : Walked g m index length starts ends p) :
    p.tokens.length ≤ 2 * length.nodes - 1 := by
  obtain ⟨v, -, as, -, hlen, -, -, htrace⟩ := h
  obtain ⟨label, -, htokens⟩ := traceOf_eq_some_iff.1 htrace
  have hpos := length.pos
  rw [htokens, List.length_cons, length_hopTokens]
  omega

theorem Spliced.length_le {p : MetaPath} (h : Spliced g m index length starts ends p) :
    p.tokens.length ≤ 2 * length.nodes - 1 := by
  obtain ⟨v, -, as, a, map, s, targets, trace, -, hlen, -, -, -, hfits, -, htrace, htokens⟩ := h
  obtain ⟨label, -, rfl⟩ := traceOf_eq_some_iff.1 htrace
  have hodd := p.odd
  rw [htokens] at hodd ⊢
  simp only [List.length_append, List.length_cons, length_hopTokens, List.length_nil] at hodd ⊢
  omega

/-- Without an index every walk counts, and nothing else does. -/
theorem walked_or_spliced_empty {p : MetaPath} :
    Walked g m .empty length starts ends p ∨ Spliced g m .empty length starts ends p ↔
      ∃ v ∈ starts, ∃ as, IsWalk g m v as ∧ as.length ≤ length.nodes - 1 ∧ endOf v as ∈ ends
        ∧ traceOf g m v as = some p.tokens := by
  constructor
  · intro h
    rcases h with ⟨v, hv, as, hwalk, hlen, hend, -, htrace⟩
      | ⟨v, -, as, a, map, s, targets, trace, -, -, -, hmap, -⟩
    · exact ⟨v, hv, as, hwalk, hlen, hend, htrace⟩
    · rw [HubIndex.get?_empty] at hmap
      cases hmap
  · intro h
    obtain ⟨v, hv, as, hwalk, hlen, hend, htrace⟩ := h
    exact .inl ⟨v, hv, as, hwalk, hlen, hend, fun a _ => HubIndex.get?_empty a.node, htrace⟩

/-! ## §3. The result. -/

/-- **The exact meaning of a search.**  Its result is the set of all paths that are walked
or spliced, none of them is longer than the length allows, and with the empty index it is
the set of the label sequences of all walks within the length. -/
theorem mem_search_iff {g : GraphView} {m : Mapping} {index : HubIndex} {length : PathLength}
    {starts ends : List NodeId} {sink : Sink} {paths : PathSet}
    (h : (search g m index length starts ends sink).2 = .ok paths) :
    (∀ p, p ∈ paths ↔
        Walked g m index length starts ends p ∨ Spliced g m index length starts ends p)
      ∧ (∀ p ∈ paths, p.tokens.length ≤ 2 * length.nodes - 1)
      ∧ (index = .empty → ∀ p, p ∈ paths ↔
          ∃ v ∈ starts, ∃ as, IsWalk g m v as ∧ as.length ≤ length.nodes - 1 ∧ endOf v as ∈ ends
            ∧ traceOf g m v as = some p.tokens) := by
  obtain ⟨wanted, hwanted, hpaths⟩ := mem_search h
  have hmem : ∀ p, p ∈ paths ↔
      Walked g m index length starts ends p ∨ Spliced g m index length starts ends p := by
    intro p
    rw [hpaths, found_iff hwanted]
  refine ⟨hmem, fun p hp => ?_, ?_⟩
  · rcases (hmem p).1 hp with hwalked | hspliced
    · exact hwalked.length_le
    · exact hspliced.length_le
  · intro h p
    subst h
    rw [hmem, walked_or_spliced_empty]

/-- An index that says how to come from node 2 of `twins` to node 1. -/
def twinIndex : HubIndex :=
  .insert .empty 2 [([0, 0], (∅ : NodeSet).insert 1)]

/-- From node 1 to itself, by staying or past the indexed node 2. -/
theorem mem_search_iff_twins :
    ∃ paths, (search twins.view twinLabels twinIndex ⟨3, by decide, by decide⟩ [1] [1]
        .unlimited).2 = .ok paths
      ∧ ∀ p, p ∈ paths ↔
        Walked twins.view twinLabels twinIndex ⟨3, by decide, by decide⟩ [1] [1] p
          ∨ Spliced twins.view twinLabels twinIndex ⟨3, by decide, by decide⟩ [1] [1] p := by
  have hok : (search twins.view twinLabels twinIndex ⟨3, by decide, by decide⟩ [1] [1]
      .unlimited).2.toOption.isSome = true := by decide +kernel
  obtain ⟨paths, hpaths⟩ := Option.isSome_iff_exists.1 hok
  have hpaths := toOption_eq_some_iff.1 hpaths
  exact ⟨paths, hpaths, (mem_search_iff hpaths).1⟩

end LabelWalks
