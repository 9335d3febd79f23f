/-
  LabelWalks.Proofs.Search.Union
  ──────────────────────────────
  **SEARCHING FROM MORE NODES TO MORE NODES.**

  A search puts all start nodes of one label into one frontier and looks for all end
  nodes at once, so a search from two lists to two lists goes through other states
  than the four searches from one list to one list.  Node by node they do the same:
  what is found from a start node does not depend on the other start nodes, and it is
  found for an end node whatever else is wanted.

    • `finds_union_iff`, `searchable_union_iff` — more nodes that are wanted,
    • `found_append_iff`, `found_union_iff` — more start nodes as well,
    • `exists_search_append_iff`, `mem_search_append_iff` — two lists and two lists,
    • `search_append` — all of a search.
-/
import LabelWalks.Proofs.Search.Meaning

namespace LabelWalks

variable {g : GraphView} {m : Mapping} {index : HubIndex} {length : PathLength}

/-! ## §1. More nodes that are wanted. -/

section
variable {wanted wanted₁ wanted₂ : NodeSet}
  (hwanted : ∀ v, v ∈ wanted ↔ v ∈ wanted₁ ∨ v ∈ wanted₂)
include hwanted

/-- **What is found from a node** is found for one part of the wanted nodes or for the other. -/
theorem finds_union_iff {hops : Nat} {v : NodeId} {s : Suffix} :
    Finds g m index wanted hops v s ↔
      Finds g m index wanted₁ hops v s ∨ Finds g m index wanted₂ hops v s := by
  constructor
  · intro h
    -- only the last node of what is found has to be wanted
    induction h with
    | arrive first walked here =>
        rcases (hwanted _).1 here with here | here
        · exact .inl (.arrive first walked here)
        · exact .inr (.arrive first walked here)
    | takeOver first indexed row fits there =>
        obtain ⟨w, hw, hmem⟩ := NodeSet.meets_iff.1 there
        rcases (hwanted w).1 hmem with hmem | hmem
        · exact .inl (.takeOver first indexed row fits (NodeSet.meets_iff.2 ⟨w, hw, hmem⟩))
        · exact .inr (.takeOver first indexed row fits (NodeSet.meets_iff.2 ⟨w, hw, hmem⟩))
    | walkOn first walked _ ih =>
        rcases ih with rest | rest
        · exact .inl (.walkOn first walked rest)
        · exact .inr (.walkOn first walked rest)
  · intro h
    rcases h with h | h
    · exact h.of_fits (fun w hw => (hwanted w).2 (.inl hw)) h.half_length_le
    · exact h.of_fits (fun w hw => (hwanted w).2 (.inr hw)) h.half_length_le

/-- **Nothing stops a worker** just when nothing does for either part of the wanted nodes. -/
theorem searchable_union_iff {hops : Nat} {v : NodeId} :
    Searchable g m index wanted hops v ↔
      Searchable g m index wanted₁ hops v ∧ Searchable g m index wanted₂ hops v := by
  unfold Searchable
  simp only [finds_union_iff hwanted]
  constructor
  · intro h
    exact ⟨⟨h.1, fun s hs => h.2 s (.inl hs)⟩, h.1, fun s hs => h.2 s (.inr hs)⟩
  · intro h
    exact ⟨h.1.1, fun s hs => hs.elim (h.1.2 s) (h.2.2 s)⟩

theorem found_union_iff {starts : List NodeId} {p : MetaPath} :
    Found g m index wanted length starts p ↔
      Found g m index wanted₁ length starts p ∨ Found g m index wanted₂ length starts p := by
  unfold Found
  simp only [finds_union_iff hwanted, hwanted]
  constructor
  · intro h
    obtain ⟨v, hv, label, hlabel, ⟨hhere | hhere, htokens⟩ | ⟨s, hfinds | hfinds, htokens⟩⟩ := h
    · exact .inl ⟨v, hv, label, hlabel, .inl ⟨hhere, htokens⟩⟩
    · exact .inr ⟨v, hv, label, hlabel, .inl ⟨hhere, htokens⟩⟩
    · exact .inl ⟨v, hv, label, hlabel, .inr ⟨s, hfinds, htokens⟩⟩
    · exact .inr ⟨v, hv, label, hlabel, .inr ⟨s, hfinds, htokens⟩⟩
  · intro h
    rcases h with ⟨v, hv, label, hlabel, hhere | ⟨s, hfinds, htokens⟩⟩
      | ⟨v, hv, label, hlabel, hhere | ⟨s, hfinds, htokens⟩⟩
    · exact ⟨v, hv, label, hlabel, .inl ⟨.inl hhere.1, hhere.2⟩⟩
    · exact ⟨v, hv, label, hlabel, .inr ⟨s, .inl hfinds, htokens⟩⟩
    · exact ⟨v, hv, label, hlabel, .inl ⟨.inr hhere.1, hhere.2⟩⟩
    · exact ⟨v, hv, label, hlabel, .inr ⟨s, .inr hfinds, htokens⟩⟩

end

/-! ## §2. More start nodes and more end nodes. -/

theorem labelled_append_iff {nodes nodes' : List NodeId} :
    Labelled g m (nodes ++ nodes') ↔ Labelled g m nodes ∧ Labelled g m nodes' := by
  unfold Labelled
  simp only [List.mem_append, or_imp, forall_and]

/-- What is found from two lists of start nodes is found from one of them. -/
theorem found_append_iff {wanted : NodeSet} {starts starts' : List NodeId} {p : MetaPath} :
    Found g m index wanted length (starts ++ starts') p ↔
      Found g m index wanted length starts p ∨ Found g m index wanted length starts' p := by
  unfold Found
  simp only [List.mem_append, or_and_right, exists_or]

/-- The end nodes as a set. -/
theorem mem_ofList_append {ends ends' : List NodeId} (v : NodeId) :
    v ∈ (Std.ExtTreeSet.ofList (ends ++ ends') : NodeSet) ↔
      v ∈ (Std.ExtTreeSet.ofList ends : NodeSet) ∨ v ∈ (Std.ExtTreeSet.ofList ends' : NodeSet) := by
  rw [mem_ofList_iff, mem_ofList_iff, mem_ofList_iff, List.mem_append]

variable {sink sink' : Sink} {starts₁ starts₂ ends₁ ends₂ : List NodeId}

/-- **A search from two lists to two lists** comes to its end just when each of the four searches
from one of the lists to one of the lists does. -/
theorem exists_search_append_iff (hsink : sink.Accepting) (hsink' : sink'.Accepting) :
    (∃ paths, (search g m index length (starts₁ ++ starts₂) (ends₁ ++ ends₂) sink).2 = .ok paths) ↔
      ∀ starts ∈ [starts₁, starts₂], ∀ ends ∈ [ends₁, ends₂],
        ∃ paths, (search g m index length starts ends sink').2 = .ok paths := by
  have hone : ∀ starts ends : List NodeId,
      (∃ paths, (search g m index length starts ends sink').2 = .ok paths) ↔
        Labelled g m starts ∧ Labelled g m ends
          ∧ ∀ v ∈ starts, Searchable g m index (.ofList ends) length.hops v := fun starts ends =>
    exists_search_iff_searchable hsink' fun _ => mem_ofList_iff
  rw [exists_search_iff_searchable hsink fun _ => mem_ofList_iff, labelled_append_iff,
    labelled_append_iff]
  simp only [hone, List.mem_cons, List.not_mem_nil, or_false, forall_eq_or_imp, forall_eq,
    searchable_union_iff mem_ofList_append]
  constructor
  · intro h
    obtain ⟨⟨hstarts₁, hstarts₂⟩, ⟨hends₁, hends₂⟩, hall⟩ := h
    have h₁ := fun v hv => hall v (List.mem_append_left starts₂ hv)
    have h₂ := fun v hv => hall v (List.mem_append_right starts₁ hv)
    exact ⟨⟨⟨hstarts₁, hends₁, fun v hv => (h₁ v hv).1⟩, hstarts₁, hends₂, fun v hv => (h₁ v hv).2⟩,
      ⟨hstarts₂, hends₁, fun v hv => (h₂ v hv).1⟩, hstarts₂, hends₂, fun v hv => (h₂ v hv).2⟩
  · intro h
    obtain ⟨⟨⟨hstarts₁, hends₁, h₁₁⟩, -, hends₂, h₁₂⟩, ⟨hstarts₂, -, h₂₁⟩, -, -, h₂₂⟩ := h
    refine ⟨⟨hstarts₁, hstarts₂⟩, ⟨hends₁, hends₂⟩, fun v hv => ?_⟩
    rcases List.mem_append.1 hv with hv | hv
    · exact ⟨h₁₁ v hv, h₁₂ v hv⟩
    · exact ⟨h₂₁ v hv, h₂₂ v hv⟩

/-- **Its paths** are those of the four searches together. -/
theorem mem_search_append_iff (hsink : sink.Accepting) (hsink' : sink'.Accepting) {paths : PathSet}
    (h : (search g m index length (starts₁ ++ starts₂) (ends₁ ++ ends₂) sink).2 = .ok paths)
    (p : MetaPath) :
    p ∈ paths ↔ ∃ starts ∈ [starts₁, starts₂], ∃ ends ∈ [ends₁, ends₂], ∃ part,
      (search g m index length starts ends sink').2 = .ok part ∧ p ∈ part := by
  have hparts := (exists_search_append_iff hsink hsink').1 ⟨paths, h⟩
  -- each of the four searches has a result, and this is what it has found
  have hpart : ∀ starts ∈ [starts₁, starts₂], ∀ ends ∈ [ends₁, ends₂],
      ((∃ part, (search g m index length starts ends sink').2 = .ok part ∧ p ∈ part) ↔
        Found g m index (.ofList ends) length starts p) := by
    intro starts hstarts ends hends
    obtain ⟨part, hpart⟩ := hparts starts hstarts ends hends
    simp only [hpart, Except.ok.injEq, exists_eq_left', mem_search_ofList hpart]
  rw [mem_search_ofList h, found_append_iff, found_union_iff mem_ofList_append,
    found_union_iff mem_ofList_append]
  simp only [List.mem_cons, List.not_mem_nil, or_false, forall_eq_or_imp, forall_eq] at hpart
  obtain ⟨⟨h₁₁, h₁₂⟩, h₂₁, h₂₂⟩ := hpart
  simp only [List.mem_cons, List.not_mem_nil, or_false, exists_eq_or_imp, exists_eq_left, h₁₁, h₁₂,
    h₂₁, h₂₂]

/-! ## §3. All of a search. -/

/-- A search from nodes to nodes has the same result whatever lists give the nodes. -/
theorem search_eq_ok_of_mem_iff (hsink : sink.Accepting) (hsink' : sink'.Accepting)
    {starts starts' ends ends' : List NodeId} (hstarts : ∀ v, v ∈ starts ↔ v ∈ starts')
    (hends : ∀ v, v ∈ ends ↔ v ∈ ends') {paths : PathSet}
    (h : (search g m index length starts ends sink).2 = .ok paths) :
    (search g m index length starts' ends' sink').2 = .ok paths := by
  have hset : (.ofList ends : NodeSet) = .ofList ends' := by
    refine Std.ExtTreeSet.ext_mem fun v => ?_
    rw [mem_ofList_iff, mem_ofList_iff, hends]
  obtain ⟨hlabels, hlabels', hsearchable⟩ :=
    (exists_search_iff_searchable hsink fun _ => mem_ofList_iff).1 ⟨paths, h⟩
  obtain ⟨paths', h'⟩ : ∃ paths', (search g m index length starts' ends' sink').2 = .ok paths' := by
    refine (exists_search_iff_searchable hsink' fun _ => mem_ofList_iff).2 ⟨?_, ?_, ?_⟩
    · exact fun v hv => hlabels v ((hstarts v).2 hv)
    · exact fun v hv => hlabels' v ((hends v).2 hv)
    · rw [← hset]
      exact fun v hv => hsearchable v ((hstarts v).2 hv)
  have hsame : paths' = paths := by
    refine Std.ExtTreeSet.ext_mem fun p => ?_
    rw [mem_search_ofList h', mem_search_ofList h, ← hset]
    unfold Found
    simp only [hstarts]
  rw [h', hsame]

/-- **A search distributes over unions.**  The sinks take everything.  A search from two lists of
start nodes to two lists of end nodes comes to its end just when each of the four searches
from one of the lists to one of the lists does, and then it finds what these find together.
So its result does not depend on the order of the nodes in a list or on how often they
come. -/
theorem search_append (g : GraphView) (m : Mapping) (index : HubIndex) (length : PathLength)
    {sink sink' : Sink} (hsink : sink.Accepting) (hsink' : sink'.Accepting) :
    (∀ starts₁ starts₂ ends₁ ends₂ : List NodeId,
      ((∃ paths,
          (search g m index length (starts₁ ++ starts₂) (ends₁ ++ ends₂) sink).2 = .ok paths) ↔
        ∀ starts ∈ [starts₁, starts₂], ∀ ends ∈ [ends₁, ends₂],
          ∃ paths, (search g m index length starts ends sink').2 = .ok paths)
      ∧ ∀ paths,
        (search g m index length (starts₁ ++ starts₂) (ends₁ ++ ends₂) sink).2 = .ok paths →
          ∀ p, p ∈ paths ↔ ∃ starts ∈ [starts₁, starts₂], ∃ ends ∈ [ends₁, ends₂], ∃ part,
            (search g m index length starts ends sink').2 = .ok part ∧ p ∈ part)
    ∧ ∀ starts starts' ends ends' : List NodeId, (∀ v, v ∈ starts ↔ v ∈ starts') →
      (∀ v, v ∈ ends ↔ v ∈ ends') → ∀ paths,
        ((search g m index length starts ends sink).2 = .ok paths ↔
          (search g m index length starts' ends' sink').2 = .ok paths) := by
  refine ⟨fun starts₁ starts₂ ends₁ ends₂ => ⟨?_, fun paths h => ?_⟩, ?_⟩
  · exact exists_search_append_iff hsink hsink'
  · exact mem_search_append_iff hsink hsink' h
  · intro starts starts' ends ends' hstarts hends paths
    constructor
    · exact search_eq_ok_of_mem_iff hsink hsink' hstarts hends
    · exact search_eq_ok_of_mem_iff hsink' hsink (fun v => (hstarts v).symm) fun v => (hends v).symm

/-- Node 1 of `twins` and both nodes, to node 1 and to node 2, past the indexed node 2. -/
theorem search_append_twins :
    ∃ paths, (search twins.view twinLabels twinIndex ⟨3, by decide, by decide⟩ [1, 2, 1] [1, 2]
        .unlimited).2 = .ok paths
      ∧ ∀ p, p ∈ paths ↔ ∃ starts ∈ [[1], [2, 1]], ∃ ends ∈ [[1], [2]], ∃ part,
        (search twins.view twinLabels twinIndex ⟨3, by decide, by decide⟩ starts ends
          .unlimited).2 = .ok part ∧ p ∈ part := by
  have hok : (search twins.view twinLabels twinIndex ⟨3, by decide, by decide⟩ [1, 2, 1] [1, 2]
      .unlimited).2.toOption.isSome = true := by decide +kernel
  obtain ⟨paths, hpaths⟩ := Option.isSome_iff_exists.1 hok
  have hpaths := toOption_eq_some_iff.1 hpaths
  have hparts := ((search_append twins.view twinLabels twinIndex ⟨3, by decide, by decide⟩
    Sink.unlimited_accepting Sink.unlimited_accepting).1 [1] [2, 1] [1] [2]).2
  exact ⟨paths, hpaths, hparts paths hpaths⟩

end LabelWalks
