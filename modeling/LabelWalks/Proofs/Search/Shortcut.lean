/-
  LabelWalks.Proofs.Search.Shortcut
  ─────────────────────────────────
  **SEARCHING WITH AN INDEX AND WITHOUT.**

  A walk is cut at the first indexed node it comes to.  When the index has the
  exact suffix map of that node, then what the node's suffixes add is what the
  rest of the walk adds, as far as the maps reach; so a search with such an index
  finds what a search without one finds, and it halts on the same graphs.  An
  index whose maps are too short may lose paths but adds none.

    • `Exact` — an index of exact suffix maps,
    • `clear_contains_iff` — both searches can be done, or none,
    • `Finds.of_exact`, `Finds.to_exact` — what a worker finds,
    • `search_exact_eq_ok_iff` — one search with an exact index,
    • `search_eq_search_empty` — from the text of an index to the set of paths.
-/
import LabelWalks.Proofs.HubIndex.Builder
import LabelWalks.Proofs.Search.Findings

namespace LabelWalks

/-! ## §1. Exact indexes. -/

/-- Every entry of the index is the suffix map of its node. -/
def HubIndex.Exact (g : GraphView) (m : Mapping) (length : PathLength) (index : HubIndex) : Prop :=
  ∀ v map, index.get? v = some map → suffixesFrom g m v length = .ok map

variable {g : GraphView} {m : Mapping} {index : HubIndex} {wanted : NodeSet} {reach : PathLength}

theorem HubIndex.Exact.even (h : index.Exact g m reach) : index.Even := by
  intro v map s ends hmap hrow
  obtain ⟨-, ⟨w, hw⟩, hends⟩ := (getElem?_suffixesFrom (h v map hmap)).1 hrow
  exact ((hends w).1 hw).even

theorem HubIndex.Exact.renderable (h : index.Exact g m reach) : index.Renderable m := by
  intro v map s ends hmap hrow
  obtain ⟨-, ⟨w, hw⟩, hends⟩ := (getElem?_suffixesFrom (h v map hmap)).1 hrow
  exact ((hends w).1 hw).registered

theorem HubIndex.exact_empty : HubIndex.empty.Exact g m reach := by
  intro v map hmap
  rw [get?_empty] at hmap
  cases hmap

/-! ## §2. Where both searches can be done. -/

/-- Stopping at nodes from which the way is clear anyway makes no difference. -/
theorem clear_contains_iff (h : index.Exact g m reach) (hops : Nat) :
    ∀ {v : NodeId}, hops ≤ reach.hops + 1 →
      (Clear g m index.contains hops v ↔ Clear g m HubIndex.empty.contains hops v) := by
  induction hops with
  | zero =>
      intro v _
      exact ⟨fun _ => clear_zero g m _ v, fun _ => clear_zero g m _ v⟩
  | succ hops ih =>
      intro v hreach
      rw [clear_succ, clear_succ]
      refine and_congr_right fun _ => ⟨fun hnext a ha _ => ?_, fun hnext a ha _ => ?_⟩
      · cases hmap : index.get? a.node with
        | none =>
            rw [← ih (by omega)]
            exact hnext a ha (HubIndex.contains_eq_false_iff.2 hmap)
        | some map =>
            -- the suffix map was made, so the way on is clear
            obtain ⟨-, hclear⟩ := exists_suffixesFrom_iff.1 ⟨map, h a.node map hmap⟩
            exact hclear.mono (fun _ _ => rfl) (by omega)
      · rw [ih (by omega)]
        exact hnext a ha (HubIndex.contains_empty a.node)

/-! ## §3. What a worker finds. -/

/-- Without an index a worker finds the suffixes of walks to wanted nodes. -/
theorem finds_empty_iff {hops : Nat} {v : NodeId} {s : Suffix} :
    Finds g m .empty wanted hops v s ↔
      ∃ as, as ≠ [] ∧ IsWalk g m v as ∧ as.length ≤ hops ∧ endOf v as ∈ wanted
        ∧ s = hopTokens as := by
  rw [finds_iff]
  constructor
  · intro h
    rcases h with ⟨as, hne, hwalk, hlen, -, hend, hs⟩ | ⟨as, a, map, t, ends, -, -, -, hmap, -⟩
    · exact ⟨as, hne, hwalk, hlen, hend, hs⟩
    · rw [HubIndex.get?_empty] at hmap
      cases hmap
  · intro h
    obtain ⟨as, hne, hwalk, hlen, hend, hs⟩ := h
    exact .inl ⟨as, hne, hwalk, hlen, fun a _ => HubIndex.contains_empty a.node, hend, hs⟩

/-- **Nothing is added**: what is found with exact suffix maps, however short, is what
some walk adds. -/
theorem Finds.of_exact (h : index.Exact g m reach) {hops : Nat} {v : NodeId} {s : Suffix}
    (hfinds : Finds g m index wanted hops v s) : Finds g m .empty wanted hops v s := by
  rw [finds_empty_iff]
  rcases finds_iff.1 hfinds with ⟨as, hne, hwalk, hlen, -, hend, hs⟩
    | ⟨as, a, map, t, ends, hwalk, hlen, -, hmap, hrow, hfits, hmeets, hs⟩
  · exact ⟨as, hne, hwalk, hlen, hend, hs⟩
  · -- the suffix is that of a walk on from the indexed node
    obtain ⟨w, hw, hwanted⟩ := NodeSet.meets_iff.1 hmeets
    obtain ⟨-, -, hends⟩ := (getElem?_suffixesFrom (h a.node map hmap)).1 hrow
    obtain ⟨bs, hbs, htokens, hend⟩ := (hends w).1 hw
    have hlast : endOf v (as ++ [a]) = a.node := by
      rw [endOf_append]
      rfl
    refine ⟨(as ++ [a]) ++ bs, by simp, ?_, ?_, ?_, ?_⟩
    · rw [isWalk_append, hlast]
      exact ⟨hwalk, hbs⟩
    · rw [← htokens, length_hopTokens] at hfits
      rw [List.length_append, List.length_append, List.length_singleton]
      omega
    · rw [endOf_append, hlast, hend]
      exact hwanted
    · rw [hs, hopTokens_append (as ++ [a]), htokens]

/-- **Nothing is lost** when the suffix maps reach as far as the rest of a walk. -/
theorem Finds.to_exact (h : index.Exact g m reach) {hops : Nat} {v : NodeId} {s : Suffix}
    (hreach : hops ≤ reach.hops + 1) (hfinds : Finds g m .empty wanted hops v s) :
    Finds g m index wanted hops v s := by
  obtain ⟨as, hne, hwalk, hlen, hend, rfl⟩ := finds_empty_iff.1 hfinds
  clear hfinds
  induction as generalizing hops v with
  | nil => exact absurd rfl hne
  | cons a as ih =>
      obtain ⟨hfirst, hrest⟩ := isWalk_cons.1 hwalk
      rw [List.length_cons] at hlen
      obtain ⟨k, rfl⟩ : ∃ k, hops = k + 1 := ⟨hops - 1, by omega⟩
      rw [hopTokens_cons]
      cases hmap : index.get? a.node with
      | some map =>
          -- the walk is cut here, and the rest of it is in the suffix map
          obtain ⟨ends, hrow, hmem⟩ :=
            exists_getElem?_suffixesFrom (h a.node map hmap) hrest (by omega)
          have hfits : (hopTokens as).length / 2 ≤ k := by
            rw [length_hopTokens]
            omega
          exact .takeOver hfirst hmap hrow hfits (NodeSet.meets_iff.2 ⟨_, hmem, hend⟩)
      | none =>
          have hwalked := HubIndex.contains_eq_false_iff.2 hmap
          by_cases hnil : as = []
          · subst hnil
            exact .arrive hfirst hwalked hend
          · exact .walkOn hfirst hwalked (ih (by omega) hnil hrest (by omega) hend)

/-- Nothing is added by exact suffix maps to what is found from all start nodes. -/
theorem Found.of_exact (h : index.Exact g m reach) {length : PathLength} {starts : List NodeId}
    {p : MetaPath} (hfound : Found g m index wanted length starts p) :
    Found g m .empty wanted length starts p := by
  obtain ⟨v, hv, label, hlabel, hhere | ⟨s, hfinds, htokens⟩⟩ := hfound
  · exact ⟨v, hv, label, hlabel, .inl hhere⟩
  · exact ⟨v, hv, label, hlabel, .inr ⟨s, hfinds.of_exact h, htokens⟩⟩

theorem hops_le_of_nodes_le {length : PathLength} (h : length.nodes ≤ reach.nodes + 1) :
    length.hops ≤ reach.hops + 1 := by
  have hpos := reach.pos
  unfold PathLength.hops
  omega

/-- Nothing is lost from it when the suffix maps reach far enough. -/
theorem Found.to_exact (h : index.Exact g m reach) {length : PathLength}
    (hreach : length.nodes ≤ reach.nodes + 1) {starts : List NodeId} {p : MetaPath}
    (hfound : Found g m .empty wanted length starts p) :
    Found g m index wanted length starts p := by
  obtain ⟨v, hv, label, hlabel, hhere | ⟨s, hfinds, htokens⟩⟩ := hfound
  · exact ⟨v, hv, label, hlabel, .inl hhere⟩
  · exact ⟨v, hv, label, hlabel, .inr ⟨s, hfinds.to_exact h (hops_le_of_nodes_le hreach), htokens⟩⟩

/-! ## §4. Whole searches. -/

/-- With an exact index that reaches far enough a search succeeds when it does without. -/
theorem exists_search_exact_iff (h : index.Exact g m reach) {length : PathLength}
    (hreach : length.nodes ≤ reach.nodes + 1) {starts ends : List NodeId} {sink sink' : Sink}
    (hsink : sink.Accepting) (hsink' : sink'.Accepting) :
    (∃ paths, (search g m index length starts ends sink).2 = .ok paths) ↔
      ∃ paths, (search g m .empty length starts ends sink').2 = .ok paths := by
  have hempty : HubIndex.empty.Exact g m reach := HubIndex.exact_empty
  rw [exists_search_iff hsink h.even h.renderable,
    exists_search_iff hsink' hempty.even hempty.renderable]
  refine and_congr_right fun _ => and_congr_right fun _ => forall₂_congr fun v _ => ?_
  exact clear_contains_iff h length.hops (hops_le_of_nodes_le hreach)

/-- With an exact index, however short, all paths that are found are found without. -/
theorem mem_search_of_exact (h : index.Exact g m reach) {length : PathLength}
    {starts ends : List NodeId} {sink sink' : Sink} {fast plain : PathSet}
    (hfast : (search g m index length starts ends sink).2 = .ok fast)
    (hplain : (search g m .empty length starts ends sink').2 = .ok plain) {p : MetaPath}
    (hp : p ∈ fast) : p ∈ plain := by
  obtain ⟨wanted, hmem, hmem'⟩ := mem_search_both hfast hplain
  exact (hmem' p).2 (((hmem p).1 hp).of_exact h)

/-- With an exact index that reaches far enough all paths are found. -/
theorem mem_search_to_exact (h : index.Exact g m reach) {length : PathLength}
    (hreach : length.nodes ≤ reach.nodes + 1) {starts ends : List NodeId} {sink sink' : Sink}
    {fast plain : PathSet} (hfast : (search g m index length starts ends sink).2 = .ok fast)
    (hplain : (search g m .empty length starts ends sink').2 = .ok plain) {p : MetaPath}
    (hp : p ∈ plain) : p ∈ fast := by
  obtain ⟨wanted, hmem, hmem'⟩ := mem_search_both hfast hplain
  exact (hmem p).2 (((hmem' p).1 hp).to_exact h hreach)

/-- **With an exact index that reaches far enough** a search has the same result. -/
theorem search_exact_eq_ok_iff (h : index.Exact g m reach) {length : PathLength}
    (hreach : length.nodes ≤ reach.nodes + 1) {starts ends : List NodeId} {sink sink' : Sink}
    (hsink : sink.Accepting) (hsink' : sink'.Accepting) {paths : PathSet} :
    (search g m index length starts ends sink).2 = .ok paths ↔
      (search g m .empty length starts ends sink').2 = .ok paths := by
  have hsuccess : (∃ paths, (search g m index length starts ends sink).2 = .ok paths) ↔
      ∃ paths, (search g m .empty length starts ends sink').2 = .ok paths :=
    exists_search_exact_iff h hreach hsink hsink'
  -- whenever both succeed their results have the same members
  have hsame : ∀ {fast plain : PathSet},
      (search g m index length starts ends sink).2 = .ok fast →
        (search g m .empty length starts ends sink').2 = .ok plain → fast = plain := by
    intro fast plain hfast hplain
    refine Std.ExtTreeSet.ext_mem fun p => ⟨fun hp => ?_, fun hp => ?_⟩
    · exact mem_search_of_exact h hfast hplain hp
    · exact mem_search_to_exact h hreach hfast hplain hp
  constructor
  · intro hfast
    obtain ⟨plain, hplain⟩ := hsuccess.1 ⟨paths, hfast⟩
    rw [hsame hfast hplain]
    exact hplain
  · intro hplain
    obtain ⟨fast, hfast⟩ := hsuccess.2 ⟨paths, hplain⟩
    rw [← hsame hfast hplain]
    exact hfast

/-- **From the text of an index to the set of paths.**  Whatever nodes an index was written
for, in whatever order its workers came to the sink and whichever of them failed, its text
can be read.  A search with it that is at most one node longer than its suffix maps
succeeds when a search without it does and then finds the same paths; a longer search finds
none that a search without it would not find. -/
theorem search_eq_search_empty {g : GraphView} {m : Mapping} {reach : PathLength}
    {nodes order : List NodeId} {out : Sink} (hout : out.Accepting) (hempty : out.written = "")
    (horder : order.Perm nodes.eraseDups) :
    ∃ report index, (HubIndex.buildInOrder g m reach order out).2 = .ok report
      ∧ HubIndex.ofText m (HubIndex.buildInOrder g m reach order out).1.written = .ok index
      ∧ ∀ (length : PathLength) (starts ends : List NodeId) (sink sink' : Sink),
        (length.nodes ≤ reach.nodes + 1 → sink.Accepting → sink'.Accepting → ∀ paths,
          ((search g m index length starts ends sink).2 = .ok paths ↔
            (search g m .empty length starts ends sink').2 = .ok paths))
        ∧ ∀ fast plain, (search g m index length starts ends sink).2 = .ok fast →
          (search g m .empty length starts ends sink').2 = .ok plain → ∀ p ∈ fast, p ∈ plain := by
  have hnodup : order.Nodup := horder.nodup_iff.2 (nodup_eraseDups nodes)
  have hflush : out.flush.2 = none := by rw [hout.flush_eq]
  obtain ⟨index, hread, hindex⟩ :=
    HubIndex.exists_ofText_buildInOrder (g := g) (m := m) hout hempty hnodup
  have hexact : index.Exact g m reach := fun v map hmap => ((hindex v map).1 hmap).2
  refine ⟨_, index, HubIndex.buildInOrder_eq_ok_iff.2 ⟨hflush, rfl⟩, hread,
    fun length starts ends sink sink' => ⟨fun hreach hsink hsink' paths => ?_, ?_⟩⟩
  · exact search_exact_eq_ok_iff hexact hreach hsink hsink'
  · intro fast plain hfast hplain p hp
    exact mem_search_of_exact hexact hfast hplain hp

/-- Past node 2 of `twins`, which is indexed, and back to node 1. -/
theorem search_eq_search_empty_twins :
    ∃ index paths, HubIndex.ofText twinLabels (HubIndex.buildInOrder twins.view twinLabels
        ⟨2, by decide, by decide⟩ [2] .unlimited).1.written = .ok index
      ∧ (search twins.view twinLabels index ⟨3, by decide, by decide⟩ [1] [1] .unlimited).2 =
        .ok paths
      ∧ (search twins.view twinLabels .empty ⟨3, by decide, by decide⟩ [1] [1] .unlimited).2 =
        .ok paths := by
  have hok : (search twins.view twinLabels .empty ⟨3, by decide, by decide⟩ [1] [1]
      .unlimited).2.toOption.isSome = true := by decide +kernel
  obtain ⟨paths, hpaths⟩ := Option.isSome_iff_exists.1 hok
  have hpaths := toOption_eq_some_iff.1 hpaths
  have horder : [2].Perm ([2, 2] : List NodeId).eraseDups := by decide
  obtain ⟨report, index, -, hread, hsearch⟩ :=
    @search_eq_search_empty twins.view twinLabels ⟨2, by decide, by decide⟩ [2, 2] [2] .unlimited
      Sink.unlimited_accepting rfl horder
  obtain ⟨hsame, -⟩ := hsearch ⟨3, by decide, by decide⟩ [1] [1] .unlimited .unlimited
  have hfast := hsame (by decide) Sink.unlimited_accepting Sink.unlimited_accepting paths
  exact ⟨index, paths, hread, hfast.2 hpaths, hpaths⟩

end LabelWalks
