/-
  LabelWalks.Proofs.Search.Pursuit
  ────────────────────────────────
  **WHAT ONE WORKER OF A SEARCH FINDS.**

  A worker keeps paths with the nodes at their ends; here its trail is told node
  by node.  From a node with some hops left a worker finds the suffixes of
  `Finds`: it arrives at a wanted node, or at an indexed node whose suffixes it
  takes over, or it walks on from a node that is not indexed.

    • `Finds.half_length_le`, `Finds.of_fits` — how many hops it takes,
    • `pursue_halt_eq_none` — when a worker does not halt,
    • `mem_pursue` — what it finds then,
    • `finds_iff` — the same as walks that end at their first indexed node.
-/
import LabelWalks.Proofs.Expansion
import LabelWalks.Search

namespace LabelWalks

/-! ## §1. Sets and indexes. -/

theorem NodeSet.meets_iff {nodes wanted : NodeSet} :
    nodes.meets wanted = true ↔ ∃ v ∈ nodes, v ∈ wanted := by
  simp [meets]

/-- All suffixes of the index are pairs of an edge and a node token. -/
def HubIndex.Even (index : HubIndex) : Prop :=
  ∀ (v : NodeId) (map : SuffixMap) (s : Suffix) (ends : NodeSet),
    index.get? v = some map → map[s]? = some ends → s.length % 2 = 0

/-! ## §2. What is found from a node. -/

/-- The suffixes that a worker finds from a node with some hops left. -/
inductive Finds (g : GraphView) (m : Mapping) (index : HubIndex) (wanted : NodeSet) :
    Nat → NodeId → Suffix → Prop where
  /-- It arrives at a wanted node that is not indexed. -/
  | arrive {hops : Nat} {v : NodeId} {a : Arrival} (first : Arrives g m v a)
      (walked : index.contains a.node = false) (here : a.node ∈ wanted) :
      Finds g m index wanted (hops + 1) v a.hop.tokens
  /-- It arrives at an indexed node and takes over a suffix that fits and ends at a
  wanted node. -/
  | takeOver {hops : Nat} {v : NodeId} {a : Arrival} {map : SuffixMap} {s : Suffix}
      {ends : NodeSet} (first : Arrives g m v a) (indexed : index.get? a.node = some map)
      (row : map[s]? = some ends) (fits : s.length / 2 ≤ hops)
      (there : ends.meets wanted = true) :
      Finds g m index wanted (hops + 1) v (a.hop.tokens ++ s)
  /-- It walks on from a node that is not indexed. -/
  | walkOn {hops : Nat} {v : NodeId} {a : Arrival} {s : Suffix} (first : Arrives g m v a)
      (walked : index.contains a.node = false) (rest : Finds g m index wanted hops a.node s) :
      Finds g m index wanted (hops + 1) v (a.hop.tokens ++ s)

variable {g : GraphView} {m : Mapping} {index : HubIndex} {wanted : NodeSet}

/-- A worker finds nothing that is longer than the hops it has left. -/
theorem Finds.half_length_le {hops : Nat} {v : NodeId} {s : Suffix}
    (h : Finds g m index wanted hops v s) : s.length / 2 ≤ hops := by
  induction h with
  | arrive =>
      rw [Hop.length_tokens]
      omega
  | takeOver _ _ _ fits =>
      rw [List.length_append, Hop.length_tokens]
      omega
  | walkOn _ _ _ ih =>
      rw [List.length_append, Hop.length_tokens]
      omega

/-- **What is found** is found with any number of hops left that it fits in, and when more nodes
are wanted: a walk that a smaller number cuts off would have been too long, and so would a
suffix that does not fit any more. -/
theorem Finds.of_fits {wanted' : NodeSet} {hops : Nat} {v : NodeId} {s : Suffix}
    (h : Finds g m index wanted hops v s) (hwanted : ∀ w ∈ wanted, w ∈ wanted') :
    ∀ {hops' : Nat}, s.length / 2 ≤ hops' → Finds g m index wanted' hops' v s := by
  -- each hop is one of those that are left, since the suffix has room for it
  induction h with
  | arrive first walked here =>
      intro hops' hlen
      rw [Hop.length_tokens] at hlen
      obtain ⟨k, rfl⟩ : ∃ k, hops' = k + 1 := ⟨hops' - 1, by omega⟩
      exact .arrive first walked (hwanted _ here)
  | takeOver first indexed row fits there =>
      intro hops' hlen
      rw [List.length_append, Hop.length_tokens] at hlen
      obtain ⟨k, rfl⟩ : ∃ k, hops' = k + 1 := ⟨hops' - 1, by omega⟩
      obtain ⟨w, hw, hmem⟩ := NodeSet.meets_iff.1 there
      exact .takeOver first indexed row (by omega) (NodeSet.meets_iff.2 ⟨w, hw, hwanted w hmem⟩)
  | walkOn first walked _ ih =>
      intro hops' hlen
      rw [List.length_append, Hop.length_tokens] at hlen
      obtain ⟨k, rfl⟩ : ∃ k, hops' = k + 1 := ⟨hops' - 1, by omega⟩
      exact .walkOn first walked (ih (by omega))

/-- The rows of an indexed node that are taken over. -/
theorem mem_fitting {map : SuffixMap} {hops : Nat} {s : Suffix} {ends : NodeSet} :
    (s, ends) ∈ (map.toList.filter fun (suffix, ends) =>
        suffix.length / 2 ≤ hops && NodeSet.meets ends wanted) ↔
      map[s]? = some ends ∧ s.length / 2 ≤ hops ∧ ends.meets wanted = true := by
  rw [List.mem_filter, Std.ExtTreeMap.mem_toList_iff_getElem?_eq_some]
  simp

/-- An indexed node makes a worker halt when a suffix that it would take over is not made
of pairs. -/
theorem shortcuts_halt_eq_none {path : MetaPath} {hops : Nat} {a : Arrival} :
    (shortcuts index wanted path hops a).halt = none ↔
      ∀ (map : SuffixMap) (s : Suffix) (ends : NodeSet), index.get? a.node = some map →
        map[s]? = some ends → s.length / 2 ≤ hops → ends.meets wanted = true →
        s.length % 2 = 0 := by
  unfold shortcuts
  cases hmap : index.get? a.node with
  | none => simp
  | some map =>
      simp only [Trail.each_halt_eq_none, Trail.ofExcept_halt_eq_none, MetaPath.exists_splice_iff,
        Prod.forall, mem_fitting, Option.some.injEq, and_imp]
      constructor
      · intro h map' s ends hsame
        subst hsame
        exact h s ends
      · intro h s ends
        exact h map s ends rfl

/-- A suffix that can be appended gives one path. -/
theorem mem_ofExcept_splice {path q : MetaPath} {a : Arrival} {s : Suffix}
    (h : (Trail.ofExcept ((path.extend a.hop.edge a.hop.node).splice s)).halt = none) :
    q ∈ (Trail.ofExcept ((path.extend a.hop.edge a.hop.node).splice s)).items ↔
      q.tokens = path.tokens ++ (a.hop.tokens ++ s) := by
  obtain ⟨q', hq'⟩ := (Trail.ofExcept_halt_eq_none _).1 h
  have htokens := MetaPath.splice_eq_ok_iff.1 hq'
  rw [MetaPath.tokens_extend, List.append_assoc] at htokens
  rw [hq', Trail.ofExcept_ok_items, List.mem_singleton]
  constructor
  · intro hq
    subst hq
    exact htokens
  · intro hq
    exact MetaPath.ext (hq.trans htokens.symm)

theorem mem_shortcuts {path : MetaPath} {hops : Nat} {a : Arrival}
    (h : (shortcuts index wanted path hops a).halt = none) {q : MetaPath} :
    q ∈ (shortcuts index wanted path hops a).items ↔
      ∃ map s ends, index.get? a.node = some map ∧ map[s]? = some ends ∧ s.length / 2 ≤ hops
        ∧ ends.meets wanted = true ∧ q.tokens = path.tokens ++ (a.hop.tokens ++ s) := by
  unfold shortcuts at h ⊢
  cases hmap : index.get? a.node with
  | none => simp
  | some map =>
      rw [hmap] at h
      simp only [Option.some.injEq, exists_and_left, exists_eq_left']
      have hrows := (Trail.each_halt_eq_none _ _).1 h
      rw [Trail.mem_each_items _ _ h]
      constructor
      · intro hsome
        obtain ⟨⟨s, ends⟩, hrow, hq⟩ := hsome
        obtain ⟨hget, hfits, hmeets⟩ := mem_fitting.1 hrow
        exact ⟨s, ends, hget, hfits, hmeets, (mem_ofExcept_splice (hrows _ hrow)).1 hq⟩
      · intro hsome
        obtain ⟨s, ends, hget, hfits, hmeets, hq⟩ := hsome
        have hrow := mem_fitting.2 ⟨hget, hfits, hmeets⟩
        exact ⟨(s, ends), hrow, (mem_ofExcept_splice (hrows _ hrow)).2 hq⟩

/-- **The paths one hop longer**, each with the nodes that are not indexed at its end. -/
theorem mem_longerPaths {path q : MetaPath} {as : List Arrival} {ends : NodeSet} :
    (q, ends) ∈ longerPaths index path as ↔
      ∃ hop, q.tokens = path.tokens ++ hop.tokens ∧ (∃ w, w ∈ ends)
        ∧ ∀ w, w ∈ ends ↔ ⟨hop, w⟩ ∈ as ∧ index.contains w = false := by
  unfold longerPaths
  simp only [List.mem_map, Prod.exists, Prod.mk.injEq, mem_toList_groupNodes, List.mem_filter,
    Bool.not_eq_true']
  constructor
  · intro h
    obtain ⟨hop, group, ⟨⟨a, ha, rfl⟩, hw⟩, rfl, rfl⟩ := h
    exact ⟨a.hop, rfl, ⟨a.node, (hw _).2 ha⟩, hw⟩
  · intro h
    obtain ⟨hop, hq, ⟨w, hwends⟩, hw⟩ := h
    refine ⟨hop, ends, ⟨⟨_, (hw w).1 hwends, rfl⟩, hw⟩, ?_, rfl⟩
    exact MetaPath.ext hq.symm

/-! ## §3. One round of a worker. -/

theorem pursue_succ (hops : Nat) (path : MetaPath) (nodes : NodeSet) :
    pursue g m index wanted (hops + 1) path nodes =
      ((Trail.each (shortcuts index wanted path hops)
          ((reached g m nodes).items.filter fun a => index.contains a.node).eraseDups).andThen
        fun _ => ⟨[], (reached g m nodes).halt⟩).andThen fun _ =>
          let longer := longerPaths index path (reached g m nodes).items
          (Trail.give ((longer.filter fun (_, ends) => ends.meets wanted).map Prod.fst)).andThen
            fun _ => .each (fun (path, ends) => pursue g m index wanted hops path ends)
              longer.reverse := rfl

/-- The halts that one round can meet: those of shortcuts, of arrivals, of later rounds. -/
theorem pursue_succ_halt_eq_none {hops : Nat} {path : MetaPath} {nodes : NodeSet} :
    (pursue g m index wanted (hops + 1) path nodes).halt = none ↔
      (∀ a ∈ (reached g m nodes).items, index.contains a.node = true →
        (shortcuts index wanted path hops a).halt = none)
      ∧ (∀ v ∈ nodes, Passable g m v)
      ∧ ∀ q ends, (q, ends) ∈ longerPaths index path (reached g m nodes).items →
        (pursue g m index wanted hops q ends).halt = none := by
  rw [pursue_succ]
  simp only [Trail.andThen_halt_eq_none, Trail.each_halt_eq_none, Trail.give_halt, true_and,
    List.mem_eraseDups, List.mem_filter, List.mem_reverse, Prod.forall, and_imp, and_assoc,
    reached_halt_eq_none]

theorem pursue_succ_items {hops : Nat} {path : MetaPath} {nodes : NodeSet}
    (h : (pursue g m index wanted (hops + 1) path nodes).halt = none) {q : MetaPath} :
    q ∈ (pursue g m index wanted (hops + 1) path nodes).items ↔
      (∃ a ∈ (reached g m nodes).items, index.contains a.node = true
        ∧ q ∈ (shortcuts index wanted path hops a).items)
      ∨ (∃ ends, (q, ends) ∈ longerPaths index path (reached g m nodes).items
        ∧ ends.meets wanted = true)
      ∨ ∃ q' ends, (q', ends) ∈ longerPaths index path (reached g m nodes).items
        ∧ q ∈ (pursue g m index wanted hops q' ends).items := by
  rw [pursue_succ] at h ⊢
  obtain ⟨hfirst, hlast⟩ := (Trail.andThen_halt_eq_none _ _).1 h
  obtain ⟨hspliced, -⟩ := (Trail.andThen_halt_eq_none _ _).1 hfirst
  obtain ⟨-, heach⟩ := (Trail.andThen_halt_eq_none _ _).1 hlast
  rw [Trail.andThen_items _ _ hfirst, Trail.andThen_items _ _ hspliced,
    Trail.andThen_items _ _ (Trail.give_halt _), List.mem_append, List.mem_append,
    List.mem_append, Trail.mem_each_items _ _ hspliced, Trail.mem_each_items _ _ heach]
  simp only [List.mem_eraseDups, List.mem_filter, List.mem_reverse, Trail.give_items,
    List.mem_map, Prod.exists, List.not_mem_nil, or_false, and_assoc]
  refine or_congr_right (or_congr_left ?_)
  constructor
  · intro h
    obtain ⟨q', ends, hmem, hmeets, rfl⟩ := h
    exact ⟨ends, hmem, hmeets⟩
  · intro h
    obtain ⟨ends, hmem, hmeets⟩ := h
    exact ⟨q, ends, hmem, hmeets, rfl⟩

/-! ## §4. All rounds. -/

/-- A node at the end of a longer path was arrived at and is not indexed. -/
theorem mem_of_mem_longerPaths {path q : MetaPath} {nodes ends : NodeSet}
    (hpass : ∀ v ∈ nodes, Passable g m v)
    (h : (q, ends) ∈ longerPaths index path (reached g m nodes).items) {w : NodeId}
    (hw : w ∈ ends) :
    ∃ v ∈ nodes, ∃ a, Arrives g m v a ∧ a.node = w ∧ index.contains w = false
      ∧ q.tokens = path.tokens ++ a.hop.tokens := by
  obtain ⟨hop, hq, -, hends⟩ := mem_longerPaths.1 h
  obtain ⟨hmem, hindex⟩ := (hends w).1 hw
  obtain ⟨v, hv, ha⟩ := (mem_reached hpass).1 hmem
  exact ⟨v, hv, _, ha, rfl, hindex, hq⟩

/-- Each arrival at a node that is not indexed is at the end of a longer path. -/
theorem exists_mem_longerPaths (path : MetaPath) {nodes : NodeSet}
    (hpass : ∀ v ∈ nodes, Passable g m v) {v : NodeId} (hv : v ∈ nodes) {a : Arrival}
    (ha : Arrives g m v a) (hindex : index.contains a.node = false) :
    ∃ q ends, (q, ends) ∈ longerPaths index path (reached g m nodes).items ∧ a.node ∈ ends
      ∧ q.tokens = path.tokens ++ a.hop.tokens := by
  have hmem := (mem_reached hpass).2 ⟨v, hv, ha⟩
  have hwalked : a ∈ (reached g m nodes).items.filter fun a => !index.contains a.node :=
    List.mem_filter.2 ⟨hmem, by simp [hindex]⟩
  obtain ⟨ends, hends⟩ := exists_mem_toList_groupNodes hwalked
  refine ⟨path.extend a.hop.edge a.hop.node, ends, ?_, ?_, rfl⟩
  · exact List.mem_map.2 ⟨_, hends, rfl⟩
  · exact ((mem_toList_groupNodes.1 hends).2 _).2 hwalked

/-- **When a worker does not halt**: its way is clear as far as nodes are not indexed, and
all that it finds is made of pairs. -/
theorem pursue_halt_eq_none (hops : Nat) :
    ∀ {path : MetaPath} {nodes : NodeSet}, (pursue g m index wanted hops path nodes).halt = none ↔
      ∀ v ∈ nodes, Clear g m index.contains hops v
        ∧ ∀ s, Finds g m index wanted hops v s → s.length % 2 = 0 := by
  -- on the hops that are left, as all that follow: a round hands one hop less to the next
  induction hops with
  | zero =>
      intro path nodes
      constructor
      · intro _ v _
        exact ⟨clear_zero g m _ v, fun s hfinds => nomatch hfinds⟩
      · intro _
        rfl
  | succ hops ih =>
      intro path nodes
      rw [pursue_succ_halt_eq_none]
      constructor
      · intro h v hv
        obtain ⟨hshort, hpass, hlater⟩ := h
        -- what is beyond an arrival that is not indexed is left to the next round
        have hnext : ∀ a, Arrives g m v a → index.contains a.node = false →
            Clear g m index.contains hops a.node
              ∧ ∀ s, Finds g m index wanted hops a.node s → s.length % 2 = 0 := by
          intro a ha hindex
          obtain ⟨q, ends, hq, hends, -⟩ := exists_mem_longerPaths path hpass hv ha hindex
          exact ih.1 (hlater q ends hq) a.node hends
        refine ⟨clear_succ.2 ⟨hpass v hv, fun a ha hindex => (hnext a ha hindex).1⟩, ?_⟩
        intro s hfinds
        cases hfinds with
        | arrive first => exact congrArg (· % 2) (Hop.length_tokens _)
        | @takeOver _ _ a map t ends first indexed row fits there =>
            have hmem := (mem_reached hpass).2 ⟨v, hv, first⟩
            have heven := shortcuts_halt_eq_none.1
              (hshort a hmem (HubIndex.contains_iff.2 ⟨map, indexed⟩)) map t ends indexed row fits
              there
            rw [List.length_append, Hop.length_tokens]
            omega
        | @walkOn _ _ a t first walked rest =>
            have heven := (hnext a first walked).2 t rest
            rw [List.length_append, Hop.length_tokens]
            omega
      · intro h
        have hpass : ∀ v ∈ nodes, Passable g m v := fun v hv => (clear_succ.1 (h v hv).1).1
        refine ⟨fun a hmem _ => ?_, hpass, fun q ends hq => ih.2 fun w hw => ?_⟩
        · rw [shortcuts_halt_eq_none]
          intro map s ends indexed row fits there
          obtain ⟨v, hv, first⟩ := (mem_reached hpass).1 hmem
          have heven := (h v hv).2 _ (.takeOver first indexed row fits there)
          rw [List.length_append, Hop.length_tokens] at heven
          omega
        · obtain ⟨v, hv, a, ha, rfl, hindex, -⟩ := mem_of_mem_longerPaths hpass hq hw
          refine ⟨(clear_succ.1 (h v hv).1).2 a ha hindex, fun s hfinds => ?_⟩
          have heven := (h v hv).2 _ (.walkOn ha hindex hfinds)
          rw [List.length_append, Hop.length_tokens] at heven
          omega

/-- **What a worker finds**: its path with the suffixes that are found from the nodes
at the end of the path. -/
theorem mem_pursue (hops : Nat) :
    ∀ {path : MetaPath} {nodes : NodeSet}, (pursue g m index wanted hops path nodes).halt = none →
      ∀ {q : MetaPath}, q ∈ (pursue g m index wanted hops path nodes).items ↔
        ∃ v ∈ nodes, ∃ s, Finds g m index wanted hops v s ∧ q.tokens = path.tokens ++ s := by
  -- the three ways a round finds a path are the three rules of `Finds`
  induction hops with
  | zero =>
      intro path nodes _ q
      constructor
      · intro h
        cases h
      · intro h
        obtain ⟨v, -, s, hfinds, -⟩ := h
        cases hfinds
  | succ hops ih =>
      intro path nodes h q
      obtain ⟨hshort, hpass, hlater⟩ := pursue_succ_halt_eq_none.1 h
      rw [pursue_succ_items h]
      constructor
      · intro h
        rcases h with ⟨a, hmem, hindexed, hq⟩ | ⟨ends, hmem, hmeets⟩ | ⟨q', ends, hmem, hq⟩
        · -- a suffix of an indexed node
          obtain ⟨map, s, ends, hmap, hrow, hfits, hmeets, hq⟩ :=
            (mem_shortcuts (hshort a hmem hindexed)).1 hq
          obtain ⟨v, hv, ha⟩ := (mem_reached hpass).1 hmem
          exact ⟨v, hv, _, .takeOver ha hmap hrow hfits hmeets, hq⟩
        · -- a longer path with a wanted node at its end
          obtain ⟨w, hw, hwanted⟩ := NodeSet.meets_iff.1 hmeets
          obtain ⟨v, hv, a, ha, rfl, hindex, hq⟩ := mem_of_mem_longerPaths hpass hmem hw
          exact ⟨v, hv, _, .arrive ha hindex hwanted, hq⟩
        · -- what a later round finds
          obtain ⟨w, hw, s, hfinds, hq⟩ := (ih (hlater q' ends hmem)).1 hq
          obtain ⟨v, hv, a, ha, rfl, hindex, hq'⟩ := mem_of_mem_longerPaths hpass hmem hw
          refine ⟨v, hv, _, .walkOn ha hindex hfinds, ?_⟩
          rw [hq, hq', List.append_assoc]
      · intro h
        obtain ⟨v, hv, s, hfinds, hq⟩ := h
        cases hfinds with
        | arrive ha hindex hwanted =>
            obtain ⟨q', ends, hmem, hends, hq'⟩ :=
              exists_mem_longerPaths path hpass hv ha hindex
            have hqq : q = q' := MetaPath.ext (hq.trans hq'.symm)
            subst hqq
            exact .inr (.inl ⟨ends, hmem, NodeSet.meets_iff.2 ⟨_, hends, hwanted⟩⟩)
        | @takeOver _ _ a map s ends ha hmap hrow hfits hmeets =>
            have hmem := (mem_reached hpass).2 ⟨v, hv, ha⟩
            have hindexed := HubIndex.contains_iff.2 ⟨map, hmap⟩
            refine .inl ⟨a, hmem, hindexed, ?_⟩
            rw [mem_shortcuts (hshort a hmem hindexed)]
            exact ⟨map, s, ends, hmap, hrow, hfits, hmeets, hq⟩
        | @walkOn _ _ a s ha hindex hrest =>
            obtain ⟨q', ends, hmem, hends, hq'⟩ :=
              exists_mem_longerPaths path hpass hv ha hindex
            refine .inr (.inr ⟨q', ends, hmem, ?_⟩)
            rw [ih (hlater q' ends hmem)]
            refine ⟨a.node, hends, s, hrest, ?_⟩
            rw [hq, hq', List.append_assoc]

/-! ## §5. Walks that end at their first indexed node. -/

/-- A suffix is found along a walk to a wanted node that never comes to an indexed one. -/
def FoundByWalk (g : GraphView) (m : Mapping) (index : HubIndex) (wanted : NodeSet) (hops : Nat)
    (v : NodeId) (t : Suffix) : Prop :=
  ∃ as, as ≠ [] ∧ IsWalk g m v as ∧ as.length ≤ hops
    ∧ (∀ a ∈ as, index.contains a.node = false) ∧ endOf v as ∈ wanted ∧ t = hopTokens as

/-- A suffix is found along a walk that comes to an indexed node in the end, and not before,
and is continued by a suffix of that node. -/
def FoundBySplice (g : GraphView) (m : Mapping) (index : HubIndex) (wanted : NodeSet)
    (hops : Nat) (v : NodeId) (t : Suffix) : Prop :=
  ∃ as a map s ends, IsWalk g m v (as ++ [a]) ∧ as.length + 1 ≤ hops
    ∧ (∀ b ∈ as, index.contains b.node = false) ∧ index.get? a.node = some map
    ∧ map[s]? = some ends ∧ s.length / 2 ≤ hops - (as.length + 1)
    ∧ ends.meets wanted = true ∧ t = hopTokens (as ++ [a]) ++ s

/-- A hop to a node that is not indexed may go before a walk. -/
theorem FoundByWalk.walkOn {hops : Nat} {v : NodeId} {a : Arrival} {s : Suffix}
    (first : Arrives g m v a) (walked : index.contains a.node = false)
    (h : FoundByWalk g m index wanted hops a.node s) :
    FoundByWalk g m index wanted (hops + 1) v (a.hop.tokens ++ s) := by
  obtain ⟨as, -, hwalk, hlen, has, hend, rfl⟩ := h
  refine ⟨a :: as, List.cons_ne_nil a as, .step first hwalk, ?_, ?_, hend, rfl⟩
  · rw [List.length_cons]
    omega
  · intro b hb
    rcases List.mem_cons.1 hb with rfl | hb
    · exact walked
    · exact has b hb

/-- A hop to a node that is not indexed may go before a walk to an indexed node. -/
theorem FoundBySplice.walkOn {hops : Nat} {v : NodeId} {a : Arrival} {s : Suffix}
    (first : Arrives g m v a) (walked : index.contains a.node = false)
    (h : FoundBySplice g m index wanted hops a.node s) :
    FoundBySplice g m index wanted (hops + 1) v (a.hop.tokens ++ s) := by
  obtain ⟨as, b, map, t, ends, hwalk, hlen, has, hmap, hrow, hfits, hmeets, rfl⟩ := h
  refine ⟨a :: as, b, map, t, ends, .step first hwalk, ?_, ?_, hmap, hrow, ?_, hmeets, ?_⟩
  · rw [List.length_cons]
    omega
  · intro c hc
    rcases List.mem_cons.1 hc with rfl | hc
    · exact walked
    · exact has c hc
  · rw [List.length_cons]
    omega
  · rw [List.cons_append, hopTokens_cons, List.append_assoc]

/-- What is found from a node is found along a walk. -/
theorem Finds.byWalk_or_bySplice {hops : Nat} {v : NodeId} {t : Suffix}
    (h : Finds g m index wanted hops v t) :
    FoundByWalk g m index wanted hops v t ∨ FoundBySplice g m index wanted hops v t := by
  induction h with
  | @arrive hops v a first walked here =>
      refine .inl ⟨[a], by simp, .step first (.stay _), ?_, ?_, here, by simp [hopTokens]⟩
      · rw [List.length_singleton]
        omega
      · intro b hb
        rw [List.mem_singleton.1 hb]
        exact walked
  | @takeOver hops v a map s ends first indexed row fits there =>
      refine .inr ⟨[], a, map, s, ends, .step first (.stay _), ?_, ?_, indexed, row, ?_, there, ?_⟩
      · rw [List.length_nil]
        omega
      · intro b hb
        cases hb
      · simpa using fits
      · simp [hopTokens]
  | walkOn first walked _ ih =>
      rcases ih with hwalk | hsplice
      · exact .inl (hwalk.walkOn first walked)
      · exact .inr (hsplice.walkOn first walked)

/-- Along a walk to a wanted node something is found. -/
theorem FoundByWalk.finds (hops : Nat) :
    ∀ {v : NodeId} {t : Suffix}, FoundByWalk g m index wanted hops v t →
      Finds g m index wanted hops v t := by
  induction hops with
  | zero =>
      intro v t h
      obtain ⟨as, hne, -, hlen, -⟩ := h
      exact absurd (List.length_eq_zero_iff.1 (by omega)) hne
  | succ hops ih =>
      intro v t h
      obtain ⟨as, hne, hwalk, hlen, has, hend, rfl⟩ := h
      cases hwalk with
      | stay => exact absurd rfl hne
      | @step _ a as first hwalk =>
          have hwalked := has a List.mem_cons_self
          rw [List.length_cons] at hlen
          rw [hopTokens_cons]
          by_cases hnil : as = []
          · subst hnil
            simpa [hopTokens] using Finds.arrive first hwalked hend
          · refine .walkOn first hwalked (ih ⟨as, hnil, hwalk, by omega, ?_, hend, rfl⟩)
            intro b hb
            exact has b (List.mem_cons_of_mem _ hb)

/-- Along a walk to an indexed node something is found. -/
theorem FoundBySplice.finds (hops : Nat) :
    ∀ {v : NodeId} {t : Suffix}, FoundBySplice g m index wanted hops v t →
      Finds g m index wanted hops v t := by
  induction hops with
  | zero =>
      intro v t h
      obtain ⟨as, a, map, s, ends, -, hlen, -⟩ := h
      omega
  | succ hops ih =>
      intro v t h
      obtain ⟨as, b, map, s, ends, hwalk, hlen, has, hmap, hrow, hfits, hmeets, rfl⟩ := h
      cases as with
      | nil =>
          obtain ⟨first, -⟩ := isWalk_cons.1 hwalk
          simpa [hopTokens] using Finds.takeOver first hmap hrow (by simpa using hfits) hmeets
      | cons a as =>
          obtain ⟨first, hwalk⟩ := isWalk_cons.1 hwalk
          rw [List.length_cons] at hlen hfits
          rw [List.cons_append, hopTokens_cons, List.append_assoc]
          refine .walkOn first (has a List.mem_cons_self) (ih ⟨as, b, map, s, ends, hwalk,
            by omega, ?_, hmap, hrow, by omega, hmeets, rfl⟩)
          intro c hc
          exact has c (List.mem_cons_of_mem _ hc)

/-- **What is found from a node**: the suffixes of walks that end at a wanted node and
never come to an indexed one, and those of walks that come to an indexed node in the end,
with a suffix of that node appended. -/
theorem finds_iff {hops : Nat} {v : NodeId} {t : Suffix} :
    Finds g m index wanted hops v t ↔
      FoundByWalk g m index wanted hops v t ∨ FoundBySplice g m index wanted hops v t := by
  constructor
  · exact Finds.byWalk_or_bySplice
  · intro h
    rcases h with hwalk | hsplice
    · exact hwalk.finds
    · exact hsplice.finds

end LabelWalks
