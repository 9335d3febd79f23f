/-
  LabelWalks.Proofs.Suffix
  ────────────────────────
  **THE SUFFIX MAP OF A NODE IS EXACT.**

  A suffix map is made when every node is passable that a walk comes to before
  its last hop, and then it has each suffix that some walk adds, with the nodes
  at which such walks end, and nothing else.

    • `growSuffix_halt_eq_none`, `mem_growSuffix` — what follows one suffix,
    • `exists_suffixesWithin_iff`, `getElem?_suffixesWithin` — the whole map,
    • `Reaches`, `Defective`, `clear_nowhere_iff` — why a map is not made,
    • `suffixesWithin_exact` — both together, for paths of any length.
-/
import LabelWalks.Proofs.Expansion

namespace LabelWalks

/-- No node at which a walk is to stop. -/
def nowhere : NodeId → Bool :=
  fun _ => false

/-! ## §1. What follows one suffix. -/

theorem growSuffix_succ (g : GraphView) (m : Mapping) (hops : Nat) (suffix : Suffix)
    (nodes : NodeSet) :
    growSuffix g m (hops + 1) suffix nodes =
      (reached g m nodes).whenSettled fun as =>
        let longer := (groupNodes as).toList.map fun (hop, ends) => (suffix ++ hop.tokens, ends)
        (Trail.give longer).andThen fun _ =>
          .each (fun (suffix, ends) => growSuffix g m hops suffix ends) longer.reverse := rfl

/-- Following a suffix does not halt just when the way is clear from all its ends. -/
theorem growSuffix_halt_eq_none {g : GraphView} {m : Mapping} (hops : Nat) :
    ∀ {suffix : Suffix} {nodes : NodeSet},
      (growSuffix g m hops suffix nodes).halt = none ↔
        ∀ v ∈ nodes, Clear g m nowhere hops v := by
  -- halts do not look at the suffix, so it is free in the induction
  induction hops with
  | zero =>
      intro suffix nodes
      simp [growSuffix, clear_zero]
  | succ hops ih =>
      intro suffix nodes
      rw [growSuffix_succ, Trail.whenSettled_halt_eq_none, reached_halt_eq_none]
      simp only [Trail.andThen_halt_eq_none, Trail.give_halt, true_and,
        Trail.each_halt_eq_none, List.mem_reverse, List.mem_map, Prod.exists,
        forall_exists_index, and_imp, Prod.forall, Prod.mk.injEq, ih]
      constructor
      · intro h v hv
        obtain ⟨hpass, hgroups⟩ := h
        rw [clear_succ]
        refine ⟨hpass v hv, fun a ha _ => ?_⟩
        have hmem := (mem_reached hpass).2 ⟨v, hv, ha⟩
        obtain ⟨ends, hends⟩ := exists_mem_toList_groupNodes hmem
        exact hgroups _ _ _ _ hends rfl rfl _ ((mem_toList_groupNodes.1 hends).2 _ |>.2 hmem)
      · intro h
        have hpass : ∀ v ∈ nodes, Passable g m v := fun v hv => (clear_succ.1 (h v hv)).1
        refine ⟨hpass, ?_⟩
        intro suffix' nodes' hop ends hends _ hnodes w hw
        subst hnodes
        have hmem := (mem_toList_groupNodes.1 hends).2 w |>.1 hw
        obtain ⟨v, hv, ha⟩ := (mem_reached hpass).1 hmem
        exact (clear_succ.1 (h v hv)).2 _ ha rfl

/-- What one round grows: the groups of the arrivals, and what follows each of them. -/
theorem growSuffix_succ_items {g : GraphView} {m : Mapping} {hops : Nat} {suffix : Suffix}
    {nodes : NodeSet} (h : (growSuffix g m (hops + 1) suffix nodes).halt = none) {s : Suffix}
    {ends : NodeSet} :
    (s, ends) ∈ (growSuffix g m (hops + 1) suffix nodes).items ↔
      ∃ hop group, (hop, group) ∈ (groupNodes (reached g m nodes).items).toList
        ∧ ((s = suffix ++ hop.tokens ∧ ends = group)
          ∨ (s, ends) ∈ (growSuffix g m hops (suffix ++ hop.tokens) group).items) := by
  rw [growSuffix_succ, Trail.whenSettled_halt_eq_none] at h
  obtain ⟨hreached, hnext⟩ := h
  have heach := ((Trail.andThen_halt_eq_none _ _).1 hnext).2
  rw [growSuffix_succ, Trail.whenSettled_items _ _ hreached,
    Trail.andThen_items _ _ (Trail.give_halt _), List.mem_append, Trail.mem_each_items _ _ heach]
  simp only [Trail.give_items, List.mem_reverse, List.mem_map, Prod.exists, Prod.mk.injEq]
  constructor
  · intro h
    rcases h with ⟨hop, group, hgroup, rfl, rfl⟩ | ⟨_, _, ⟨hop, group, hgroup, rfl, rfl⟩, hrow⟩
    · exact ⟨hop, _, hgroup, .inl ⟨rfl, rfl⟩⟩
    · exact ⟨hop, group, hgroup, .inr hrow⟩
  · intro h
    obtain ⟨hop, group, hgroup, hrow⟩ := h
    rcases hrow with ⟨rfl, rfl⟩ | hrow
    · exact .inl ⟨hop, _, hgroup, rfl, rfl⟩
    · exact .inr ⟨_, _, ⟨hop, group, hgroup, rfl, rfl⟩, hrow⟩

/-- The way is clear from the nodes of a group when it is clear, one hop farther, from the
nodes that the group was reached from. -/
theorem clear_of_mem_group {g : GraphView} {m : Mapping} {hops : Nat} {nodes group : NodeSet}
    {hop : Hop} (hclear : ∀ v ∈ nodes, Clear g m nowhere (hops + 1) v)
    (hgroup : (hop, group) ∈ (groupNodes (reached g m nodes).items).toList) :
    ∀ w ∈ group, Clear g m nowhere hops w := by
  intro w hw
  have hpass : ∀ v ∈ nodes, Passable g m v := fun v hv => (clear_succ.1 (hclear v hv)).1
  have hmem := ((mem_toList_groupNodes.1 hgroup).2 w).1 hw
  obtain ⟨v, hv, ha⟩ := (mem_reached hpass).1 hmem
  exact (clear_succ.1 (hclear v hv)).2 _ ha rfl

/-- Where the walks from a group end: they are the rests of walks over the group's hop. -/
theorem exists_endsAt_group_iff {g : GraphView} {m : Mapping} {nodes group : NodeSet} {hop : Hop}
    (hpass : ∀ v ∈ nodes, Passable g m v)
    (hgroup : (hop, group) ∈ (groupNodes (reached g m nodes).items).toList) (t : Suffix)
    (w : NodeId) :
    (∃ u ∈ group, EndsAt g m u t w) ↔ ∃ v ∈ nodes, EndsAt g m v (hop.tokens ++ t) w := by
  simp only [endsAt_append, (mem_toList_groupNodes.1 hgroup).2, mem_reached hpass]
  constructor
  · intro h
    obtain ⟨u, ⟨v, hv, ha⟩, hu⟩ := h
    exact ⟨v, hv, u, ha, hu⟩
  · intro h
    obtain ⟨v, hv, u, ha, hu⟩ := h
    exact ⟨u, ⟨v, hv, ha⟩, hu⟩

/-- **What follows a suffix**: one row for each longer suffix that some walk adds,
with all nodes at which such walks end. -/
theorem mem_growSuffix {g : GraphView} {m : Mapping} (hops : Nat) :
    ∀ {suffix : Suffix} {nodes : NodeSet}, (∀ v ∈ nodes, Clear g m nowhere hops v) →
      ∀ {s : Suffix} {ends : NodeSet},
        (s, ends) ∈ (growSuffix g m hops suffix nodes).items ↔
          ∃ t, t ≠ [] ∧ t.length ≤ 2 * hops ∧ s = suffix ++ t ∧ (∃ w, w ∈ ends)
            ∧ ∀ w, w ∈ ends ↔ ∃ v ∈ nodes, EndsAt g m v t w := by
  -- on the hops that are left; the suffix and its nodes change from round to round
  induction hops with
  | zero =>
      intro suffix nodes _ s ends
      constructor
      · intro h
        cases h
      · intro h
        obtain ⟨t, ht, hlen, -⟩ := h
        exact absurd (List.length_eq_zero_iff.1 (by omega)) ht
  | succ hops ih =>
      intro suffix nodes hclear s ends
      have hpass : ∀ v ∈ nodes, Passable g m v := fun v hv => (clear_succ.1 (hclear v hv)).1
      rw [growSuffix_succ_items ((growSuffix_halt_eq_none _).2 hclear)]
      constructor
      · intro h
        obtain ⟨hop, group, hgroup, ⟨rfl, rfl⟩ | hrow⟩ := h
        · -- one hop longer: the group itself
          obtain ⟨⟨a, ha, rfl⟩, hnodes⟩ := mem_toList_groupNodes.1 hgroup
          refine ⟨a.hop.tokens, by simp [Hop.tokens], ?_, rfl, ⟨a.node, (hnodes _).2 ha⟩,
            fun w => ?_⟩
          · rw [Hop.length_tokens]
            omega
          · have hends := exists_endsAt_group_iff hpass hgroup [] w
            simpa [endsAt_nil] using hends
        · -- longer still: what follows the group
          obtain ⟨t, ht, hlen, rfl, hne, hw⟩ := (ih (clear_of_mem_group hclear hgroup)).1 hrow
          refine ⟨hop.tokens ++ t, by simp [ht], ?_, by simp, hne, fun w => ?_⟩
          · rw [List.length_append, Hop.length_tokens]
            omega
          · rw [hw, exists_endsAt_group_iff hpass hgroup]
      · intro h
        obtain ⟨t, ht, hlen, rfl, ⟨w, hwends⟩, hw⟩ := h
        obtain ⟨v, hv, hvw⟩ := (hw w).1 hwends
        -- the first hop of the suffix has a group
        obtain rfl | ⟨a, t', ha, rfl⟩ := hvw.eq_nil_or
        · exact absurd rfl ht
        obtain ⟨group, hgroup⟩ := exists_mem_toList_groupNodes ((mem_reached hpass).2 ⟨v, hv, ha⟩)
        have hw' : ∀ w, w ∈ ends ↔ ∃ u ∈ group, EndsAt g m u t' w := by
          intro w
          rw [hw, exists_endsAt_group_iff hpass hgroup]
        refine ⟨a.hop, group, hgroup, ?_⟩
        by_cases ht' : t' = []
        · subst ht'
          refine .inl ⟨by simp, Std.ExtTreeSet.ext_mem fun u => ?_⟩
          rw [hw']
          simp [endsAt_nil]
        · refine .inr ((ih (clear_of_mem_group hclear hgroup)).2 ?_)
          refine ⟨t', ht', ?_, by simp, ⟨w, hwends⟩, hw'⟩
          rw [List.length_append, Hop.length_tokens] at hlen
          omega

/-! ## §2. The whole map. -/

theorem mergeAll_eq_gather (map : SuffixMap) (rows : List SuffixEnds) :
    map.mergeAll rows =
      gather Prod.fst ∅ (fun (s : NodeSet) (row : SuffixEnds) => s ∪ row.2) map rows := rfl

/-- The rows of a list are united by suffix. -/
theorem getElem?_mergeAll_empty {rows : List SuffixEnds} {s : Suffix} {ends : NodeSet} :
    (SuffixMap.mergeAll ∅ rows)[s]? = some ends ↔
      (∃ row ∈ rows, row.1 = s) ∧ ∀ w, w ∈ ends ↔ ∃ row ∈ rows, row.1 = s ∧ w ∈ row.2 := by
  rw [mergeAll_eq_gather]
  exact getElem?_gather_sets_iff Prod.fst fun _ _ _ => Std.ExtTreeSet.mem_union_iff

/-- Rows that give a suffix the same ends whenever they give it any are the map. -/
theorem getElem?_mergeAll_empty_of_unique {rows : List SuffixEnds}
    (hunique : ∀ row ∈ rows, ∀ row' ∈ rows, row.1 = row'.1 → row.2 = row'.2) {s : Suffix}
    {ends : NodeSet} : (SuffixMap.mergeAll ∅ rows)[s]? = some ends ↔ (s, ends) ∈ rows := by
  rw [getElem?_mergeAll_empty]
  constructor
  · intro hsome
    obtain ⟨⟨row, hmem, rfl⟩, hw⟩ := hsome
    have hrow : row.2 = ends := by
      refine Std.ExtTreeSet.ext_mem fun w => ?_
      rw [hw]
      constructor
      · intro h
        exact ⟨row, hmem, rfl, h⟩
      · intro hsome
        obtain ⟨row', hmem', hkey, h⟩ := hsome
        rw [hunique row hmem row' hmem' hkey.symm]
        exact h
    rw [← hrow]
    exact hmem
  · intro hmem
    refine ⟨⟨_, hmem, rfl⟩, fun w => ?_⟩
    constructor
    · intro h
      exact ⟨_, hmem, rfl, h⟩
    · intro hsome
      obtain ⟨row', hmem', hkey, h⟩ := hsome
      have hends : ends = row'.2 := hunique _ hmem row' hmem' hkey.symm
      rw [hends]
      exact h

theorem suffixesWithin_eq_ok_iff {g : GraphView} {m : Mapping} {v : NodeId} {hops : Nat}
    {map : SuffixMap} :
    suffixesWithin g m v hops = .ok map ↔
      (∃ label, m.indexOfNode g v = .ok label) ∧ Clear g m nowhere hops v
        ∧ map = SuffixMap.mergeAll ∅ (([], (∅ : NodeSet).insert v)
            :: (growSuffix g m hops [] ((∅ : NodeSet).insert v)).items) := by
  have hclear : (growSuffix g m hops [] ((∅ : NodeSet).insert v)).halt = none ↔
      Clear g m nowhere hops v := by
    simp only [growSuffix_halt_eq_none, NodeSet.mem_insert_empty, forall_eq']
  unfold suffixesWithin
  cases m.indexOfNode g v with
  | error fault => simp
  | ok label =>
      show (growSuffix g m hops [] ((∅ : NodeSet).insert v)).settled.map _ = .ok map ↔ _
      rw [← hclear]
      cases hset : (growSuffix g m hops [] ((∅ : NodeSet).insert v)).settled with
      | ok items =>
          obtain ⟨hhalt, rfl⟩ := (Trail.settled_eq_ok_iff _ _).1 hset
          simp only [Except.map, Except.ok.injEq, hhalt, true_and, exists_eq']
          exact eq_comm
      | error halt =>
          have hhalt : (growSuffix g m hops [] ((∅ : NodeSet).insert v)).halt ≠ none := by
            intro h
            rw [(Trail.settled_eq_ok_iff _ _).2 ⟨h, rfl⟩] at hset
            cases hset
          simp [Except.map, hhalt]

/-- **A suffix map is made** just when the node has a registered label and the way
from it is clear up to the last hop. -/
theorem exists_suffixesWithin_iff {g : GraphView} {m : Mapping} {v : NodeId}
    {hops : Nat} :
    (∃ map, suffixesWithin g m v hops = .ok map) ↔
      (∃ label, m.indexOfNode g v = .ok label) ∧ Clear g m nowhere hops v := by
  simp only [suffixesWithin_eq_ok_iff]
  constructor
  · intro h
    obtain ⟨map, hlabel, hclear, -⟩ := h
    exact ⟨hlabel, hclear⟩
  · intro h
    obtain ⟨hlabel, hclear⟩ := h
    exact ⟨_, hlabel, hclear, rfl⟩

/-- **A suffix map is exact**: its suffixes are those that walks within the length
add, each with the nodes at which these walks end. -/
theorem getElem?_suffixesWithin {g : GraphView} {m : Mapping} {v : NodeId} {hops : Nat}
    {map : SuffixMap} (h : suffixesWithin g m v hops = .ok map) {s : Suffix}
    {ends : NodeSet} :
    map[s]? = some ends ↔
      s.length ≤ 2 * hops ∧ (∃ w, w ∈ ends) ∧ ∀ w, w ∈ ends ↔ EndsAt g m v s w := by
  obtain ⟨-, hclear, rfl⟩ := suffixesWithin_eq_ok_iff.1 h
  have hself : ∀ u, u ∈ (∅ : NodeSet).insert v ↔ v = u := fun _ => NodeSet.mem_insert_empty
  have hclear' : ∀ u ∈ (∅ : NodeSet).insert v, Clear g m nowhere hops u := by
    intro u hu
    rw [← (hself u).1 hu]
    exact hclear
  have hrows : ∀ s ends, (s, ends) ∈ (([], (∅ : NodeSet).insert v)
      :: (growSuffix g m hops [] ((∅ : NodeSet).insert v)).items : List SuffixEnds) ↔
        s.length ≤ 2 * hops ∧ (∃ w, w ∈ ends) ∧ ∀ w, w ∈ ends ↔ EndsAt g m v s w := by
    intro s ends
    rw [List.mem_cons, mem_growSuffix _ hclear']
    simp only [List.nil_append, hself, Prod.mk.injEq, exists_eq_left']
    constructor
    · intro h
      rcases h with ⟨rfl, rfl⟩ | ⟨t, -, hlen, rfl, hne, hw⟩
      · exact ⟨by simp, ⟨v, (hself v).2 rfl⟩, fun w => by rw [hself, endsAt_nil]⟩
      · exact ⟨hlen, hne, hw⟩
    · intro h
      obtain ⟨hlen, hne, hw⟩ := h
      by_cases hs : s = []
      · subst hs
        refine .inl ⟨rfl, Std.ExtTreeSet.ext_mem fun w => ?_⟩
        rw [hself, hw, endsAt_nil]
      · exact .inr ⟨s, hs, hlen, rfl, hne, hw⟩
  -- rows of one suffix have the same ends, for these are told by the suffix
  rw [getElem?_mergeAll_empty_of_unique, hrows]
  intro row hrow row' hrow' hkey
  obtain ⟨s, ends⟩ := row
  obtain ⟨s', ends'⟩ := row'
  have hkey : s = s' := hkey
  subst hkey
  refine Std.ExtTreeSet.ext_mem fun w => ?_
  rw [((hrows _ _).1 hrow).2.2, ((hrows _ _).1 hrow').2.2]

section
variable {g : GraphView} {m : Mapping} {v : NodeId} {length : PathLength}

theorem exists_suffixesFrom_iff :
    (∃ map, suffixesFrom g m v length = .ok map) ↔
      (∃ label, m.indexOfNode g v = .ok label) ∧ Clear g m nowhere length.hops v :=
  exists_suffixesWithin_iff

theorem getElem?_suffixesFrom {map : SuffixMap} (h : suffixesFrom g m v length = .ok map)
    {s : Suffix} {ends : NodeSet} :
    map[s]? = some ends ↔
      s.length ≤ 2 * length.hops ∧ (∃ w, w ∈ ends) ∧ ∀ w, w ∈ ends ↔ EndsAt g m v s w :=
  getElem?_suffixesWithin h

end

/-- **A suffix map is complete**: a walk within the length is found under its suffix. -/
theorem exists_getElem?_suffixesFrom {g : GraphView} {m : Mapping} {v : NodeId}
    {length : PathLength} {map : SuffixMap} (h : suffixesFrom g m v length = .ok map)
    {as : List Arrival} (hwalk : IsWalk g m v as) (hlen : as.length ≤ length.hops) :
    ∃ ends, map[hopTokens as]? = some ends ∧ endOf v as ∈ ends := by
  -- all walks with these hops are among those of their length
  have hends : ∀ w, w ∈ Std.ExtTreeSet.ofList (((walksFrom g m as.length v).filter fun bs =>
      hopTokens bs = hopTokens as).map (endOf v)) compare ↔ EndsAt g m v (hopTokens as) w := by
    intro w
    rw [mem_ofList_iff]
    simp only [List.mem_map, List.mem_filter, mem_walksFrom, decide_eq_true_eq]
    constructor
    · intro hw
      obtain ⟨bs, ⟨⟨hbs, -⟩, htokens⟩, hend⟩ := hw
      exact ⟨bs, hbs, htokens, hend⟩
    · intro hw
      obtain ⟨bs, hbs, htokens, hend⟩ := hw
      have hsame := congrArg List.length htokens
      rw [length_hopTokens, length_hopTokens] at hsame
      exact ⟨bs, ⟨⟨hbs, by omega⟩, htokens⟩, hend⟩
  have hself : EndsAt g m v (hopTokens as) (endOf v as) := ⟨as, hwalk, rfl, rfl⟩
  refine ⟨_, (getElem?_suffixesFrom h).2 ⟨?_, ⟨_, (hends _).2 hself⟩, hends⟩, (hends _).2 hself⟩
  rw [length_hopTokens]
  omega

/-! ## §3. What is in the way. -/

/-- So many entries of adjacency lists, one after another, lead from a node to another one,
whatever labels they have. -/
inductive Reaches (g : GraphView) : Nat → NodeId → NodeId → Prop where
  | stay (v : NodeId) : Reaches g 0 v v
  | step {k : Nat} {v u w : NodeId} {label : Option Label} {entries : List (NodeId × Option Label)}
      (hadj : g.adjacentEdges v = .ok entries) (hmem : (u, label) ∈ entries)
      (rest : Reaches g k u w) : Reaches g (k + 1) v w

/-- The label of a node is missing or is not registered. -/
def Unlabelled (g : GraphView) (m : Mapping) (v : NodeId) : Prop :=
  ∀ label, g.labelOf v = some label → m.nodes.indexOf? label = none

/-- What is wrong with a node that cannot be expanded. -/
inductive Defective (g : GraphView) (m : Mapping) (v : NodeId) : Prop where
  /-- The answer about its neighbours broke off. -/
  | breaksOff {breakdown : Breakdown} (hadj : g.adjacentEdges v = .error breakdown)
  /-- An edge has no label. -/
  | edgeMissing {w : NodeId} {entries : List (NodeId × Option Label)}
      (hadj : g.adjacentEdges v = .ok entries) (hmem : (w, none) ∈ entries)
  /-- An edge has a label that is not registered. -/
  | edgeUnknown {w : NodeId} {label : Label} {entries : List (NodeId × Option Label)}
      (hadj : g.adjacentEdges v = .ok entries) (hmem : (w, some label) ∈ entries)
      (hlabel : m.edges.indexOf? label = none)
  /-- The label of a neighbour is missing or not registered. -/
  | neighbour {w : NodeId} {label : Option Label} {entries : List (NodeId × Option Label)}
      (hadj : g.adjacentEdges v = .ok entries) (hmem : (w, label) ∈ entries)
      (hnode : Unlabelled g m w)

section
variable {g : GraphView} {m : Mapping}

theorem exists_indexOfNode_iff {v : NodeId} :
    (∃ index, m.indexOfNode g v = .ok index) ↔ ¬ Unlabelled g m v := by
  unfold Mapping.indexOfNode Unlabelled Mapping.nodeIndex
  cases g.labelOf v with
  | none => simp
  | some label => simp [elim_error_eq_ok_iff, Option.ne_none_iff_exists']

theorem exists_edgeIndex_iff {label : Label} :
    (∃ index, m.edgeIndex label = .ok index) ↔ m.edges.indexOf? label ≠ none := by
  unfold Mapping.edgeIndex
  simp [elim_error_eq_ok_iff, Option.ne_none_iff_exists']

/-- At a passable node every entry can be followed. -/
theorem Passable.entry {v : NodeId} {entries : List (NodeId × Option Label)}
    {entry : NodeId × Option Label} (h : Passable g m v) (hadj : g.adjacentEdges v = .ok entries)
    (hmem : entry ∈ entries) : ∃ label edge node,
      entry.2 = some label ∧ m.edgeIndex label = .ok edge ∧ m.indexOfNode g entry.1 = .ok node := by
  obtain ⟨entries', hentries, hall⟩ := h
  rw [hadj] at hentries
  injection hentries with hentries
  subst hentries
  exact hall entry hmem

/-- **A node is defective** just when it is not passable. -/
theorem defective_iff {v : NodeId} : Defective g m v ↔ ¬ Passable g m v := by
  constructor
  · intro h hpass
    cases h with
    | breaksOff hadj =>
        obtain ⟨entries, hentries, -⟩ := hpass
        rw [hadj] at hentries
        cases hentries
    | edgeMissing hadj hmem =>
        obtain ⟨_, _, _, hsome, -, -⟩ := hpass.entry hadj hmem
        cases hsome
    | edgeUnknown hadj hmem hlabel =>
        obtain ⟨_, edge, _, hsome, hedge, -⟩ := hpass.entry hadj hmem
        injection hsome with hsome
        subst hsome
        exact exists_edgeIndex_iff.1 ⟨edge, hedge⟩ hlabel
    | neighbour hadj hmem hnode =>
        obtain ⟨_, _, node, -, -, hindex⟩ := hpass.entry hadj hmem
        exact exists_indexOfNode_iff.1 ⟨node, hindex⟩ hnode
  · intro h
    -- a node without any of the four defects can be passed
    by_contra hsound
    apply h
    cases hadj : g.adjacentEdges v with
    | error breakdown => exact absurd (.breaksOff hadj) hsound
    | ok entries =>
        refine ⟨entries, hadj, fun entry hmem => ?_⟩
        obtain ⟨w, label?⟩ := entry
        obtain ⟨node, hnode⟩ := exists_indexOfNode_iff.2 fun hw =>
          hsound (.neighbour hadj hmem hw)
        cases label? with
        | none => exact absurd (.edgeMissing hadj hmem) hsound
        | some label =>
            obtain ⟨edge, hedge⟩ := exists_edgeIndex_iff.2 fun hlabel =>
              hsound (.edgeUnknown hadj hmem hlabel)
            exact ⟨label, edge, node, rfl, hedge, hnode⟩

/-- An arrival goes over an entry. -/
theorem Arrives.reaches {k : Nat} {v w : NodeId} {a : Arrival} (h : Arrives g m v a)
    (hrest : Reaches g k a.node w) : Reaches g (k + 1) v w := by
  obtain ⟨entries, hadj, label, hmem, -, -⟩ := h
  exact .step hadj hmem hrest

theorem IsWalk.reaches {v : NodeId} {as : List Arrival} (h : IsWalk g m v as) :
    Reaches g as.length v (endOf v as) := by
  induction h with
  | stay v => exact .stay v
  | step first rest ih => exact first.reaches ih

/-- At a passable node every entry is that of an arrival. -/
theorem Passable.arrives {v u : NodeId} {label : Option Label}
    {entries : List (NodeId × Option Label)} (h : Passable g m v)
    (hadj : g.adjacentEdges v = .ok entries) (hmem : (u, label) ∈ entries) :
    ∃ a, Arrives g m v a ∧ a.node = u := by
  obtain ⟨label', edge, node, hlabel, hedge, hnode⟩ := h.entry hadj hmem
  have hlabel : label = some label' := hlabel
  subst hlabel
  exact ⟨⟨⟨edge, node⟩, u⟩, ⟨entries, hadj, label', hmem, hedge, hnode⟩, rfl⟩

/-- Where the way is clear, walks come to all nodes that can be reached. -/
theorem Clear.passable_of_reaches {hops k : Nat} {v w : NodeId} (hclear : Clear g m nowhere hops v)
    (hreach : Reaches g k v w) (hk : k < hops) : Passable g m w := by
  induction hreach generalizing hops with
  | stay v => exact hclear [] (.stay v) (by simp) hk
  | @step k v u w label entries hadj hmem rest ih =>
      obtain ⟨hops, rfl⟩ : ∃ n, hops = n + 1 := ⟨hops - 1, by omega⟩
      obtain ⟨hpass, hnext⟩ := clear_succ.1 hclear
      obtain ⟨a, ha, rfl⟩ := hpass.arrives hadj hmem
      exact ih (hnext a ha rfl) (by omega)

/-- **The way is clear** just when no defective node can be reached before the last hop. -/
theorem clear_nowhere_iff {hops : Nat} {v : NodeId} :
    Clear g m nowhere hops v ↔ ¬ ∃ k w, k < hops ∧ Reaches g k v w ∧ Defective g m w := by
  constructor
  · intro hclear h
    obtain ⟨k, w, hk, hreach, hdefect⟩ := h
    exact defective_iff.1 hdefect (hclear.passable_of_reaches hreach hk)
  · intro hnone as hwalk _ hlen
    by_contra hblocked
    exact hnone ⟨as.length, endOf v as, hlen, hwalk.reaches, defective_iff.2 hblocked⟩

/-- From a node without neighbours the only walk is the one that stays. -/
theorem endsAt_isolated {v w : NodeId} {s : Suffix} (hadj : g.adjacentEdges v = .ok []) :
    EndsAt g m v s w ↔ s = [] ∧ v = w := by
  constructor
  · intro h
    rcases h.eq_nil_or with rfl | ⟨a, t, ha, -⟩
    · exact ⟨rfl, endsAt_nil.1 h⟩
    · obtain ⟨entries, hentries, label, hmem, -, -⟩ := ha
      rw [hadj] at hentries
      injection hentries with hentries
      subst hentries
      cases hmem
  · intro h
    obtain ⟨rfl, rfl⟩ := h
    exact endsAt_nil.2 rfl

/-! ## §4. All of it. -/

/-- **A suffix map is not made** just when the node has no registered label or a defective node
can be reached before the last hop. -/
theorem exists_suffixesWithin_eq_error_iff {v : NodeId} {hops : Nat} :
    (∃ halt, suffixesWithin g m v hops = .error halt) ↔
      Unlabelled g m v ∨ ∃ k w, k < hops ∧ Reaches g k v w ∧ Defective g m w := by
  have hmade : (∃ map, suffixesWithin g m v hops = .ok map) ↔ _ := exists_suffixesWithin_iff
  rw [exists_indexOfNode_iff, clear_nowhere_iff, ← not_or] at hmade
  cases hmap : suffixesWithin g m v hops with
  | error halt =>
      simp only [hmap, reduceCtorEq, exists_false, false_iff, not_not] at hmade
      simpa using hmade
  | ok map =>
      simp only [hmap, Except.ok.injEq, exists_eq', true_iff] at hmade
      simpa using hmade

/-- What a suffix map has for paths of a length: nothing but what walks add, and all of it. -/
structure SuffixMap.ExactFor (map : SuffixMap) (g : GraphView) (m : Mapping) (v : NodeId)
    (length : Nat) : Prop where
  /-- A suffix has the nodes at which the walks end that add it. -/
  rows : ∀ s ends, map[s]? = some ends ↔
    s.length % 2 = 0 ∧ s.length ≤ 2 * (length - 1) ∧ (∃ w, w ∈ ends)
      ∧ ∀ w, w ∈ ends ↔ EndsAt g m v s w
  /-- The empty suffix stays at the node. -/
  self : ∃ ends, map[([] : Suffix)]? = some ends ∧ ∀ w, w ∈ ends ↔ w = v
  /-- A node without neighbours has no other suffix. -/
  isolated : g.adjacentEdges v = .ok [] → ∀ s, s ∈ map ↔ s = []

theorem SuffixMap.exactFor {v : NodeId} {hops : Nat} {map : SuffixMap}
    (hmap : suffixesWithin g m v hops = .ok map) : map.ExactFor g m v (hops + 1) := by
  have hrows : ∀ s ends, map[s]? = some ends ↔ _ := fun _ _ => getElem?_suffixesWithin hmap
  have hself : ∀ w, w ∈ (∅ : NodeSet).insert v ↔ v = w := fun _ => NodeSet.mem_insert_empty
  refine ⟨fun s ends => ?_, ?_, fun hadj s => ?_⟩
  · rw [hrows, Nat.add_sub_cancel]
    constructor
    · intro h
      obtain ⟨hlen, ⟨w, hw⟩, hends⟩ := h
      exact ⟨((hends w).1 hw).even, hlen, ⟨w, hw⟩, hends⟩
    · intro h
      exact h.2
  · refine ⟨(∅ : NodeSet).insert v, (hrows _ _).2 ⟨by simp, ⟨v, (hself v).2 rfl⟩, ?_⟩, ?_⟩
    · intro w
      rw [hself, endsAt_nil]
    · intro w
      rw [hself]
      exact eq_comm
  · rw [← Std.ExtTreeMap.isSome_getElem?_iff_mem, Option.isSome_iff_exists]
    simp only [hrows, endsAt_isolated hadj]
    constructor
    · intro h
      obtain ⟨ends, -, ⟨w, hw⟩, hends⟩ := h
      exact ((hends w).1 hw).1
    · intro h
      subst h
      refine ⟨(∅ : NodeSet).insert v, by simp, ⟨v, (hself v).2 rfl⟩, fun w => ?_⟩
      rw [hself]
      exact (and_iff_right rfl).symm

/-- **The suffix map of a node**, for paths of any length: it is not made just when the node
has no registered label or a defective node can be reached from it by two hops less than the
path has labels, and otherwise it is exact. -/
theorem suffixesWithin_exact (g : GraphView) (m : Mapping) (v : NodeId) (length : Nat)
    (hlength : 1 ≤ length) :
    ((∃ halt, suffixesWithin g m v (length - 1) = .error halt) ↔
      Unlabelled g m v ∨ ∃ k w, k + 2 ≤ length ∧ Reaches g k v w ∧ Defective g m w)
      ∧ ∀ map, suffixesWithin g m v (length - 1) = .ok map → map.ExactFor g m v length := by
  obtain ⟨hops, rfl⟩ : ∃ hops, length = hops + 1 := ⟨length - 1, by omega⟩
  have hzone : ∀ k, k + 2 ≤ hops + 1 ↔ k < hops := fun k => by omega
  simp only [Nat.add_sub_cancel, hzone]
  exact ⟨exists_suffixesWithin_eq_error_iff, fun map hmap => SuffixMap.exactFor hmap⟩

end

/-- The map of a node of `twins` for paths of two labels, the second of which is two edges away
in two ways. -/
theorem suffixesWithin_exact_twins :
    1 ≤ 2 ∧ ∃ map, suffixesWithin twins.view twinLabels 1 (2 - 1) = .ok map
      ∧ map.ExactFor twins.view twinLabels 1 2 := by
  have h := suffixesWithin_exact twins.view twinLabels 1 2 (by decide)
  have hok : (suffixesWithin twins.view twinLabels 1 (2 - 1)).isOk = true := by
    unfold twinLabels
    cbv
  cases hmap : suffixesWithin twins.view twinLabels 1 (2 - 1) with
  | error halt =>
      rw [hmap] at hok
      cases hok
  | ok map => exact ⟨by decide, map, rfl, h.2 map hmap⟩

end LabelWalks
