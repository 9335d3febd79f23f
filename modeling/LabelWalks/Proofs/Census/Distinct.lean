/-
  LabelWalks.Proofs.Census.Distinct
  ─────────────────────────────────
  **NO PATH IS COUNTED TWICE.**

  The frontiers of a level have different paths of one length, and a path is grown
  by different hops in different ways.  So a worker gives each path once, whether it
  comes to its end or not, and its paths begin with its own label, so two workers
  never give the same one.

    • `Abreast`, `Abreast.next` — a level and the next one,
    • `Abreast.sweep` — the rows of one worker,
    • `nodup_censusRows` — the rows of all workers.
-/
import LabelWalks.Proofs.Census.Meaning

namespace LabelWalks

variable {g : GraphView} {m : Mapping}

/-! ## §1. What visits can give. -/

/-- A visit gives its frontier, with or without children. -/
theorem map_fst_visit_items (f : Frontier) : (visit g m f).items.map Prod.fst = [f] := by
  unfold visit
  cases f.grow g m <;> rfl

/-- The frontiers of a level are visited in order, up to the first halt. -/
theorem visited_isPrefix (level : List Frontier) :
    (Trail.each (visit g m) level).items.map Prod.fst <+: level := by
  induction level with
  | nil => exact List.nil_prefix
  | cons f level ih =>
      cases hhalt : (visit g m f).halt with
      | some halt =>
          have hitems : (Trail.each (visit g m) (f :: level)).items = (visit g m f).items := by
            simp [Trail.each, Trail.andThen, hhalt]
          rw [hitems, map_fst_visit_items]
          exact ⟨level, rfl⟩
      | none =>
          rw [Trail.each, Trail.andThen_items _ _ hhalt, List.map_append, map_fst_visit_items]
          exact List.prefix_cons_inj f |>.2 ih

/-- The children that a visit gives are grown from its frontier, each over a hop of its own. -/
theorem children_of_visit {f f' : Frontier} {children : List Frontier}
    (h : (f, children) ∈ (visit g m f').items) :
    (children.map Frontier.path).Nodup
      ∧ ∀ child ∈ children, ∃ hop : Hop, child.path = f.path.extend hop.edge hop.node := by
  unfold visit at h
  cases hgrow : f'.grow g m with
  | error halt =>
      rw [hgrow] at h
      obtain ⟨-, rfl⟩ := Prod.mk.inj (List.mem_singleton.1 h)
      exact ⟨List.nodup_nil, fun child hchild => by cases hchild⟩
  | ok grown =>
      rw [hgrow] at h
      obtain ⟨rfl, rfl⟩ := Prod.mk.inj (List.mem_singleton.1 h)
      rw [grow_eq_ok hgrow]
      refine ⟨?_, fun child hchild => ?_⟩
      · rw [List.map_map]
        refine (Std.ExtTreeMap.distinct_keys_toList).map _ fun row row' hne hpath => hne ?_
        -- the last two tokens are those of the hop
        have htokens := congrArg MetaPath.tokens hpath
        simp only [Function.comp_apply, MetaPath.tokens_extend] at htokens
        have hlast := List.append_cancel_left htokens
        have hhop : row.1 = row'.1 := by
          obtain ⟨⟨edge, node⟩, nodes⟩ := row
          obtain ⟨⟨edge', node'⟩, nodes'⟩ := row'
          simpa using hlast
        rw [hhop]
        exact Std.ReflCmp.compare_self
      · obtain ⟨row, -, rfl⟩ := List.mem_map.1 hchild
        exact ⟨row.1, rfl⟩

/-! ## §2. Level by level. -/

/-- The frontiers of a level: their paths begin with one label, have one length and differ. -/
structure Abreast (label : LabelIndex) (n : Nat) (level : List Frontier) : Prop where
  nodup : (level.map Frontier.path).Nodup
  head : ∀ f ∈ level, f.path.tokens.head? = some label
  length : ∀ f ∈ level, f.path.tokens.length = n

variable {label : LabelIndex} {n : Nat} {level : List Frontier}

/-- **The next level** is made of longer paths that differ again. -/
theorem Abreast.next (h : Abreast label n level) :
    Abreast label (n + 2) ((Trail.each (visit g m) level).items.flatMap Prod.snd) := by
  have hfrom : ∀ f children, (f, children) ∈ (Trail.each (visit g m) level).items →
      f ∈ level ∧ (children.map Frontier.path).Nodup
        ∧ ∀ child ∈ children, ∃ hop : Hop, child.path = f.path.extend hop.edge hop.node := by
    intro f children hmem
    obtain ⟨f', -, hvisit⟩ := Trail.exists_of_mem_each_items hmem
    refine ⟨(visited_isPrefix level).subset (List.mem_map_of_mem hmem), children_of_visit hvisit⟩
  refine ⟨?_, fun child hchild => ?_, fun child hchild => ?_⟩
  · rw [List.map_flatMap, List.nodup_flatMap]
    refine ⟨fun visited hvisited => (hfrom _ _ hvisited).2.1, ?_⟩
    -- children of different frontiers differ in the paths of these
    have hpaths : ((Trail.each (visit g m) level).items.map fun visited =>
        visited.1.path).Nodup := by
      have hsub := ((visited_isPrefix (g := g) (m := m) level).map Frontier.path).sublist
      rw [List.map_map] at hsub
      exact hsub.nodup h.nodup
    refine (List.pairwise_map.1 hpaths).imp_of_mem fun hv hv' hne => ?_
    intro p hp hp'
    obtain ⟨child, hchild, rfl⟩ := List.mem_map.1 hp
    obtain ⟨child', hchild', hsame⟩ := List.mem_map.1 hp'
    obtain ⟨hop, hpath⟩ := (hfrom _ _ hv).2.2 child hchild
    obtain ⟨hop', hpath'⟩ := (hfrom _ _ hv').2.2 child' hchild'
    rw [hpath, hpath'] at hsame
    apply hne
    have htokens := congrArg MetaPath.tokens hsame
    rw [MetaPath.tokens_extend, MetaPath.tokens_extend] at htokens
    exact MetaPath.ext (List.append_inj_left' htokens rfl).symm
  · obtain ⟨⟨f, children⟩, hvisited, hchild⟩ := List.mem_flatMap.1 hchild
    obtain ⟨hf, -, hgrown⟩ := hfrom f children hvisited
    obtain ⟨hop, hpath⟩ := hgrown child hchild
    rw [hpath, MetaPath.tokens_extend, List.head?_append, h.head f hf]
    rfl
  · obtain ⟨⟨f, children⟩, hvisited, hchild⟩ := List.mem_flatMap.1 hchild
    obtain ⟨hf, -, hgrown⟩ := hfrom f children hvisited
    obtain ⟨hop, hpath⟩ := hgrown child hchild
    rw [hpath, MetaPath.tokens_extend, List.length_append, h.length f hf]
    rfl

/-- The rows of a level that halts. -/
theorem sweep_succ_items_of_halt {k : Nat} {halt : Halt}
    (h : (Trail.each (visit g m) level).halt = some halt) :
    (sweep g m (k + 1) level).items =
      ((Trail.each (visit g m) level).items.map Prod.fst).map fun f => (f.path, f.total) := by
  rw [sweep_succ]
  unfold Trail.andThen
  rw [Trail.map_halt, h, List.map_map]
  rfl

/-- The rows of a level that does not, and of those after it. -/
theorem sweep_succ_items {k : Nat} (h : (Trail.each (visit g m) level).halt = none) :
    (sweep g m (k + 1) level).items =
      (((Trail.each (visit g m) level).items.map Prod.fst).map fun f => (f.path, f.total))
        ++ (sweep g m k ((Trail.each (visit g m) level).items.flatMap Prod.snd)).items := by
  rw [sweep_succ, Trail.andThen_items _ _ (by rw [Trail.map_halt]; exact h), List.map_map]
  rfl

/-- **The rows of one worker**, whether it halts or not: their paths differ, begin with the
worker's label and are no shorter than those it began with. -/
theorem Abreast.sweep (k : Nat) : ∀ {n : Nat} {level : List Frontier}, Abreast label n level →
    ((sweep g m k level).items.map Prod.fst).Nodup
      ∧ ∀ row ∈ (sweep g m k level).items,
        row.1.tokens.head? = some label ∧ n ≤ row.1.tokens.length := by
  -- on the levels that are left, where the length of the paths grows
  induction k with
  | zero =>
      intro n level h
      show ((level.map fun f => (f.path, f.total)).map Prod.fst).Nodup
        ∧ ∀ row ∈ level.map fun f => (f.path, f.total), _
      refine ⟨?_, fun row hrow => ?_⟩
      · rw [List.map_map]
        exact h.nodup
      · obtain ⟨f, hf, rfl⟩ := List.mem_map.1 hrow
        exact ⟨h.head f hf, (h.length f hf).ge⟩
  | succ k ih =>
      intro n level h
      have hnodup : (((Trail.each (visit g m) level).items.map Prod.fst).map
          fun f => (f.path, f.total)).map Prod.fst |>.Nodup := by
        rw [List.map_map]
        exact (((visited_isPrefix level).map Frontier.path).sublist).nodup h.nodup
      have hrow : ∀ row ∈ ((Trail.each (visit g m) level).items.map Prod.fst).map
          (fun f => (f.path, f.total)),
          row.1.tokens.head? = some label ∧ row.1.tokens.length = n := by
        intro row hrow
        obtain ⟨f, hf, rfl⟩ := List.mem_map.1 hrow
        have hf := (visited_isPrefix level).subset hf
        exact ⟨h.head f hf, h.length f hf⟩
      cases hhalt : (Trail.each (visit g m) level).halt with
      | some halt =>
          rw [sweep_succ_items_of_halt hhalt]
          exact ⟨hnodup, fun row hmem => ⟨(hrow row hmem).1, (hrow row hmem).2.ge⟩⟩
      | none =>
          obtain ⟨hnext, hlater⟩ := ih (h.next (g := g) (m := m))
          rw [sweep_succ_items hhalt, List.map_append]
          refine ⟨?_, fun row hmem => ?_⟩
          · -- later paths are longer
            refine List.nodup_append.2 ⟨hnodup, hnext, fun p hp p' hp' hsame => ?_⟩
            obtain ⟨row, hmem, rfl⟩ := List.mem_map.1 hp
            obtain ⟨row', hmem', rfl⟩ := List.mem_map.1 hp'
            have hshort := (hrow row hmem).2
            have hlong := (hlater row' hmem').2
            rw [hsame] at hshort
            omega
          · rcases List.mem_append.1 hmem with hmem | hmem
            · exact ⟨(hrow row hmem).1, (hrow row hmem).2.ge⟩
            · have hlong := (hlater row hmem).2
              exact ⟨(hlater row hmem).1, by omega⟩

/-! ## §3. All workers. -/

theorem censusWorker_spec (length : PathLength) (label : LabelIndex) (nodes : NodeCounts) :
    ((censusWorker g m length label nodes).items.map Prod.fst).Nodup
      ∧ ∀ row ∈ (censusWorker g m length label nodes).items,
        row.1.tokens.head? = some label := by
  have hroot : Abreast label 1 [⟨.single label, nodes⟩] := by
    refine ⟨by simp, fun f hf => ?_, fun f hf => ?_⟩
    · rw [List.mem_singleton.1 hf]
      rfl
    · rw [List.mem_singleton.1 hf]
      rfl
  obtain ⟨hnodup, hrows⟩ := hroot.sweep (g := g) (m := m) length.hops
  exact ⟨hnodup, fun row hrow => (hrows row hrow).1⟩

theorem map_fst_censusWorkers (length : PathLength)
    (groups : Std.ExtTreeMap LabelIndex NodeCounts) :
    (censusWorkers g m length groups).map Prod.fst = groups.keys := by
  unfold censusWorkers
  rw [List.map_map, ← Std.ExtTreeMap.map_fst_toList_eq_keys]
  rfl

/-- There is one worker for each label. -/
theorem nodup_censusWorkers (length : PathLength)
    (groups : Std.ExtTreeMap LabelIndex NodeCounts) :
    ((censusWorkers g m length groups).map Prod.fst).Nodup := by
  rw [map_fst_censusWorkers]
  exact Std.ExtTreeMap.nodup_keys

/-- **No path is counted twice**, by one worker or by two. -/
theorem nodup_censusRows (length : PathLength) (groups : Std.ExtTreeMap LabelIndex NodeCounts) :
    ((censusRows g m length groups).map Prod.fst).Nodup := by
  have hworker : ∀ w ∈ censusWorkers g m length groups,
      (w.2.items.map Prod.fst).Nodup ∧ ∀ row ∈ w.2.items, row.1.tokens.head? = some w.1 := by
    intro w hw
    obtain ⟨⟨label, nodes⟩, -, rfl⟩ := List.mem_map.1 hw
    exact censusWorker_spec length label nodes
  unfold censusRows
  rw [List.map_flatMap, List.nodup_flatMap]
  refine ⟨fun w hw => (hworker w hw).1, ?_⟩
  refine (List.pairwise_map.1 (nodup_censusWorkers length groups)).imp_of_mem fun hw hw' hne => ?_
  intro p hp hp'
  obtain ⟨row, hrow, rfl⟩ := List.mem_map.1 hp
  obtain ⟨row', hrow', hsame⟩ := List.mem_map.1 hp'
  apply hne
  -- the path begins with the labels of both workers
  have hlabel := (hworker _ hw).2 row hrow
  have hlabel' := (hworker _ hw').2 row' hrow'
  rw [hsame, hlabel] at hlabel'
  exact Option.some.inj hlabel'

end LabelWalks
