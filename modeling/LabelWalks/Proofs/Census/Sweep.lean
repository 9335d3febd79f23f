/-
  LabelWalks.Proofs.Census.Sweep
  ──────────────────────────────
  **WHAT ONE WORKER OF A CENSUS COUNTS.**

  A worker goes through frontiers level by level; here each frontier is followed
  by itself.  The ends of a frontier are a list with one node for each walk, and
  a hop takes the list to the ends of all walks one hop longer, so the rows of a
  worker are told by the sequences of hops that some walk crosses.

    • `mem_children_iff` — one frontier and those one hop on,
    • `mem_sweep` — the rows of all levels,
    • `reports_iff` — the same by sequences of hops,
    • `length_endsAlong`, `mem_endsAlong` — the walks over a sequence of hops.
-/
import LabelWalks.Proofs.Census.Tally

namespace LabelWalks

variable {g : GraphView} {m : Mapping} {ends : List NodeId}

/-! ## §1. One frontier. -/

theorem frontierArrivals_items {f : Frontier} (h : (f.arrivals g m).halt = none) :
    (f.arrivals g m).items = countedSteps g m f.nodes := by
  unfold Frontier.arrivals at h ⊢
  rw [Trail.each_items _ _ h]
  unfold countedSteps
  refine List.flatMap_congr fun row hrow => ?_
  have hhalt : ((arrivals g m row.1).map fun a => (a, row.2)).halt = none :=
    (Trail.each_halt_eq_none _ _).1 h row hrow
  rw [Trail.map_halt, arrivals_halt_eq_none] at hhalt
  rw [Trail.map_items, arrivals_items hhalt]

/-- A frontier that can be grown: its children are the groups of its counted steps. -/
theorem grow_eq_ok {f : Frontier} {children : List Frontier} (h : f.grow g m = .ok children) :
    children = (groupCounts (countedSteps g m f.nodes)).toList.map fun row =>
      ⟨f.path.extend row.1.edge row.1.node, row.2⟩ := by
  unfold Frontier.grow at h
  cases hsettled : (f.arrivals g m).settled with
  | error halt =>
      rw [hsettled] at h
      cases h
  | ok as =>
      obtain ⟨hhalt, hitems⟩ := (Trail.settled_eq_ok_iff _ _).1 hsettled
      rw [hsettled] at h
      injection h with h
      rw [← h, ← hitems, frontierArrivals_items hhalt]

/-- **The children of a frontier** tally the walks that go on, one child for each hop. -/
theorem mem_children_iff {f : Frontier} {children : List Frontier}
    (h : f.grow g m = .ok children) (hends : Tallies f.nodes ends) {child : Frontier} :
    child ∈ children ↔ ∃ hop, endsOver g m hop ends ≠ []
      ∧ child.path = f.path.extend hop.edge hop.node
      ∧ Tallies child.nodes (endsOver g m hop ends) := by
  rw [grow_eq_ok h, List.mem_map]
  constructor
  · intro hchild
    obtain ⟨⟨hop, nodes⟩, hrow, hchild⟩ := hchild
    obtain ⟨hne, hnodes⟩ := (mem_toList_groupCounts_countedSteps hends).1 hrow
    rw [← hchild]
    exact ⟨hop, hne, rfl, hnodes⟩
  · intro hchild
    obtain ⟨hop, hne, hpath, hnodes⟩ := hchild
    refine ⟨(hop, child.nodes), (mem_toList_groupCounts_countedSteps hends).2 ⟨hne, hnodes⟩, ?_⟩
    show (⟨f.path.extend hop.edge hop.node, child.nodes⟩ : Frontier) = child
    rw [← hpath]

/-! ## §2. All levels. -/

/-- All frontiers within some hops of one can be grown. -/
def Grown (g : GraphView) (m : Mapping) : Nat → Frontier → Prop
  | 0, _ => True
  | k + 1, f => ∃ children, f.grow g m = .ok children ∧ ∀ child ∈ children, Grown g m k child

/-- The row is that of the frontier or of one within some hops of it. -/
def Reports (g : GraphView) (m : Mapping) : Nat → Frontier → PathCount → Prop
  | 0, f, row => row = (f.path, f.total)
  | k + 1, f, row => row = (f.path, f.total)
    ∨ ∃ children, f.grow g m = .ok children ∧ ∃ child ∈ children, Reports g m k child row

theorem visit_halt_eq_none {f : Frontier} :
    (visit g m f).halt = none ↔ ∃ children, f.grow g m = .ok children := by
  unfold visit
  cases f.grow g m with
  | ok children => simp
  | error halt => simp

/-- Visits without a halt give each frontier with its children. -/
theorem mem_visits {level : List Frontier} (h : (Trail.each (visit g m) level).halt = none)
    {f : Frontier} {children : List Frontier} :
    (f, children) ∈ (Trail.each (visit g m) level).items ↔
      f ∈ level ∧ f.grow g m = .ok children := by
  rw [Trail.mem_each_items _ _ h]
  have hvisit : ∀ f' ∈ level, (f, children) ∈ (visit g m f').items ↔
      f = f' ∧ f'.grow g m = .ok children := by
    intro f' hf'
    obtain ⟨children', hgrow⟩ := visit_halt_eq_none.1 ((Trail.each_halt_eq_none _ _).1 h f' hf')
    unfold visit
    rw [hgrow]
    simp [eq_comm]
  constructor
  · intro hmem
    obtain ⟨f', hf', hitem⟩ := hmem
    obtain ⟨rfl, hgrow⟩ := (hvisit f' hf').1 hitem
    exact ⟨hf', hgrow⟩
  · intro hmem
    exact ⟨f, hmem.1, (hvisit f hmem.1).2 ⟨rfl, hmem.2⟩⟩

theorem sweep_succ (k : Nat) (level : List Frontier) :
    sweep g m (k + 1) level =
      ((Trail.each (visit g m) level).map fun (f, _) => (f.path, f.total)).andThen fun _ =>
        sweep g m k ((Trail.each (visit g m) level).items.flatMap Prod.snd) := rfl

/-- The next level has the children of the frontiers of a level. -/
theorem mem_nextLevel {level : List Frontier} (h : (Trail.each (visit g m) level).halt = none)
    {child : Frontier} :
    child ∈ (Trail.each (visit g m) level).items.flatMap Prod.snd ↔
      ∃ f ∈ level, ∃ children, f.grow g m = .ok children ∧ child ∈ children := by
  simp only [List.mem_flatMap, Prod.exists, mem_visits h]
  constructor
  · intro hchild
    obtain ⟨f, children, ⟨hf, hgrow⟩, hmem⟩ := hchild
    exact ⟨f, hf, children, hgrow, hmem⟩
  · intro hchild
    obtain ⟨f, hf, children, hgrow, hmem⟩ := hchild
    exact ⟨f, children, ⟨hf, hgrow⟩, hmem⟩

/-- A level gives the rows of its own frontiers. -/
theorem mem_levelRows {level : List Frontier} (h : (Trail.each (visit g m) level).halt = none)
    {row : PathCount} :
    row ∈ ((Trail.each (visit g m) level).map fun (f, _) => (f.path, f.total)).items ↔
      ∃ f ∈ level, row = (f.path, f.total) := by
  rw [Trail.map_items]
  simp only [List.mem_map, Prod.exists, mem_visits h]
  constructor
  · intro hrow
    obtain ⟨f, children, ⟨hf, -⟩, hrow⟩ := hrow
    exact ⟨f, hf, hrow.symm⟩
  · intro hrow
    obtain ⟨f, hf, hrow⟩ := hrow
    -- a frontier that was visited has children, if only none
    obtain ⟨children, hgrow⟩ := visit_halt_eq_none.1 ((Trail.each_halt_eq_none _ _).1 h f hf)
    exact ⟨f, children, ⟨hf, hgrow⟩, hrow.symm⟩

/-- **The rows of a worker** that does not halt: all frontiers could be grown, and each
row is that of some frontier. -/
theorem mem_sweep (k : Nat) :
    ∀ {level : List Frontier}, (sweep g m k level).halt = none →
      (∀ f ∈ level, Grown g m k f)
        ∧ ∀ row, row ∈ (sweep g m k level).items ↔ ∃ f ∈ level, Reports g m k f row := by
  -- on the levels that are left; the whole level is told, as all its frontiers go on at once
  induction k with
  | zero =>
      intro level _
      refine ⟨fun f _ => trivial, fun row => ?_⟩
      show row ∈ level.map (fun f => (f.path, f.total)) ↔ _
      simp only [List.mem_map, Reports]
      exact exists_congr fun f => and_congr_right fun _ => eq_comm
  | succ k ih =>
      intro level h
      rw [sweep_succ] at h ⊢
      obtain ⟨hfirst, hrest⟩ := (Trail.andThen_halt_eq_none _ _).1 h
      have hvisits : (Trail.each (visit g m) level).halt = none := hfirst
      obtain ⟨hgrown, hrows⟩ := ih hrest
      refine ⟨fun f hf => ?_, fun row => ?_⟩
      · obtain ⟨children, hchildren⟩ :=
          visit_halt_eq_none.1 ((Trail.each_halt_eq_none _ _).1 hvisits f hf)
        refine ⟨children, hchildren, fun child hmem => hgrown child ?_⟩
        exact (mem_nextLevel hvisits).2 ⟨f, hf, children, hchildren, hmem⟩
      · rw [Trail.andThen_items _ _ hfirst, List.mem_append, mem_levelRows hvisits, hrows]
        simp only [mem_nextLevel hvisits, Reports]
        constructor
        · intro hrow
          rcases hrow with ⟨f, hf, hrow⟩ | ⟨child, ⟨f, hf, children, hchildren, hmem⟩, hrow⟩
          · exact ⟨f, hf, .inl hrow⟩
          · exact ⟨f, hf, .inr ⟨children, hchildren, child, hmem, hrow⟩⟩
        · intro hrow
          obtain ⟨f, hf, hrow | ⟨children, hchildren, child, hmem, hrow⟩⟩ := hrow
          · exact .inl ⟨f, hf, hrow⟩
          · exact .inr ⟨child, ⟨f, hf, children, hchildren, hmem⟩, hrow⟩

/-! ## §3. Sequences of hops. -/

/-- The nodes at which walks end that go on over a sequence of hops. -/
def endsAlong (g : GraphView) (m : Mapping) : List Hop → List NodeId → List NodeId
  | [], ends => ends
  | hop :: hops, ends => endsAlong g m hops (endsOver g m hop ends)

theorem endsAlong_nil_ends (hops : List Hop) : endsAlong g m hops [] = [] := by
  induction hops with
  | nil => rfl
  | cons hop hops ih => exact ih

/-- The row of a frontier is that of the empty sequence of hops. -/
theorem eq_row_iff {f : Frontier} (hends : Tallies f.nodes ends) {row : PathCount} :
    row = (f.path, f.total) ↔
      row.1.tokens = f.path.tokens ++ ([] : List Hop).flatMap Hop.tokens
        ∧ row.2 = min (endsAlong g m [] ends).length maxCount := by
  rw [List.flatMap_nil, List.append_nil, endsAlong, ← hends.total_eq]
  constructor
  · intro hrow
    rw [hrow]
    exact ⟨rfl, rfl⟩
  · intro hrow
    exact Prod.ext (MetaPath.ext hrow.1) hrow.2

/-- The rows below a frontier that can be grown: its own, and those below its children. -/
theorem reports_succ_iff {k : Nat} {f : Frontier} {children : List Frontier}
    (hgrow : f.grow g m = .ok children) {row : PathCount} :
    Reports g m (k + 1) f row ↔
      row = (f.path, f.total) ∨ ∃ child ∈ children, Reports g m k child row := by
  show (row = (f.path, f.total) ∨ ∃ children, f.grow g m = .ok children
    ∧ ∃ child ∈ children, Reports g m k child row) ↔ _
  refine or_congr_right ?_
  simp only [hgrow, Except.ok.injEq, exists_eq_left']

/-- **The rows below a frontier**: one for each sequence of hops that some walk crosses,
with the number of those walks, cut at the bound. -/
theorem reports_iff (k : Nat) :
    ∀ {f : Frontier} {ends : List NodeId}, Grown g m k f → Tallies f.nodes ends → ends ≠ [] →
      ∀ {row : PathCount}, Reports g m k f row ↔
        ∃ hops : List Hop, hops.length ≤ k ∧ endsAlong g m hops ends ≠ []
          ∧ row.1.tokens = f.path.tokens ++ hops.flatMap Hop.tokens
          ∧ row.2 = min (endsAlong g m hops ends).length maxCount := by
  -- on the levels that are left; what is kept is that the frontier tallies the ends
  induction k with
  | zero =>
      intro f ends _ hends hne row
      show row = (f.path, f.total) ↔ _
      rw [eq_row_iff hends]
      constructor
      · intro hrow
        exact ⟨[], Nat.le_refl _, hne, hrow⟩
      · intro hrow
        obtain ⟨hops, hlen, -, hrow⟩ := hrow
        rw [List.length_eq_zero_iff.1 (Nat.le_zero.1 hlen)] at hrow
        exact hrow
  | succ k ih =>
      intro f ends hgrown hends hne row
      obtain ⟨children, hgrow, hchildren⟩ := hgrown
      rw [reports_succ_iff hgrow, eq_row_iff hends]
      constructor
      · intro hrow
        rcases hrow with hrow | ⟨child, hchild, hrow⟩
        · exact ⟨[], Nat.zero_le _, hne, hrow⟩
        · obtain ⟨hop, hover, hpath, hnodes⟩ := (mem_children_iff hgrow hends).1 hchild
          obtain ⟨hops, hlen, hne', htokens, hcount⟩ :=
            (ih (hchildren child hchild) hnodes hover).1 hrow
          refine ⟨hop :: hops, Nat.succ_le_succ hlen, hne', ?_, hcount⟩
          rw [htokens, hpath, MetaPath.tokens_extend, List.append_assoc]
          rfl
      · intro hrow
        obtain ⟨hops, hlen, hne', htokens, hcount⟩ := hrow
        cases hops with
        | nil => exact .inl ⟨htokens, hcount⟩
        | cons hop hops =>
            -- a walk that crosses the whole sequence crosses its first hop
            have hover : endsOver g m hop ends ≠ [] := by
              intro hnil
              apply hne'
              show endsAlong g m hops (endsOver g m hop ends) = []
              rw [hnil, endsAlong_nil_ends]
            obtain ⟨nodes, hnodes⟩ := exists_tallies (endsOver g m hop ends)
            have hchild : ⟨f.path.extend hop.edge hop.node, nodes⟩ ∈ children :=
              (mem_children_iff hgrow hends).2 ⟨hop, hover, rfl, hnodes⟩
            refine .inr ⟨_, hchild, (ih (hchildren _ hchild) hnodes hover).2 ?_⟩
            refine ⟨hops, Nat.le_of_succ_le_succ hlen, hne', ?_, hcount⟩
            rw [htokens, MetaPath.tokens_extend, List.append_assoc]
            rfl

/-! ## §4. Walks over a sequence of hops. -/

theorem mem_endsAlong (hops : List Hop) :
    ∀ {ends : List NodeId} {w : NodeId}, w ∈ endsAlong g m hops ends ↔
      ∃ v ∈ ends, ∃ as, IsWalk g m v as ∧ as.map Arrival.hop = hops ∧ endOf v as = w := by
  -- on the hops; the ends of the first one are the starts of what is left
  induction hops with
  | nil =>
      intro ends w
      show w ∈ ends ↔ _
      constructor
      · intro hw
        exact ⟨w, hw, [], .stay w, rfl, rfl⟩
      · intro hw
        obtain ⟨v, hv, as, -, hhops, hend⟩ := hw
        rw [List.map_eq_nil_iff.1 hhops] at hend
        rw [← hend]
        exact hv
  | cons hop hops ih =>
      intro ends w
      show w ∈ endsAlong g m hops (endsOver g m hop ends) ↔ _
      rw [ih]
      constructor
      · intro hw
        obtain ⟨u, hu, as, hwalk, hhops, hend⟩ := hw
        obtain ⟨v, hv, hfirst⟩ := mem_endsOver.1 hu
        refine ⟨v, hv, ⟨hop, u⟩ :: as, .step hfirst hwalk, ?_, hend⟩
        rw [List.map_cons, hhops]
      · intro hw
        obtain ⟨v, hv, as, hwalk, hhops, hend⟩ := hw
        obtain ⟨a, rest, rfl, rfl, hrest⟩ := List.map_eq_cons_iff.1 hhops
        obtain ⟨hfirst, hwalk⟩ := isWalk_cons.1 hwalk
        exact ⟨a.node, mem_endsOver.2 ⟨v, hv, hfirst⟩, rest, hwalk, hrest, hend⟩

/-- The walks over a hop and then over others, counted by the first arrival. -/
theorem countP_walksFrom_cons (hop : Hop) (hops : List Hop) (v : NodeId) :
    (walksFrom g m (hops.length + 1) v).countP (fun as => as.map Arrival.hop = hop :: hops) =
      ((((stepsFrom g m v).filter fun a => a.hop = hop).map Arrival.node).map fun u =>
        (walksFrom g m hops.length u).countP fun as => as.map Arrival.hop = hops).sum := by
  show ((stepsFrom g m v).flatMap fun a =>
    (walksFrom g m hops.length a.node).map (a :: ·)).countP _ = _
  -- arrival by arrival: those over another hop begin no walk that counts
  induction stepsFrom g m v with
  | nil => rfl
  | cons a as ih =>
      rw [List.flatMap_cons, List.countP_append, ih, List.countP_map]
      by_cases ha : a.hop = hop
      · have hkeep : (a :: as).filter (fun a => a.hop = hop) =
            a :: as.filter fun a => a.hop = hop := List.filter_cons_of_pos (by simp [ha])
        rw [hkeep, List.map_cons, List.map_cons, List.sum_cons]
        refine congrArg (· + _) (List.countP_congr fun bs _ => ?_)
        simp [ha]
      · have hdrop : (a :: as).filter (fun a => a.hop = hop) =
            as.filter fun a => a.hop = hop := List.filter_cons_of_neg (by simp [ha])
        have hnone : (walksFrom g m hops.length a.node).countP
            ((fun as => decide (as.map Arrival.hop = hop :: hops)) ∘ fun bs => a :: bs) = 0 := by
          rw [List.countP_eq_zero]
          intro bs _
          simp [ha]
        rw [hdrop, hnone, Nat.zero_add]

/-- **The number of walks over a sequence of hops** is the number of their ends. -/
theorem length_endsAlong (hops : List Hop) :
    ∀ ends : List NodeId, (endsAlong g m hops ends).length =
      (ends.map fun v => (walksFrom g m hops.length v).countP fun as =>
        as.map Arrival.hop = hops).sum := by
  induction hops with
  | nil =>
      intro ends
      show ends.length = (ends.map fun _ => 1).sum
      rw [List.map_const', List.sum_replicate_nat, Nat.mul_one]
  | cons hop hops ih =>
      intro ends
      show (endsAlong g m hops (endsOver g m hop ends)).length = _
      rw [ih]
      unfold endsOver
      rw [List.map_flatMap, List.flatMap, List.sum_flatten, List.map_map]
      refine congrArg List.sum (List.map_congr_left fun v _ => ?_)
      exact (countP_walksFrom_cons hop hops v).symm

end LabelWalks
