/-
  LabelWalks.Proofs.Reversal.Walk
  ───────────────────────────────
  **WALKS READ BACKWARDS.**

  Two graphs mirror each other when each entry from one node to another has an
  entry with the same label the other way round in the other graph.  A walk
  through the first graph can be taken back through the second, over as many
  choices of entries as there were on the way.  A hop names the label behind the
  edge, so taken back it names the label before it: only the label of the start
  is not told by the walk itself.

    • `Mirrored` — the relation of the two graphs,
    • `ways` — how many walks of all that are listed look like one walk,
    • `back`, `back_back`, `reverse_trace` — a walk and its labels backwards,
    • `Mirrored.ways_back`, `Mirrored.isWalk_back` — the walk back,
    • `Mirrored.walkCount_reverse`, `Mirrored.counted_reverse` — all walks of a path.
-/
import LabelWalks.Proofs.Agreement

namespace LabelWalks

/-! ## §1. Two graphs. -/

/-- The labels of the entries that lead from one node to another. -/
def GraphView.labelsBetween (g : GraphView) (v w : NodeId) : List (Option Label) :=
  match g.adjacentEdges v with
  | .ok entries => (entries.filter fun entry => entry.1 = w).map Prod.snd
  | .error _ => []

/-- The graphs have the same nodes with the same labels, and what leads from one node to
another in the first leads back in the second. -/
structure Mirrored (g g' : GraphView) : Prop where
  nodeIds : ∀ v, v ∈ g'.nodeIds ↔ v ∈ g.nodeIds
  labelOf : ∀ v, g'.labelOf v = g.labelOf v
  listed : g.Listed
  crossed : ∀ v w, (g'.labelsBetween w v).Perm (g.labelsBetween v w)

/-- The path from its end to its start. -/
def MetaPath.reverse (p : MetaPath) : MetaPath :=
  ⟨p.tokens.reverse, by rw [List.length_reverse]; exact p.odd⟩

@[simp]
theorem MetaPath.tokens_reverse (p : MetaPath) : p.reverse.tokens = p.tokens.reverse := rfl

@[simp]
theorem MetaPath.reverse_reverse (p : MetaPath) : p.reverse.reverse = p := by
  ext1
  show p.tokens.reverse.reverse = p.tokens
  exact List.reverse_reverse _

variable {g g' : GraphView} {m : Mapping}

/-! ## §2. In how many ways. -/

/-- The number of choices of entries for a walk: each arrival is over as many as there are
arrivals like it. -/
def ways (g : GraphView) (m : Mapping) : NodeId → List Arrival → Nat
  | _, [] => 1
  | v, a :: as => (stepsFrom g m v).count a * ways g m a.node as

theorem ways_append (as bs : List Arrival) :
    ∀ v, ways g m v (as ++ bs) = ways g m v as * ways g m (endOf v as) bs := by
  induction as with
  | nil => intro v; exact (Nat.one_mul _).symm
  | cons a as ih =>
      intro v
      show (stepsFrom g m v).count a * ways g m a.node (as ++ bs) = _
      rw [ih, ← Nat.mul_assoc]
      rfl

/-- A walk can be taken in some way, and nothing else can. -/
theorem ways_ne_zero_iff {as : List Arrival} : ∀ {v : NodeId}, ways g m v as ≠ 0 ↔ IsWalk g m v as := by
  induction as with
  | nil =>
      intro v
      exact ⟨fun _ => .stay v, fun _ => Nat.one_ne_zero⟩
  | cons a as ih =>
      intro v
      show (stepsFrom g m v).count a * ways g m a.node as ≠ 0 ↔ _
      rw [Nat.mul_ne_zero_iff, ih, isWalk_cons, ← mem_stepsFrom, ← List.count_pos_iff,
        Nat.pos_iff_ne_zero]

/-- A value that counts for one member counts as often as that member comes. -/
theorem sum_map_ite_eq {α : Type} [DecidableEq α] (a : α) (n : Nat) (xs : List α) :
    (xs.map fun x => if x = a then n else 0).sum = xs.count a * n := by
  induction xs with
  | nil => exact (Nat.zero_mul n).symm
  | cons x xs ih =>
      rw [List.map_cons, List.sum_cons, ih, List.count_cons]
      by_cases hx : x = a
      · simp only [hx, if_true, beq_self_eq_true, Nat.add_mul, Nat.one_mul]
        omega
      · simp [hx]

/-- **A walk comes in the list of all walks** once for each choice of entries. -/
theorem count_walksFrom (as : List Arrival) :
    ∀ v, (walksFrom g m as.length v).count as = ways g m v as := by
  induction as with
  | nil => intro v; rfl
  | cons a as ih =>
      intro v
      show ((stepsFrom g m v).flatMap fun b =>
        (walksFrom g m as.length b.node).map (b :: ·)).count (a :: as) = _
      rw [List.count_flatMap]
      -- the walks that begin with another arrival are other walks
      have hfirst : ∀ b ∈ stepsFrom g m v,
          ((walksFrom g m as.length b.node).map (b :: ·)).count (a :: as)
            = if b = a then ways g m a.node as else 0 := by
        intro b _
        by_cases hb : b = a
        · rw [if_pos hb, hb, ← ih]
          exact List.count_map_of_injective _ _ List.cons_injective _
        · rw [if_neg hb]
          refine List.count_eq_zero_of_not_mem fun hmem => ?_
          obtain ⟨bs, -, hcons⟩ := List.mem_map.1 hmem
          exact hb (List.cons.inj hcons).1
      show ((stepsFrom g m v).map fun b =>
        ((walksFrom g m as.length b.node).map (b :: ·)).count (a :: as)).sum = _
      rw [List.map_congr_left hfirst, sum_map_ite_eq]
      rfl

/-! ## §3. One walk backwards. -/

/-- A walk from `v`, which has the label, taken back from its end. -/
def back : NodeId → LabelIndex → List Arrival → List Arrival
  | _, _, [] => []
  | v, label, a :: as => back a.node a.hop.node as ++ [⟨⟨a.hop.edge, label⟩, v⟩]

/-- The last label of a walk that starts at a label. -/
def endLabel : LabelIndex → List Arrival → LabelIndex
  | label, [] => label
  | _, a :: as => endLabel a.hop.node as

theorem length_back (as : List Arrival) : ∀ v label, (back v label as).length = as.length := by
  induction as with
  | nil => intro v label; rfl
  | cons a as ih =>
      intro v label
      show (back a.node a.hop.node as ++ [_]).length = _
      rw [List.length_append, ih]
      rfl

/-- The walk back ends at the start. -/
theorem endOf_back (as : List Arrival) (v : NodeId) (label : LabelIndex) :
    endOf (endOf v as) (back v label as) = v := by
  cases as with
  | nil => rfl
  | cons a as =>
      show endOf _ (back a.node a.hop.node as ++ [_]) = v
      rw [endOf_append]
      rfl

theorem endLabel_append (as bs : List Arrival) :
    ∀ label, endLabel label (as ++ bs) = endLabel (endLabel label as) bs := by
  induction as with
  | nil => intro label; rfl
  | cons a as ih => intro label; exact ih a.hop.node

theorem endLabel_back (as : List Arrival) (v : NodeId) (label : LabelIndex) :
    endLabel (endLabel label as) (back v label as) = label := by
  cases as with
  | nil => rfl
  | cons a as =>
      show endLabel _ (back a.node a.hop.node as ++ [_]) = label
      rw [endLabel_append]
      rfl

theorem back_append (as bs : List Arrival) :
    ∀ v label, back v label (as ++ bs)
      = back (endOf v as) (endLabel label as) bs ++ back v label as := by
  induction as with
  | nil => intro v label; exact (List.append_nil _).symm
  | cons a as ih =>
      intro v label
      show back a.node a.hop.node (as ++ bs) ++ [_] = _
      rw [ih, List.append_assoc]
      rfl

/-- **There and back again** is the walk itself. -/
theorem back_back (as : List Arrival) :
    ∀ v label, back (endOf v as) (endLabel label as) (back v label as) = as := by
  induction as with
  | nil => intro v label; rfl
  | cons a as ih =>
      intro v label
      show back (endOf a.node as) (endLabel a.hop.node as)
        (back a.node a.hop.node as ++ [⟨⟨a.hop.edge, label⟩, v⟩]) = a :: as
      rw [back_append, ih, endOf_back, endLabel_back]
      rfl

/-- **The labels of the walk back** are those of the walk from the end. -/
theorem reverse_trace (as : List Arrival) :
    ∀ v label, (label :: hopTokens as).reverse
      = endLabel label as :: hopTokens (back v label as) := by
  induction as with
  | nil => intro v label; rfl
  | cons a as ih =>
      intro v label
      have htokens : label :: hopTokens (a :: as) =
          [label, a.hop.edge] ++ (a.hop.node :: hopTokens as) := rfl
      rw [htokens, List.reverse_append, ih a.node]
      show endLabel a.hop.node as :: (hopTokens (back a.node a.hop.node as) ++ _) = _ :: hopTokens
        (back a.node a.hop.node as ++ [_])
      rw [hopTokens_append]
      rfl

/-- A walk ends at a node with its last label. -/
theorem IsWalk.indexOfNode_endOf {v : NodeId} {as : List Arrival} (hwalk : IsWalk g m v as) :
    ∀ {label}, m.indexOfNode g v = .ok label →
      m.indexOfNode g (endOf v as) = .ok (endLabel label as) := by
  induction hwalk with
  | stay v => intro label hlabel; exact hlabel
  | step first rest ih =>
      intro label _
      obtain ⟨entries, -, -, -, -, hnode⟩ := first
      exact ih hnode

/-! ## §4. The mirror. -/

/-- An entry leads over the edge to a node with a label when it names the edge and the node. -/
theorem toOption_over_eq_some_iff {v w : NodeId} {edge node : LabelIndex}
    (hw : m.indexOfNode g w = .ok node) (entry : NodeId × Option Label) :
    (Arrival.over g m v entry).toOption = some ⟨⟨edge, node⟩, w⟩ ↔
      entry.2.bind (fun label => (m.edgeIndex label).toOption) = some edge ∧ entry.1 = w := by
  rw [toOption_eq_some_iff, over_eq_ok_iff]
  simp only [Option.bind_eq_some_iff, toOption_eq_some_iff, hw, and_true]
  constructor
  · intro h
    obtain ⟨label, rfl, hedge⟩ := h
    exact ⟨⟨label, rfl, hedge⟩, rfl⟩
  · intro h
    obtain ⟨⟨label, hsnd, hedge⟩, hfst⟩ := h
    exact ⟨label, Prod.ext hfst hsnd, hedge⟩

/-- The arrivals over a hop at a node are those entries whose label is that of the hop. -/
theorem count_stepsFrom {v w : NodeId} {edge node : LabelIndex} (hw : m.indexOfNode g w = .ok node) :
    (stepsFrom g m v).count ⟨⟨edge, node⟩, w⟩ = (g.labelsBetween v w).countP fun label? =>
      label?.bind (fun label => (m.edgeIndex label).toOption) = some edge := by
  unfold stepsFrom GraphView.labelsBetween
  cases g.adjacentEdges v with
  | error breakdown => rfl
  | ok entries =>
      show (entries.filterMap _).count _ = ((entries.filter _).map Prod.snd).countP _
      rw [List.count, List.countP_filterMap, List.countP_map, List.countP_filter]
      refine List.countP_congr fun entry _ => ?_
      -- entry by entry the two questions have the same answer
      have hover : (Arrival.over g m v entry).toOption = some ⟨⟨edge, node⟩, w⟩ ↔ _ :=
        toOption_over_eq_some_iff hw entry
      cases harrival : (Arrival.over g m v entry).toOption with
      | none =>
          rw [harrival] at hover
          simpa using hover
      | some a =>
          rw [harrival, Option.some.injEq] at hover
          simpa using hover

namespace Mirrored

variable (h : Mirrored g g')
include h

theorem symm : Mirrored g' g where
  nodeIds v := (h.nodeIds v).symm
  labelOf v := (h.labelOf v).symm
  listed v label hlabel := by
    rw [h.nodeIds]
    rw [h.labelOf] at hlabel
    exact h.listed v label hlabel
  crossed v w := (h.crossed w v).symm

theorem indexOfNode_eq (v : NodeId) : m.indexOfNode g' v = m.indexOfNode g v := by
  unfold Mapping.indexOfNode
  rw [h.labelOf]

/-- **One hop back**: over an edge there are as many arrivals from its end as from its start. -/
theorem count_stepsFrom_eq {v w : NodeId} {edge label node : LabelIndex}
    (hv : m.indexOfNode g v = .ok label) (hw : m.indexOfNode g w = .ok node) :
    (stepsFrom g' m w).count ⟨⟨edge, label⟩, v⟩ = (stepsFrom g m v).count ⟨⟨edge, node⟩, w⟩ := by
  have hv' : m.indexOfNode g' v = .ok label := by rw [h.indexOfNode_eq, hv]
  rw [count_stepsFrom hv', count_stepsFrom hw]
  exact (h.crossed v w).countP_eq _

/-- **A walk can be taken back** in as many ways as it can be taken. -/
theorem ways_back {v : NodeId} {as : List Arrival} (hwalk : IsWalk g m v as) :
    ∀ {label}, m.indexOfNode g v = .ok label →
      ways g' m (endOf v as) (back v label as) = ways g m v as := by
  -- on the walk; its first hop is the last one on the way back
  induction hwalk with
  | stay v => intro label _; rfl
  | @step v a as first rest ih =>
      intro label hv
      obtain ⟨entries, -, -, -, -, hnode⟩ := first
      show ways g' m (endOf a.node as) (back a.node a.hop.node as ++ [⟨⟨a.hop.edge, label⟩, v⟩])
        = (stepsFrom g m v).count a * ways g m a.node as
      rw [ways_append, ih hnode, endOf_back]
      show _ * ((stepsFrom g' m a.node).count ⟨⟨a.hop.edge, label⟩, v⟩ * 1) = _
      rw [h.count_stepsFrom_eq hv hnode, Nat.mul_one, Nat.mul_comm]

/-- **The walk back is a walk.** -/
theorem isWalk_back {v : NodeId} {label : LabelIndex} {as : List Arrival}
    (hv : m.indexOfNode g v = .ok label) (hwalk : IsWalk g m v as) :
    IsWalk g' m (endOf v as) (back v label as) := by
  rw [← ways_ne_zero_iff, h.ways_back hwalk hv]
  exact ways_ne_zero_iff.2 hwalk

theorem traceOf_back {v : NodeId} {label : LabelIndex} {as : List Arrival} {p : MetaPath}
    (hwalk : IsWalk g m v as) (hv : m.indexOfNode g v = .ok label)
    (hp : p.tokens = label :: hopTokens as) :
    traceOf g' m (endOf v as) (back v label as) = some p.reverse.tokens := by
  rw [traceOf_eq_some_iff]
  refine ⟨endLabel label as, ?_, ?_⟩
  · rw [h.indexOfNode_eq]
    exact hwalk.indexOfNode_endOf hv
  · rw [MetaPath.tokens_reverse, hp]
    exact reverse_trace as v label

end Mirrored

/-! ## §5. All walks of a path. -/

/-- The arrivals of a walk with the node where it starts. -/
structure Journey where
  start : NodeId
  arrivals : List Arrival
  deriving DecidableEq

/-- The walks of a path. -/
def walksOf (g : GraphView) (m : Mapping) (p : MetaPath) : List Journey :=
  g.nodeIds.eraseDups.flatMap fun v =>
    ((walksFrom g m p.hops v).filter fun as => traceOf g m v as = some p.tokens).map (Journey.mk v)

/-- A walk of a path is as long as the path. -/
theorem length_of_traceOf {p : MetaPath} {v : NodeId} {as : List Arrival}
    (htrace : traceOf g m v as = some p.tokens) : as.length = p.hops := by
  obtain ⟨label, -, htokens⟩ := traceOf_eq_some_iff.1 htrace
  unfold MetaPath.hops
  rw [htokens, List.length_cons, length_hopTokens]
  omega

theorem length_walksOf (p : MetaPath) : (walksOf g m p).length = walkCount g m p := by
  unfold walksOf walkCount
  rw [List.length_flatMap]
  refine congrArg List.sum (List.map_congr_left fun v _ => ?_)
  rw [List.length_map, List.countP_eq_length_filter]

theorem mem_walksOf {p : MetaPath} {v : NodeId} {as : List Arrival} :
    ⟨v, as⟩ ∈ walksOf g m p ↔
      v ∈ g.nodeIds ∧ IsWalk g m v as ∧ traceOf g m v as = some p.tokens := by
  unfold walksOf
  simp only [List.mem_flatMap, List.mem_eraseDups, List.mem_map, List.mem_filter, mem_walksFrom,
    decide_eq_true_eq, Journey.mk.injEq]
  constructor
  · intro h
    obtain ⟨v, hv, as, ⟨⟨hwalk, -⟩, htrace⟩, rfl, rfl⟩ := h
    exact ⟨hv, hwalk, htrace⟩
  · intro h
    obtain ⟨hv, hwalk, htrace⟩ := h
    exact ⟨v, hv, as, ⟨⟨hwalk, length_of_traceOf htrace⟩, htrace⟩, rfl, rfl⟩

/-- A path of a census has a walk. -/
theorem counted_iff_walkCount {length : PathLength} {p : MetaPath} :
    Counted g m length p ↔ p.tokens.length ≤ 2 * length.nodes - 1 ∧ walkCount g m p ≠ 0 := by
  refine and_congr_right fun _ => ?_
  rw [← length_walksOf, ← Nat.pos_iff_ne_zero, List.length_pos_iff_exists_mem]
  constructor
  · intro h
    obtain ⟨v, hv, as, hwalk, htrace⟩ := h
    exact ⟨⟨v, as⟩, mem_walksOf.2 ⟨hv, hwalk, htrace⟩⟩
  · intro h
    obtain ⟨⟨v, as⟩, hmem⟩ := h
    obtain ⟨hv, hwalk, htrace⟩ := mem_walksOf.1 hmem
    exact ⟨v, hv, as, hwalk, htrace⟩

/-- A walk of the path is listed once for each choice of entries. -/
theorem count_walksOf {p : MetaPath} {v : NodeId} {as : List Arrival}
    (hmem : ⟨v, as⟩ ∈ walksOf g m p) : (walksOf g m p).count ⟨v, as⟩ = ways g m v as := by
  obtain ⟨hv, hwalk, htrace⟩ := mem_walksOf.1 hmem
  unfold walksOf
  rw [List.count_flatMap, ← length_of_traceOf htrace]
  -- the walks from another node are other walks, and each node is gone through once
  have hstart : ∀ u ∈ g.nodeIds.eraseDups, (List.count (Journey.mk v as) ∘ fun u =>
      ((walksFrom g m as.length u).filter fun as => traceOf g m u as = some p.tokens).map
        (Journey.mk u)) u = if u = v then ways g m v as else 0 := by
    intro u _
    show List.count (Journey.mk v as) (List.map _ _) = _
    by_cases hu : u = v
    · rw [if_pos hu, hu, ← count_walksFrom,
        List.count_map_of_injective _ _ fun _ _ hsame => (Journey.mk.inj hsame).2, List.count_filter]
      simpa using htrace
    · rw [if_neg hu]
      refine List.count_eq_zero_of_not_mem fun hpair => ?_
      obtain ⟨bs, -, hsame⟩ := List.mem_map.1 hpair
      exact hu (Journey.mk.inj hsame).1
  rw [List.map_congr_left hstart, sum_map_ite_eq,
    List.count_eq_one_of_mem (nodup_eraseDups _) (List.mem_eraseDups.2 hv), Nat.one_mul]

/-- Two lists are equally long when their members correspond and come equally often. -/
theorem length_eq_of_count {α β : Type} [DecidableEq α] [DecidableEq β] {xs : List α} {ys : List β}
    (f : α → β) (f' : β → α) (hf : ∀ x ∈ xs, f x ∈ ys ∧ f' (f x) = x)
    (hf' : ∀ y ∈ ys, f' y ∈ xs ∧ f (f' y) = y) (hcount : ∀ x ∈ xs, ys.count (f x) = xs.count x) :
    ys.length = xs.length := by
  rw [← List.sum_toFinset_count_eq_length xs, ← List.sum_toFinset_count_eq_length ys]
  symm
  refine Finset.sum_nbij' f f' ?_ ?_ ?_ ?_ ?_
  · intro x hx
    exact List.mem_toFinset.2 (hf x (List.mem_toFinset.1 hx)).1
  · intro y hy
    exact List.mem_toFinset.2 (hf' y (List.mem_toFinset.1 hy)).1
  · intro x hx
    exact (hf x (List.mem_toFinset.1 hx)).2
  · intro y hy
    exact (hf' y (List.mem_toFinset.1 hy)).2
  · intro x hx
    exact (hcount x (List.mem_toFinset.1 hx)).symm

/-- A walk from a node with the label, taken back. -/
def Journey.turn (label : LabelIndex) (j : Journey) : Journey :=
  ⟨endOf j.start j.arrivals, back j.start label j.arrivals⟩

namespace Mirrored

variable (h : Mirrored g g')
include h

/-- The walk back is a walk of the path backwards, and going back twice leads to the walk. -/
theorem turn_mem_walksOf {p : MetaPath} {j : Journey} (hmem : j ∈ walksOf g m p) :
    j.turn p.first ∈ walksOf g' m p.reverse
      ∧ (j.turn p.first).turn p.reverse.first = j
      ∧ (walksOf g' m p.reverse).count (j.turn p.first) = (walksOf g m p).count j := by
  obtain ⟨v, as⟩ := j
  obtain ⟨hv, hwalk, htrace⟩ := mem_walksOf.1 hmem
  obtain ⟨label, hlabel, htokens⟩ := traceOf_eq_some_iff.1 htrace
  have hfirst : p.first = label := by simp [MetaPath.first, htokens]
  have hlast : p.reverse.first = endLabel label as := by
    simp [MetaPath.first, htokens, reverse_trace as v label]
  have hturn : ⟨endOf v as, back v label as⟩ ∈ walksOf g' m p.reverse := by
    refine mem_walksOf.2 ⟨?_, h.isWalk_back hlabel hwalk, h.traceOf_back hwalk hlabel htokens⟩
    rw [h.nodeIds]
    exact hwalk.endOf_mem h.listed hv
  rw [hlast, hfirst]
  refine ⟨hturn, ?_, ?_⟩
  · show Journey.mk (endOf (endOf v as) (back v label as))
      (back (endOf v as) (endLabel label as) (back v label as)) = ⟨v, as⟩
    rw [endOf_back, back_back]
  · show (walksOf g' m p.reverse).count ⟨endOf v as, back v label as⟩ = _
    rw [count_walksOf hturn, count_walksOf hmem, h.ways_back hwalk hlabel]

/-- **A path has as many walks as its reversal.** -/
theorem walkCount_reverse (p : MetaPath) : walkCount g' m p.reverse = walkCount g m p := by
  rw [← length_walksOf, ← length_walksOf]
  refine length_eq_of_count (Journey.turn p.first) (Journey.turn p.reverse.first) ?_ ?_ ?_
  · intro j hj
    exact ⟨(h.turn_mem_walksOf hj).1, (h.turn_mem_walksOf hj).2.1⟩
  · intro j hj
    have hback := h.symm.turn_mem_walksOf hj
    rw [MetaPath.reverse_reverse] at hback
    exact ⟨hback.1, hback.2.1⟩
  · intro j hj
    exact (h.turn_mem_walksOf hj).2.2

/-- **The paths of a census** are the reversals of those of the other graph. -/
theorem counted_reverse {length : PathLength} {p : MetaPath} :
    Counted g' m length p.reverse ↔ Counted g m length p := by
  rw [counted_iff_walkCount, counted_iff_walkCount, h.walkCount_reverse, MetaPath.tokens_reverse,
    List.length_reverse]

/-- **Walks between two lists of nodes**: back from the second list to the first. -/
theorem exists_walk_reverse {starts ends : List NodeId} {hops : Nat} {p : MetaPath} :
    (∃ v ∈ starts, ∃ as, IsWalk g m v as ∧ as.length ≤ hops ∧ endOf v as ∈ ends
      ∧ traceOf g m v as = some p.tokens) →
    ∃ v ∈ ends, ∃ as, IsWalk g' m v as ∧ as.length ≤ hops ∧ endOf v as ∈ starts
      ∧ traceOf g' m v as = some p.reverse.tokens := by
  intro hsome
  obtain ⟨v, hv, as, hwalk, hlen, hend, htrace⟩ := hsome
  obtain ⟨label, hlabel, htokens⟩ := traceOf_eq_some_iff.1 htrace
  refine ⟨endOf v as, hend, back v label as, h.isWalk_back hlabel hwalk, ?_, ?_, ?_⟩
  · rw [length_back]
    exact hlen
  · rw [endOf_back]
    exact hv
  · exact h.traceOf_back hwalk hlabel htokens

end Mirrored

end LabelWalks
