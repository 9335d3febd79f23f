/-
  LabelWalks.Proofs.Synthetic.Heap
  ────────────────────────────────
  **THE TREE IN HEAP ORDER.**

  The tree is drawn level by level, and a level may be cut in the middle of the children of
  a node.  However it comes about, its nodes come in the order of a ternary heap: node `c`
  is a child of node `(c - 1) / 3`, and there is no other edge.  While a level is being
  filled, the number of the next node and that of the node whose turn it is are tied to one
  another, which is why the child that is due always has the parent of the heap.

    • `Heap`, `Heap.exists_calls`, `Heap.targets_out`, `Heap.targets_in` — heaps and their edges,
    • `Filling`, `gives_addChildren_filling`, `gives_grow_heap` — what the loops keep,
    • `grow_eq_of_enough` — more levels than it takes make no difference,
    • `depth_eq_iff`, `Heap.rooted` — levels, and the tree,
    • `generate_complete` — the tree of every size.
-/
import LabelWalks.Proofs.Graph.Shape
import LabelWalks.Proofs.Synthetic.Size

namespace LabelWalks.Synthetic.Tree

open Draw Network

/-! ## §1. Heaps. -/

/-- The number of the parent of a node, in heap order. -/
def parentOf (c : Nat) : Nat :=
  (c - 1) / branching

theorem parentOf_lt {c : Nat} (hc : 0 < c) : parentOf c < c := by
  show (c - 1) / 3 < c
  omega

/-- Node after node, each with an edge from its parent. -/
inductive Heap : Nat → Network → Prop where
  | root {label : Label} (hlabel : label.toNat ≤ 10) :
      Heap 1 (Network.empty.add (nodeId 0) label)
  | child {k : Nat} {g : Network} {label edgeLabel : Label} (h : Heap k g)
      (hlabel : label.toNat ≤ 10) (hedge : edgeLabel.toNat ≤ 10) :
      Heap (k + 1) ((g.add (nodeId k) label).connect (nodeId (parentOf k)) (nodeId k) edgeLabel)

namespace Heap

variable {k : Nat} {g : Network}

theorem pos (h : Heap k g) : 0 < k := by
  cases h <;> exact Nat.succ_pos _

theorem numbered (h : Heap k g) (hk : k ≤ UInt64.size) : g.Numbered k := by
  induction h with
  | root hlabel => exact Numbered.empty.add (by decide) hlabel
  | @child k g label edgeLabel h hlabel hedge ih =>
      have hadd := (ih (by omega)).add (by omega) hlabel
      have hparent := parentOf_lt h.pos
      exact hadd.connect (toNat_nodeId_lt (by omega) hk) (toNat_nodeId_lt (by omega) hk) hedge

/-- **The edges of a heap** in the order in which they come: one to each node but the first. -/
theorem exists_calls (h : Heap k g) : ∃ calls, after calls = g
    ∧ (added calls).map (fun x => (x.source, x.target)) =
      (List.range' 1 (k - 1)).map fun c => (nodeId (parentOf c), nodeId c) := by
  induction h with
  | @root label hlabel => exact ⟨[.add (nodeId 0) label], rfl, rfl⟩
  | @child k g label edgeLabel h hlabel hedge ih =>
      obtain ⟨calls, rfl, hcalls⟩ := ih
      refine ⟨calls ++ [.add (nodeId k) label] ++
        [.connect (nodeId (parentOf k)) (nodeId k) edgeLabel], ?_, ?_⟩
      · rw [after_concat, after_concat]
        rfl
      · have hpos := h.pos
        have hlast : List.range' 1 (k + 1 - 1) = List.range' 1 (k - 1) ++ [k] := by
          obtain ⟨n, rfl⟩ : ∃ n, k = n + 1 := ⟨k - 1, by omega⟩
          rw [Nat.add_sub_cancel, Nat.add_sub_cancel, List.range'_1_concat, Nat.add_comm 1 n]
        rw [added_concat, added_concat, List.map_append, List.map_append, hcalls, hlast,
          List.map_append]
        simp [Call.edges]

/-- The children of a node that are below a bound, when the bound is raised. -/
theorem filter_children (i : Nat) {k : Nat} (hk : 0 < k) :
    (List.range' (3 * i + 1) 3).filter (· < k + 1) =
      (List.range' (3 * i + 1) 3).filter (· < k) ++ if parentOf k = i then [k] else [] := by
  have hparent : parentOf k = i ↔ 3 * i + 1 ≤ k ∧ k < 3 * i + 1 + 3 := by
    show (k - 1) / 3 = i ↔ _
    omega
  simp only [hparent]
  generalize 3 * i + 1 = first
  show [first, first + 1, first + 2].filter _ = [first, first + 1, first + 2].filter _ ++ _
  rcases (show k = first ∨ k = first + 1 ∨ k = first + 2 ∨ k < first ∨ first + 2 < k by omega)
    with rfl | rfl | rfl | hk
  · simp
  · simp
  · simp
  · -- no child is concerned
    rw [if_neg (by omega), List.append_nil]
    refine List.filter_congr fun c hc => ?_
    simp only [List.mem_cons, List.not_mem_nil, or_false] at hc
    simp only [decide_eq_decide]
    omega

theorem nodeId_inj {i j : Nat} (hi : i < UInt64.size) (hj : j < UInt64.size) :
    nodeId i = nodeId j ↔ i = j := by
  constructor
  · intro h
    have hsame := congrArg UInt64.toNat h
    rwa [toNat_nodeId hi, toNat_nodeId hj] at hsame
  · exact congrArg nodeId

/-- **The edges from a node** go to those of its three children that there are. -/
theorem targets_out (h : Heap k g) (hk : k ≤ UInt64.size) {i : Nat} (hi : i < UInt64.size) :
    (g.edgesOut (nodeId i)).map Entry.target =
      ((List.range' (3 * i + 1) 3).filter (· < k)).map nodeId := by
  induction h with
  | @root label hlabel =>
      have hnone : (List.range' (3 * i + 1) 3).filter (· < 1) = [] := by
        refine List.filter_eq_nil_iff.2 fun c hc => ?_
        have hc := List.mem_range'_1.1 hc
        simp only [decide_eq_true_eq]
        omega
      rw [hnone]
      exact congrArg (List.map Entry.target) (entriesOf_empty .source (nodeId i))
  | @child k g label edgeLabel h hlabel hedge ih =>
      have hparent := parentOf_lt h.pos
      show ((connect _ _ _ _).entriesOf .source (nodeId i)).map _ = _
      rw [entriesOf_connect, entriesAt_singleton, List.map_append, filter_children i h.pos,
        List.map_append, ← ih (by omega)]
      refine congrArg (_ ++ ·) ?_
      show (if nodeId (parentOf k) = nodeId i then _ else _ : List Entry).map _ = _
      simp only [nodeId_inj (show parentOf k < UInt64.size by omega) hi]
      split <;> rfl

/-- **The edge to a node** comes from its parent; the first node has none. -/
theorem targets_in (h : Heap k g) (hk : k ≤ UInt64.size) {c : Nat} (hc : c < UInt64.size) :
    (g.edgesIn (nodeId c)).map Entry.target =
      if 0 < c ∧ c < k then [nodeId (parentOf c)] else [] := by
  induction h with
  | @root label hlabel =>
      rw [if_neg (by omega)]
      exact congrArg (List.map Entry.target) (entriesOf_empty .target (nodeId c))
  | @child k g label edgeLabel h hlabel hedge ih =>
      have hpos := h.pos
      show ((connect _ _ _ _).entriesOf .target (nodeId c)).map _ = _
      rw [entriesOf_connect, entriesAt_singleton, List.map_append]
      show (g.edgesIn (nodeId c)).map _ ++ (if nodeId k = nodeId c then
        [⟨nodeId (parentOf k), edgeLabel⟩] else [] : List Entry).map _ = _
      rw [ih (by omega)]
      simp only [nodeId_inj (show k < UInt64.size by omega) hc]
      rcases Nat.lt_trichotomy c k with hlt | rfl | hlt
      · rw [if_neg (show k ≠ c by omega), List.map_nil, List.append_nil]
        simp only [hlt, Nat.lt_succ_of_lt hlt]
      · rw [if_neg (show ¬ (0 < c ∧ c < c) by omega), if_pos rfl, if_pos (by omega)]
        rfl
      · rw [if_neg (show ¬ (0 < c ∧ c < k) by omega), if_neg (show k ≠ c by omega),
          if_neg (show ¬ (0 < c ∧ c < k + 1) by omega)]
        rfl

end Heap

/-! ## §2. The loops. -/

/-- A tree in the course of a level, the nodes of which are those from `first` on: it is a heap,
and the nodes before `due` have been drawn as far as there is room. -/
structure Filling (size first due : Nat) (t : Growth) : Prop where
  heap : Heap t.next t.graph
  next : t.next = min size due
  first_le : first ≤ t.next
  level : t.level.toList = (List.range' first (t.next - first)).map nodeId

variable {size first due : Nat} {t : Growth}

/-- The child that is due is a child of its parent in the heap. -/
theorem gives_addChild_filling {parent : Nat}
    (hdue : parentOf due = parent) (ht : Filling size first due t) :
    (addChild size (nodeId parent) t).Gives (Filling size first (due + 1)) := by
  have hnext := ht.next
  have hfirst := ht.first_le
  unfold addChild
  by_cases hroom : t.next < size
  · rw [if_pos hroom]
    have hchild : parentOf t.next = parent := by rw [← hdue, hnext, Nat.min_eq_right (by omega)]
    refine (gives_add _ _).bind fun g hg => ?_
    refine (gives_connect _ _ _).bind fun g' hg' => gives_pure ?_
    obtain ⟨label, hlabel, rfl⟩ := hg
    obtain ⟨edgeLabel, hedge, rfl⟩ := hg'
    rw [← hchild]
    refine ⟨.child ht.heap hlabel hedge, ?_, Nat.le_succ_of_le hfirst, ?_⟩
    · show t.next + 1 = min size (due + 1)
      omega
    · show (t.level.push (nodeId t.next)).toList =
        (List.range' first (t.next + 1 - first)).map nodeId
      rw [Array.toList_push, ht.level, Nat.succ_sub hfirst, List.range'_1_concat, List.map_append,
        Nat.add_sub_of_le hfirst]
      rfl
  · rw [if_neg hroom]
    exact gives_pure ⟨ht.heap, by omega, hfirst, ht.level⟩

/-- **The children of one node** are those of the heap, as far as there is room. -/
theorem gives_addChildren_filling {parent : Nat}
    (ht : Filling size first (3 * parent + 1) t) :
    (addChildren size t (nodeId parent)).Gives (Filling size first (3 * (parent + 1) + 1)) := by
  have hall := gives_foldlM_range (f := fun t _ => addChild size (nodeId parent) t)
    (I := fun j => Filling size first (3 * parent + 1 + j)) branching ht fun j t hj ht => by
      have hj : j < 3 := hj
      refine gives_addChild_filling ?_ ht
      show (3 * parent + 1 + j - 1) / 3 = parent
      omega
  exact hall

/-- A level that has been begun: its nodes are those from `first` on, and all their siblings
before them have their children. -/
structure Begun (size first : Nat) (t : Growth) : Prop extends
    Filling size first (3 * first + 1) t where
  begun : first < size

theorem Begun.nonempty (ht : Begun size first t) : 0 < t.level.size := by
  have hlength := congrArg List.length ht.level
  rw [Array.length_toList, List.length_map, List.length_range'] at hlength
  have hnext := ht.next
  have hbegun := ht.begun
  omega

/-- **One level**: its nodes are given their children, which are the nodes of the next one. -/
theorem gives_level_filling (ht : Begun size first t)
    (hroom : t.next < size) :
    (t.level.toList.foldlM (addChildren size) ⟨t.graph, t.next, #[]⟩).Gives
      (Begun size t.next) := by
  have hstart : Filling size t.next (3 * first + 1) ⟨t.graph, t.next, #[]⟩ := by
    refine ⟨ht.heap, ht.next, Nat.le_refl _, ?_⟩
    show [] = (List.range' t.next (t.next - t.next)).map nodeId
    rw [Nat.sub_self]
    rfl
  rw [ht.level, List.foldlM_map]
  have hall := gives_foldlM_range' (f := fun t parent => addChildren size t (nodeId parent))
    (I := fun parent => Filling size t.next (3 * parent + 1)) (t.next - first) hstart
    fun parent t' _ _ ht' => gives_addChildren_filling ht'
  refine hall.imp fun t' ht' => ?_
  rw [Nat.add_sub_of_le ht.first_le] at ht'
  exact ⟨ht', hroom⟩

/-- **Enough levels** end with a heap of the size. -/
theorem gives_grow_heap (levels : Nat) : ∀ {first : Nat} {t : Growth},
    Begun size first t → size ≤ t.next + levels →
      (grow size levels t).Gives fun t' => t'.next = size ∧ Heap size t'.graph := by
  have hdone : ∀ {first : Nat} {t : Growth}, Begun size first t → size ≤ t.next →
      t.next = size ∧ Heap size t.graph := by
    intro first t ht hlast
    have hnext := ht.next
    have hsame : t.next = size := by omega
    exact ⟨hsame, hsame ▸ ht.heap⟩
  induction levels with
  | zero => exact fun ht henough => gives_pure (hdone ht henough)
  | succ levels ih =>
      intro first t ht henough
      unfold grow
      by_cases hroom : t.next < size
      · rw [if_pos ⟨hroom, ht.nonempty⟩]
        refine (gives_level_filling ht hroom).bind fun t' ht' => ih ht' ?_
        have hnext := ht'.next
        omega
      · rw [if_neg fun h => hroom h.1]
        exact gives_pure (hdone ht (by omega))

/-- **More levels** than it takes make no difference. -/
theorem grow_eq_of_enough (levels : Nat) :
    ∀ (levels' : Nat) {first : Nat} {t : Growth} (r : Lcg), Begun size first t →
      size ≤ t.next + levels → size ≤ t.next + levels' →
        grow size levels t r = grow size levels' t r := by
  have hover : ∀ (levels : Nat) {t : Growth} (r : Lcg), ¬ t.next < size →
      grow size levels t r = some (t, r) := by
    intro levels t r hroom
    cases levels with
    | zero => rfl
    | succ levels =>
        unfold grow
        rw [if_neg fun h => hroom h.1]
        rfl
  induction levels with
  | zero =>
      intro levels' first t r ht henough henough'
      rw [hover 0 r (by omega), hover levels' r (by omega)]
  | succ levels ih =>
      intro levels' first t r ht henough henough'
      by_cases hroom : t.next < size
      · obtain ⟨levels', rfl⟩ : ∃ n, levels' = n + 1 := ⟨levels' - 1, by omega⟩
        unfold grow
        rw [if_pos ⟨hroom, ht.nonempty⟩, if_pos ⟨hroom, ht.nonempty⟩]
        -- the level is the same, and those after it are so too
        obtain ⟨t', r', hlevel, ht'⟩ := gives_level_filling ht hroom r
        show (_ : Option (Growth × Lcg)).bind (fun row => grow size levels row.1 row.2) =
          (_ : Option (Growth × Lcg)).bind fun row => grow size levels' row.1 row.2
        rw [hlevel]
        have hnext := ht'.next
        have hrest := ih levels' r' ht' (by omega) (by omega)
        exact hrest
      · rw [hover _ r hroom, hover _ r hroom]

/-! ## §3. Levels. -/

/-- The level of a node: how many parents there are on the way to the first one. -/
def depth : Nat → Nat
  | 0 => 0
  | c + 1 => depth (c / branching) + 1
decreasing_by exact Nat.lt_succ_of_le (Nat.div_le_self c branching)

/-- The first node of a level. -/
def levelStart : Nat → Nat
  | 0 => 0
  | d + 1 => branching * levelStart d + 1

/-- **The nodes of a level** are those from its first one to that of the next level. -/
theorem depth_eq_iff (d : Nat) : ∀ {c : Nat},
    depth c = d ↔ levelStart d ≤ c ∧ c < levelStart (d + 1) := by
  induction d with
  | zero =>
      intro c
      show depth c = 0 ↔ 0 ≤ c ∧ c < 1
      cases c with
      | zero => simp [depth]
      | succ c => simp [depth]
  | succ d ih =>
      intro c
      show depth c = d + 1 ↔ 3 * levelStart d + 1 ≤ c ∧ c < 3 * levelStart (d + 1) + 1
      cases c with
      | zero =>
          rw [depth]
          omega
      | succ c =>
          rw [depth, Nat.add_right_cancel_iff, ih]
          show levelStart d ≤ c / 3 ∧ c / 3 < levelStart (d + 1) ↔ _
          omega

/-- A level that is full has a power of three nodes. -/
theorem levelStart_succ (d : Nat) : levelStart (d + 1) = levelStart d + 3 ^ d := by
  induction d with
  | zero => rfl
  | succ d ih =>
      show 3 * levelStart (d + 1) + 1 = (3 * levelStart d + 1) + 3 ^ (d + 1)
      rw [ih, Nat.pow_succ]
      omega

theorem levelStart_mono : Monotone levelStart :=
  monotone_nat_of_le_succ fun d => by
    rw [levelStart_succ]
    exact Nat.le_add_right _ _

/-! ## §4. The tree. -/

namespace Heap

section
variable {g : Network} (h : Heap size g) (hsize : size ≤ UInt64.size)
include h hsize

theorem toNat_lt (v : g.Node) : v.1.toNat < size :=
  ((h.numbered hsize).nodes v.1).1 v.2

theorem mem_nodeIds {c : Nat} (hc : c < size) : nodeId c ∈ g.nodeIds :=
  ((h.numbered hsize).nodes _).2 (toNat_nodeId_lt hc hsize)

/-- The first node. -/
def rootNode : g.Node :=
  ⟨nodeId 0, h.mem_nodeIds hsize h.pos⟩

/-- The parent of a node. -/
def parentNode (v : g.Node) : g.Node :=
  ⟨nodeId (parentOf v.1.toNat), h.mem_nodeIds hsize
    (Nat.lt_of_le_of_lt ((Nat.div_le_self _ _).trans (Nat.sub_le _ _)) (h.toNat_lt hsize v))⟩

theorem toNat_parentNode (v : g.Node) : (h.parentNode hsize v).1.toNat = parentOf v.1.toNat := by
  have hlt := h.toNat_lt hsize v
  have hle : parentOf v.1.toNat ≤ v.1.toNat := (Nat.div_le_self _ _).trans (Nat.sub_le _ _)
  exact toNat_nodeId (by omega)

theorem ne_rootNode_iff {v : g.Node} : v ≠ h.rootNode hsize ↔ 0 < v.1.toNat := by
  have hroot : v = h.rootNode hsize ↔ v.1.toNat = 0 := by
    rw [Subtype.ext_iff, ← UInt64.toNat_inj]
    exact Iff.rfl
  rw [ne_eq, hroot, Nat.pos_iff_ne_zero]

/-- There is an edge to each node from its parent, and no other one. -/
theorem mem_targets_iff {v w : g.Node} : w.1 ∈ (g.edgesOut v.1).map Entry.target ↔
    w ≠ h.rootNode hsize ∧ h.parentNode hsize w = v := by
  have hv := h.toNat_lt hsize v
  have hw := h.toNat_lt hsize w
  have hparent : h.parentNode hsize w = v ↔ parentOf w.1.toNat = v.1.toNat := by
    rw [Subtype.ext_iff, ← UInt64.toNat_inj, h.toNat_parentNode hsize]
  have hself : nodeId v.1.toNat = v.1 := UInt64.ofNat_toNat
  rw [h.ne_rootNode_iff hsize, hparent, ← hself, h.targets_out hsize (by omega), List.mem_map]
  rw [toNat_nodeId (by omega)]
  show _ ↔ 0 < w.1.toNat ∧ (w.1.toNat - 1) / 3 = v.1.toNat
  constructor
  · rintro ⟨c, hc, hcw⟩
    obtain ⟨hrange, hlt⟩ := List.mem_filter.1 hc
    have hrange := List.mem_range'_1.1 hrange
    have hlt := of_decide_eq_true hlt
    rw [← hcw, toNat_nodeId (by omega)]
    omega
  · intro hw'
    refine ⟨w.1.toNat, List.mem_filter.2 ⟨List.mem_range'_1.2 (by omega), decide_eq_true hw⟩, ?_⟩
    exact UInt64.ofNat_toNat

/-- **A heap is a tree** in which each node but the first one is joined with its parent. -/
theorem rooted : Rooted g.shape (h.rootNode hsize) (h.parentNode hsize) fun v => v.1.toNat where
  less v hv := by
    rw [h.toNat_parentNode hsize]
    exact parentOf_lt ((h.ne_rootNode_iff hsize).1 hv)
  adj v w := by
    rw [shape_adj_iff, h.mem_targets_iff hsize, h.mem_targets_iff hsize, or_comm]
    refine and_iff_right_of_imp ?_
    -- no node is its own parent
    have hself : ∀ v : g.Node, v ≠ h.rootNode hsize → h.parentNode hsize v ≠ v := by
      intro v hv heq
      have hless := parentOf_lt ((h.ne_rootNode_iff hsize).1 hv)
      rw [← h.toNat_parentNode hsize, heq] at hless
      exact Nat.lt_irrefl _ hless
    rintro (⟨hv, rfl⟩ | ⟨hw, rfl⟩)
    · exact (hself v hv).symm
    · exact hself w hw

/-- The distance of a node from the first one is its level. -/
theorem dist_eq_depth (v : g.Node) : g.shape.dist (h.rootNode hsize) v = depth v.1.toNat := by
  refine (h.rooted hsize).dist_eq (fun v => depth v.1.toNat) ?_ (fun v hv => ?_) v
  · have hzero : (nodeId 0).toNat = 0 := rfl
    show depth (nodeId 0).toNat = 0
    rw [hzero, depth]
  · have hpos := (h.ne_rootNode_iff hsize).1 hv
    obtain ⟨c, hc⟩ : ∃ c, v.1.toNat = c + 1 := ⟨v.1.toNat - 1, by omega⟩
    show depth v.1.toNat = depth (h.parentNode hsize v).1.toNat + 1
    rw [h.toNat_parentNode hsize, hc, depth]
    rfl

/-- **All levels but the last are full.** -/
theorem ncard_level {d : Nat} {v : g.Node} (hv : d < g.shape.dist (h.rootNode hsize) v) :
    { w | g.shape.dist (h.rootNode hsize) w = d }.ncard = 3 ^ d := by
  rw [h.dist_eq_depth hsize] at hv
  -- the next level has been begun
  have hnext : levelStart (d + 1) < size := by
    have hdepth := (depth_eq_iff _).1 (rfl : depth v.1.toNat = _)
    have hmono := levelStart_mono (show d + 1 ≤ depth v.1.toNat from hv)
    have hlt := h.toNat_lt hsize v
    omega
  have hinj : Function.Injective fun w : g.Node => w.1.toNat := fun v w hvw =>
    Subtype.ext (UInt64.toNat_inj.1 hvw)
  have himage : (fun w : g.Node => w.1.toNat) '' { w | g.shape.dist (h.rootNode hsize) w = d } =
      Set.Ico (levelStart d) (levelStart (d + 1)) := by
    refine Set.ext fun c => ?_
    simp only [h.dist_eq_depth hsize, Set.mem_image, Set.mem_ofPred_eq, Set.mem_Ico, depth_eq_iff]
    constructor
    · rintro ⟨w, hw, rfl⟩
      exact hw
    · intro hc
      have hnat : (nodeId c).toNat = c := toNat_nodeId (by omega)
      refine ⟨⟨nodeId c, h.mem_nodeIds hsize (by omega)⟩, ?_, hnat⟩
      rw [hnat]
      exact hc
  rw [← Set.ncard_image_of_injective _ hinj, himage, ← Finset.coe_Ico, Set.ncard_coe_finset,
    Nat.card_Ico, levelStart_succ, Nat.add_sub_cancel_left]

end

end Heap

/-! ## §5. The tree of a size. -/

/-- The complete ternary tree with so many nodes, in heap order. -/
structure Complete (size : Nat) (g : Network) : Prop where
  nodes : g.nodeIds = (List.range size).map nodeId
  /-- Each node but the first has an edge from its parent, added in ascending order. -/
  edges : ∃ calls, after calls = g ∧ (added calls).map (fun x => (x.source, x.target)) =
    (List.range' 1 (size - 1)).map fun c => (nodeId ((c - 1) / 3), nodeId c)
  /-- These are all entries of a node, in ascending order. -/
  children : ∀ i < size, (g.edgesOut (nodeId i)).map Entry.target =
    ((List.range' (3 * i + 1) 3).filter (· < size)).map nodeId
  parents : ∀ c < size, (g.edgesIn (nodeId c)).map Entry.target =
    if 0 < c then [nodeId ((c - 1) / 3)] else []
  few : ∀ v, (g.edgesOut v).length ≤ 3
  tree : g.shape.IsTree
  /-- As long as there is a node beyond a level, the level is full. -/
  full : ∀ root : g.Node, root.1 = nodeId 0 → ∀ d, (∃ v, d < g.shape.dist root v) →
    { v | g.shape.dist root v = d }.ncard = 3 ^ d

/-- **A heap is complete.** -/
theorem Heap.complete {g : Network} (h : Heap size g) (hsize : size < UInt64.size) :
    Complete size g := by
  have hle : size ≤ UInt64.size := hsize.le
  refine ⟨(h.numbered hle).nodeIds_eq hle, h.exists_calls, fun i hi => ?_, fun c hc => ?_,
    fun v => ?_, ?_, ?_⟩
  · exact h.targets_out hle (by omega)
  · rw [h.targets_in hle (by omega)]
    simp only [hc, and_true]
    rfl
  · have hself : nodeId v.toNat = v := UInt64.ofNat_toNat
    have hlength := congrArg List.length (h.targets_out hle (UInt64.toNat_lt_size v))
    rw [hself, List.length_map, List.length_map] at hlength
    rw [hlength]
    exact List.length_filter_le _ _
  · have hfinite : Finite g.Node := List.finite_toSet g.nodeIds
    exact (h.rooted hle).isTree
  · rintro root hroot d ⟨v, hv⟩
    obtain rfl : root = h.rootNode hle := Subtype.ext hroot
    exact h.ncard_level hle hv

/-- The tree of a size after a number of levels. -/
def generateWithin (size levels : Nat) : Draw Network := do
  let graph ← addNode .empty (nodeId 0)
  let t ← grow size levels ⟨graph, 1, #[nodeId 0]⟩
  return t.graph

/-- The first level. -/
theorem begun_root (hpos : 1 ≤ size) {label : Label} (hlabel : label.toNat ≤ 10) :
    Begun size 0 ⟨Network.empty.add (nodeId 0) label, 1, #[nodeId 0]⟩ where
  heap := .root hlabel
  next := (Nat.min_eq_right hpos).symm
  first_le := Nat.zero_le _
  level := rfl
  begun := hpos

/-- **The tree of every size** is complete: wherever the sequence of draws stands, the loops come
to their end, however many more levels they were allowed, and what they have drawn by then is
the ternary tree in heap order. -/
theorem generate_complete (hpos : 1 ≤ size) (hsize : size < UInt64.size) :
    (generate size).Gives (Complete size)
      ∧ (∃ g, Family.tree.generate? size = some g ∧ Complete size g)
      ∧ ∀ levels, size ≤ levels → generateWithin size levels = generate size := by
  have hgives : (generate size).Gives (Complete size) := by
    refine (gives_add _ _).bind fun g hg => ?_
    obtain ⟨label, hlabel, rfl⟩ := hg
    refine (gives_grow_heap size (begun_root hpos hlabel) (Nat.le_add_left _ _)).bind fun t ht => ?_
    exact gives_pure (ht.2.complete hsize)
  refine ⟨hgives, Family.exists_of_gives hgives, fun levels hlevels => ?_⟩
  refine funext fun r => ?_
  obtain ⟨g, r', hroot, label, hlabel, rfl⟩ := gives_add .empty (nodeId 0) r
  have hstart : ∀ levels, generateWithin size levels r =
      (grow size levels ⟨Network.empty.add (nodeId 0) label, 1, #[nodeId 0]⟩ r').bind
        fun row => some (row.1.graph, row.2) := by
    intro levels
    show ((addNode .empty (nodeId 0) r).bind fun root =>
      (grow size levels ⟨root.1, 1, #[nodeId 0]⟩ root.2).bind fun row =>
        some (row.1.graph, row.2)) = _
    rw [hroot]
    rfl
  have hsame := grow_eq_of_enough levels size r' (begun_root hpos hlabel) (by omega) (by omega)
  show generateWithin size levels r = generateWithin size size r
  rw [hstart, hstart, hsame]

/-- A tree the last level of which is cut in the middle of the children of a node. -/
theorem generate_complete_six : 1 ≤ 6 ∧ 6 < UInt64.size
    ∧ ∃ g, Family.tree.generate? 6 = some g ∧ Complete 6 g
      ∧ (g.edgesOut (nodeId 1)).map Entry.target = [nodeId 4, nodeId 5] := by
  obtain ⟨g, hg, hcomplete⟩ := (@generate_complete 6 (by decide) (by decide)).2.1
  exact ⟨by decide, by decide, g, hg, hcomplete, hcomplete.children 1 (by decide)⟩

end LabelWalks.Synthetic.Tree
