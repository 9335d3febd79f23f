/-
  LabelWalks.Proofs.Census.BreadthFirst
  ─────────────────────────────────────
  **SHORT PATHS COME FIRST.**

  The queue of a census holds the rest of one level and then the beginning of the next one.
  What is in it is in order, and so is what it gives: paths with fewer hops come first, and
  of those with as many hops the one with the lesser tokens.  Children are put behind all
  others, and are still in order: the frontiers that came before their parent have lesser
  tokens than it, so that all children of these have lesser tokens, too.

    • `MetaPath.Precedes` — the order,
    • `Queued`, `Queued.turn` — what the queue keeps from one frontier to the next,
    • `census_is_breadthFirst` — at every time, and for all that a worker gives.
-/
import LabelWalks.Proofs.Rendering
import LabelWalks.Proofs.Worklist.Engines

namespace LabelWalks

/-! ## §1. The order of paths. -/

/-- Fewer hops, or as many and lesser tokens. -/
def MetaPath.Precedes (p q : MetaPath) : Prop :=
  p.hops < q.hops ∨ p.hops = q.hops ∧ p.tokens < q.tokens

theorem MetaPath.Precedes.trans {p q r : MetaPath} (hpq : p.Precedes q) (hqr : q.Precedes r) :
    p.Precedes r := by
  rcases hpq with hpq | ⟨hpq, hless⟩
  · left
    rcases hqr with hqr | ⟨hqr, -⟩ <;> omega
  · rcases hqr with hqr | ⟨hqr, hless'⟩
    · left
      omega
    · exact .inr ⟨hpq.trans hqr, List.lt_trans hless hless'⟩

/-- Runs of tokens are in the order of their beginnings. -/
theorem lt_of_take_lt_take (n : Nat) : ∀ {s t : List LabelIndex}, n ≤ s.length →
    s.take n < t.take n → s < t := by
  induction n with
  | zero =>
      intro s t _ h
      exact absurd h (List.not_lt_nil _)
  | succ n ih =>
      intro s t hlength h
      cases s with
      | nil => cases hlength
      | cons x s =>
          cases t with
          | nil => exact absurd h (List.not_lt_nil _)
          | cons y t =>
              rw [List.take_succ_cons, List.take_succ_cons, List.cons_lt_cons_iff] at h
              rw [List.cons_lt_cons_iff]
              rcases h with h | ⟨hxy, h⟩
              · exact .inl h
              · exact .inr ⟨hxy, ih (Nat.le_of_succ_le_succ hlength) h⟩

/-- Hops are in the order of their tokens. -/
theorem Hop.tokens_lt_of_compare {hop hop' : Hop} (h : compare hop hop' = .lt) :
    hop.tokens < hop'.tokens := by
  have hparts : ((compare hop.edge hop'.edge).then (compare hop.node hop'.node)) = .lt := h
  rw [Ordering.then_eq_lt, Std.compare_eq_lt, Std.LawfulEqOrd.compare_eq_iff_eq,
    Std.compare_eq_lt] at hparts
  unfold tokens
  rw [List.cons_lt_cons_iff, List.cons_lt_cons_iff]
  exact hparts.imp_right (And.imp_right .inl)

variable {g : GraphView} {m : Mapping}

/-- The children of a visit have one hop more than its frontier, begin like it and are in order. -/
theorem children_precede (f : Frontier) :
    (((visit g m f).items.flatMap Prod.snd).map Frontier.path).Pairwise MetaPath.Precedes
      ∧ ∀ child ∈ (visit g m f).items.flatMap Prod.snd,
        child.path.hops = f.path.hops + 1
          ∧ child.path.tokens.take f.path.tokens.length = f.path.tokens := by
  unfold visit
  cases hgrow : f.grow g m with
  | error halt => exact ⟨List.Pairwise.nil, fun child hchild => by cases hchild⟩
  | ok children =>
      show ((([(f, children)] : List (Frontier × List Frontier)).flatMap Prod.snd).map
        Frontier.path).Pairwise _ ∧ ∀ child ∈ [(f, children)].flatMap Prod.snd, _
      rw [List.flatMap_singleton, grow_eq_ok hgrow]
      refine ⟨?_, fun child hchild => ?_⟩
      · rw [List.map_map, List.pairwise_map]
        refine Std.ExtTreeMap.ordered_keys_toList.imp fun {row row'} hless => ?_
        refine .inr ⟨by simp, ?_⟩
        exact List.append_left_lt (Hop.tokens_lt_of_compare hless)
      · obtain ⟨row, -, rfl⟩ := List.mem_map.1 hchild
        exact ⟨MetaPath.hops_extend _ _ _, List.take_left⟩

/-! ## §2. The queue. -/

/-- A queue that is in order, behind what it has given: no state has more than one hop more than
another one, and those with one more begin with less. -/
structure Queued (most : Nat) (r : Worklist.Progress MetaPath NodeCounts PathCount) : Prop where
  /-- The hops of a path and those that are left come to the same for all. -/
  budget : ∀ s ∈ r.pending, s.key.hops + s.left = most
  /-- All that was given and then all that is pending is in order. -/
  ordered : (r.given.map Prod.fst ++ r.pending.map Pending.key).Pairwise MetaPath.Precedes
  abreast : ∀ s ∈ r.pending, ∀ s' ∈ r.pending, s'.key.hops ≤ s.key.hops + 1
  /-- The parent of a child in the queue was before all that is not a child. -/
  parents : ∀ s ∈ r.pending, ∀ s' ∈ r.pending, s'.key.hops = s.key.hops + 1 →
    s'.key.tokens.take s.key.tokens.length < s.key.tokens

theorem Queued.start (root : Pending MetaPath NodeCounts) :
    Queued (root.key.hops + root.left) (.start [root]) where
  budget s hs := by rw [List.mem_singleton.1 hs]
  ordered := List.pairwise_singleton _ _
  abreast s hs s' hs' := by
    rw [List.mem_singleton.1 hs, List.mem_singleton.1 hs']
    exact Nat.le_succ _
  parents s hs s' hs' hmore := by
    rw [List.mem_singleton.1 hs, List.mem_singleton.1 hs'] at hmore
    omega

/-- What follows a frontier of the queue: it has one hop more and begins like it. -/
structure IsChild (s child : Pending MetaPath NodeCounts) : Prop where
  hops : child.key.hops = s.key.hops + 1
  begins : child.key.tokens.take s.key.tokens.length = s.key.tokens

theorem isChild_of_mem_next {s child : Pending MetaPath NodeCounts}
    (h : child ∈ (censusList g m).next s) : IsChild s child := by
  have hleads := Worklist.next_subset h
  obtain ⟨path, nodes, left⟩ := s
  cases left with
  | zero => cases hleads
  | succ hops =>
      obtain ⟨f, hf, rfl⟩ := List.mem_map.1 hleads
      obtain ⟨hhops, hbegins⟩ := (children_precede ⟨path, nodes⟩).2 f hf
      exact ⟨hhops, hbegins⟩

theorem pairwise_next (s : Pending MetaPath NodeCounts) :
    (((censusList g m).next s).map Pending.key).Pairwise MetaPath.Precedes := by
  unfold Worklist.next
  split
  · obtain ⟨path, nodes, left⟩ := s
    cases left with
    | zero => exact List.Pairwise.nil
    | succ hops =>
        have hordered := (children_precede (g := g) (m := m) ⟨path, nodes⟩).1
        show ((((visit g m ⟨path, nodes⟩).items.flatMap Prod.snd).map _).map _).Pairwise _
        rw [List.map_map]
        exact hordered
  · exact List.Pairwise.nil

section
variable {most : Nat} {s : Pending MetaPath NodeCounts}
  {rest removed : List (Pending MetaPath NodeCounts)} {given : List PathCount}
  (h : Queued most ⟨s :: rest, removed, given, none⟩)
include h

/-- Nothing that is behind the first state has fewer hops than it. -/
theorem Queued.hops_le {s' : Pending MetaPath NodeCounts} (hs' : s' ∈ rest) :
    s.key.hops ≤ s'.key.hops ∧ s'.key.hops ≤ s.key.hops + 1 := by
  have hpending := (List.pairwise_append.1 h.ordered).2.1
  rw [List.map_cons, List.pairwise_cons] at hpending
  refine ⟨?_, h.abreast s List.mem_cons_self s' (List.mem_cons_of_mem _ hs')⟩
  rcases hpending.1 _ (List.mem_map_of_mem hs') with hless | ⟨hsame, -⟩ <;> omega

/-- The children of the first state come after all that is behind it. -/
theorem Queued.precedes_child {s' child : Pending MetaPath NodeCounts} (hs' : s' ∈ rest)
    (hchild : IsChild s child) : s'.key.Precedes child.key := by
  have hhops := hchild.hops
  have hmost := h.hops_le hs'
  rcases Nat.lt_or_ge s'.key.hops child.key.hops with hless | hmore
  · exact .inl hless
  · -- it is a child of a frontier that came before
    refine .inr ⟨by omega, lt_of_take_lt_take s.key.tokens.length ?_ ?_⟩
    · rw [MetaPath.length_tokens, MetaPath.length_tokens]
      omega
    · rw [hchild.begins]
      exact h.parents s List.mem_cons_self s' (List.mem_cons_of_mem _ hs') (by omega)

/-- The children of the first state are in order behind all that was given and is pending. -/
theorem Queued.ordered_children :
    ((given.map Prod.fst ++ s.key :: rest.map Pending.key)
      ++ ((censusList g m).next s).map Pending.key).Pairwise MetaPath.Precedes := by
  refine List.pairwise_append.2 ⟨h.ordered, pairwise_next s, fun p hp q hq => ?_⟩
  obtain ⟨child, hmem, rfl⟩ := List.mem_map.1 hq
  have hchild := isChild_of_mem_next hmem
  have hfirst : s.key.Precedes child.key := .inl (by rw [hchild.hops]; exact Nat.lt_succ_self _)
  rcases List.mem_append.1 hp with hp | hp
  · exact ((List.pairwise_append.1 h.ordered).2.2 p hp s.key List.mem_cons_self).trans hfirst
  · rcases List.mem_cons.1 hp with rfl | hp
    · exact hfirst
    · obtain ⟨s', hs', rfl⟩ := List.mem_map.1 hp
      exact h.precedes_child hs' hchild

/-- **One frontier** is taken off the queue, and its children are put behind all others. -/
theorem Queued.next {halt : Option Halt} :
    Queued most ⟨rest ++ (censusList g m).next s, removed ++ [s],
      given ++ ((censusList g m).gives s).items, halt⟩ := by
  have hchild : ∀ child ∈ (censusList g m).next s, IsChild s child :=
    fun child hmem => isChild_of_mem_next hmem
  refine ⟨fun s' hs' => ?_, ?_, fun s₁ hs₁ s₂ hs₂ => ?_, fun s₁ hs₁ s₂ hs₂ hmore => ?_⟩
  · rcases List.mem_append.1 hs' with hs' | hs'
    · exact h.budget s' (List.mem_cons_of_mem _ hs')
    · have hbudget := h.budget s List.mem_cons_self
      have hhops := (hchild s' hs').hops
      have hless := Worklist.one_less_of_next hs'
      omega
  · have hordered := h.ordered_children (g := g) (m := m)
    show ((given ++ _).map Prod.fst ++ (rest ++ _).map Pending.key).Pairwise _
    rwa [List.map_append, map_fst_censusList_items, List.map_append, List.append_assoc,
      List.singleton_append, ← List.cons_append, ← List.append_assoc]
  · rcases List.mem_append.1 hs₁ with hs₁ | hs₁ <;> rcases List.mem_append.1 hs₂ with hs₂ | hs₂
    · exact h.abreast s₁ (List.mem_cons_of_mem _ hs₁) s₂ (List.mem_cons_of_mem _ hs₂)
    · have hhops := (hchild s₂ hs₂).hops
      have hleast := h.hops_le hs₁
      omega
    · have hhops := (hchild s₁ hs₁).hops
      have hmost := h.hops_le hs₂
      omega
    · rw [(hchild s₁ hs₁).hops, (hchild s₂ hs₂).hops]
      exact Nat.le_succ _
  · rcases List.mem_append.1 hs₁ with hs₁ | hs₁ <;> rcases List.mem_append.1 hs₂ with hs₂ | hs₂
    · exact h.parents s₁ (List.mem_cons_of_mem _ hs₁) s₂ (List.mem_cons_of_mem _ hs₂) hmore
    · -- it has the hops of the first state and came after it
      have hhops := (hchild s₂ hs₂).hops
      have hsame : s.key.hops = s₁.key.hops := by omega
      have hlength : s₁.key.tokens.length = s.key.tokens.length := by
        rw [MetaPath.length_tokens, MetaPath.length_tokens, hsame]
      rw [hlength, (hchild s₂ hs₂).begins]
      have hpending := (List.pairwise_append.1 h.ordered).2.1
      rw [List.map_cons, List.pairwise_cons] at hpending
      rcases hpending.1 _ (List.mem_map_of_mem hs₁) with hless | ⟨-, hless⟩
      · omega
      · exact hless
    · have hhops := (hchild s₁ hs₁).hops
      have hmost := h.hops_le hs₂
      omega
    · have hhops := (hchild s₁ hs₁).hops
      have hhops' := (hchild s₂ hs₂).hops
      omega

end

/-- **A turn of the queue** keeps it in order. -/
theorem Queued.turn {most : Nat} {r : Worklist.Progress MetaPath NodeCounts PathCount}
    (h : Queued most r) : Queued most ((censusList g m).turn Worklist.earliest r) := by
  obtain ⟨pending, removed, given, halt⟩ := r
  cases halt with
  | some halt => exact h
  | none =>
      cases pending with
      | nil => exact h
      | cons s rest =>
          rw [Worklist.turn_earliest]
          exact h.next

/-- **Any number of turns** does. -/
theorem Queued.turns {most : Nat} (n : Nat) :
    ∀ {r : Worklist.Progress MetaPath NodeCounts PathCount}, Queued most r →
      Queued most (((censusList g m).turn Worklist.earliest)^[n] r) := by
  induction n with
  | zero => exact fun h => h
  | succ n ih => exact fun h => ih h.turn

/-! ## §3. The worker of a census. -/

/-- **A census is breadth first.**  At every turn of a worker's queue the hops of a pending path
and those that are left for it are all hops of the length, what is pending is in order and
differs by one hop at most.  So all that the worker gives, up to its end or its halt, is in order:
paths with fewer hops first, and those with as many by their tokens. -/
theorem census_is_breadthFirst (g : GraphView) (m : Mapping) (length : PathLength)
    (label : LabelIndex) (nodes : NodeCounts) :
    (∀ n, Queued (length.nodes - 1) (((censusList g m).turn Worklist.earliest)^[n]
      (.start [⟨.single label, nodes, length.hops⟩])))
      ∧ (censusList g m).Makes Worklist.earliest ⟨.single label, nodes, length.hops⟩
        (censusWorker g m length label nodes)
      ∧ ((censusWorker g m length label nodes).items.map Prod.fst).Pairwise MetaPath.Precedes := by
  have hqueued : ∀ n, Queued (length.nodes - 1) (((censusList g m).turn Worklist.earliest)^[n]
      (.start [⟨.single label, nodes, length.hops⟩])) := by
    intro n
    have hstart := Queued.start ⟨.single label, nodes, length.hops⟩
    have hbudget : (MetaPath.single label).hops + length.hops = length.nodes - 1 := by
      show 1 / 2 + (length.nodes - 1) = length.nodes - 1
      omega
    rw [hbudget] at hstart
    exact hstart.turns n
  obtain ⟨n, hover, htrail⟩ := makes_censusWorker (g := g) (m := m) length label nodes
  refine ⟨hqueued, ⟨n, hover, htrail⟩, ?_⟩
  rw [← htrail]
  exact (List.pairwise_append.1 (hqueued n).ordered).1

end LabelWalks
