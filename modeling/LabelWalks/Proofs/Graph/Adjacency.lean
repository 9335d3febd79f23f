/-
  LabelWalks.Proofs.Graph.Adjacency
  ─────────────────────────────────
  **HOW OFTEN AN EDGE IS NEXT TO A NODE.**

  A neighbour is to come once for every edge that a walk may cross to it.  With one
  direction open it does, whatever parallel and antiparallel edges there are.  With
  both open the entries of a node are the edges that start there and behind them the
  edges that end there, and an edge from the node to itself is among both: it is
  listed twice and counts twice in the degree.  There is no other exception.

    • `Edge.Crosses`, `Edge.Leaves`, `Edge.Doubled` — an edge as seen from a node,
    • `countP_edges_after` — the entries of a node, told from the edges,
    • `adjacency_after` — how often all edges are listed, and when once,
    • `not_listsOnce_loop` — one edge that is listed twice.
-/
import LabelWalks.Proofs.Graph.History

namespace LabelWalks

namespace Network

/-! ## §1. An edge as seen from a node. -/

namespace Edge

/-- A walk under the direction may cross the edge from `u` to `v`: from its source when
outgoing edges are open, from its target when incoming ones are. -/
def Crosses (d : Direction) (u v : NodeId) (x : Edge) : Prop :=
  d ≠ .incoming ∧ x.source = u ∧ x.target = v ∨ d ≠ .outgoing ∧ x.target = u ∧ x.source = v

instance (d : Direction) (u v : NodeId) (x : Edge) : Decidable (x.Crosses d u v) :=
  inferInstanceAs (Decidable (_ ∨ _))

/-- A walk under the direction may cross the edge from `u`. -/
def Leaves (d : Direction) (u : NodeId) (x : Edge) : Prop :=
  ∃ v, x.Crosses d u v

theorem leaves_iff {d : Direction} {u : NodeId} {x : Edge} :
    x.Leaves d u ↔ d ≠ .incoming ∧ x.source = u ∨ d ≠ .outgoing ∧ x.target = u := by
  unfold Leaves Crosses
  constructor
  · intro h
    rcases h with ⟨v, ⟨hd, hu, -⟩ | ⟨hd, hu, -⟩⟩
    · exact .inl ⟨hd, hu⟩
    · exact .inr ⟨hd, hu⟩
  · intro h
    rcases h with ⟨hd, hu⟩ | ⟨hd, hu⟩
    · exact ⟨x.target, .inl ⟨hd, hu, rfl⟩⟩
    · exact ⟨x.source, .inr ⟨hd, hu, rfl⟩⟩

instance (d : Direction) (u : NodeId) (x : Edge) : Decidable (x.Leaves d u) :=
  decidable_of_iff' _ leaves_iff

/-- Both directions are open, and the edge leads from `u` to `u`. -/
def Doubled (d : Direction) (u : NodeId) (x : Edge) : Prop :=
  d = .both ∧ x.source = u ∧ x.target = u

instance (d : Direction) (u : NodeId) (x : Edge) : Decidable (x.Doubled d u) :=
  inferInstanceAs (Decidable (_ ∧ _))

end Edge

/-! ## §2. The entries of a node. -/

/-- Entries with a property at one end of the edges. -/
theorem countP_entriesAt (side : Side) (u : NodeId) (xs : List Edge) (p : Entry → Prop)
    [DecidablePred p] :
    (entriesAt side u xs).countP p =
      xs.countP fun x => (side.parts x).1 = u ∧ p (side.parts x).2 := by
  unfold entriesAt edgesAt
  rw [List.countP_map, List.countP_filter]
  refine List.countP_congr fun x _ => ?_
  simp [and_comm]

/-- The entries of a node are those at either side that the direction opens. -/
theorem edges_eq_append (n : Network) (u : NodeId) :
    n.edges u = (if n.direction ≠ .incoming then n.entriesOf .source u else [])
      ++ if n.direction ≠ .outgoing then n.entriesOf .target u else [] := by
  unfold edges
  cases n.direction with
  | outgoing => exact (List.append_nil _).symm
  | incoming => rfl
  | both => rfl

/-- Entries with a property at a side, if it is open. -/
theorem countP_side_after (calls : List Call) (side : Side) (u : NodeId) (isOpen : Prop)
    [Decidable isOpen] (p : Entry → Prop) [DecidablePred p] :
    (if isOpen then (after calls).entriesOf side u else []).countP p =
      (added calls).countP fun x => isOpen ∧ (side.parts x).1 = u ∧ p (side.parts x).2 := by
  by_cases hopen : isOpen
  · rw [if_pos hopen, entriesOf_after, countP_entriesAt]
    refine List.countP_congr fun x _ => ?_
    rw [decide_eq_true_iff, decide_eq_true_iff, and_iff_right hopen]
  · rw [if_neg hopen, List.countP_nil, List.countP_eq_zero.2]
    intro x _ h
    exact hopen (of_decide_eq_true h).1

/-- **The entries of a node** with a property are the edges at its side of which it holds; with
both directions open they are counted at either side. -/
theorem countP_edges_after (calls : List Call) (u : NodeId) (p : Entry → Prop)
    [DecidablePred p] :
    ((after calls).edges u).countP p =
      (added calls).countP (fun x => (after calls).direction ≠ .incoming ∧ x.source = u
        ∧ p ⟨x.target, x.label⟩)
      + (added calls).countP (fun x => (after calls).direction ≠ .outgoing ∧ x.target = u
        ∧ p ⟨x.source, x.label⟩) := by
  rw [edges_eq_append, List.countP_append, countP_side_after, countP_side_after]
  rfl

/-- Members with either of two properties and members with both. -/
theorem countP_add_countP {α : Type} (p q : α → Prop) [DecidablePred p] [DecidablePred q]
    (xs : List α) :
    xs.countP p + xs.countP q =
      (xs.countP fun x => p x ∨ q x) + xs.countP fun x => p x ∧ q x := by
  induction xs with
  | nil => rfl
  | cons x xs ih =>
      simp only [List.countP_cons, decide_eq_true_eq]
      by_cases hp : p x <;> by_cases hq : q x <;>
        simp only [hp, hq, or_self, and_self, or_true, true_or, and_true, and_false, if_true,
          if_false] <;> omega

/-- **The entries of a node, each edge once**: what is left over are the edges from the node to
itself when both directions are open. -/
theorem countP_edges_after_eq_add (calls : List Call) (u : NodeId) (p : Entry → Prop)
    [DecidablePred p] :
    ((after calls).edges u).countP p =
      (added calls).countP (fun x => (after calls).direction ≠ .incoming ∧ x.source = u
          ∧ p ⟨x.target, x.label⟩
        ∨ (after calls).direction ≠ .outgoing ∧ x.target = u ∧ p ⟨x.source, x.label⟩)
      + (added calls).countP (fun x => x.Doubled (after calls).direction u ∧ p ⟨u, x.label⟩) := by
  rw [countP_edges_after, countP_add_countP]
  refine congrArg _ (List.countP_congr fun x _ => ?_)
  rw [decide_eq_true_iff, decide_eq_true_iff]
  -- an edge that can be crossed from the node at both of its ends is a loop
  constructor
  · intro h
    obtain ⟨⟨hout, hsource, hp⟩, hin, htarget, -⟩ := h
    refine ⟨⟨?_, hsource, htarget⟩, ?_⟩
    · cases hd : (after calls).direction with
      | outgoing => exact absurd hd hin
      | incoming => exact absurd hd hout
      | both => rfl
    · rw [← htarget]
      exact hp
  · intro h
    obtain ⟨⟨hboth, hsource, htarget⟩, hp⟩ := h
    rw [hboth, hsource, htarget]
    exact ⟨⟨nofun, rfl, hp⟩, nofun, rfl, hp⟩

/-! ## §3. Neighbours and degrees. -/

/-- **The neighbours of a node.** -/
theorem count_adjacentNodes_after (calls : List Call) (u v : NodeId) :
    ((after calls).adjacentNodes u).count v =
      (added calls).countP (fun x => x.Crosses (after calls).direction u v)
      + (added calls).countP fun x => x.Doubled (after calls).direction u ∧ u = v := by
  unfold adjacentNodes
  rw [List.count, List.countP_map]
  exact (List.countP_congr fun e _ => by simp).trans
    (countP_edges_after_eq_add calls u fun e => e.target = v)

/-- **The neighbours of a node over edges of one label.** -/
theorem count_adjacentEdges_after (calls : List Call) (u v : NodeId) (label : Label) :
    ((after calls).adjacentEdges u).count (v, some label) =
      (added calls).countP (fun x => x.Crosses (after calls).direction u v ∧ x.label = label)
      + (added calls).countP fun x =>
          x.Doubled (after calls).direction u ∧ u = v ∧ x.label = label := by
  unfold adjacentEdges
  rw [List.count, List.countP_map]
  have hentries := countP_edges_after_eq_add calls u fun e => e.target = v ∧ e.label = label
  refine (List.countP_congr fun e _ => by simp).trans (hentries.trans ?_)
  refine congrArg (· + _) (List.countP_congr fun x _ => ?_)
  rw [decide_eq_true_iff, decide_eq_true_iff]
  unfold Edge.Crosses
  tauto

/-- **The degree of a node.** -/
theorem degree_after (calls : List Call) (u : NodeId) :
    (after calls).degree u =
      (added calls).countP (fun x => x.Leaves (after calls).direction u)
      + (added calls).countP fun x => x.Doubled (after calls).direction u := by
  have hall := countP_edges_after_eq_add calls u fun _ => True
  simp only [and_true, decide_true, List.countP_true] at hall
  refine hall.trans (congrArg (· + _) (List.countP_congr fun x _ => ?_))
  rw [decide_eq_true_iff, decide_eq_true_iff, Edge.leaves_iff]

/-! ## §4. Each edge once. -/

/-- Every edge that was added is listed once wherever it can be crossed, and nothing else is. -/
structure ListsOnce (calls : List Call) (n : Network) : Prop where
  adjacentNodes : ∀ u v, (n.adjacentNodes u).count v =
    (added calls).countP fun x => x.Crosses n.direction u v
  adjacentEdges : ∀ u v label, (n.adjacentEdges u).count (v, some label) =
    (added calls).countP fun x => x.Crosses n.direction u v ∧ x.label = label
  degree : ∀ u, n.degree u = (added calls).countP fun x => x.Leaves n.direction u

/-- **How often edges are listed.**  Whatever was called, a neighbour comes once for every edge
that can be crossed to it, and the degree counts the edges that can be crossed; with both
directions open, each edge from the node to itself comes in once more.  So every edge is
listed once just when not both directions are open or no edge leads from a node to itself. -/
theorem adjacency_after (calls : List Call) :
    (∀ u v, ((after calls).adjacentNodes u).count v =
        (added calls).countP (fun x => x.Crosses (after calls).direction u v)
        + (added calls).countP fun x => x.Doubled (after calls).direction u ∧ u = v)
      ∧ (∀ u v label, ((after calls).adjacentEdges u).count (v, some label) =
        (added calls).countP (fun x => x.Crosses (after calls).direction u v ∧ x.label = label)
        + (added calls).countP fun x =>
            x.Doubled (after calls).direction u ∧ u = v ∧ x.label = label)
      ∧ (∀ u, (after calls).degree u =
        (added calls).countP (fun x => x.Leaves (after calls).direction u)
        + (added calls).countP fun x => x.Doubled (after calls).direction u)
      ∧ (ListsOnce calls (after calls) ↔
        ((after calls).direction = .both → ∀ x ∈ added calls, x.source ≠ x.target)) := by
  refine ⟨count_adjacentNodes_after calls, count_adjacentEdges_after calls, degree_after calls, ?_⟩
  constructor
  · intro honce hboth x hx hloop
    -- the degree of its node would count the loop twice
    have hdegree := degree_after calls x.source
    rw [honce.degree] at hdegree
    have hdoubled : 0 < (added calls).countP fun y => y.Doubled (after calls).direction x.source :=
      List.countP_pos_iff.2 ⟨x, hx, by simp [Edge.Doubled, hboth, hloop]⟩
    omega
  · intro hloops
    have hnone : ∀ (u : NodeId) (x : Edge), x ∈ added calls →
        ¬ x.Doubled (after calls).direction u := by
      intro u x hx h
      obtain ⟨hboth, hsource, htarget⟩ := h
      exact hloops hboth x hx (hsource.trans htarget.symm)
    have hzero : ∀ (u : NodeId) (p : Edge → Prop) [DecidablePred p],
        (∀ x, p x → x.Doubled (after calls).direction u) → (added calls).countP p = 0 := by
      intro u p _ hp
      refine List.countP_eq_zero.2 fun x hx h => hnone u x hx (hp x ?_)
      exact of_decide_eq_true h
    exact {
      adjacentNodes := fun u v =>
        (count_adjacentNodes_after calls u v).trans
          (congrArg (_ + ·) (hzero u _ fun x h => h.1))
      adjacentEdges := fun u v label =>
        (count_adjacentEdges_after calls u v label).trans
          (congrArg (_ + ·) (hzero u _ fun x h => h.1))
      degree := fun u =>
        (degree_after calls u).trans (congrArg (_ + ·) (hzero u _ fun x h => h)) }

/-- **One edge that is listed twice**: a loop at node 1, with both directions open. -/
theorem not_listsOnce_loop : ¬ ListsOnce [.connect 1 1 7] (after [.connect 1 1 7]) := by
  intro honce
  have htwice := honce.adjacentNodes 1 1
  revert htwice
  decide +kernel

end Network

end LabelWalks
