/-
  LabelWalks.Proofs.Synthetic.Attachment
  ──────────────────────────────────────
  **GRAPHS THAT GROW BY ATTACHING.**

  Two families grow by one node after another, each of which is attached to nodes that are
  there already.  The one draws them from a list of the ends of all edges, the other one
  from a surface of recent nodes.  In the list each node comes as often as it has edges,
  although the new node enters it while it is still drawing; the surface is the latest ten
  thousand nodes.  So each new node has an edge to an earlier one, none to itself, and all
  nodes are connected with the first one.

    • `Network.addWith`, `Descending.addWith` — a node with edges to earlier ones,
    • `Anchored`, `Descending.anchored` — what comes of it,
    • `ScaleFree.Attaches`, `ScaleFree.attaches` — the list of ends, and what is drawn from it,
    • `Aggregation.Attaches`, `Aggregation.attaches` — the surface,
    • `growth_is_anchored` — both families at every size.
-/
import LabelWalks.Proofs.Graph.Shape
import LabelWalks.Proofs.Synthetic.Families

namespace LabelWalks

/-! ## §1. A node with its edges. -/

namespace Network

open Synthetic

/-- The network with one node more and edges from it. -/
def addWith (n : Network) (v : NodeId) (label : Label) (edges : List Entry) : Network :=
  edges.foldl (fun n e => n.connect v e.target e.label) (n.add v label)

/-- How many ends of edges are at a node. -/
def incidence (n : Network) (v : NodeId) : Nat :=
  (n.edgesOut v).length + (n.edgesIn v).length

variable {n : Network} {k : Nat}

theorem addWith_nil (n : Network) (v : NodeId) (label : Label) :
    n.addWith v label [] = n.add v label := rfl

theorem addWith_concat (n : Network) (v : NodeId) (label : Label) (edges : List Entry) (e : Entry) :
    n.addWith v label (edges ++ [e]) = (n.addWith v label edges).connect v e.target e.label := by
  unfold addWith
  rw [List.foldl_append]
  rfl

theorem entriesOf_add (n : Network) (v : NodeId) (label : Label) (side : Side) (u : NodeId) :
    (n.add v label).entriesOf side u = n.entriesOf side u := by
  cases side <;> rfl

/-- One edge more is one end more at both of its nodes. -/
theorem incidence_connect (n : Network) (v w : NodeId) (label : Label) (u : NodeId) :
    (n.connect v w label).incidence u =
      n.incidence u + ((if v = u then 1 else 0) + if w = u then 1 else 0) := by
  show ((n.connect v w label).entriesOf .source u).length
    + ((n.connect v w label).entriesOf .target u).length = _
  rw [entriesOf_connect, entriesOf_connect, entriesAt_singleton, entriesAt_singleton,
    List.length_append, List.length_append]
  show (n.edgesOut u).length + (if v = u then _ else _ : List Entry).length
    + ((n.edgesIn u).length + (if w = u then _ else _ : List Entry).length) = _
  unfold incidence
  split_ifs <;> simp only [List.length_singleton, List.length_nil] <;> omega

/-- No edge ends where it starts. -/
def Loopless (n : Network) : Prop :=
  ∀ side v, ∀ e ∈ n.entriesOf side v, e.target ≠ v

theorem Loopless.connect (h : n.Loopless) {v w : NodeId} (hne : v ≠ w) (label : Label) :
    (n.connect v w label).Loopless := by
  intro side u e he
  rcases mem_or_of_mem_connect he with he | ⟨rfl, rfl⟩ | ⟨rfl, rfl⟩
  · exact h side u e he
  · exact hne.symm
  · exact hne

/-- Two nodes with an edge from one to the other. -/
def Touches (n : Network) (v w : NodeId) : Prop :=
  w ∈ (n.edgesOut v).map Entry.target ∨ v ∈ (n.edgesOut w).map Entry.target

theorem mem_targets_connect {v w u x : NodeId} {label : Label} :
    x ∈ ((n.connect v w label).edgesOut u).map Entry.target ↔
      x ∈ (n.edgesOut u).map Entry.target ∨ (v = u ∧ w = x) := by
  show x ∈ ((n.connect v w label).entriesOf .source u).map Entry.target ↔ _
  rw [entriesOf_connect, entriesAt_singleton, List.map_append, List.mem_append]
  refine or_congr_right ?_
  show x ∈ (if v = u then [⟨w, label⟩] else [] : List Entry).map Entry.target ↔ _
  by_cases hv : v = u
  · simp [hv, eq_comm]
  · simp [hv]

/-! ## §2. Nodes attached to earlier ones. -/

/-- The edges of a new node lead to nodes before it. -/
def Backward (k : Nat) (edges : List Entry) : Prop :=
  ∀ e ∈ edges, e.target.toNat < k ∧ e.label.toNat ≤ 10

section
variable {label : Label} {edges : List Entry}

theorem Numbered.addWith (h : n.Numbered k) (hk : k < UInt64.size) (hlabel : label.toNat ≤ 10)
    (hedges : Backward k edges) : (n.addWith (nodeId k) label edges).Numbered (k + 1) := by
  induction edges using List.reverseRecOn with
  | nil => exact h.add hk hlabel
  | append_singleton edges e ih =>
      rw [addWith_concat]
      obtain ⟨htarget, hlabel'⟩ := hedges e (List.mem_append_right _ (List.mem_singleton.2 rfl))
      have hrest := ih fun e he => hedges e (List.mem_append_left _ he)
      exact hrest.connect (toNat_nodeId_lt (Nat.lt_succ_self k) hk) (by omega) hlabel'

theorem Loopless.addWith (h : n.Loopless) (hk : k < UInt64.size) (hedges : Backward k edges) :
    (n.addWith (nodeId k) label edges).Loopless := by
  induction edges using List.reverseRecOn with
  | nil =>
      intro side v e he
      exact h side v e (by rwa [addWith_nil, entriesOf_add] at he)
  | append_singleton edges e ih =>
      rw [addWith_concat]
      have htarget := (hedges e (List.mem_append_right _ (List.mem_singleton.2 rfl))).1
      refine (ih fun e he => hedges e (List.mem_append_left _ he)).connect (fun hself => ?_) _
      rw [← hself, toNat_nodeId hk] at htarget
      exact Nat.lt_irrefl k htarget

theorem mem_targets_addWith {v u x : NodeId} :
    x ∈ ((n.addWith v label edges).edgesOut u).map Entry.target ↔
      x ∈ (n.edgesOut u).map Entry.target ∨ (v = u ∧ ∃ e ∈ edges, e.target = x) := by
  induction edges using List.reverseRecOn with
  | nil =>
      show x ∈ ((n.add v label).edgesOut u).map Entry.target ↔ _
      simp [add, edgesOut]
  | append_singleton edges e ih =>
      rw [addWith_concat, mem_targets_connect, ih, or_assoc, ← and_or_left]
      simp

end

/-- The nodes are the numbers below `k`, no edge is a loop, and each node but the first one has an
edge with a node of a smaller number. -/
structure Descending (k : Nat) (n : Network) : Prop where
  numbered : n.Numbered k
  loopless : n.Loopless
  lower : ∀ v : NodeId, v.toNat < k → v ≠ nodeId 0 → ∃ w : NodeId, w.toNat < v.toNat ∧ n.Touches v w

/-- **A node that is attached** to an earlier one, and maybe to others. -/
theorem Descending.addWith (h : n.Descending k) (hk : k < UInt64.size) {label : Label}
    (hlabel : label.toNat ≤ 10) {edges : List Entry} (hne : edges ≠ [])
    (hedges : Backward k edges) :
    (n.addWith (nodeId k) label edges).Descending (k + 1) := by
  refine ⟨h.numbered.addWith hk hlabel hedges, h.loopless.addWith hk hedges, fun v hv hfirst => ?_⟩
  by_cases hold : v.toNat < k
  · obtain ⟨w, hw, htouch⟩ := h.lower v hold hfirst
    refine ⟨w, hw, htouch.imp ?_ ?_⟩
    · exact fun hmem => mem_targets_addWith.2 (.inl hmem)
    · exact fun hmem => mem_targets_addWith.2 (.inl hmem)
  · -- the new node itself
    obtain ⟨e, he⟩ := List.exists_mem_of_ne_nil edges hne
    have hnew : nodeId k = v := by
      rw [← UInt64.toNat_inj, toNat_nodeId hk]
      omega
    refine ⟨e.target, Nat.lt_of_lt_of_le (hedges e he).1 (Nat.le_of_not_lt hold), .inl ?_⟩
    exact mem_targets_addWith.2 (.inr ⟨hnew, e, he, rfl⟩)

/-- A graph of a size without loops, in which each node is connected with the first one. -/
structure Anchored (size : Nat) (n : Network) : Prop where
  nodes : ∀ v, v ∈ n.nodeIds ↔ v.toNat < size
  loopless : n.Loopless
  connected : ∀ v root : n.Node, root.1 = nodeId 0 → n.shape.Reachable v root

theorem Descending.anchored (h : n.Descending k) : n.Anchored k where
  nodes := h.numbered.nodes
  loopless := h.loopless
  connected v root hroot := by
    refine reachable_of_descends (fun v : n.Node => v.1.toNat) (fun v hv => ?_) v
    have hlt := (h.numbered.nodes v.1).1 v.2
    have hne : v.1 ≠ nodeId 0 := fun hsame => hv (Subtype.ext (hsame.trans hroot.symm))
    obtain ⟨w, hw, htouch⟩ := h.lower v.1 hlt hne
    refine ⟨⟨w, (h.numbered.nodes w).2 (by omega)⟩, hw, shape_adj_iff.2 ⟨fun hsame => ?_, htouch⟩⟩
    have hsame : v.1 = w := congrArg Subtype.val hsame
    rw [hsame] at hw
    exact Nat.lt_irrefl _ hw

end Network

/-! ## §3. Edges drawn from the ends of edges. -/

namespace Synthetic

open Draw Network

namespace ScaleFree

variable {k size seed : Nat} {t t' : Growth}

/-- The list of ends has each node as often as there are ends of edges at the node. -/
def Counted (t : Growth) : Prop :=
  ∀ v, t.ends.count v = t.graph.incidence v

theorem Counted.join (h : Counted t) (v w : NodeId) (label : Label) :
    Counted ⟨t.graph.connect v w label, (t.ends.push v).push w⟩ := by
  intro u
  show ((t.ends.push v).push w).count u = (t.graph.connect v w label).incidence u
  rw [Array.count_push, Array.count_push, h u, incidence_connect]
  simp only [beq_iff_eq]
  omega

theorem Counted.mem_ends (h : Counted t) {v : NodeId} (hv : 0 < t.graph.incidence v) :
    v ∈ t.ends := by
  rw [← h v] at hv
  exact Array.count_pos_iff.1 hv

/-- All ends are nodes of the graph. -/
theorem Counted.lt (h : Counted t) (hnumbered : t.graph.Numbered k) {v : NodeId}
    (hv : v ∈ t.ends) : v.toNat < k := by
  have hcount := Array.count_pos_iff.2 hv
  rw [h v] at hcount
  unfold incidence at hcount
  rcases Nat.add_pos_iff_pos_or_pos.1 hcount with hout | hin
  · obtain ⟨e, he⟩ := List.exists_mem_of_length_pos hout
    exact (hnumbered.ends .source v e he).1
  · obtain ⟨e, he⟩ := List.exists_mem_of_length_pos hin
    exact (hnumbered.ends .target v e he).1

/-- With a second node there is an edge, and so an end. -/
theorem Counted.nonempty (h : Counted t) (hgraph : t.graph.Descending k) (hk : 1 < k)
    (hword : k ≤ UInt64.size) : ∃ v, v ∈ t.ends := by
  have hone : (nodeId 1).toNat = 1 := toNat_nodeId (by omega)
  obtain ⟨w, -, htouch⟩ := hgraph.lower (nodeId 1) (by omega) (by decide)
  have hsome : ∀ {v w : NodeId}, w ∈ (t.graph.edgesOut v).map Entry.target → v ∈ t.ends := by
    intro v w hmem
    refine h.mem_ends (Nat.add_pos_left ?_ _)
    rw [← List.length_map (f := Entry.target)]
    exact List.length_pos_of_mem hmem
  rcases htouch with hmem | hmem
  · exact ⟨_, hsome hmem⟩
  · exact ⟨_, hsome hmem⟩

/-- An edge is drawn with a small label. -/
theorem gives_join_eq (t : Growth) (v w : NodeId) :
    (join t v w).Gives fun t' => ∃ label : Label, label.toNat ≤ 10
      ∧ t' = ⟨t.graph.connect v w label, (t.ends.push v).push w⟩ := by
  refine (gives_connect t.graph v w).bind fun g hg => gives_pure ?_
  obtain ⟨label, hlabel, rfl⟩ := hg
  exact ⟨label, hlabel, rfl⟩

/-! ### The nodes that are joined in pairs. -/

/-- The first nodes in the course of their joining: those before `i` are joined with all after
them, and node `i` with those before `j`. -/
structure Joined (seed i j : Nat) (t : Growth) : Prop where
  numbered : t.graph.Numbered seed
  loopless : t.graph.Loopless
  counted : Counted t
  pairs : ∀ a b, a < i ∨ a = i ∧ b < j → a < b → b < seed →
    nodeId b ∈ (t.graph.edgesOut (nodeId a)).map Entry.target

theorem gives_joinLater_pairs {i : Nat} (h : Joined seed i 0 t) (hi : i < seed)
    (hseed : seed ≤ UInt64.size) : (joinLater seed t i).Gives (Joined seed (i + 1) 0) := by
  have hstart : Joined seed i (i + 1) t :=
    ⟨h.numbered, h.loopless, h.counted, fun a b hab hlt hb => h.pairs a b (by omega) hlt hb⟩
  have hall := gives_foldlM_range' (f := fun t j => join t (nodeId i) (nodeId j))
    (I := fun j => Joined seed i j) (seed - (i + 1)) hstart fun j t hfirst hj ht => ?_
  · refine hall.imp fun t ht => ⟨ht.numbered, ht.loopless, ht.counted, fun a b hab hlt hb => ?_⟩
    exact ht.pairs a b (by omega) hlt hb
  · have hi : (nodeId i).toNat = i := toNat_nodeId (by omega)
    have hj : (nodeId j).toNat = j := toNat_nodeId (by omega)
    refine (gives_join_eq t (nodeId i) (nodeId j)).imp fun t' ht' => ?_
    obtain ⟨label, hlabel, rfl⟩ := ht'
    refine ⟨ht.numbered.connect (by omega) (by omega) hlabel, ht.loopless.connect ?_ label,
      ht.counted.join _ _ label, fun a b hab hlt hb => mem_targets_connect.2 ?_⟩
    · intro hself
      have hsame := congrArg UInt64.toNat hself
      omega
    · by_cases hlast : a = i ∧ b = j
      · obtain ⟨rfl, rfl⟩ := hlast
        exact .inr ⟨rfl, rfl⟩
      · exact .inl (ht.pairs a b (by omega) hlt hb)

/-- Nodes one after another without an edge. -/
theorem gives_addNodes_bare (count : Nat) (hcount : count ≤ UInt64.size) :
    (addNodes .empty 0 count).Gives fun g =>
      g.Numbered count ∧ ∀ side v, g.entriesOf side v = [] := by
  have hall := gives_foldlM_range' (f := fun g i => addNode g (nodeId i))
    (I := fun i g => g.Numbered i ∧ ∀ side v, g.entriesOf side v = []) count
    ⟨Numbered.empty, entriesOf_empty⟩ fun i g _ hi hg => ?_
  · rwa [Nat.zero_add] at hall
  · refine (gives_add g (nodeId i)).imp fun g' hg' => ?_
    obtain ⟨label, hlabel, rfl⟩ := hg'
    refine ⟨hg.1.add (by omega) hlabel, fun side v => ?_⟩
    rw [entriesOf_add, hg.2]

/-- **The first nodes**, each joined with each: the list of ends is that of these edges. -/
theorem gives_clique_joined (seed : Nat) (hseed : seed ≤ UInt64.size) :
    (do let graph ← addNodes .empty 0 seed
        (List.range seed).foldlM (joinLater seed) ⟨graph, #[]⟩).Gives
      fun t => t.graph.Descending seed ∧ Counted t := by
  refine (gives_addNodes_bare seed hseed).bind fun g hg => ?_
  have hstart : Joined seed 0 0 ⟨g, #[]⟩ := by
    refine ⟨hg.1, fun side v e he => ?_, fun v => ?_, fun a b hab => by omega⟩
    · rw [hg.2] at he
      cases he
    · show 0 = (g.entriesOf .source v).length + (g.entriesOf .target v).length
      rw [hg.2, hg.2]
      rfl
  have hall := gives_foldlM_range (f := joinLater seed) (I := fun i => Joined seed i 0) seed hstart
    fun i t hi ht => gives_joinLater_pairs ht hi hseed
  refine hall.imp fun t ht => ⟨⟨ht.numbered, ht.loopless, fun v hv hfirst => ?_⟩, ht.counted⟩
  -- the first node is joined with all others
  have hself : nodeId v.toNat = v := UInt64.ofNat_toNat
  have hpos : 0 < v.toNat := by
    refine Nat.pos_of_ne_zero fun hzero => hfirst ?_
    rw [← hself, hzero]
  have hmem := ht.pairs 0 v.toNat (by omega) hpos hv
  rw [hself] at hmem
  exact ⟨nodeId 0, hpos, .inr hmem⟩

/-! ### The nodes after them. -/

/-- A new node in the course of its draws: it has edges to earlier nodes, one at least as soon as
it has drawn, and before that the list of ends is as it was. -/
def Drawn (k : Nat) (t : Growth) (label : Label) (draws : Nat) (t' : Growth) : Prop :=
  ∃ edges, t'.graph = t.graph.addWith (nodeId k) label edges ∧ Backward k edges
    ∧ edges.length ≤ draws ∧ Counted t' ∧ (edges = [] → draws = 0 ∧ t'.ends = t.ends)

/-- **One draw** of a new node. -/
theorem yields_attach_drawn {label : Label} {draws : Nat} (hnumbered : t.graph.Numbered k)
    (hcounted : Counted t) (hsome : ∃ v, v ∈ t.ends) (hk : k < UInt64.size)
    (hlabel : label.toNat ≤ 10) (ht' : Drawn k t label draws t') :
    (attach (nodeId k) t').Yields (Drawn k t label (draws + 1)) := by
  obtain ⟨edges, hgraph, hedges, hlength, hcounted', hfirst⟩ := ht'
  -- an edge that is there already makes do for a draw without one
  have hsame : edges ≠ [] → Drawn k t label (draws + 1) t' := fun hne =>
    ⟨edges, hgraph, hedges, Nat.le_succ_of_le hlength, hcounted', fun h => absurd h hne⟩
  unfold attach
  by_cases hempty : t'.ends.isEmpty = true
  · rw [if_pos hempty]
    refine yields_pure (hsame fun hnil => ?_)
    obtain ⟨v, hv⟩ := hsome
    rw [← (hfirst hnil).2, Array.isEmpty_iff.1 hempty] at hv
    exact Array.not_mem_empty v hv
  · rw [if_neg hempty]
    refine (yields_pick t'.ends).bind fun target htarget => ?_
    by_cases hself : target = nodeId k
    · rw [if_pos hself]
      refine yields_pure (hsame fun hnil => ?_)
      -- the new node is not in the list before its first edge
      rw [(hfirst hnil).2, hself] at htarget
      have hlt := hcounted.lt hnumbered htarget
      rw [toNat_nodeId hk] at hlt
      exact Nat.lt_irrefl k hlt
    · rw [if_neg hself]
      refine (gives_join_eq t' (nodeId k) target).yields.imp fun t'' ht'' => ?_
      obtain ⟨label', hlabel', rfl⟩ := ht''
      have hlt : target.toNat < k + 1 := by
        refine hcounted'.lt ?_ htarget
        rw [hgraph]
        exact hnumbered.addWith hk hlabel hedges
      have hne : target.toNat ≠ k := fun hnat => hself <| by
        rw [← UInt64.toNat_inj, hnat, toNat_nodeId hk]
      refine ⟨edges ++ [⟨target, label'⟩], ?_, ?_, ?_, hcounted'.join _ _ _, fun h => ?_⟩
      · rw [addWith_concat, ← hgraph]
      · intro e he
        rcases List.mem_append.1 he with he | he
        · exact hedges e he
        · rw [List.mem_singleton.1 he]
          exact ⟨by show target.toNat < k; omega, hlabel'⟩
      · rw [List.length_append, List.length_singleton]
        omega
      · exact absurd h (List.append_ne_nil_of_right_ne_nil _ (List.cons_ne_nil _ _))

/-- The graph before a node is added, and after: the node comes with one to three edges, all of
them to earlier nodes. -/
def AttachedTo (k : Nat) (t t' : Growth) : Prop :=
  ∃ label edges, t'.graph = t.graph.addWith (nodeId k) label edges
    ∧ 1 ≤ edges.length ∧ edges.length ≤ 3 ∧ ∀ e ∈ edges, e.target.toNat < k

/-- **One node more.** -/
theorem yields_addAttached_edges (hgraph : t.graph.Descending k) (hcounted : Counted t) (hk : 1 < k)
    (hword : k < UInt64.size) : (addAttached t k).Yields fun t' =>
      AttachedTo k t t' ∧ t'.graph.Descending (k + 1) ∧ Counted t' := by
  have hsome := hcounted.nonempty hgraph hk hword.le
  refine (gives_add t.graph (nodeId k)).yields.bind fun g hg => ?_
  obtain ⟨label, hlabel, rfl⟩ := hg
  have hstart : Drawn k t label 0 ⟨t.graph.add (nodeId k) label, t.ends⟩ := by
    refine ⟨[], rfl, fun e he => (List.not_mem_nil he).elim, Nat.le_refl _, fun v => ?_,
      fun _ => ⟨rfl, rfl⟩⟩
    exact hcounted v
  have hall := yields_foldlM_range' (f := fun t' _ => attach (nodeId k) t')
    (I := Drawn k t label) (min 3 k) hstart fun draws t' _ _ ht' =>
      yields_attach_drawn hgraph.numbered hcounted hsome hword hlabel ht'
  rw [Nat.zero_add] at hall
  rw [List.range_eq_range']
  refine hall.imp fun t' ht' => ?_
  obtain ⟨edges, hgraph', hedges, hlength, hcounted', hfirst⟩ := ht'
  have hne : edges ≠ [] := fun hnil => by
    have hzero := (hfirst hnil).1
    omega
  refine ⟨⟨label, edges, hgraph', List.length_pos_iff.2 hne, by omega, fun e he => (hedges e he).1⟩,
    ?_, hcounted'⟩
  rw [hgraph']
  exact hgraph.addWith hword hlabel hne hedges

/-- The state in which a node comes to be added. -/
def before (size k : Nat) : Draw Growth := do
  let seed := min 5 size
  let graph ← addNodes .empty 0 seed
  let t ← (List.range seed).foldlM (joinLater seed) ⟨graph, #[]⟩
  (List.range' seed (k - seed)).foldlM addAttached t

/-- A graph is drawn up to any node and then on from there. -/
theorem generate_eq_before (hfirst : min 5 size ≤ k) (hk : k ≤ size) :
    generate size = do
      let t ← before size k
      let t ← (List.range' k (size - k)).foldlM addAttached t
      return t.graph := by
  have hrange : List.range' (min 5 size) (size - min 5 size) =
      List.range' (min 5 size) (k - min 5 size) ++ List.range' k (size - k) := by
    have happend := @List.range'_append_1 (min 5 size) (k - min 5 size) (size - k)
    rw [Nat.add_sub_of_le hfirst] at happend
    rw [happend, show k - min 5 size + (size - k) = size - min 5 size by omega]
  unfold generate before
  simp only [hrange, List.foldlM_append, bind_assoc]

/-- **Every state** of the loop. -/
theorem yields_before (hsize : size < UInt64.size) (hfirst : min 5 size ≤ k) (hk : k ≤ size) :
    (before size k).Yields fun t => t.graph.Descending k ∧ Counted t := by
  have hclique := (gives_clique_joined (min 5 size) (by omega)).yields
  have hall : ∀ t, t.graph.Descending (min 5 size) ∧ Counted t →
      ((List.range' (min 5 size) (k - min 5 size)).foldlM addAttached t).Yields fun t =>
        t.graph.Descending k ∧ Counted t := by
    intro t ht
    have hrest := yields_foldlM_range' (f := addAttached)
      (I := fun i t => t.graph.Descending i ∧ Counted t) (k - min 5 size) ht fun i t hi hlt ht =>
        (yields_addAttached_edges ht.1 ht.2 (by omega) (by omega)).imp fun t' h => h.2
    rwa [Nat.add_sub_of_le hfirst] at hrest
  have hboth := hclique.bind hall
  unfold before
  simpa only [bind_assoc] using hboth

/-- What is promised of the turn in which a node is added. -/
structure Attaches (size k : Nat) : Prop where
  /-- This is the state that the loop has come to. -/
  reached : generate size = do
    let t ← before size k
    let t ← (List.range' k (size - k)).foldlM addAttached t
    return t.graph
  /-- The list of ends has each node as often as it has ends of edges, and earlier nodes only;
  the new node is attached to some of these. -/
  turn : (before size k).Yields fun t =>
    (∀ v, t.ends.count v = t.graph.incidence v) ∧ (∀ v ∈ t.ends, v.toNat < k)
      ∧ (addAttached t k).Yields (AttachedTo k t)

theorem attaches (hsize : size < UInt64.size) (hfirst : min 5 size ≤ k) (hk : k < size) :
    Attaches size k where
  reached := generate_eq_before hfirst hk.le
  turn := (yields_before hsize hfirst hk.le).imp fun t ht =>
    ⟨ht.2, fun _ hv => ht.2.lt ht.1.numbered hv,
      (yields_addAttached_edges ht.1 ht.2 (by omega) (by omega)).imp fun _ h => h.1⟩

theorem yields_anchored (hsize : size < UInt64.size) :
    (generate size).Yields (Anchored size) := by
  rw [generate_eq_before (Nat.min_le_right 5 size) (Nat.le_refl size), Nat.sub_self]
  refine (yields_before hsize (Nat.min_le_right 5 size) (Nat.le_refl size)).bind fun t ht => ?_
  exact yields_pure ht.1.anchored

end ScaleFree

/-! ## §4. Edges drawn from a surface. -/

namespace Aggregation

variable {k size : Nat} {t : Growth} {s : Surface}

/-- The nodes that are on the surface, the oldest first. -/
def Surface.members (s : Surface) : List NodeId :=
  s.nodes.toList.drop s.left

/-- All nodes have been on the surface, and all but the latest have left it. -/
structure Recent (k : Nat) (s : Surface) : Prop where
  nodes : s.nodes.toList = (List.range k).map nodeId
  left : s.left = k - surfaceLimit

/-- **The surface** is the latest nodes, in order. -/
theorem Recent.members_eq (h : Recent k s) :
    s.members = (List.range' (k - surfaceLimit) (min k surfaceLimit)).map nodeId := by
  unfold Surface.members
  rw [h.nodes, h.left, ← List.map_drop, List.range_eq_range', List.drop_range',
    show k - (k - surfaceLimit) = min k surfaceLimit by omega]
  simp

/-- The node that is added enters the surface, and the oldest one leaves it when there are too
many. -/
theorem Recent.push (h : Recent k s) : Recent (k + 1) (s.push (nodeId k)) := by
  have hsize : s.nodes.size = k := by
    have hlength := congrArg List.length h.nodes
    rwa [Array.length_toList, List.length_map, List.length_range] at hlength
  refine ⟨?_, ?_⟩
  · show (s.nodes.push (nodeId k)).toList = (List.range (k + 1)).map nodeId
    rw [Array.toList_push, h.nodes, List.range_succ, List.map_append]
    rfl
  · show (if surfaceLimit < (s.nodes.push (nodeId k)).size - s.left then s.left + 1 else s.left) =
      k + 1 - surfaceLimit
    rw [Array.size_push, hsize, h.left]
    split <;> omega

/-- A drawn node is on the surface. -/
theorem yields_pick_member (s : Surface) : s.pick.Yields fun v => v ∈ s.members := by
  refine Yields.bind (P := fun _ => True) (fun _ _ _ _ => trivial) fun i _ => ?_
  split
  next v hv =>
    refine yields_pure (List.mem_of_getElem? (i := i.toNat) ?_)
    rw [Surface.members, List.getElem?_drop, Array.getElem?_toList]
    exact hv
  next => exact yields_failure

/-- The graph before a node is added, and after: the node comes with an edge to a recent node, and
maybe with one to another earlier node. -/
def AttachedTo (k : Nat) (t t' : Growth) : Prop :=
  ∃ label first others, t'.graph = t.graph.addWith (nodeId k) label (first :: others)
    ∧ others.length ≤ 1 ∧ ((first :: others).map Entry.target).Nodup
    ∧ (∀ e ∈ first :: others, e.target.toNat < k) ∧ k - surfaceLimit ≤ first.target.toNat

/-- A second edge leads to an earlier node, and not to the same one. -/
theorem yields_addSecond (g : Network) (first : NodeId) (hk : k < UInt64.size) :
    (addSecond k first g).Yields fun g' => g' = g ∨ ∃ (other : NodeId) (label : Label),
      other.toNat < k ∧ first ≠ other ∧ label.toNat ≤ 10
        ∧ g' = g.connect (nodeId k) other label := by
  refine (gives_below (by decide)).yields.bind fun x _ => ?_
  by_cases hsecond : x = 0 ∧ 1 < k
  · rw [if_pos hsecond]
    refine (gives_below_ofNat (by omega) hk).yields.bind fun other hother => ?_
    by_cases hsame : other = first
    · rw [if_pos hsame]
      exact yields_pure (.inl rfl)
    · rw [if_neg hsame]
      refine (gives_connect g (nodeId k) other).yields.imp fun g' hg' => .inr ?_
      obtain ⟨label, hlabel, rfl⟩ := hg'
      exact ⟨other, label, hother, fun h => hsame h.symm, hlabel, rfl⟩
  · rw [if_neg hsecond]
    exact yields_pure (.inl rfl)

/-- **One node more.** -/
theorem yields_addStuck_edges (hgraph : t.graph.Descending k) (hrecent : Recent k t.surface)
    (hk : k < UInt64.size) : (addStuck t k).Yields fun t' =>
      AttachedTo k t t' ∧ t'.graph.Descending (k + 1) ∧ Recent (k + 1) t'.surface := by
  refine (gives_add t.graph (nodeId k)).yields.bind fun g hg => ?_
  obtain ⟨label, hlabel, rfl⟩ := hg
  refine (yields_pick_member t.surface).bind fun target htarget => ?_
  -- a node of the surface is one of the latest
  rw [hrecent.members_eq] at htarget
  obtain ⟨c, hc, rfl⟩ := List.mem_map.1 htarget
  have hc := List.mem_range'_1.1 hc
  have hnat : (nodeId c).toNat = c := toNat_nodeId (by omega)
  have hrecent' : k - surfaceLimit ≤ (nodeId c).toNat := by omega
  refine (gives_connect _ _ _).yields.bind fun g hg => ?_
  obtain ⟨firstLabel, hfirst, rfl⟩ := hg
  have hbackward : Backward k [⟨nodeId c, firstLabel⟩] := by
    intro e he
    rw [List.mem_singleton.1 he]
    exact ⟨by show (nodeId c).toNat < k; omega, hfirst⟩
  refine (yields_addSecond _ (nodeId c) hk).bind fun g hg => yields_pure ?_
  rcases hg with rfl | ⟨other, otherLabel, hother, hne, hlabel', rfl⟩
  · refine ⟨⟨label, ⟨nodeId c, firstLabel⟩, [], rfl, Nat.zero_le _, List.nodup_singleton _,
      fun e he => (hbackward e he).1, hrecent'⟩, ?_, hrecent.push⟩
    exact hgraph.addWith hk hlabel (List.cons_ne_nil _ _) hbackward
  · have hboth : Backward k [⟨nodeId c, firstLabel⟩, ⟨other, otherLabel⟩] := by
      intro e he
      rcases List.mem_cons.1 he with rfl | he
      · exact hbackward _ (List.mem_singleton.2 rfl)
      · rw [List.mem_singleton.1 he]
        exact ⟨hother, hlabel'⟩
    refine ⟨⟨label, ⟨nodeId c, firstLabel⟩, [⟨other, otherLabel⟩], rfl, Nat.le_refl _, ?_,
      fun e he => (hboth e he).1, hrecent'⟩, ?_, hrecent.push⟩
    · simpa using hne
    · exact hgraph.addWith hk hlabel (List.cons_ne_nil _ _) hboth

/-- The state in which a node comes to be added. -/
def before (k : Nat) : Draw Growth := do
  let graph ← addNode .empty (nodeId 0)
  (List.range' 1 (k - 1)).foldlM addStuck ⟨graph, ⟨#[nodeId 0], 0⟩⟩

/-- A graph is drawn up to any node and then on from there. -/
theorem generate_eq_before (hpos : 1 ≤ k) (hk : k ≤ size) :
    generate size = do
      let t ← before k
      let t ← (List.range' k (size - k)).foldlM addStuck t
      return t.graph := by
  have hrange : List.range' 1 (size - 1) = List.range' 1 (k - 1) ++ List.range' k (size - k) := by
    have happend := @List.range'_append_1 1 (k - 1) (size - k)
    rw [Nat.add_sub_of_le hpos] at happend
    rw [happend, show k - 1 + (size - k) = size - 1 by omega]
  unfold generate before
  rw [if_neg (by omega)]
  simp only [hrange, List.foldlM_append, bind_assoc]

theorem descending_root {label : Label} (hlabel : label.toNat ≤ 10) :
    (Network.empty.add (nodeId 0) label).Descending 1 where
  numbered := Numbered.empty.add (by decide) hlabel
  loopless side v e he := by
    rw [entriesOf_add, entriesOf_empty] at he
    cases he
  lower v hv hfirst := by
    refine absurd ?_ hfirst
    rw [← UInt64.toNat_inj, toNat_nodeId (by decide)]
    omega

/-- **Every state** of the loop. -/
theorem yields_before (hpos : 1 ≤ k) (hk : k ≤ UInt64.size) :
    (before k).Yields fun t => t.graph.Descending k ∧ Recent k t.surface := by
  refine (gives_add .empty (nodeId 0)).yields.bind fun g hg => ?_
  obtain ⟨label, hlabel, rfl⟩ := hg
  have hall := yields_foldlM_range' (f := addStuck)
    (I := fun i t => t.graph.Descending i ∧ Recent i t.surface)
    (b := ⟨Network.empty.add (nodeId 0) label, ⟨#[nodeId 0], 0⟩⟩) (k - 1)
    ⟨descending_root hlabel, rfl, rfl⟩ fun i t _ hi ht =>
      (yields_addStuck_edges ht.1 ht.2 (by omega)).imp fun t' h => h.2
  rwa [Nat.add_sub_of_le hpos] at hall

/-- What is promised of the turn in which a node is added. -/
structure Attaches (size k : Nat) : Prop where
  /-- This is the state that the loop has come to. -/
  reached : generate size = do
    let t ← before k
    let t ← (List.range' k (size - k)).foldlM addStuck t
    return t.graph
  /-- The surface is the latest nodes, ten thousand at most; the new node is attached to one of
  them. -/
  turn : (before k).Yields fun t =>
    t.surface.members = (List.range' (k - 10000) (min k 10000)).map nodeId
      ∧ (addStuck t k).Yields (AttachedTo k t)

theorem attaches (hsize : size < UInt64.size) (hpos : 1 ≤ k) (hk : k < size) :
    Attaches size k where
  reached := generate_eq_before hpos hk.le
  turn := (yields_before hpos (by omega)).imp fun t ht =>
    ⟨ht.2.members_eq, (yields_addStuck_edges ht.1 ht.2 (by omega)).imp fun _ h => h.1⟩

theorem yields_anchored (hsize : size < UInt64.size) :
    (generate size).Yields (Anchored size) := by
  by_cases hzero : size = 0
  · subst hzero
    unfold generate
    rw [if_pos rfl]
    have hempty : Network.empty.Descending 0 := by
      refine ⟨.empty, fun side v e he => ?_, fun v hv => absurd hv (Nat.not_lt_zero _)⟩
      rw [entriesOf_empty] at he
      cases he
    exact yields_pure hempty.anchored
  · rw [generate_eq_before (Nat.pos_of_ne_zero hzero) (Nat.le_refl size), Nat.sub_self]
    refine (yields_before (Nat.pos_of_ne_zero hzero) hsize.le).bind fun t ht => ?_
    exact yields_pure ht.1.anchored

end Aggregation

/-! ## §5. Both families. -/

/-- **Growth by attaching**, at every size: each state of the loop that draws the graph with hubs
has all ends of edges in its list, and each state of the other one has the latest ten thousand
nodes on its surface; a new node comes with one to three edges, or with one or two, all of them to
earlier nodes.  So no edge of either graph is a loop, and all nodes are connected with the first
one.  There is such a graph as long as a word can count the ends of its edges. -/
theorem growth_is_anchored (size : Nat) (hsize : size < UInt64.size) :
    (∀ k, min 5 size ≤ k → k < size → ScaleFree.Attaches size k)
      ∧ (∀ k, 1 ≤ k → k < size → Aggregation.Attaches size k)
      ∧ (ScaleFree.generate size).Yields (Anchored size)
      ∧ (50 + 6 * size < UInt64.size →
        ∃ g, Family.scaleFree.generate? size = some g ∧ g.Anchored size)
      ∧ (Aggregation.generate size).Yields (Anchored size)
      ∧ ∃ g, Family.aggregation.generate? size = some g ∧ g.Anchored size := by
  have hhubs := ScaleFree.yields_anchored hsize
  have hsurface := Aggregation.yields_anchored hsize
  refine ⟨fun k => ScaleFree.attaches hsize, fun k => Aggregation.attaches hsize, hhubs,
    fun hends => ?_, hsurface, ?_⟩
  · have hgives : (Family.scaleFree.draw size).Gives (Anchored size) :=
      ((ScaleFree.gives_generate hends).and hhubs).imp fun _ h => h.2
    exact Family.exists_of_gives hgives
  · have hgives : (Family.aggregation.draw size).Gives (Anchored size) :=
      ((Aggregation.gives_generate hsize).and hsurface).imp fun _ h => h.2
    exact Family.exists_of_gives hgives

/-- Both families with twelve nodes, when the last one is added. -/
theorem growth_is_anchored_twelve : 12 < UInt64.size ∧ 50 + 6 * 12 < UInt64.size
    ∧ ScaleFree.Attaches 12 11 ∧ Aggregation.Attaches 12 11
    ∧ (∃ g, Family.scaleFree.generate? 12 = some g ∧ g.Anchored 12)
    ∧ ∃ g, Family.aggregation.generate? 12 = some g ∧ g.Anchored 12 := by
  have h := growth_is_anchored 12 (by decide)
  exact ⟨by decide, by decide, h.1 11 (by decide) (by decide), h.2.1 11 (by decide) (by decide),
    h.2.2.2.1 (by decide), h.2.2.2.2.2⟩

end Synthetic

end LabelWalks
