/-
  LabelWalks.Proofs.Recoding.Walk
  ───────────────────────────────
  **THE SAME WALKS UNDER OTHER DENSE INDICES.**

  A walk goes over entries of adjacency lists, and a mapping only says whether an
  entry can be followed.  Two mappings that know all labels of a graph let the same
  entries be followed, so each walk under the one is a walk over the same entries
  under the other, and its tokens stand for the same labels.

    • `Mapping.Knows`, `Network.Built.knows`, `Recoding` — mappings that know a graph,
    • `Recoding.stepsFrom_forall₂`, `Recoding.walksFrom_forall₂` — all hops, all walks,
    • `Recoding.exists_isWalk`, `Recoding.clear`, `Recoding.exists_endsAt` — one walk,
    • `Recoding.walkCount_eq` — the number of walks of a path.
-/
import LabelWalks.Proofs.Census.Completion
import LabelWalks.Proofs.Graph.History
import LabelWalks.Proofs.Recoding.Tokens

namespace LabelWalks

/-! ## §1. Mappings that know a graph. -/

/-- The mapping has an index for every label that the graph answers with. -/
structure Mapping.Knows (m : Mapping) (g : GraphView) : Prop where
  nodes : ∀ v label, g.labelOf v = some label → ∃ index, m.nodeIndex label = .ok index
  edges : ∀ v entries w label, g.adjacentEdges v = .ok entries → (w, some label) ∈ entries →
    ∃ index, m.edgeIndex label = .ok index

/-- An edge that can be followed has one of the labels of the network. -/
theorem Network.Built.mem_edgeLabels {n : Network} (h : n.Built) {v : NodeId} {e : Entry}
    (he : e ∈ n.edges v) : e.label ∈ n.edgeLabels := by
  obtain ⟨calls, rfl⟩ := built_iff.1 h
  have hside : ∃ side, e ∈ (after calls).entriesOf side v := by
    unfold edges at he
    cases hdirection : (after calls).direction with
    | outgoing => exact ⟨.source, by rwa [hdirection] at he⟩
    | incoming => exact ⟨.target, by rwa [hdirection] at he⟩
    | both =>
        rw [hdirection] at he
        rcases List.mem_append.1 he with he | he
        · exact ⟨.source, he⟩
        · exact ⟨.target, he⟩
  obtain ⟨side, he⟩ := hside
  rw [entriesOf_after] at he
  obtain ⟨x, hx, rfl⟩ := List.mem_map.1 he
  refine (mem_edgeLabels_after calls).2 ⟨x, (List.mem_filter.1 hx).1, ?_⟩
  cases side <;> rfl

/-- A mapping knows a network when it has indices for all labels in it. -/
theorem Network.Built.knows {n : Network} (h : n.Built) {m : Mapping}
    (hnodes : (n.nodeLabels.toList.all fun label => (m.nodes.indexOf? label).isSome) = true)
    (hedges : (n.edgeLabels.toList.all fun label => (m.edges.indexOf? label).isSome) = true) :
    m.Knows n.view where
  nodes v label hlabel := by
    have hmem : label ∈ n.nodeLabels := mem_nodeLabels_iff.2 ⟨v, hlabel⟩
    obtain ⟨index, hindex⟩ := Option.isSome_iff_exists.1
      (List.all_eq_true.1 hnodes label (Std.ExtTreeSet.mem_toList.2 hmem))
    exact ⟨index, elim_error_eq_ok_iff.2 hindex⟩
  edges v entries w label hadj hentry := by
    injection hadj with hadj
    subst hadj
    obtain ⟨e, he, hsame⟩ := List.mem_map.1 hentry
    obtain rfl : e.label = label := Option.some.inj (Prod.mk.inj hsame).2
    obtain ⟨index, hindex⟩ := Option.isSome_iff_exists.1
      (List.all_eq_true.1 hedges e.label (Std.ExtTreeSet.mem_toList.2 (h.mem_edgeLabels he)))
    exact ⟨index, elim_error_eq_ok_iff.2 hindex⟩

theorem twinLabels_knows : twinLabels.Knows twins.view :=
  Network.built_twins.knows (by decide +kernel) (by decide +kernel)

/-- The labels of `twins` and others, assigned in an order of their own. -/
def otherLabels : Mapping :=
  (Mapping.ofLabels [2, 5, 1] [9, 7]).toOption.getD .empty

theorem otherLabels_knows : otherLabels.Knows twins.view :=
  Network.built_twins.knows (by decide +kernel) (by decide +kernel)

/-- Two mappings know one graph. -/
structure Recoding (g : GraphView) (m m' : Mapping) : Prop where
  left : m.Knows g
  right : m'.Knows g

/-- An arrival under one mapping and one under another over the same entry. -/
structure Arrival.Recoded (m m' : Mapping) (a a' : Arrival) : Prop where
  node : a'.node = a.node
  hop : SameLabels m m' .edge a.hop.tokens a'.hop.tokens

/-- A walk under one mapping and one under another over the same entries. -/
abbrev RecodedWalk (m m' : Mapping) : List Arrival → List Arrival → Prop :=
  List.Forall₂ (Arrival.Recoded m m')

section
variable {m m' : Mapping} {as as' : List Arrival}

theorem RecodedWalk.hopTokens (h : RecodedWalk m m' as as') :
    SameLabels m m' .edge (hopTokens as) (hopTokens as') := by
  induction h with
  | nil => exact sameLabels_nil
  | cons ha _ ih => exact sameLabels_append_pair.2 ⟨ha.hop, ih⟩

theorem RecodedWalk.endOf_eq (h : RecodedWalk m m' as as') :
    ∀ v, endOf v as' = endOf v as := by
  induction h with
  | nil => intro v; rfl
  | @cons a a' as as' ha _ ih =>
      intro v
      show endOf a'.node as' = endOf a.node as
      rw [ha.node]
      exact ih a.node

/-- The same nodes are come to. -/
theorem RecodedWalk.forall_node (h : RecodedWalk m m' as as') {p : NodeId → Prop}
    (has : ∀ a ∈ as, p a.node) : ∀ a' ∈ as', p a'.node := by
  induction h with
  | nil => intro a' ha'; cases ha'
  | cons ha _ ih =>
      rw [List.forall_mem_cons] at has ⊢
      refine ⟨?_, ih has.2⟩
      rw [ha.node]
      exact has.1

end

namespace Recoding

variable {g : GraphView} {m m' : Mapping} (h : Recoding g m m')
include h

theorem symm : Recoding g m' m :=
  ⟨h.right, h.left⟩

/-! ## §2. One hop. -/

/-- **A node with a dense label** has one under the other mapping, for the same label. -/
theorem exists_indexOfNode {v : NodeId} {n : LabelIndex} (hn : m.indexOfNode g v = .ok n) :
    ∃ n', m'.indexOfNode g v = .ok n'
      ∧ ∃ label, m.nodeLabel n = .ok label ∧ m'.nodeLabel n' = .ok label := by
  unfold Mapping.indexOfNode at hn ⊢
  cases hlabel : g.labelOf v with
  | none =>
      rw [hlabel] at hn
      cases hn
  | some label =>
      rw [hlabel] at hn
      obtain ⟨n', hn'⟩ := h.right.nodes v label hlabel
      exact ⟨n', hn', label, Mapping.nodeLabel_eq_ok_iff.2 hn, Mapping.nodeLabel_eq_ok_iff.2 hn'⟩

/-- **An entry that is followed** is followed under the other mapping. -/
theorem exists_over {v : NodeId} {entries : List (NodeId × Option Label)}
    (hadj : g.adjacentEdges v = .ok entries) {entry : NodeId × Option Label}
    (hentry : entry ∈ entries) {a : Arrival} (ha : Arrival.over g m v entry = .ok a) :
    ∃ a', Arrival.over g m' v entry = .ok a' ∧ a.Recoded m m' a' := by
  obtain ⟨label, rfl, hedge, hnode⟩ := over_eq_ok_iff.1 ha
  -- the graph has answered with both labels, so the other mapping knows them
  obtain ⟨e', hedge'⟩ := h.right.edges v entries a.node label hadj hentry
  obtain ⟨n', hnode', hsame⟩ := h.exists_indexOfNode hnode
  refine ⟨⟨⟨e', n'⟩, a.node⟩, over_eq_ok_iff.2 ⟨label, rfl, hedge', hnode'⟩, rfl, ?_⟩
  refine sameLabels_cons.2 ⟨⟨label, ?_, ?_⟩, sameLabels_cons.2 ⟨hsame, sameLabels_nil⟩⟩
  · exact Mapping.edgeLabel_eq_ok_iff.2 hedge
  · exact Mapping.edgeLabel_eq_ok_iff.2 hedge'

/-- **All hops from a node** go over the same entries. -/
theorem stepsFrom_forall₂ (v : NodeId) : RecodedWalk m m' (stepsFrom g m v) (stepsFrom g m' v) := by
  unfold stepsFrom
  cases hadj : g.adjacentEdges v with
  | error breakdown => exact .nil
  | ok entries =>
      have hentries : List.Forall₂ (fun e e' => e' = e ∧ e ∈ entries) entries entries :=
        List.forall₂_same.2 fun e he => ⟨rfl, he⟩
      refine List.rel_filterMap (fun e e' hsame => ?_) hentries
      obtain ⟨rfl, he⟩ := hsame
      cases hover : Arrival.over g m v e' with
      | ok a =>
          obtain ⟨a', ha', hrecoded⟩ := h.exists_over hadj he hover
          rw [ha']
          exact .some hrecoded
      | error fault =>
          cases hover' : Arrival.over g m' v e' with
          | error fault' => exact .none
          | ok a' =>
              -- an entry that the one mapping cannot follow is none for the other
              obtain ⟨a, ha, -⟩ := h.symm.exists_over hadj he hover'
              rw [ha] at hover
              cases hover

theorem exists_arrives {v : NodeId} {a : Arrival} (ha : Arrives g m v a) :
    ∃ a', Arrives g m' v a' ∧ a.Recoded m m' a' := by
  obtain ⟨a', ha', hrecoded⟩ := exists_mem_of_forall₂ (h.stepsFrom_forall₂ v) (mem_stepsFrom.2 ha)
  exact ⟨a', mem_stepsFrom.1 ha', hrecoded⟩

theorem passable {v : NodeId} (hpass : Passable g m v) : Passable g m' v := by
  obtain ⟨entries, hadj, hall⟩ := hpass
  refine ⟨entries, hadj, fun entry hentry => ?_⟩
  obtain ⟨label, edge, node, hlabel, -, hnode⟩ := hall entry hentry
  obtain ⟨edge', hedge'⟩ := h.right.edges v entries entry.1 label hadj (by rw [← hlabel]; exact hentry)
  obtain ⟨node', hnode', -⟩ := h.exists_indexOfNode hnode
  exact ⟨label, edge', node', hlabel, hedge', hnode'⟩

theorem labelled {nodes : List NodeId} (hnodes : Labelled g m nodes) : Labelled g m' nodes := by
  intro v hv
  obtain ⟨n, hn⟩ := hnodes v hv
  obtain ⟨n', hn', -⟩ := h.exists_indexOfNode hn
  exact ⟨n', hn'⟩

/-! ## §3. One walk. -/

/-- **All walks of a length** go over the same entries. -/
theorem walksFrom_forall₂ (k : Nat) (v : NodeId) :
    List.Forall₂ (RecodedWalk m m') (walksFrom g m k v) (walksFrom g m' k v) := by
  -- on the length, for all nodes: the first hops go together, and come to the same nodes
  induction k generalizing v with
  | zero => exact .cons .nil .nil
  | succ k ih =>
      refine List.rel_flatMap (h.stepsFrom_forall₂ v) fun a a' ha => ?_
      refine List.rel_map (fun as as' has => List.Forall₂.cons ha has) ?_
      rw [ha.node]
      exact ih a.node

theorem exists_isWalk {v : NodeId} {as : List Arrival} (hwalk : IsWalk g m v as) :
    ∃ as', IsWalk g m' v as' ∧ RecodedWalk m m' as as' := by
  obtain ⟨as', hmem, hrecoded⟩ :=
    exists_mem_of_forall₂ (h.walksFrom_forall₂ as.length v) ((mem_walksFrom _).2 ⟨hwalk, rfl⟩)
  exact ⟨as', ((mem_walksFrom _).1 hmem).1, hrecoded⟩

/-- The label sequence of a walk stands for the same labels. -/
theorem exists_traceOf {v : NodeId} {as as' : List Arrival} (has : RecodedWalk m m' as as')
    {tokens : List LabelIndex} (htrace : traceOf g m v as = some tokens) :
    ∃ tokens', traceOf g m' v as' = some tokens' ∧ SameLabels m m' .node tokens tokens' := by
  obtain ⟨n, hn, rfl⟩ := traceOf_eq_some_iff.1 htrace
  obtain ⟨n', hn', hsame⟩ := h.exists_indexOfNode hn
  exact ⟨_, traceOf_eq_some_iff.2 ⟨n', hn', rfl⟩, sameLabels_cons.2 ⟨hsame, has.hopTokens⟩⟩

/-- **A way that is clear** is clear under the other mapping. -/
theorem clear {stops stops' : NodeId → Bool} (hstops : ∀ v, stops' v = stops v) {hops : Nat}
    {v : NodeId} (hclear : Clear g m stops hops v) : Clear g m' stops' hops v := by
  intro as' hwalk' has' hlen
  -- a walk under the other mapping is one over the same entries under this one
  obtain ⟨as, hwalk, hrecoded⟩ := h.symm.exists_isWalk hwalk'
  have hpass := hclear as hwalk ?_ (by rw [← hrecoded.length_eq]; exact hlen)
  · rw [hrecoded.endOf_eq] at hpass
    exact h.passable hpass
  · refine hrecoded.forall_node (p := fun w => stops w = false) fun a ha => ?_
    rw [← hstops]
    exact has' a ha

theorem exists_endsAt {v w : NodeId} {s : Suffix} (hends : EndsAt g m v s w) :
    ∃ s', SameLabels m m' .edge s s' ∧ EndsAt g m' v s' w := by
  obtain ⟨as, hwalk, rfl, rfl⟩ := hends
  obtain ⟨as', hwalk', hrecoded⟩ := h.exists_isWalk hwalk
  exact ⟨_, hrecoded.hopTokens, as', hwalk', rfl, hrecoded.endOf_eq v⟩

theorem endsAt {v w : NodeId} {s s' : Suffix} (hs : SameLabels m m' .edge s s')
    (hends : EndsAt g m v s w) : EndsAt g m' v s' w := by
  obtain ⟨t, ht, hends'⟩ := h.exists_endsAt hends
  rw [hs.unique ht]
  exact hends'

theorem exists_counted {length : PathLength} {p : MetaPath} (hp : Counted g m length p) :
    ∃ p', Counted g m' length p' ∧ p.Recoded m m' p' := by
  obtain ⟨hlen, v, hv, as, hwalk, htrace⟩ := hp
  obtain ⟨as', hwalk', hrecoded⟩ := h.exists_isWalk hwalk
  obtain ⟨tokens', htrace', hsame⟩ := h.exists_traceOf hrecoded htrace
  obtain ⟨p', rfl, hp'⟩ := MetaPath.exists_recoded hsame
  refine ⟨p', ⟨?_, v, hv, as', hwalk', htrace'⟩, hp'⟩
  rw [hsame.length_eq]
  exact hlen

/-! ## §4. The number of walks. -/

/-- A walk has the path under the one mapping just when it has it under the other. -/
theorem traceOf_iff {v : NodeId} {as as' : List Arrival} (has : RecodedWalk m m' as as')
    {p p' : MetaPath} (hp : p.Recoded m m' p') :
    traceOf g m v as = some p.tokens ↔ traceOf g m' v as' = some p'.tokens := by
  constructor
  · intro htrace
    obtain ⟨tokens', htrace', hsame⟩ := h.exists_traceOf has htrace
    rw [htrace', SameLabels.unique hp hsame]
  · intro htrace'
    have has' : RecodedWalk m' m as' as := has.flip.imp fun a a' ha => ⟨ha.node.symm, ha.hop.symm⟩
    obtain ⟨tokens, htrace, hsame⟩ := h.symm.exists_traceOf has' htrace'
    rw [htrace, SameLabels.unique hp.symm hsame]

/-- **The number of walks** of a path is the same. -/
theorem walkCount_eq {p p' : MetaPath} (hp : p.Recoded m m' p') :
    walkCount g m' p' = walkCount g m p := by
  unfold walkCount
  rw [hp.hops_eq]
  refine congrArg List.sum (List.map_congr_left fun v _ => ?_)
  refine (countP_eq_of_forall₂ (h.walksFrom_forall₂ p.hops v) fun as as' has => ?_).symm
  exact decide_eq_decide.2 (h.traceOf_iff has hp)

end Recoding

end LabelWalks
