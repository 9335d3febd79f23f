/-
  LabelWalks.Proofs.Graph.History
  ───────────────────────────────
  **WHAT A NETWORK KEEPS OF ALL THAT WAS CALLED.**

  A network keeps two maps of entries, a map of labels and a set of labels, and a
  call changes some of them by a rule of its own.  Here each of them is told from
  the calls: an edge that was added is kept once at either end and nothing else is,
  whatever loops, parallel edges and unregistered ends there are; and a node has the
  label that was given last, or else the one that came first with an edge.

    • `Call`, `after`, `added` — the calls, what they build, the edges that they add,
    • `entriesOf_after`, `labelOf_after` — what is kept for one node,
    • `edgesKept_after` — what is kept at all nodes together,
    • `faithful_after` — all that can be asked of a network.
-/
import LabelWalks.Proofs.Reversal.Network

namespace LabelWalks

namespace Network

/-! ## §1. Calls. -/

/-- What can be called on a network. -/
inductive Call where
  | add (v : NodeId) (label : Label)
  | connect (source target : NodeId) (label : Label)
  | load (records : List EdgeRecord)
  | withDirection (direction : Direction)
  deriving DecidableEq, Repr

/-- The network after a call. -/
def perform (n : Network) : Call → Network
  | .add v label => n.add v label
  | .connect source target label => n.connect source target label
  | .load records => n.load records
  | .withDirection direction => n.withDirection direction

/-- The network after calls, one after another from the network without anything. -/
def after (calls : List Call) : Network :=
  calls.foldl perform empty

theorem after_concat (calls : List Call) (call : Call) :
    after (calls ++ [call]) = (after calls).perform call := by
  unfold after
  rw [List.foldl_append]
  rfl

/-- What calls have built is the network after them. -/
theorem built_iff {n : Network} : n.Built ↔ ∃ calls, after calls = n := by
  constructor
  · intro h
    induction h with
    | empty => exact ⟨[], rfl⟩
    | withDirection h d ih =>
        obtain ⟨calls, rfl⟩ := ih
        exact ⟨calls ++ [.withDirection d], after_concat calls _⟩
    | add h v label ih =>
        obtain ⟨calls, rfl⟩ := ih
        exact ⟨calls ++ [.add v label], after_concat calls _⟩
    | connect h v w label ih =>
        obtain ⟨calls, rfl⟩ := ih
        exact ⟨calls ++ [.connect v w label], after_concat calls _⟩
    | load h records ih =>
        obtain ⟨calls, rfl⟩ := ih
        exact ⟨calls ++ [.load records], after_concat calls _⟩
  · intro h
    obtain ⟨calls, rfl⟩ := h
    -- from the end, where the last call was made
    induction calls using List.reverseRecOn with
    | nil => exact .empty
    | append_singleton calls call ih =>
        rw [after_concat]
        cases call with
        | add v label => exact ih.add v label
        | connect v w label => exact ih.connect v w label
        | load records => exact ih.load records
        | withDirection d => exact ih.withDirection d

/-! ## §2. Edges. -/

/-- An edge as it was added. -/
structure Edge where
  source : NodeId
  target : NodeId
  label : Label
  deriving DecidableEq, Repr

/-- The edge of a record. -/
def edgeOf (r : EdgeRecord) : Edge :=
  ⟨r.source, r.target, r.label⟩

/-- The two ends of an edge. -/
inductive Side where
  | source
  | target
  deriving DecidableEq, Repr

/-- An edge as the node at one of its ends and the entry there. -/
def Side.parts : Side → Edge ≃ NodeId × Entry
  | .source =>
    { toFun x := (x.source, ⟨x.target, x.label⟩)
      invFun row := ⟨row.1, row.2.target, row.2.label⟩
      left_inv _ := rfl
      right_inv _ := rfl }
  | .target =>
    { toFun x := (x.target, ⟨x.source, x.label⟩)
      invFun row := ⟨row.2.target, row.1, row.2.label⟩
      left_inv _ := rfl
      right_inv _ := rfl }

/-- The entries that are kept at one end of the edges. -/
def kept (n : Network) : Side → Std.ExtTreeMap NodeId (Array Entry)
  | .source => n.outgoing
  | .target => n.incoming

/-- The entries that are kept at one end of the edges for one node. -/
def entriesOf (n : Network) (side : Side) (v : NodeId) : List Entry :=
  ((n.kept side).getD v #[]).toList

/-- The edges that a call adds, in order. -/
def Call.edges : Call → List Edge
  | .connect source target label => [⟨source, target, label⟩]
  | .load records => records.map edgeOf
  | .add _ _ | .withDirection _ => []

/-- All edges that were added, in order. -/
def added (calls : List Call) : List Edge :=
  calls.flatMap Call.edges

theorem added_concat (calls : List Call) (call : Call) :
    added (calls ++ [call]) = added calls ++ call.edges := by
  unfold added
  rw [List.flatMap_append, List.flatMap_singleton]

/-- The edges that have one of their ends at the node. -/
def edgesAt (side : Side) (v : NodeId) (xs : List Edge) : List Edge :=
  xs.filter fun x => (side.parts x).1 = v

/-- The entries for a node of the edges that have one of their ends there. -/
def entriesAt (side : Side) (v : NodeId) (xs : List Edge) : List Entry :=
  (edgesAt side v xs).map fun x => (side.parts x).2

theorem entriesAt_append (side : Side) (v : NodeId) (xs ys : List Edge) :
    entriesAt side v (xs ++ ys) = entriesAt side v xs ++ entriesAt side v ys := by
  unfold entriesAt edgesAt
  rw [List.filter_append, List.map_append]

theorem entriesAt_singleton (side : Side) (v : NodeId) (x : Edge) :
    entriesAt side v [x] = if (side.parts x).1 = v then [(side.parts x).2] else [] := by
  unfold entriesAt edgesAt
  by_cases hx : (side.parts x).1 = v <;> simp [hx]

theorem entriesOf_connect (n : Network) (source target : NodeId) (label : Label) (side : Side)
    (v : NodeId) :
    (n.connect source target label).entriesOf side v =
      n.entriesOf side v ++ entriesAt side v [⟨source, target, label⟩] := by
  rw [entriesAt_singleton]
  cases side with
  | source => exact edgesOut_connect n source target label v
  | target => exact edgesIn_connect n source target label v

theorem entriesOf_load (records : List EdgeRecord) (side : Side) (v : NodeId) :
    ∀ n : Network,
      (n.load records).entriesOf side v =
        n.entriesOf side v ++ entriesAt side v (records.map edgeOf) := by
  induction records with
  | nil =>
      intro n
      show n.entriesOf side v = n.entriesOf side v ++ []
      rw [List.append_nil]
  | cons r records ih =>
      intro n
      show ((n.loadOne r).load records).entriesOf side v = _
      -- the labels of nodes have no part in the entries
      have hlabels : ∀ labels, ({ n with labels } : Network).entriesOf side v = n.entriesOf side v :=
        fun labels => by cases side <;> rfl
      have hone : (n.loadOne r).entriesOf side v =
          n.entriesOf side v ++ entriesAt side v [edgeOf r] :=
        (entriesOf_connect _ r.source r.target r.label side v).trans (by rw [hlabels]; rfl)
      rw [ih, hone, List.append_assoc, ← entriesAt_append]
      rfl

/-- **One call** adds its edges at both ends, behind those that are there. -/
theorem entriesOf_perform (n : Network) (call : Call) (side : Side) (v : NodeId) :
    (n.perform call).entriesOf side v = n.entriesOf side v ++ entriesAt side v call.edges := by
  cases call with
  | add _ _ | withDirection _ =>
      cases side with
      | source => exact (List.append_nil _).symm
      | target => exact (List.append_nil _).symm
  | connect source target label => exact entriesOf_connect n source target label side v
  | load records => exact entriesOf_load records side v n

/-- **What is kept for a node** are the edges that were added with that end there, in order. -/
theorem entriesOf_after (calls : List Call) (side : Side) (v : NodeId) :
    (after calls).entriesOf side v = entriesAt side v (added calls) := by
  induction calls using List.reverseRecOn with
  | nil =>
      cases side with
      | source => simp [entriesOf, kept, after, empty, added, entriesAt, edgesAt]
      | target => simp [entriesOf, kept, after, empty, added, entriesAt, edgesAt]
  | append_singleton calls call ih =>
      rw [after_concat, entriesOf_perform, ih, added_concat, entriesAt_append]

/-! ## §3. All nodes together. -/

/-- The edges as they are kept at one of their ends, node by node. -/
def edgesKept (n : Network) (side : Side) : List Edge :=
  (n.kept side).toList.flatMap fun row => row.2.toList.map fun e => side.parts.symm (row.1, e)

/-- Edges that are put in order of one of their ends are the same edges, as long as no node
is left out or comes twice. -/
theorem flatMap_edgesAt_perm {side : Side} {nodes : List NodeId} {xs : List Edge}
    (hnodes : nodes.Nodup) (hends : ∀ x ∈ xs, (side.parts x).1 ∈ nodes) :
    (nodes.flatMap fun v => edgesAt side v xs).Perm xs := by
  refine List.perm_iff_count.2 fun x => ?_
  rw [List.count_flatMap]
  -- an edge is counted at the one node where it has its end, and at no other
  have hcount : ∀ v ∈ nodes, (List.count x ∘ fun v => edgesAt side v xs) v =
      if v = (side.parts x).1 then xs.count x else 0 := by
    intro v _
    show (edgesAt side v xs).count x = _
    unfold edgesAt
    by_cases hv : (side.parts x).1 = v
    · rw [List.count_filter (by simpa using hv), if_pos hv.symm]
    · rw [if_neg (Ne.symm hv)]
      refine List.count_eq_zero.2 fun hmem => hv ?_
      simpa using (List.mem_filter.1 hmem).2
  rw [List.map_congr_left hcount, sum_map_ite_eq]
  by_cases hx : x ∈ xs
  · rw [List.count_eq_one_of_mem hnodes (hends x hx), Nat.one_mul]
  · rw [List.count_eq_zero.2 hx, Nat.mul_zero]

/-- **All that is kept** at one end is each edge that was added, as often as it was added. -/
theorem edgesKept_after (calls : List Call) (side : Side) :
    ((after calls).edgesKept side).Perm (added calls) := by
  have hrows : (after calls).edgesKept side =
      ((after calls).kept side).keys.flatMap fun v => edgesAt side v (added calls) := by
    unfold edgesKept
    rw [← Std.ExtTreeMap.map_fst_toList_eq_keys, List.flatMap_map]
    refine List.flatMap_congr fun row hrow => ?_
    have hkept : row.2.toList = entriesAt side row.1 (added calls) := by
      rw [← entriesOf_after]
      unfold entriesOf
      rw [Std.ExtTreeMap.getD_eq_getD_getElem?,
        Std.ExtTreeMap.mem_toList_iff_getElem?_eq_some.1 hrow]
      rfl
    rw [hkept]
    unfold entriesAt
    rw [List.map_map]
    refine (List.map_congr_left fun x hx => ?_).trans (List.map_id _)
    have hnode : (side.parts x).1 = row.1 := by
      simpa [edgesAt] using (List.mem_filter.1 hx).2
    show side.parts.symm (row.1, (side.parts x).2) = x
    rw [← hnode]
    exact side.parts.symm_apply_apply x
  rw [hrows]
  refine flatMap_edgesAt_perm Std.ExtTreeMap.nodup_keys fun x hx => ?_
  -- a node without a row has no entry at all
  by_contra hnone
  have hentries : (after calls).entriesOf side (side.parts x).1 = [] := by
    unfold entriesOf
    rw [Std.ExtTreeMap.getD_eq_fallback fun hmem => hnone (Std.ExtTreeMap.mem_keys.2 hmem)]
  rw [entriesOf_after] at hentries
  have hmem : (side.parts x).2 ∈ entriesAt side (side.parts x).1 (added calls) :=
    List.mem_map_of_mem (List.mem_filter.2 ⟨hx, by simp⟩)
  rw [hentries] at hmem
  cases hmem

/-- **The number of edges** is the number of those that were added. -/
theorem edgeCount_after (calls : List Call) : (after calls).edgeCount = (added calls).length := by
  rw [← (edgesKept_after calls .source).length_eq]
  show (after calls).outgoing.foldl (fun k _ es => k + es.size) 0 =
    ((after calls).outgoing.toList.flatMap _).length
  rw [Std.ExtTreeMap.foldl_eq_foldl_toList, List.length_flatMap, List.sum_eq_foldl, List.foldl_map]
  simp

theorem mem_edgeLabels_load {label : Label} (records : List EdgeRecord) :
    ∀ n : Network, label ∈ (n.load records).edgeLabels ↔
      label ∈ n.edgeLabels ∨ ∃ x ∈ records.map edgeOf, x.label = label := by
  induction records with
  | nil => intro n; simp [load]
  | cons r records ih =>
      intro n
      show label ∈ ((n.loadOne r).load records).edgeLabels ↔ _
      rw [ih]
      show label ∈ n.edgeLabels.insert r.label ∨ _ ↔ _
      rw [mem_insert_set_iff, List.map_cons, or_assoc]
      simp [edgeOf]

/-- **The labels of edges** are those of the edges that were added. -/
theorem mem_edgeLabels_after (calls : List Call) {label : Label} :
    label ∈ (after calls).edgeLabels ↔ ∃ x ∈ added calls, x.label = label := by
  induction calls using List.reverseRecOn with
  | nil => simp [after, empty, added]
  | append_singleton calls call ih =>
      have hcall : label ∈ ((after calls).perform call).edgeLabels ↔
          label ∈ (after calls).edgeLabels ∨ ∃ x ∈ call.edges, x.label = label := by
        cases call with
        | add _ _ | withDirection _ => simp [perform, add, withDirection, Call.edges]
        | connect source target l =>
            show label ∈ (after calls).edgeLabels.insert l ↔ _
            rw [mem_insert_set_iff]
            simp [Call.edges]
        | load records => exact mem_edgeLabels_load records _
      rw [after_concat, hcall, ih, added_concat]
      simp only [List.mem_append, or_and_right, exists_or]

/-! ## §4. Labels of nodes. -/

/-- The ends of a record with their labels, in the order in which they are registered. -/
def endsOf (r : EdgeRecord) : List (NodeId × Label) :=
  [(r.source, r.sourceLabel), (r.target, r.targetLabel)]

/-- The label that a call gives to a node, whatever label the node had. -/
def Call.given : Call → List (NodeId × Label)
  | .add v label => [(v, label)]
  | _ => []

/-- The labels that a call offers to nodes without a label, in order. -/
def Call.offered : Call → List (NodeId × Label)
  | .load records => records.flatMap endsOf
  | _ => []

/-- The label that was given to a node last. -/
def lastGiven (calls : List Call) (v : NodeId) : Option Label :=
  (calls.flatMap Call.given).reverse.lookup v

/-- The label that was offered to a node first. -/
def firstOffered (calls : List Call) (v : NodeId) : Option Label :=
  (calls.flatMap Call.offered).lookup v

theorem lookup_pair (u v : NodeId) (label : Label) :
    [(u, label)].lookup v = if u = v then some label else none := by
  rw [List.lookup_cons]
  by_cases huv : u = v
  · simp [huv]
  · rw [beq_false_of_ne (Ne.symm huv), if_neg huv]
    rfl

theorem labelOf_insertIfNew (labels : Std.ExtTreeMap NodeId Label) (u v : NodeId) (label : Label) :
    (labels.insertIfNew u label)[v]? = labels[v]?.or ([(u, label)].lookup v) := by
  rw [Std.ExtTreeMap.getElem?_insertIfNew, lookup_pair]
  by_cases huv : u = v
  · subst huv
    cases hget : labels[u]? with
    | none => simp [Std.ExtTreeMap.mem_iff_isSome_getElem?, hget]
    | some _ => simp [Std.ExtTreeMap.mem_iff_isSome_getElem?, hget]
  · rw [if_neg fun h => huv (Std.LawfulEqCmp.compare_eq_iff_eq.1 h.1)]
    rw [if_neg huv, Option.or_none]

/-- **Loading** registers a node with the label that comes first, if the node is not known. -/
theorem labelOf_load (records : List EdgeRecord) (v : NodeId) :
    ∀ n : Network,
      (n.load records).labelOf v = (n.labelOf v).or ((records.flatMap endsOf).lookup v) := by
  induction records with
  | nil =>
      intro n
      show n.labelOf v = (n.labelOf v).or none
      rw [Option.or_none]
  | cons r records ih =>
      intro n
      show ((n.loadOne r).load records).labelOf v = _
      have hone : (n.loadOne r).labelOf v = (n.labelOf v).or ((endsOf r).lookup v) := by
        show ((n.labels.insertIfNew r.source r.sourceLabel).insertIfNew r.target r.targetLabel)[v]? = _
        rw [labelOf_insertIfNew, labelOf_insertIfNew, Option.or_assoc, ← List.lookup_append]
        rfl
      rw [ih, hone, Option.or_assoc, ← List.lookup_append]
      rfl

/-- **The label of a node** is the one that was given last or, when none was given, the one
that was offered first. -/
theorem labelOf_after (calls : List Call) (v : NodeId) :
    (after calls).labelOf v = (lastGiven calls v).or (firstOffered calls v) := by
  -- from the end: a label that is given comes before all others, one that is offered behind them
  induction calls using List.reverseRecOn with
  | nil =>
      show (∅ : Std.ExtTreeMap NodeId Label)[v]? = none
      exact Std.ExtTreeMap.getElem?_empty
  | append_singleton calls call ih =>
      unfold lastGiven firstOffered at ih ⊢
      rw [after_concat, List.flatMap_append, List.flatMap_append, List.flatMap_singleton,
        List.flatMap_singleton, List.reverse_append, List.lookup_append, List.lookup_append]
      cases call with
      | connect _ _ _ | withDirection _ =>
          simp only [Call.given, Call.offered, List.reverse_nil, List.lookup_nil, Option.none_or,
            Option.or_none]
          exact ih
      | add u label =>
          show ((after calls).labels.insert u label)[v]? = _
          rw [Std.ExtTreeMap.getElem?_insert]
          by_cases huv : u = v
          · simp [huv, Call.given]
          · rw [if_neg fun h => huv (Std.LawfulEqCmp.compare_eq_iff_eq.1 h)]
            simp only [Call.given, Call.offered, List.lookup_nil, List.reverse_singleton,
              lookup_pair, if_neg huv, Option.or_none, Option.none_or]
            exact ih
      | load records =>
          show ((after calls).load records).labelOf v = _
          rw [labelOf_load, ih, Option.or_assoc]
          rfl

theorem mem_nodeLabels_iff {n : Network} {label : Label} :
    label ∈ n.nodeLabels ↔ ∃ v, n.labelOf v = some label := by
  unfold nodeLabels
  rw [mem_ofList_iff, List.mem_map]
  simp only [Prod.exists, exists_eq_right, Std.ExtTreeMap.mem_toList_iff_getElem?_eq_some]
  rfl

/-! ## §5. All that can be asked. -/

/-- The nodes at the ends of the edges that were added, each once. -/
def endpoints (calls : List Call) : List NodeId :=
  ((added calls).flatMap fun x => [x.source, x.target]).eraseDups

/-- The degrees of all nodes with an edge, when one end of each edge counts. -/
theorem sum_length_entriesOf (calls : List Call) (side : Side) :
    ((endpoints calls).map fun v => ((after calls).entriesOf side v).length).sum =
      (after calls).edgeCount := by
  have hends : ∀ x ∈ added calls, (side.parts x).1 ∈ endpoints calls := by
    intro x hx
    unfold endpoints
    rw [List.mem_eraseDups, List.mem_flatMap]
    refine ⟨x, hx, ?_⟩
    cases side with
    | source => exact List.mem_cons_self
    | target => exact List.mem_cons_of_mem _ List.mem_cons_self
  rw [edgeCount_after, ← (flatMap_edgesAt_perm (nodup_eraseDups _) hends).length_eq,
    List.length_flatMap]
  refine congrArg List.sum (List.map_congr_left fun v _ => ?_)
  rw [entriesOf_after]
  exact List.length_map _

/-- An entry comes among the neighbours as often as it is kept. -/
theorem count_adjacentEdges (n : Network) (u v : NodeId) (label : Label) :
    (n.adjacentEdges u).count (v, some label) = (labelsTo v (n.edges u)).count label := by
  unfold adjacentEdges labelsTo
  induction n.edges u with
  | nil => rfl
  | cons e es ih =>
      rw [List.map_cons, List.count_cons, ih, List.filter_cons]
      by_cases htarget : e.target = v
      · simp [htarget, List.count_cons]
      · simp [htarget]

/-- **All that can be asked of a network**, told from the calls that built it. -/
structure Faithful (calls : List Call) (n : Network) : Prop where
  /-- What is kept at the sources and what is kept at the targets is each edge that was added,
  as often as it was added. -/
  edgesKept : ∀ side, (n.edgesKept side).Perm (added calls)
  edgeCount : n.edgeCount = (added calls).length
  edgeLabels : ∀ label, label ∈ n.edgeLabels ↔ ∃ x ∈ added calls, x.label = label
  nodeLabels : ∀ label, label ∈ n.nodeLabels ↔ ∃ v, n.labelOf v = some label
  labelOf : ∀ v, n.labelOf v = (lastGiven calls v).or (firstOffered calls v)
  /-- Loading never changes the label of a node that has one. -/
  load : ∀ records v label, n.labelOf v = some label → (n.load records).labelOf v = some label
  degreeOutgoing :
    ((endpoints calls).map (n.withDirection .outgoing).degree).sum = n.edgeCount
  degreeIncoming :
    ((endpoints calls).map (n.withDirection .incoming).degree).sum = n.edgeCount
  /-- What goes out at one end comes in at the other. -/
  crossed : ∀ u v label, ((n.withDirection .outgoing).adjacentEdges u).count (v, some label) =
    ((n.withDirection .incoming).adjacentEdges v).count (u, some label)
  /-- With both directions open an edge can be crossed either way, a loop at its node twice. -/
  symmetric : ∀ u v label, ((n.withDirection .both).adjacentEdges u).count (v, some label) =
    ((n.withDirection .both).adjacentEdges v).count (u, some label)

/-- **A network is faithful to its history**, whatever was called in whatever order. -/
theorem faithful_after (calls : List Call) : Faithful calls (after calls) := by
  have hagrees : (after calls).Agrees := (built_iff.2 ⟨calls, rfl⟩).agrees
  exact {
    edgesKept := edgesKept_after calls
    edgeCount := edgeCount_after calls
    edgeLabels := fun _ => mem_edgeLabels_after calls
    nodeLabels := fun _ => mem_nodeLabels_iff
    labelOf := labelOf_after calls
    load := by
      intro records v label hlabel
      rw [labelOf_load, hlabel]
      rfl
    degreeOutgoing := sum_length_entriesOf calls .source
    degreeIncoming := sum_length_entriesOf calls .target
    crossed := by
      intro u v label
      rw [count_adjacentEdges, count_adjacentEdges]
      exact congrArg (List.count label) (hagrees u v)
    symmetric := by
      intro u v label
      rw [count_adjacentEdges, count_adjacentEdges]
      show (labelsTo v ((after calls).edgesOut u ++ (after calls).edgesIn u)).count label =
        (labelsTo u ((after calls).edgesOut v ++ (after calls).edgesIn v)).count label
      rw [labelsTo_append, labelsTo_append, hagrees u v, hagrees v u]
      exact List.perm_append_comm.count_eq label }

end Network

end LabelWalks
