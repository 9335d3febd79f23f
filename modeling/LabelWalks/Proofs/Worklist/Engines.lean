/-
  LabelWalks.Proofs.Worklist.Engines
  ──────────────────────────────────
  **THE THREE ENGINES AS LOOPS.**

  The worker of a search and the suffix map of a node are made by a loop with a stack, the
  worker of a census by a loop with a queue.  These are matters of order only: were any
  pending state removed next, every order would come to its end, on cyclic graphs as well,
  and would succeed when all others do, with the same paths found, the same map, the same
  table.  Which of several halts a loop meets first may well depend on the order.

    • `searchList`, `suffixList`, `censusList` — the states of each engine and what follows,
    • `pursue_eq_descent`, `growSuffix_eq_descent`, `leaves_sweep` — these are the engines,
    • `searchList_spells`, `suffixList_spells`, `censusList_spells` — what their states spell,
    • `searchList_orderFree`, `suffixList_orderFree`, `censusList_orderFree` — the order in
      which these are removed is free,
    • `SearchesInAnyOrder`, `engines_are_orderFree` — all three engines.
-/
import LabelWalks.Proofs.Census.Distinct
import LabelWalks.Proofs.Search.Findings
import LabelWalks.Proofs.Search.Meaning
import LabelWalks.Proofs.Search.Room
import LabelWalks.Proofs.Suffix
import LabelWalks.Proofs.Worklist.Discipline

namespace LabelWalks

section
variable {g : GraphView} {m : Mapping} {index : HubIndex} {wanted : NodeSet}

/-! ## §1. A search. -/

/-- The paths found in one round from a path that ends at `nodes`, with as many hops left after
it: shortcuts come first, then the paths one hop longer. -/
def searchRound (g : GraphView) (m : Mapping) (index : HubIndex) (wanted : NodeSet) (hops : Nat)
    (path : MetaPath) (nodes : NodeSet) : Trail MetaPath :=
  ((Trail.each (shortcuts index wanted path hops)
      ((reached g m nodes).items.filter fun a => index.contains a.node).eraseDups).andThen
    fun _ => ⟨[], (reached g m nodes).halt⟩).andThen fun _ =>
      .give (((longerPaths index path (reached g m nodes).items).filter fun (_, ends) =>
        ends.meets wanted).map Prod.fst)

/-- The loop of a search: a path whose hops are used up is not pending any more. -/
def searchList (g : GraphView) (m : Mapping) (index : HubIndex) (wanted : NodeSet) :
    Worklist MetaPath NodeSet MetaPath where
  gives
    | ⟨_, _, 0⟩ => .done
    | ⟨path, nodes, hops + 1⟩ => searchRound g m index wanted hops path nodes
  leads
    | ⟨_, _, 0⟩ | ⟨_, _, 1⟩ => []
    | ⟨path, nodes, hops + 2⟩ =>
      (longerPaths index path (reached g m nodes).items).map fun (q, ends) => ⟨q, ends, hops + 1⟩
  one_less := by
    rintro ⟨path, nodes, left⟩ s' hs'
    match left with
    | 0 | 1 => cases hs'
    | hops + 2 =>
        obtain ⟨row, -, rfl⟩ := List.mem_map.1 hs'
        rfl

theorem pursue_succ_eq_round (hops : Nat) (path : MetaPath) (nodes : NodeSet) :
    pursue g m index wanted (hops + 1) path nodes =
      (searchRound g m index wanted hops path nodes).andThen fun _ =>
        .each (fun (q, ends) => pursue g m index wanted hops q ends)
          (longerPaths index path (reached g m nodes).items).reverse := by
  unfold searchRound
  rw [pursue_succ, ← Trail.andThen_assoc _ (fun _ => Trail.give _)]

/-- **A search is a descent**: what follows a path is taken from a stack. -/
theorem pursue_eq_descent (hops : Nat) : ∀ (path : MetaPath) (nodes : NodeSet),
    pursue g m index wanted hops path nodes =
      (searchList g m index wanted).descent hops ⟨path, nodes, hops⟩ := by
  induction hops with
  | zero => exact fun path nodes => rfl
  | succ hops ih =>
      intro path nodes
      rw [pursue_succ_eq_round]
      refine congrArg _ (funext fun _ => ?_)
      cases hops with
      | zero =>
          -- with the last hop used up nothing is pending
          exact Trail.each_done _
      | succ hops =>
          show _ = Trail.each ((searchList g m index wanted).descent (hops + 1))
            ((longerPaths index path (reached g m nodes).items).map _).reverse
          rw [← List.map_reverse, Trail.each_map]
          exact Trail.each_congr fun row _ => ih row.1 row.2

/-! ## §2. The suffixes of a node. -/

/-- The suffixes one hop longer, each with the nodes that it ends at. -/
def longerSuffixes (suffix : Suffix) (reached : List Arrival) : List SuffixEnds :=
  (groupNodes reached).toList.map fun (hop, ends) => (suffix ++ hop.tokens, ends)

/-- The loop that makes a suffix map: a suffix whose hops are used up is removed for nothing. -/
def suffixList (g : GraphView) (m : Mapping) : Worklist Suffix NodeSet SuffixEnds where
  gives
    | ⟨_, _, 0⟩ => .done
    | ⟨suffix, nodes, _ + 1⟩ => (reached g m nodes).whenSettled fun as =>
      .give (longerSuffixes suffix as)
  leads
    | ⟨_, _, 0⟩ => []
    | ⟨suffix, nodes, hops + 1⟩ =>
      (longerSuffixes suffix (reached g m nodes).items).map fun (s, ends) => ⟨s, ends, hops⟩
  one_less := by
    rintro ⟨suffix, nodes, left⟩ s' hs'
    match left with
    | 0 => cases hs'
    | hops + 1 =>
        obtain ⟨row, -, rfl⟩ := List.mem_map.1 hs'
        rfl

/-- **A suffix map is made by a descent** as well. -/
theorem growSuffix_eq_descent (hops : Nat) : ∀ (suffix : Suffix) (nodes : NodeSet),
    growSuffix g m hops suffix nodes = (suffixList g m).descent hops ⟨suffix, nodes, hops⟩ := by
  induction hops with
  | zero => exact fun suffix nodes => rfl
  | succ hops ih =>
      intro suffix nodes
      rw [growSuffix_succ]
      show _ = ((reached g m nodes).whenSettled _).andThen fun _ =>
        .each ((suffixList g m).descent hops)
          ((longerSuffixes suffix (reached g m nodes).items).map _).reverse
      rw [Trail.whenSettled_andThen]
      refine Trail.whenSettled_congr ?_
      show (Trail.give (longerSuffixes suffix (reached g m nodes).items)).andThen _ =
        (Trail.give (longerSuffixes suffix (reached g m nodes).items)).andThen _
      refine congrArg _ (funext fun _ => ?_)
      conv_rhs => rw [← List.map_reverse, Trail.each_map]
      exact Trail.each_congr fun row _ => ih row.1 row.2

/-! ## §3. A census. -/

/-- The loop of a census: each frontier has its row, and those one hop on are pending. -/
def censusList (g : GraphView) (m : Mapping) : Worklist MetaPath NodeCounts PathCount where
  gives
    | ⟨path, nodes, 0⟩ => .give [(path, Frontier.total ⟨path, nodes⟩)]
    | ⟨path, nodes, _ + 1⟩ => (visit g m ⟨path, nodes⟩).map fun (f, _) => (f.path, f.total)
  leads
    | ⟨_, _, 0⟩ => []
    | ⟨path, nodes, hops + 1⟩ =>
      ((visit g m ⟨path, nodes⟩).items.flatMap Prod.snd).map fun f => ⟨f.path, f.nodes, hops⟩
  one_less := by
    rintro ⟨path, nodes, left⟩ s' hs'
    match left with
    | 0 => cases hs'
    | hops + 1 =>
        obtain ⟨f, -, rfl⟩ := List.mem_map.1 hs'
        rfl

/-- A frontier that is pending with some hops left. -/
def Frontier.pending (left : Nat) (f : Frontier) : Pending MetaPath NodeCounts :=
  ⟨f.path, f.nodes, left⟩

/-- **A census is a queue**: it goes through the frontiers level by level. -/
theorem leaves_sweep (hops : Nat) : ∀ (level : List Frontier)
    (r : Worklist.Progress MetaPath NodeCounts PathCount),
    r.pending = level.map (Frontier.pending hops) → r.halt = none →
      Worklist.Leaves (censusList g m) Worklist.earliest r [] (sweep g m hops level) := by
  induction hops with
  | zero =>
      intro level r hpending hhalt
      have hlevel := Worklist.leaves_earliest (censusList g m) (level.map (Frontier.pending 0)) []
        r (hpending.trans (List.append_nil _).symm) hhalt
      have hrows : Trail.each (censusList g m).gives (level.map (Frontier.pending 0)) =
          sweep g m 0 level := by
        rw [Trail.each_map]
        exact Trail.each_give_singleton (fun f : Frontier => (f.path, f.total)) level
      have hnone : (level.map (Frontier.pending 0)).flatMap (censusList g m).leads = [] := by
        rw [List.flatMap_map]
        exact List.flatMap_eq_nil_iff.2 fun f _ => rfl
      rwa [hrows, hnone] at hlevel
  | succ hops ih =>
      intro level r hpending hhalt
      have hlevel := Worklist.leaves_earliest (censusList g m)
        (level.map (Frontier.pending (hops + 1))) [] r (hpending.trans (List.append_nil _).symm)
        hhalt
      have hrows : Trail.each (censusList g m).gives (level.map (Frontier.pending (hops + 1))) =
          (Trail.each (visit g m) level).map fun (f, _) => (f.path, f.total) := by
        rw [Trail.each_map, Trail.map_each]
        rfl
      rw [hrows] at hlevel
      rw [sweep_succ]
      refine hlevel.andThen fun hhalts r' hpending' hhalt' => ih _ r' ?_ hhalt'
      have hvisits : (Trail.each (visit g m) level).halt = none := hhalts
      rw [hpending', List.nil_append, Trail.each_items _ _ hvisits, List.flatMap_map,
        List.flatMap_assoc, List.map_flatMap]
      rfl

/-- **A census is made by a queue.** -/
theorem makes_censusWorker (length : PathLength) (label : LabelIndex) (nodes : NodeCounts) :
    (censusList g m).Makes Worklist.earliest ⟨.single label, nodes, length.hops⟩
      (censusWorker g m length label nodes) :=
  (leaves_sweep length.hops [⟨.single label, nodes⟩] (.start _) rfl rfl).makes

/-! ## §4. What the states spell. -/

/-- Different hops spell different tokens. -/
theorem nodup_map_hopTokens {β : Type} (rows : Std.ExtTreeMap Hop β) (tokens : List LabelIndex) :
    (rows.toList.map fun row => tokens ++ row.1.tokens).Nodup := by
  refine Std.ExtTreeMap.distinct_keys_toList.map _ fun row row' hne htokens => hne ?_
  obtain ⟨⟨edge, node⟩, _⟩ := row
  obtain ⟨⟨edge', node'⟩, _⟩ := row'
  have hhop := List.append_cancel_left htokens
  rw [Std.LawfulEqCmp.compare_eq_iff_eq]
  simpa [Hop.tokens] using hhop

theorem searchList_spells : (searchList g m index wanted).Spells MetaPath.tokens where
  grows := by
    rintro ⟨path, nodes, left⟩ s' hs'
    match left with
    | 0 | 1 => cases hs'
    | hops + 2 =>
        obtain ⟨row, hrow, rfl⟩ := List.mem_map.1 hs'
        obtain ⟨⟨hop, ends⟩, -, rfl⟩ := List.mem_map.1 hrow
        exact ⟨hop, rfl⟩
  apart := by
    rintro ⟨path, nodes, left⟩
    match left with
    | 0 | 1 => exact List.nodup_nil
    | hops + 2 =>
        have hnodup := nodup_map_hopTokens (groupNodes ((reached g m nodes).items.filter
          fun a => !index.contains a.node)) path.tokens
        show (((longerPaths index path (reached g m nodes).items).map _).map _).Nodup
        unfold longerPaths
        rw [List.map_map, List.map_map]
        exact hnodup

theorem suffixList_spells : (suffixList g m).Spells id where
  grows := by
    rintro ⟨suffix, nodes, left⟩ s' hs'
    match left with
    | 0 => cases hs'
    | hops + 1 =>
        obtain ⟨row, hrow, rfl⟩ := List.mem_map.1 hs'
        obtain ⟨⟨hop, ends⟩, -, rfl⟩ := List.mem_map.1 hrow
        exact ⟨hop, rfl⟩
  apart := by
    rintro ⟨suffix, nodes, left⟩
    match left with
    | 0 => exact List.nodup_nil
    | hops + 1 =>
        have hnodup := nodup_map_hopTokens (groupNodes (reached g m nodes).items) suffix
        show (((longerSuffixes suffix (reached g m nodes).items).map _).map _).Nodup
        unfold longerSuffixes
        rw [List.map_map, List.map_map]
        exact hnodup

/-- A visit gives its frontier and the children of this one. -/
theorem exists_visit_items (f : Frontier) : ∃ children, (visit g m f).items = [(f, children)] := by
  unfold visit
  cases f.grow g m with
  | ok children => exact ⟨children, rfl⟩
  | error halt => exact ⟨[], rfl⟩

theorem censusList_spells : (censusList g m).Spells MetaPath.tokens where
  grows := by
    rintro ⟨path, nodes, left⟩ s' hs'
    match left with
    | 0 => cases hs'
    | hops + 1 =>
        obtain ⟨child, hchild, rfl⟩ := List.mem_map.1 hs'
        obtain ⟨children, hitems⟩ := exists_visit_items (g := g) (m := m) ⟨path, nodes⟩
        rw [hitems, List.flatMap_singleton] at hchild
        obtain ⟨hop, hpath⟩ :=
          (children_of_visit (hitems ▸ List.mem_singleton.2 rfl)).2 child hchild
        exact ⟨hop, congrArg MetaPath.tokens hpath⟩
  apart := by
    rintro ⟨path, nodes, left⟩
    match left with
    | 0 => exact List.nodup_nil
    | hops + 1 =>
        obtain ⟨children, hitems⟩ := exists_visit_items (g := g) (m := m) ⟨path, nodes⟩
        have hvisit : ((⟨path, nodes⟩ : Frontier), children) ∈ (visit g m ⟨path, nodes⟩).items :=
          hitems ▸ List.mem_singleton.2 rfl
        have hnodup := (children_of_visit hvisit).1
        show ((((visit g m ⟨path, nodes⟩).items.flatMap Prod.snd).map _).map _).Nodup
        rw [hitems, List.flatMap_singleton, List.map_map]
        have hinj : Function.Injective MetaPath.tokens := fun p p' h => MetaPath.ext h
        have htokens := hnodup.map hinj
        rwa [List.map_map] at htokens

/-! ## §5. What a loop comes to. -/

/-- The paths found in the end when a worker's trail is entered after others, if its entries all
succeed and it does not halt. -/
def Findings.seenAfter (f : Findings) (m : Mapping) (unit : WorkUnit) (t : Trail MetaPath) :
    Option PathSet :=
  match f.noteTrail m unit t with
  | (f', none) => some f'.seen
  | (_, some _) => none

theorem Findings.seenAfter_eq_some_iff {f : Findings} {unit : WorkUnit} {t : Trail MetaPath}
    {seen : PathSet} : f.seenAfter m unit t = some seen ↔
      t.halt = none ∧ (f.noteAll m t.items).2 = none
        ∧ ∀ p, p ∈ seen ↔ p ∈ f.seen ∨ p ∈ t.items := by
  unfold seenAfter noteTrail
  rcases hnote : f.noteAll m t.items with ⟨f', fault⟩
  cases fault with
  | some fault => simp
  | none =>
      have hseen := mem_seen_noteAll hnote
      cases hhalt : t.halt with
      | some halt => simp
      | none =>
          simp only [Option.map_none, Option.some.injEq, true_and]
          constructor
          · intro h
            rwa [← h]
          · intro h
            exact Std.ExtTreeSet.ext_mem fun p => (hseen p).trans (h p).symm

/-- **The paths of a trail** are entered with the same success in whatever order they come. -/
theorem Findings.seenAfter_congr {f : Findings} {bound : Option Nat} (hroom : f.sink.HasRoom bound)
    {unit : WorkUnit} {t t' : Trail MetaPath} (hhalt : t.halt = none ↔ t'.halt = none)
    (hitems : ∀ p, p ∈ t.items ↔ p ∈ t'.items) :
    f.seenAfter m unit t = f.seenAfter m unit t' := by
  have hunseen : ∀ p, p ∈ unseen f.seen t.items ↔ p ∈ unseen f.seen t'.items := fun p => by
    rw [mem_unseen, mem_unseen, hitems]
  have hnotes : (f.noteAll m t.items).2 = none ↔ (f.noteAll m t'.items).2 = none := by
    rw [noteAll_eq_none_iff hroom, noteAll_eq_none_iff hroom,
      sum_lineSize_eq (nodup_unseen _ _) (nodup_unseen _ _) hunseen]
    simp only [hunseen]
  refine Option.ext fun seen => ?_
  rw [seenAfter_eq_some_iff, seenAfter_eq_some_iff, hhalt, hnotes]
  simp only [hitems]

/-- The path without a hop, which a search finds before its loop. -/
def rootTrail (wanted : NodeSet) (label : LabelIndex) (starts : NodeSet) : Trail MetaPath :=
  .give (if starts.meets wanted then [MetaPath.single label] else [])

/-- The paths of a list, each once. -/
def pathSetOf (paths : List MetaPath) : PathSet :=
  .ofList paths compare

/-- Trails that come to the same paths, one of them without a halt. -/
theorem mem_iff_of_pathSetOf_eq {t t' : Trail MetaPath} (hhalt : t.halt = none)
    (hsame : t.settled.toOption.map pathSetOf = t'.settled.toOption.map pathSetOf) (p : MetaPath) :
    p ∈ t.items ↔ p ∈ t'.items := by
  obtain ⟨items, halt⟩ := t
  obtain ⟨items', halt'⟩ := t'
  obtain rfl : halt = none := hhalt
  cases halt' with
  | some halt => cases hsame
  | none =>
      have hsets : pathSetOf items = pathSetOf items' := Option.some.inj hsame
      have hmem : p ∈ pathSetOf items ↔ p ∈ pathSetOf items' := by rw [hsets]
      unfold pathSetOf at hmem
      rwa [mem_ofList_iff, mem_ofList_iff] at hmem

/-- The order in which a search finds paths is free. -/
theorem searchList_orderFree (root : Pending MetaPath NodeSet) :
    (searchList g m index wanted).OrderFree root fun t => t.settled.toOption.map pathSetOf := by
  refine Worklist.orderFree_of_settled searchList_spells (fun states states' hperm _ => ?_) root
  refine Std.ExtTreeSet.ext_mem fun p => ?_
  unfold pathSetOf
  rw [mem_ofList_iff, mem_ofList_iff]
  exact (hperm.flatMap_right _).mem_iff

/-- The order in which they are entered is free as well, where the sink has so much room. -/
theorem searchList_orderFree_entered {f : Findings} {bound : Option Nat}
    (hroom : f.sink.HasRoom bound) (unit : WorkUnit) (first : List MetaPath)
    (root : Pending MetaPath NodeSet) :
    (searchList g m index wanted).OrderFree root fun t =>
      f.seenAfter m unit ((Trail.give first).andThen fun _ => t) := by
  refine Worklist.orderFree_of_spells searchList_spells ?_ ?_ root
  · intro t hhalt
    refine Option.eq_none_iff_forall_ne_some.2 fun seen hseen => hhalt ?_
    exact ((Trail.andThen_halt_eq_none _ _).1 (Findings.seenAfter_eq_some_iff.1 hseen).1).2
  · intro states states' hperm _
    refine Findings.seenAfter_congr hroom (by simp [Trail.andThen_halt_eq_none]) fun p => ?_
    rw [Trail.andThen_items _ _ rfl, Trail.andThen_items _ _ rfl, List.mem_append, List.mem_append]
    exact or_congr_right (hperm.flatMap_right _).mem_iff

/-- The suffix map of a node from the rows of its loop. -/
def suffixMapOf (v : NodeId) (rows : List SuffixEnds) : SuffixMap :=
  SuffixMap.mergeAll ∅ (([], (∅ : NodeSet).insert v) :: rows)

/-- Rows may be united in any order. -/
theorem mergeAll_perm {rows rows' : List SuffixEnds} (hperm : rows.Perm rows') :
    SuffixMap.mergeAll ∅ rows = SuffixMap.mergeAll ∅ rows' := by
  refine Std.ExtTreeMap.ext_getElem? fun s => Option.ext fun ends => ?_
  rw [getElem?_mergeAll_empty, getElem?_mergeAll_empty]
  simp only [hperm.mem_iff]

/-- The order in which a suffix map is made is free. -/
theorem suffixList_orderFree (v : NodeId) (root : Pending Suffix NodeSet) :
    (suffixList g m).OrderFree root fun t => t.settled.toOption.map (suffixMapOf v) := by
  refine Worklist.orderFree_of_settled suffixList_spells (fun states states' hperm _ => ?_) root
  unfold suffixMapOf
  exact mergeAll_perm ((hperm.flatMap_right _).cons _)

/-- The table with the rows of a worker put into it. -/
def tableAfter (table : Census) (rows : List PathCount) : Census :=
  rows.foldl (fun table (path, n) => table.insert path n) table

/-- Rows with different paths may be put into a table in any order. -/
theorem tableAfter_perm {rows rows' : List PathCount} (hperm : rows.Perm rows')
    (hnodup : (rows.map Prod.fst).Nodup) (table : Census) :
    tableAfter table rows = tableAfter table rows' := by
  refine hperm.foldl_eq' (fun row hrow row' hrow' table => ?_) table
  by_cases hpath : row.1 = row'.1
  · rw [List.inj_on_of_nodup_map hnodup hrow hrow' hpath]
  · refine Std.ExtTreeMap.ext_getElem? fun p => ?_
    rw [Std.ExtTreeMap.getElem?_insert, Std.ExtTreeMap.getElem?_insert,
      Std.ExtTreeMap.getElem?_insert, Std.ExtTreeMap.getElem?_insert]
    simp only [Std.LawfulEqCmp.compare_eq_iff_eq]
    split_ifs with h h'
    · exact absurd (h'.trans h.symm) hpath
    · rfl
    · rfl
    · rfl

theorem map_fst_censusList_items (s : Pending MetaPath NodeCounts) :
    ((censusList g m).gives s).items.map Prod.fst = [s.key] := by
  obtain ⟨path, nodes, left⟩ := s
  cases left with
  | zero => rfl
  | succ hops =>
      obtain ⟨children, hitems⟩ := exists_visit_items (g := g) (m := m) ⟨path, nodes⟩
      show ((visit g m ⟨path, nodes⟩).items.map _).map _ = _
      rw [hitems]
      rfl

/-- The order in which a census removes frontiers is free. -/
theorem censusList_orderFree (table : Census) (root : Pending MetaPath NodeCounts) :
    (censusList g m).OrderFree root fun t => t.settled.toOption.map (tableAfter table) := by
  refine Worklist.orderFree_of_settled censusList_spells
    (fun states states' hperm hnodup => ?_) root
  refine tableAfter_perm (hperm.flatMap_right _) ?_ table
  rw [List.map_flatMap]
  simp only [map_fst_censusList_items]
  rwa [← List.map_eq_flatMap]

end

/-! ## §6. All three engines. -/

/-- What is the same about the worker of a search in whatever order it removes paths. -/
structure SearchesInAnyOrder (g : GraphView) (m : Mapping) (index : HubIndex) (length : PathLength)
    (wanted : NodeSet) (label : LabelIndex) (starts : NodeSet) : Prop where
  /-- The worker finds the path without a hop and then goes on with its loop. -/
  worker : searchWorker g m index length wanted label starts =
    (rootTrail wanted label starts).andThen fun _ =>
      pursue g m index wanted length.hops (.single label) starts
  /-- It halts in all orders or in none, and finds the same paths. -/
  found : (searchList g m index wanted).Interchangeable Worklist.latest
    ⟨.single label, starts, length.hops⟩ (fun t => t.settled.toOption.map pathSetOf)
    (pursue g m index wanted length.hops (.single label) starts)
  /-- Whatever the sink does: if all entries succeed, these are the paths of the worker. -/
  entered : ∀ (unit : WorkUnit) (f : Findings) positions r,
    (searchList g m index wanted).run? (.start [⟨.single label, starts, length.hops⟩]) positions =
      some r → r.Over → ∀ seen,
      f.seenAfter m unit ((rootTrail wanted label starts).andThen fun _ => r.trail) = some seen →
        ∀ p, p ∈ seen ↔
          p ∈ f.seen ∨ p ∈ (searchWorker g m index length wanted label starts).items
  /-- Where the sink has so much room, the entries succeed in all orders or in none. -/
  succeeds : ∀ (unit : WorkUnit) (f : Findings) (bound : Option Nat), f.sink.HasRoom bound →
    (searchList g m index wanted).Interchangeable Worklist.latest
      ⟨.single label, starts, length.hops⟩
      (fun t => f.seenAfter m unit ((rootTrail wanted label starts).andThen fun _ => t))
      (pursue g m index wanted length.hops (.single label) starts)

theorem searchesInAnyOrder (g : GraphView) (m : Mapping) (index : HubIndex) (length : PathLength)
    (wanted : NodeSet) (label : LabelIndex) (starts : NodeSet) :
    SearchesInAnyOrder g m index length wanted label starts := by
  have hmakes : (searchList g m index wanted).Makes Worklist.latest
      ⟨.single label, starts, length.hops⟩
      (pursue g m index wanted length.hops (.single label) starts) := by
    rw [pursue_eq_descent]
    exact Worklist.makes_descent _ _
  have hfound := (searchList_orderFree _).interchangeable hmakes
  refine ⟨rfl, hfound, fun unit f positions r hrun hover seen hseen p => ?_,
    fun unit f bound hroom => (searchList_orderFree_entered hroom unit _ _).interchangeable hmakes⟩
  obtain ⟨hhalt, -, hmem⟩ := Findings.seenAfter_eq_some_iff.1 hseen
  have hhalt : r.halt = none := ((Trail.andThen_halt_eq_none _ _).1 hhalt).2
  have hpaths := mem_iff_of_pathSetOf_eq hhalt (hfound.same positions r hrun hover) p
  rw [hmem, Trail.andThen_items _ _ rfl, List.mem_append]
  show _ ↔ p ∈ f.seen ∨ p ∈ ((rootTrail wanted label starts).andThen _).items
  rw [Trail.andThen_items _ _ rfl, List.mem_append, ← hpaths]

/-- **The order of removals is free in all three engines**, for every graph, cyclic or not, and
every length.  The worker of a search and the suffix map of a node are made with a stack, the
worker of a census with a queue.  Were any pending state removed next, each order would come to
its end after a bounded number of removals, none of them of the same path or suffix as another,
and would succeed if and only if the engine does, with the same paths found, the same map or the
same table. -/
theorem engines_are_orderFree (g : GraphView) (m : Mapping) (length : PathLength) :
    (∀ (index : HubIndex) (wanted : NodeSet) (label : LabelIndex) (starts : NodeSet),
      SearchesInAnyOrder g m index length wanted label starts)
      ∧ (∀ (v : NodeId) (label : LabelIndex), m.indexOfNode g v = .ok label →
        (suffixList g m).Interchangeable Worklist.latest ⟨[], (∅ : NodeSet).insert v, length.hops⟩
            (fun t => t.settled.toOption.map (suffixMapOf v))
            (growSuffix g m length.hops [] ((∅ : NodeSet).insert v))
          ∧ suffixesFrom g m v length =
            (growSuffix g m length.hops [] ((∅ : NodeSet).insert v)).settled.map (suffixMapOf v))
      ∧ ∀ (label : LabelIndex) (nodes : NodeCounts) (table : Census),
        (censusList g m).Interchangeable Worklist.earliest ⟨.single label, nodes, length.hops⟩
          (fun t => t.settled.toOption.map (tableAfter table))
          (censusWorker g m length label nodes) := by
  refine ⟨fun index wanted label starts => searchesInAnyOrder g m index length wanted label starts,
    fun v label hlabel => ⟨?_, ?_⟩, fun label nodes table => ?_⟩
  · refine (suffixList_orderFree v _).interchangeable ?_
    rw [growSuffix_eq_descent]
    exact Worklist.makes_descent _ _
  · unfold suffixesFrom suffixesWithin
    rw [hlabel]
    rfl
  · exact (censusList_orderFree table _).interchangeable (makes_censusWorker length label nodes)

/-- The engines on `twins`, where every walk goes to and fro between two nodes. -/
theorem engines_are_orderFree_twins :
    twinLabels.indexOfNode twins.view 1 = .ok 0 ∧ Sink.unlimited.HasRoom none
      ∧ ((searchWorker twins.view twinLabels twinIndex ⟨4, by decide, by decide⟩
          ((∅ : NodeSet).insert 1) 0 ((∅ : NodeSet).insert 1)).items.map MetaPath.tokens) =
        [[0], [0, 0, 1, 0, 0]]
      ∧ (searchList twins.view twinLabels twinIndex ((∅ : NodeSet).insert 1)).Interchangeable
          Worklist.latest ⟨.single 0, (∅ : NodeSet).insert 1, 3⟩
          (fun t => (⟨∅, .unlimited⟩ : Findings).seenAfter twinLabels (.startLabel 0)
            ((rootTrail ((∅ : NodeSet).insert 1) 0 ((∅ : NodeSet).insert 1)).andThen fun _ => t))
          (pursue twins.view twinLabels twinIndex ((∅ : NodeSet).insert 1) 3 (.single 0)
            ((∅ : NodeSet).insert 1))
      ∧ (suffixList twins.view twinLabels).Interchangeable Worklist.latest
          ⟨[], (∅ : NodeSet).insert 1, 3⟩ (fun t => t.settled.toOption.map (suffixMapOf 1))
          (growSuffix twins.view twinLabels 3 [] ((∅ : NodeSet).insert 1)) := by
  have hitems : (searchWorker twins.view twinLabels twinIndex ⟨4, by decide, by decide⟩
      ((∅ : NodeSet).insert 1) 0 ((∅ : NodeSet).insert 1)).items.map MetaPath.tokens =
        [[0], [0, 0, 1, 0, 0]] := by
    decide +kernel
  have hlabel : twinLabels.indexOfNode twins.view 1 = .ok 0 := by
    unfold twinLabels
    cbv
  have hroom := Sink.unlimited_accepting.hasRoom
  have h := engines_are_orderFree twins.view twinLabels ⟨4, by decide, by decide⟩
  have hsearch := h.1 twinIndex ((∅ : NodeSet).insert 1) 0 ((∅ : NodeSet).insert 1)
  exact ⟨hlabel, hroom, hitems, hsearch.succeeds _ ⟨∅, .unlimited⟩ none hroom,
    (h.2.1 1 0 hlabel).1⟩

end LabelWalks
