/-
  LabelWalks.Proofs.Search.Findings
  ─────────────────────────────────
  **WHAT THE WORKERS OF A SEARCH PUT TOGETHER.**

  A search hands its start nodes to workers by label, and the workers enter what
  they find in one set.  When no fault comes up the set is just what the workers
  found, whichever worker found it first; and with a sink that takes everything
  only a worker's halt can be a fault.

    • `mem_startsByLabel`, `wantedNodes_eq_ok_iff` — who works on what,
    • `noteTrails_spec`, `noteTrails_eq_none_iff` — the shared set,
    • `mem_search`, `adds_of_search`, `exists_search_iff` — the whole search.
-/
import LabelWalks.Proofs.Search.Pursuit
import LabelWalks.Proofs.Search.Room

namespace LabelWalks

/-! ## §1. Start nodes and end nodes. -/

/-- Every node of a list has a dense label. -/
def Labelled (g : GraphView) (m : Mapping) (nodes : List NodeId) : Prop :=
  ∀ v ∈ nodes, ∃ label, m.indexOfNode g v = .ok label

variable {g : GraphView} {m : Mapping}

theorem startsByLabel_eq_ok_iff {starts : List NodeId}
    {groups : Std.ExtTreeMap LabelIndex NodeSet} :
    startsByLabel g m starts = .ok groups ↔
      ∃ rows, LookedUp (m.indexOfNode g) starts rows
        ∧ groups = gather Prod.snd ∅ (fun (s : NodeSet) row => s.insert row.1) ∅ rows :=
  foldlM_eq_ok_iff starts

theorem exists_startsByLabel_iff {starts : List NodeId} :
    (∃ groups, startsByLabel g m starts = .ok groups) ↔ Labelled g m starts :=
  exists_foldlM_iff starts

/-- **The start nodes of one label.** -/
theorem mem_startsByLabel {starts : List NodeId} {groups : Std.ExtTreeMap LabelIndex NodeSet}
    (h : startsByLabel g m starts = .ok groups) {label : LabelIndex} {nodes : NodeSet} :
    (label, nodes) ∈ groups.toList ↔
      (∃ v ∈ starts, m.indexOfNode g v = .ok label)
        ∧ ∀ v, v ∈ nodes ↔ v ∈ starts ∧ m.indexOfNode g v = .ok label := by
  obtain ⟨rows, hrows, rfl⟩ := startsByLabel_eq_ok_iff.1 h
  rw [Std.ExtTreeMap.mem_toList_iff_getElem?_eq_some,
    getElem?_gather_sets_iff Prod.snd fun _ row _ => NodeSet.mem_insert_iff (v := row.1)]
  -- the rows with a label are the start nodes that have it
  have hmem : ∀ v, (∃ row ∈ rows, row.2 = label ∧ row.1 = v) ↔
      v ∈ starts ∧ m.indexOfNode g v = .ok label := by
    intro v
    rw [← hrows.mem_iff]
    constructor
    · intro h
      obtain ⟨row, hrow, rfl, rfl⟩ := h
      exact hrow
    · intro hrow
      exact ⟨_, hrow, rfl, rfl⟩
  refine and_congr ?_ (forall_congr' fun v => iff_congr Iff.rfl (hmem v))
  constructor
  · intro h
    obtain ⟨row, hrow, hlabel⟩ := h
    exact ⟨row.1, (hmem row.1).1 ⟨row, hrow, hlabel, rfl⟩⟩
  · intro h
    obtain ⟨v, hv⟩ := h
    obtain ⟨row, hrow, hlabel, -⟩ := (hmem v).2 hv
    exact ⟨row, hrow, hlabel⟩

/-- Each start node is among those of its label. -/
theorem exists_mem_startsByLabel {starts : List NodeId}
    {groups : Std.ExtTreeMap LabelIndex NodeSet} (h : startsByLabel g m starts = .ok groups)
    {v : NodeId} (hv : v ∈ starts) {label : LabelIndex} (hlabel : m.indexOfNode g v = .ok label) :
    ∃ nodes, (label, nodes) ∈ groups.toList ∧ v ∈ nodes := by
  obtain ⟨rows, hrows, hgroups⟩ := startsByLabel_eq_ok_iff.1 h
  have hrow : (v, label) ∈ rows := hrows.mem_iff.2 ⟨hv, hlabel⟩
  obtain ⟨nodes, hnodes⟩ : ∃ nodes, groups[label]? = some nodes := by
    rw [hgroups]
    exact exists_getElem?_gather Prod.snd _ _ hrow
  have hgroup : (label, nodes) ∈ groups.toList :=
    Std.ExtTreeMap.mem_toList_iff_getElem?_eq_some.2 hnodes
  exact ⟨nodes, hgroup, (((mem_startsByLabel h).1 hgroup).2 v).2 ⟨hv, hlabel⟩⟩

/-- The end nodes are wanted, and they all have labels. -/
theorem wantedNodes_eq_ok_iff {ends : List NodeId} {wanted : NodeSet} :
    wantedNodes g m ends = .ok wanted ↔
      Labelled g m ends ∧ ∀ v, v ∈ wanted ↔ v ∈ ends := by
  have hfold : wantedNodes g m ends = .ok wanted ↔
      ∃ rows, LookedUp (m.indexOfNode g) ends rows
        ∧ wanted = rows.foldl (fun (s : NodeSet) row => s.insert row.1) ∅ :=
    foldlM_eq_ok_iff ends
  have hmem : ∀ rows, LookedUp (m.indexOfNode g) ends rows →
      ∀ v, v ∈ rows.foldl (fun (s : NodeSet) row => s.insert row.1) ∅ ↔ v ∈ ends := by
    intro rows h v
    obtain ⟨hrows, -⟩ := h
    rw [mem_foldl_add fun _ row _ => NodeSet.mem_insert_iff (v := row.1), ← hrows, List.mem_map]
    simp
  rw [hfold]
  unfold Labelled
  rw [← exists_lookedUp_iff]
  constructor
  · intro h
    obtain ⟨rows, hrows, rfl⟩ := h
    exact ⟨⟨rows, hrows⟩, hmem rows hrows⟩
  · intro h
    obtain ⟨⟨rows, hrows⟩, hwanted⟩ := h
    refine ⟨rows, hrows, Std.ExtTreeSet.ext_mem fun v => ?_⟩
    rw [hwanted, hmem rows hrows]

/-! ## §2. The shared set. -/

namespace Findings

/-- A path that could be entered is in the set then, and nothing else is new. -/
theorem mem_seen_note {f f' : Findings} {path : MetaPath} (h : f.note m path = (f', none))
    (p : MetaPath) : p ∈ f'.seen ↔ p ∈ f.seen ∨ p = path := by
  have hnoted : Noted m f path (f', none) := h ▸ noted_note m f path
  cases hnoted with
  | known hseen =>
      constructor
      · exact .inl
      · intro h
        rcases h with hp | rfl
        · exact hp
        · exact hseen
  | written hseen hline hwrite =>
      show p ∈ f.seen.insert path ↔ _
      rw [mem_insert_set_iff, @eq_comm _ path]

theorem mem_seen_noteAll {paths : List MetaPath} :
    ∀ {f f' : Findings}, f.noteAll m paths = (f', none) →
      ∀ p, p ∈ f'.seen ↔ p ∈ f.seen ∨ p ∈ paths := by
  induction paths with
  | nil =>
      intro f f' h p
      injection h with h
      subst h
      simp
  | cons path paths ih =>
      intro f f' h p
      unfold noteAll at h
      rcases hnote : f.note m path with ⟨f₁, fault⟩
      rw [hnote] at h
      cases fault with
      | some fault => cases h
      | none =>
          rw [ih h, mem_seen_note hnote, List.mem_cons, or_assoc]

theorem noteTrail_spec {f f' : Findings} {unit : WorkUnit} {trail : Trail MetaPath}
    (h : f.noteTrail m unit trail = (f', none)) :
    trail.halt = none ∧ ∀ p, p ∈ f'.seen ↔ p ∈ f.seen ∨ p ∈ trail.items := by
  unfold noteTrail at h
  rcases hnote : f.noteAll m trail.items with ⟨f₁, fault⟩
  rw [hnote] at h
  cases fault with
  | some fault => cases h
  | none =>
      simp only [Prod.mk.injEq, Option.map_eq_none_iff] at h
      obtain ⟨rfl, hhalt⟩ := h
      exact ⟨hhalt, mem_seen_noteAll hnote⟩

/-- **Without a fault** no worker halted, and the set has what the workers found. -/
theorem noteTrails_spec {workers : List (LabelIndex × Trail MetaPath)} :
    ∀ {f f' : Findings}, f.noteTrails m workers = (f', none) →
      (∀ w ∈ workers, w.2.halt = none)
        ∧ ∀ p, p ∈ f'.seen ↔ p ∈ f.seen ∨ ∃ w ∈ workers, p ∈ w.2.items := by
  -- later workers enter what they found even after a fault, so the fault of the first one
  -- has to be excluded before theirs
  induction workers with
  | nil =>
      intro f f' h
      injection h with h
      subst h
      simp
  | cons w workers ih =>
      intro f f' h
      obtain ⟨label, trail⟩ := w
      unfold noteTrails at h
      rcases hfirst : f.noteTrail m (.startLabel label) trail with ⟨f₁, fault⟩
      rcases hrest : f₁.noteTrails m workers with ⟨f₂, later⟩
      simp only [hfirst, hrest, Prod.mk.injEq] at h
      obtain ⟨rfl, hnone⟩ := h
      cases fault with
      | some fault => cases hnone
      | none =>
          have hnone : later = none := hnone
          subst hnone
          obtain ⟨hhalt, hseen⟩ := noteTrail_spec hfirst
          obtain ⟨hhalts, hseens⟩ := ih hrest
          refine ⟨?_, fun p => ?_⟩
          · intro w hw
            rcases List.mem_cons.1 hw with rfl | hw
            · exact hhalt
            · exact hhalts w hw
          · rw [hseens, hseen, or_assoc]
            simp

end Findings

/-! ## §3. One worker. -/

/-- All suffixes of the index stand for labels. -/
def HubIndex.Renderable (m : Mapping) (index : HubIndex) : Prop :=
  ∀ (v : NodeId) (map : SuffixMap) (s : Suffix) (ends : NodeSet),
    index.get? v = some map → map[s]? = some ends → Registered m .edge s

theorem Finds.registered {index : HubIndex} {wanted : NodeSet} (hindex : index.Renderable m)
    {hops : Nat} {v : NodeId} {s : Suffix} (h : Finds g m index wanted hops v s) :
    Registered m .edge s := by
  induction h with
  | arrive first => exact first.registered
  | takeOver first indexed row =>
      exact registered_append_pair.2 ⟨first.registered, hindex _ _ _ _ indexed row⟩
  | walkOn first walked rest ih => exact registered_append_pair.2 ⟨first.registered, ih⟩

theorem Finds.even {index : HubIndex} {wanted : NodeSet} (hindex : index.Even) {hops : Nat}
    {v : NodeId} {s : Suffix} (h : Finds g m index wanted hops v s) : s.length % 2 = 0 := by
  induction h with
  | arrive first => exact congrArg (· % 2) (Hop.length_tokens _)
  | takeOver first indexed row =>
      have heven := hindex _ _ _ _ indexed row
      rw [List.length_append, Hop.length_tokens]
      omega
  | walkOn first walked rest ih =>
      rw [List.length_append, Hop.length_tokens]
      omega

/-- The path without a hop is found when a start node is wanted. -/
theorem mem_root_iff {wanted nodes : NodeSet} {label : LabelIndex} {p : MetaPath} :
    p ∈ (if nodes.meets wanted then [MetaPath.single label] else []) ↔
      ∃ v ∈ nodes, v ∈ wanted ∧ p.tokens = [label] := by
  by_cases hmeets : nodes.meets wanted = true
  · rw [if_pos hmeets, List.mem_singleton]
    obtain ⟨v, hv, hwanted⟩ := NodeSet.meets_iff.1 hmeets
    constructor
    · intro h
      subst h
      exact ⟨v, hv, hwanted, rfl⟩
    · intro h
      obtain ⟨-, -, -, htokens⟩ := h
      exact MetaPath.ext htokens
  · rw [if_neg hmeets]
    constructor
    · intro hp
      cases hp
    · intro h
      obtain ⟨v, hv, hwanted, -⟩ := h
      exact absurd (NodeSet.meets_iff.2 ⟨v, hv, hwanted⟩) hmeets

/-- **The paths of one worker.** -/
theorem mem_searchWorker {index : HubIndex} {length : PathLength} {wanted nodes : NodeSet}
    {label : LabelIndex} (h : (searchWorker g m index length wanted label nodes).halt = none)
    {p : MetaPath} :
    p ∈ (searchWorker g m index length wanted label nodes).items ↔
      ∃ v ∈ nodes, (v ∈ wanted ∧ p.tokens = [label])
        ∨ ∃ s, Finds g m index wanted length.hops v s ∧ p.tokens = label :: s := by
  unfold searchWorker at h ⊢
  rw [Trail.andThen_items _ _ (Trail.give_halt _), List.mem_append, Trail.give_items,
    mem_root_iff, mem_pursue _ h]
  constructor
  · intro h
    rcases h with ⟨v, hv, hhere⟩ | ⟨v, hv, hfound⟩
    · exact ⟨v, hv, .inl hhere⟩
    · exact ⟨v, hv, .inr hfound⟩
  · intro h
    obtain ⟨v, hv, hhere | hfound⟩ := h
    · exact .inl ⟨v, hv, hhere⟩
    · exact .inr ⟨v, hv, hfound⟩

/-- Nothing stops a worker at what it does from a node: its way is clear as far as nodes are
not indexed, and what it finds is made of pairs of registered tokens. -/
def Searchable (g : GraphView) (m : Mapping) (index : HubIndex) (wanted : NodeSet) (hops : Nat)
    (v : NodeId) : Prop :=
  Clear g m index.contains hops v
    ∧ ∀ s, Finds g m index wanted hops v s → s.length % 2 = 0 ∧ Registered m .edge s

/-- **A worker neither halts nor finds a path without a line** when nothing stops it at any of
its start nodes. -/
theorem searchWorker_clean_iff {index : HubIndex} {length : PathLength} {wanted nodes : NodeSet}
    {label : LabelIndex} (hlabel : ∃ l, m.nodeLabel label = .ok l) :
    ((searchWorker g m index length wanted label nodes).halt = none
        ∧ ∀ p ∈ (searchWorker g m index length wanted label nodes).items,
          Registered m .node p.tokens) ↔
      ∀ v ∈ nodes, Searchable g m index wanted length.hops v := by
  have hhalt : (searchWorker g m index length wanted label nodes).halt = none ↔
      (pursue g m index wanted length.hops (.single label) nodes).halt = none := by
    unfold searchWorker
    rw [Trail.andThen_halt_eq_none, Trail.give_halt]
    exact and_iff_right rfl
  rw [hhalt, pursue_halt_eq_none]
  constructor
  · intro h v hv
    obtain ⟨hway, hitems⟩ := h
    refine ⟨(hway v hv).1, fun s hfinds => ?_⟩
    have heven : s.length % 2 = 0 := (hway v hv).2 s hfinds
    have hodd : (label :: s).length % 2 = 1 := by
      rw [List.length_cons]
      omega
    have hfound : (⟨label :: s, hodd⟩ : MetaPath) ∈
        (searchWorker g m index length wanted label nodes).items :=
      (mem_searchWorker (hhalt.2 ((pursue_halt_eq_none _).2 hway))).2
        ⟨v, hv, .inr ⟨s, hfinds, rfl⟩⟩
    exact ⟨heven, (hitems _ hfound).2⟩
  · intro h
    have hway : ∀ v ∈ nodes, Clear g m index.contains length.hops v
        ∧ ∀ s, Finds g m index wanted length.hops v s → s.length % 2 = 0 := by
      intro v hv
      exact ⟨(h v hv).1, fun s hfinds => ((h v hv).2 s hfinds).1⟩
    refine ⟨hway, fun p hp => ?_⟩
    obtain ⟨v, hv, hfound⟩ :=
      (mem_searchWorker (hhalt.2 ((pursue_halt_eq_none _).2 hway))).1 hp
    rcases hfound with ⟨-, htokens⟩ | ⟨s, hfinds, htokens⟩
    · rw [htokens]
      exact ⟨hlabel, trivial⟩
    · rw [htokens]
      exact ⟨hlabel, ((h v hv).2 s hfinds).2⟩

/-! ## §4. The whole search. -/

theorem mem_searchWorkers {index : HubIndex} {length : PathLength} {wanted : NodeSet}
    {groups : Std.ExtTreeMap LabelIndex NodeSet} {w : LabelIndex × Trail MetaPath} :
    w ∈ searchWorkers g m index length wanted groups ↔
      ∃ label nodes, (label, nodes) ∈ groups.toList
        ∧ (label, searchWorker g m index length wanted label nodes) = w := by
  simp only [searchWorkers, List.mem_map, Prod.exists]

/-- What it takes for a search to come to its end. -/
theorem search_eq_ok_iff {index : HubIndex} {length : PathLength} {starts ends : List NodeId}
    {sink : Sink} {paths : PathSet} :
    (search g m index length starts ends sink).2 = .ok paths ↔
      ∃ groups wanted f, startsByLabel g m starts = .ok groups ∧ wantedNodes g m ends = .ok wanted
        ∧ Findings.noteTrails ⟨∅, sink⟩ m (searchWorkers g m index length wanted groups) = (f, none)
        ∧ f.sink.flush.2 = none ∧ f.seen = paths := by
  unfold search
  cases hstarts : startsByLabel g m starts with
  | error fault =>
      constructor
      · intro h
        cases h
      · intro h
        obtain ⟨groups, wanted, f, hgroups, -⟩ := h
        cases hgroups
  | ok groups =>
      cases hends : wantedNodes g m ends with
      | error fault =>
          constructor
          · intro h
            cases h
          · intro h
            obtain ⟨groups, wanted, f, -, hwanted, -⟩ := h
            cases hwanted
      | ok wanted =>
          simp only [bind, Except.bind, pure, Except.pure, Except.ok.injEq, exists_and_left,
            exists_eq_left']
          rcases hnotes : Findings.noteTrails ⟨∅, sink⟩ m
            (searchWorkers g m index length wanted groups) with ⟨f, fault⟩
          cases fault with
          | some fault => simp
          | none =>
              rcases hflush : f.sink.flush with ⟨sink', refusal⟩
              cases refusal with
              | some problem => simp [hflush]
              | none => simp [hflush]

/-- A start node is wanted itself, or something is found from it. -/
def Found (g : GraphView) (m : Mapping) (index : HubIndex) (wanted : NodeSet)
    (length : PathLength) (starts : List NodeId) (p : MetaPath) : Prop :=
  ∃ v ∈ starts, ∃ label, m.indexOfNode g v = .ok label
    ∧ ((v ∈ wanted ∧ p.tokens = [label])
      ∨ ∃ s, Finds g m index wanted length.hops v s ∧ p.tokens = label :: s)

/-- **What all workers find** when none of them halts. -/
theorem exists_mem_searchWorkers_iff {index : HubIndex} {length : PathLength} {wanted : NodeSet}
    {starts : List NodeId} {groups : Std.ExtTreeMap LabelIndex NodeSet}
    (hstarts : startsByLabel g m starts = .ok groups)
    (hhalts : ∀ w ∈ searchWorkers g m index length wanted groups, w.2.halt = none)
    {p : MetaPath} :
    (∃ w ∈ searchWorkers g m index length wanted groups, p ∈ w.2.items) ↔
      Found g m index wanted length starts p := by
  constructor
  · intro h
    obtain ⟨w, hw, hp⟩ := h
    obtain ⟨label, nodes, hgroup, rfl⟩ := mem_searchWorkers.1 hw
    obtain ⟨v, hv, hfound⟩ := (mem_searchWorker (hhalts _ hw)).1 hp
    obtain ⟨hstart, hlabel⟩ := (((mem_startsByLabel hstarts).1 hgroup).2 v).1 hv
    exact ⟨v, hstart, label, hlabel, hfound⟩
  · intro h
    obtain ⟨v, hstart, label, hlabel, hfound⟩ := h
    obtain ⟨nodes, hgroup, hv⟩ := exists_mem_startsByLabel hstarts hstart hlabel
    have hw : (label, searchWorker g m index length wanted label nodes) ∈
        searchWorkers g m index length wanted groups :=
      mem_searchWorkers.2 ⟨_, _, hgroup, rfl⟩
    exact ⟨_, hw, (mem_searchWorker (hhalts _ hw)).2 ⟨v, hv, hfound⟩⟩

/-- **What a search finds** when it comes to its end. -/
theorem mem_search {index : HubIndex} {length : PathLength} {starts ends : List NodeId}
    {sink : Sink} {paths : PathSet}
    (h : (search g m index length starts ends sink).2 = .ok paths) :
    ∃ wanted : NodeSet, (∀ v, v ∈ wanted ↔ v ∈ ends) ∧ ∀ p, p ∈ paths ↔
      Found g m index wanted length starts p := by
  obtain ⟨groups, wanted, f, hstarts, hends, hnotes, -, rfl⟩ := search_eq_ok_iff.1 h
  obtain ⟨hhalts, hseen⟩ := Findings.noteTrails_spec hnotes
  refine ⟨wanted, (wantedNodes_eq_ok_iff.1 hends).2, fun p => ?_⟩
  rw [hseen, exists_mem_searchWorkers_iff hstarts hhalts]
  simp

/-- The paths of a search, with its end nodes as a set. -/
theorem mem_search_ofList {index : HubIndex} {length : PathLength}
    {starts ends : List NodeId} {sink : Sink} {paths : PathSet}
    (h : (search g m index length starts ends sink).2 = .ok paths) (p : MetaPath) :
    p ∈ paths ↔ Found g m index (.ofList ends) length starts p := by
  obtain ⟨wanted, hwanted, hpaths⟩ := mem_search h
  have hsame : wanted = .ofList ends := by
    refine Std.ExtTreeSet.ext_mem fun v => ?_
    rw [hwanted, mem_ofList_iff]
  rw [hpaths, hsame]

/-- **What a search writes** when it comes to its end, into whatever sink: a line for each path. -/
theorem adds_of_search {index : HubIndex} {length : PathLength} {starts ends : List NodeId}
    {sink : Sink} {paths : PathSet}
    (h : (search g m index length starts ends sink).2 = .ok paths) :
    Adds sink (search g m index length starts ends sink).1
      fun line => ∃ p ∈ paths, p.render m = .ok line := by
  obtain ⟨groups, wanted, f, hstarts, hends, hnotes, -, rfl⟩ := search_eq_ok_iff.1 h
  have hlast : (search g m index length starts ends sink).1.written = f.sink.written := by
    unfold search
    rw [hstarts, hends]
    simp only [bind, Except.bind, pure, Except.pure, hnotes]
    rcases hflush : f.sink.flush with ⟨sink', refusal⟩
    have hwritten : sink'.written = f.sink.written := Sink.written_of_flush hflush
    cases refusal <;> exact hwritten
  obtain ⟨lines, hlines, hwritten⟩ :=
    Findings.forall₂_of_noteAll (Findings.noteAll_of_noteTrails hnotes)
  obtain ⟨-, hseen⟩ := Findings.noteTrails_spec hnotes
  have hmem : ∀ p, p ∈ f.seen ↔ p ∈ unseen ∅ ((searchWorkers g m index length wanted groups).flatMap
      fun w => w.2.items) := by
    intro p
    rw [hseen, mem_unseen, List.mem_flatMap]
    simp
  simp only [hmem]
  exact adds_of_forall₂ (biUnique_render m) (fun _ _ hline => newline_not_mem_of_render hline)
    hlines (nodup_unseen _ _) (hlast.trans hwritten)

/-- Two searches between the same nodes want the same nodes, whatever their indexes. -/
theorem mem_search_both {index index' : HubIndex} {length : PathLength}
    {starts ends : List NodeId} {sink sink' : Sink} {paths paths' : PathSet}
    (h : (search g m index length starts ends sink).2 = .ok paths)
    (h' : (search g m index' length starts ends sink').2 = .ok paths') :
    ∃ wanted : NodeSet, (∀ p, p ∈ paths ↔ Found g m index wanted length starts p)
      ∧ ∀ p, p ∈ paths' ↔ Found g m index' wanted length starts p := by
  exact ⟨.ofList ends, mem_search_ofList h, mem_search_ofList h'⟩

/-- The workers for the start nodes neither halt nor find a path without a line just when
nothing stops them at any of these nodes. -/
theorem searchWorkers_clean_iff {index : HubIndex} {length : PathLength} {wanted : NodeSet}
    {starts : List NodeId} {groups : Std.ExtTreeMap LabelIndex NodeSet}
    (hstarts : startsByLabel g m starts = .ok groups) :
    (∀ w ∈ searchWorkers g m index length wanted groups,
        w.2.halt = none ∧ ∀ p ∈ w.2.items, Registered m .node p.tokens) ↔
      ∀ v ∈ starts, Searchable g m index wanted length.hops v := by
  constructor
  · intro h v hv
    -- the worker for the label of a start node went all the way
    obtain ⟨label, hlabel⟩ := exists_startsByLabel_iff.1 ⟨groups, hstarts⟩ v hv
    obtain ⟨nodes, hgroup, hvnodes⟩ := exists_mem_startsByLabel hstarts hv hlabel
    have hclean := h _ (mem_searchWorkers.2 ⟨_, _, hgroup, rfl⟩)
    exact (searchWorker_clean_iff (Mapping.exists_nodeLabel_of_indexOfNode hlabel)).1 hclean v
      hvnodes
  · intro h w hw
    obtain ⟨label, nodes, hgroup, rfl⟩ := mem_searchWorkers.1 hw
    obtain ⟨⟨u, hu, hlabel⟩, hnodes⟩ := (mem_startsByLabel hstarts).1 hgroup
    exact (searchWorker_clean_iff (Mapping.exists_nodeLabel_of_indexOfNode hlabel)).2 fun v hv =>
      h v ((hnodes v).1 hv).1

/-- The lines of the given paths, each once, fit in what the sink has left. -/
def LinesFit (m : Mapping) (sink : Sink) (bound : Option Nat) (given : MetaPath → Prop) : Prop :=
  ∀ cap ∈ bound, ∀ paths : List MetaPath, paths.Nodup → (∀ p, p ∈ paths ↔ given p) →
    sink.taken + (paths.map (lineSize m)).sum ≤ cap

/-- **The workers enter all that they find** just when nothing stops them and the lines fit:
what they enter are the found paths, each once. -/
theorem noteTrails_searchWorkers_iff {index : HubIndex} {length : PathLength} {wanted : NodeSet}
    {starts : List NodeId} {sink : Sink} {bound : Option Nat} (hroom : sink.HasRoom bound)
    {groups : Std.ExtTreeMap LabelIndex NodeSet} (hstarts : startsByLabel g m starts = .ok groups) :
    (Findings.noteTrails ⟨∅, sink⟩ m (searchWorkers g m index length wanted groups)).2 = none ↔
      (∀ v ∈ starts, Searchable g m index wanted length.hops v)
        ∧ LinesFit m sink bound (Found g m index wanted length starts) := by
  have hall := Findings.noteAll_eq_none_iff (f := ⟨∅, sink⟩) (m := m) hroom
    ((searchWorkers g m index length wanted groups).flatMap fun w => w.2.items)
  have hmem : ∀ p, p ∈ unseen ∅ ((searchWorkers g m index length wanted groups).flatMap
      fun w => w.2.items) ↔ ∃ w ∈ searchWorkers g m index length wanted groups, p ∈ w.2.items := by
    intro p
    rw [mem_unseen, List.mem_flatMap]
    simp
  rw [Findings.noteTrails_eq_none_iff, hall, ← searchWorkers_clean_iff hstarts]
  constructor
  · intro h
    obtain ⟨hhalts, hnamed, hfits⟩ := h
    refine ⟨fun w hw => ⟨hhalts w hw, fun p hp => ?_⟩, fun cap hcap paths hnodup hpaths => ?_⟩
    · exact MetaPath.fault?_eq_none_iff.1 (hnamed p ((hmem p).2 ⟨w, hw, hp⟩))
    · rw [sum_lineSize_eq hnodup (nodup_unseen _ _) fun p => ?_]
      · exact hfits cap hcap
      · rw [hpaths, hmem, exists_mem_searchWorkers_iff hstarts hhalts]
  · intro h
    obtain ⟨hclean, hfits⟩ := h
    have hhalts : ∀ w ∈ searchWorkers g m index length wanted groups, w.2.halt = none :=
      fun w hw => (hclean w hw).1
    refine ⟨hhalts, fun p hp => ?_, fun cap hcap => ?_⟩
    · obtain ⟨w, hw, hp⟩ := (hmem p).1 hp
      exact MetaPath.fault?_eq_none_iff.2 ((hclean w hw).2 p hp)
    · refine hfits cap hcap _ (nodup_unseen _ _) fun p => ?_
      rw [hmem, exists_mem_searchWorkers_iff hstarts hhalts]

/-- **A search comes to its end** just when every start and end node has a label, nothing
stops the worker of a start node, the lines of all paths fit into the sink, and the sink can be
flushed. -/
theorem exists_search_iff_fits {index : HubIndex} {length : PathLength} {starts ends : List NodeId}
    {sink : Sink} {bound : Option Nat} (hroom : sink.HasRoom bound) {wanted : NodeSet}
    (hwanted : ∀ v, v ∈ wanted ↔ v ∈ ends) :
    (∃ paths, (search g m index length starts ends sink).2 = .ok paths) ↔
      Labelled g m starts ∧ Labelled g m ends
        ∧ (∀ v ∈ starts, Searchable g m index wanted length.hops v)
        ∧ LinesFit m sink bound (Found g m index wanted length starts) ∧ sink.flush.2 = none := by
  simp only [search_eq_ok_iff]
  constructor
  · intro h
    obtain ⟨-, groups, wanted', f, hstarts, hends, hnotes, hflush, -⟩ := h
    obtain ⟨hlabelled, hwanted'⟩ := wantedNodes_eq_ok_iff.1 hends
    have hsame : wanted' = wanted := Std.ExtTreeSet.ext_mem fun v => by rw [hwanted, hwanted']
    subst hsame
    obtain ⟨hsearchable, hfits⟩ :=
      (noteTrails_searchWorkers_iff hroom hstarts).1 (congrArg Prod.snd hnotes)
    refine ⟨exists_startsByLabel_iff.1 ⟨groups, hstarts⟩, hlabelled, hsearchable, hfits, ?_⟩
    rw [← Findings.flush_noteTrails (m := m) ⟨∅, sink⟩
      (searchWorkers g m index length wanted' groups), hnotes]
    exact hflush
  · intro h
    obtain ⟨hstartLabels, hendLabels, hsearchable, hfits, hflush⟩ := h
    obtain ⟨groups, hstarts⟩ := exists_startsByLabel_iff.2 hstartLabels
    have hends : wantedNodes g m ends = .ok wanted := wantedNodes_eq_ok_iff.2 ⟨hendLabels, hwanted⟩
    refine ⟨_, groups, wanted, _, hstarts, hends,
      Prod.ext rfl ((noteTrails_searchWorkers_iff hroom hstarts).2 ⟨hsearchable, hfits⟩), ?_, rfl⟩
    rw [Findings.flush_noteTrails]
    exact hflush

/-- A sink that takes everything stops no search. -/
theorem exists_search_iff_searchable {index : HubIndex} {length : PathLength}
    {starts ends : List NodeId} {sink : Sink} (hsink : sink.Accepting) {wanted : NodeSet}
    (hwanted : ∀ v, v ∈ wanted ↔ v ∈ ends) :
    (∃ paths, (search g m index length starts ends sink).2 = .ok paths) ↔
      Labelled g m starts ∧ Labelled g m ends
        ∧ ∀ v ∈ starts, Searchable g m index wanted length.hops v := by
  have hfit : LinesFit m sink none (Found g m index wanted length starts) :=
    fun cap hcap => nomatch hcap
  have hflush : sink.flush.2 = none := by rw [hsink.flush_eq]
  rw [exists_search_iff_fits hsink.hasRoom hwanted]
  simp [hfit, hflush]

/-- With an index of pairs of registered tokens a clear way is all that it takes. -/
theorem exists_search_iff {index : HubIndex} {length : PathLength} {starts ends : List NodeId}
    {sink : Sink} (hsink : sink.Accepting) (heven : index.Even) (hindex : index.Renderable m) :
    (∃ paths, (search g m index length starts ends sink).2 = .ok paths) ↔
      Labelled g m starts ∧ Labelled g m ends
        ∧ ∀ v ∈ starts, Clear g m index.contains length.hops v := by
  have hwanted : ∀ v, v ∈ (Std.ExtTreeSet.ofList ends : NodeSet) ↔ v ∈ ends := fun _ =>
    mem_ofList_iff
  rw [exists_search_iff_searchable hsink hwanted]
  refine and_congr_right fun _ => and_congr_right fun _ => forall₂_congr fun v _ => ?_
  constructor
  · intro h
    exact h.1
  · intro h
    exact ⟨h, fun s hfinds => ⟨hfinds.even heven, hfinds.registered hindex⟩⟩

end LabelWalks
