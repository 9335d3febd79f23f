/-
  LabelWalks.Proofs.Walk
  ──────────────────────
  **WALKS, APART FROM ANY SEARCH.**

  A walk from a node is the list of its arrivals.  Each arrival is over an entry
  of the adjacency list of the node where the walk is, with the dense labels of
  the edge and of the node behind it.  Nothing here knows frontiers, groups or
  an index: this is what the three computations are measured by.

    • `Arrives`, `IsWalk`, `endOf`, `traceOf`, `EndsAt` — one walk and what it looks like,
    • `stepsFrom`, `walksFrom`, `walkCount` — all walks, one for each choice of
      entries, so that parallel edges count separately,
    • `Passable`, `Clear` — where a computation can go without a halt.
-/
import LabelWalks.Graph.Network
import LabelWalks.MetaPath
import LabelWalks.Proofs.LookUp
import LabelWalks.Suffix

namespace LabelWalks

/-! ## §1. One walk. -/

/-- An entry of the adjacency list of `v` with a registered label leads to a node
with a registered label. -/
def Arrives (g : GraphView) (m : Mapping) (v : NodeId) (a : Arrival) : Prop :=
  ∃ entries, g.adjacentEdges v = .ok entries ∧ ∃ label, (a.node, some label) ∈ entries
    ∧ m.edgeIndex label = .ok a.hop.edge ∧ m.indexOfNode g a.node = .ok a.hop.node

/-- The arrivals of a walk that starts at a node. -/
inductive IsWalk (g : GraphView) (m : Mapping) : NodeId → List Arrival → Prop where
  /-- The walk that stays. -/
  | stay (v : NodeId) : IsWalk g m v []
  /-- A first hop, and a walk from where it arrives. -/
  | step {v : NodeId} {a : Arrival} {as : List Arrival} (first : Arrives g m v a)
      (rest : IsWalk g m a.node as) : IsWalk g m v (a :: as)

/-- The node at the end of a walk from `v`. -/
def endOf (v : NodeId) : List Arrival → NodeId
  | [] => v
  | a :: as => endOf a.node as

/-- The tokens that the hops of a walk add to a path. -/
def hopTokens (as : List Arrival) : Suffix :=
  as.flatMap fun a => a.hop.tokens

/-- The label sequence of a walk from `v`: the label of `v`, then an edge and a node
label for each hop. -/
def traceOf (g : GraphView) (m : Mapping) (v : NodeId) (as : List Arrival) :
    Option (List LabelIndex) :=
  (m.indexOfNode g v).toOption.map fun label => label :: hopTokens as

theorem isWalk_nil (g : GraphView) (m : Mapping) (v : NodeId) : IsWalk g m v [] :=
  .stay v

theorem isWalk_cons {g : GraphView} {m : Mapping} {v : NodeId} {a : Arrival}
    {as : List Arrival} :
    IsWalk g m v (a :: as) ↔ Arrives g m v a ∧ IsWalk g m a.node as := by
  constructor
  · intro h
    rcases h with _ | ⟨first, rest⟩
    exact ⟨first, rest⟩
  · intro h
    obtain ⟨first, rest⟩ := h
    exact .step first rest

/-- A walk is put together from one walk and another that starts at its end. -/
theorem isWalk_append {g : GraphView} {m : Mapping} {as bs : List Arrival} :
    ∀ {v : NodeId}, IsWalk g m v (as ++ bs) ↔ IsWalk g m v as ∧ IsWalk g m (endOf v as) bs := by
  induction as with
  | nil => intro v; simp [isWalk_nil, endOf]
  | cons a as ih =>
      intro v
      rw [List.cons_append, isWalk_cons, isWalk_cons, ih, endOf, and_assoc]

theorem endOf_append (as bs : List Arrival) :
    ∀ v : NodeId, endOf v (as ++ bs) = endOf (endOf v as) bs := by
  induction as with
  | nil => intro v; rfl
  | cons a as ih => intro v; exact ih a.node

theorem hopTokens_cons (a : Arrival) (as : List Arrival) :
    hopTokens (a :: as) = a.hop.tokens ++ hopTokens as := rfl

theorem hopTokens_append (as bs : List Arrival) :
    hopTokens (as ++ bs) = hopTokens as ++ hopTokens bs := by
  simp [hopTokens]

theorem length_hopTokens (as : List Arrival) : (hopTokens as).length = 2 * as.length := by
  induction as with
  | nil => rfl
  | cons a as ih =>
      rw [hopTokens_cons, List.length_append, ih, List.length_cons, Hop.length_tokens]
      omega

theorem traceOf_eq_some_iff {g : GraphView} {m : Mapping} {v : NodeId} {as : List Arrival}
    {tokens : List LabelIndex} :
    traceOf g m v as = some tokens ↔
      ∃ label, m.indexOfNode g v = .ok label ∧ tokens = label :: hopTokens as := by
  simp only [traceOf, Option.map_eq_some_iff, toOption_eq_some_iff]
  constructor
  · intro h
    obtain ⟨label, hlabel, rfl⟩ := h
    exact ⟨label, hlabel, rfl⟩
  · intro h
    obtain ⟨label, hlabel, rfl⟩ := h
    exact ⟨label, hlabel, rfl⟩

/-- Some walk from `v` adds the suffix and ends at `w`. -/
def EndsAt (g : GraphView) (m : Mapping) (v : NodeId) (s : Suffix) (w : NodeId) : Prop :=
  ∃ as, IsWalk g m v as ∧ hopTokens as = s ∧ endOf v as = w

theorem endsAt_nil {g : GraphView} {m : Mapping} {v w : NodeId} :
    EndsAt g m v [] w ↔ v = w := by
  constructor
  · intro h
    obtain ⟨as, -, htokens, rfl⟩ := h
    cases as with
    | nil => rfl
    | cons a as => simp [hopTokens_cons, Hop.tokens] at htokens
  · intro h
    subst h
    exact ⟨[], .stay v, rfl, rfl⟩

/-- A suffix that starts with a hop is added by an arrival over it and a walk that
adds the rest. -/
theorem endsAt_append {g : GraphView} {m : Mapping} {v w : NodeId} {hop : Hop} {s : Suffix} :
    EndsAt g m v (hop.tokens ++ s) w ↔
      ∃ u, Arrives g m v ⟨hop, u⟩ ∧ EndsAt g m u s w := by
  constructor
  · intro h
    obtain ⟨as, hwalk, htokens, hend⟩ := h
    cases hwalk with
    | stay => simp [hopTokens, Hop.tokens] at htokens
    | @step _ a as first rest =>
        obtain ⟨⟨edge, node⟩, u⟩ := a
        obtain ⟨edge', node'⟩ := hop
        simp only [hopTokens_cons, Hop.tokens, List.cons_append, List.nil_append,
          List.cons.injEq] at htokens
        obtain ⟨rfl, rfl, rfl⟩ := htokens
        exact ⟨u, first, as, rest, rfl, hend⟩
  · intro h
    obtain ⟨u, first, as, rest, rfl, hend⟩ := h
    exact ⟨⟨hop, u⟩ :: as, .step first rest, rfl, hend⟩

theorem EndsAt.even {g : GraphView} {m : Mapping} {v w : NodeId} {s : Suffix}
    (h : EndsAt g m v s w) : s.length % 2 = 0 := by
  obtain ⟨as, -, rfl, -⟩ := h
  rw [length_hopTokens]
  omega

/-- A suffix that a walk adds is empty or starts with the hop of an arrival. -/
theorem EndsAt.eq_nil_or {g : GraphView} {m : Mapping} {v w : NodeId} {s : Suffix}
    (h : EndsAt g m v s w) :
    s = [] ∨ ∃ a t, Arrives g m v a ∧ s = a.hop.tokens ++ t := by
  obtain ⟨as, hwalk, rfl, -⟩ := h
  cases hwalk with
  | stay => exact .inl rfl
  | step first rest => exact .inr ⟨_, _, first, rfl⟩

/-! ## §2. All walks. -/

/-- All arrivals from a node, one for each entry whose labels are registered. -/
def stepsFrom (g : GraphView) (m : Mapping) (v : NodeId) : List Arrival :=
  match g.adjacentEdges v with
  | .ok entries => entries.filterMap fun entry => (Arrival.over g m v entry).toOption
  | .error _ => []

/-- All walks of `k` hops from a node, one for each choice of entries on the way. -/
def walksFrom (g : GraphView) (m : Mapping) : Nat → NodeId → List (List Arrival)
  | 0, _ => [[]]
  | k + 1, v => (stepsFrom g m v).flatMap fun a => (walksFrom g m k a.node).map (a :: ·)

/-- The number of walks of the graph whose label sequence is the path. -/
def walkCount (g : GraphView) (m : Mapping) (path : MetaPath) : Nat :=
  (g.nodeIds.eraseDups.map fun v =>
    (walksFrom g m path.hops v).countP fun as => traceOf g m v as = some path.tokens).sum

/-- An entry over which a walk goes is looked up as the arrival says. -/
theorem over_eq_ok_iff {g : GraphView} {m : Mapping} {v : NodeId}
    {entry : NodeId × Option Label} {a : Arrival} :
    Arrival.over g m v entry = .ok a ↔
      ∃ label, entry = (a.node, some label) ∧ m.edgeIndex label = .ok a.hop.edge
        ∧ m.indexOfNode g a.node = .ok a.hop.node := by
  obtain ⟨w, label?⟩ := entry
  unfold Arrival.over
  simp only [bind_eq_ok_iff, elim_error_eq_ok_iff, pure_eq_ok_iff, Prod.mk.injEq]
  constructor
  · intro h
    obtain ⟨label, rfl, edge, hedge, node, hnode, rfl⟩ := h
    exact ⟨label, ⟨rfl, rfl⟩, hedge, hnode⟩
  · intro h
    obtain ⟨label, ⟨rfl, rfl⟩, hedge, hnode⟩ := h
    exact ⟨label, rfl, _, hedge, _, hnode, rfl⟩

theorem mem_stepsFrom {g : GraphView} {m : Mapping} {v : NodeId} {a : Arrival} :
    a ∈ stepsFrom g m v ↔ Arrives g m v a := by
  unfold stepsFrom Arrives
  cases hadj : g.adjacentEdges v with
  | error breakdown => simp
  | ok entries =>
      simp only [List.mem_filterMap, toOption_eq_some_iff, over_eq_ok_iff]
      constructor
      · intro h
        obtain ⟨entry, hmem, label, rfl, hedge, hnode⟩ := h
        exact ⟨entries, rfl, label, hmem, hedge, hnode⟩
      · intro hsome
        obtain ⟨entries', h, label, hmem, hedge, hnode⟩ := hsome
        injection h with h
        subst h
        exact ⟨_, hmem, label, rfl, hedge, hnode⟩

/-- The list of all walks of a length has exactly the walks of that length. -/
theorem mem_walksFrom {g : GraphView} {m : Mapping} (k : Nat) :
    ∀ {v : NodeId} {as : List Arrival},
      as ∈ walksFrom g m k v ↔ IsWalk g m v as ∧ as.length = k := by
  induction k with
  | zero =>
      intro v as
      simp only [walksFrom, List.mem_singleton, List.length_eq_zero_iff]
      constructor
      · intro h
        subst h
        exact ⟨.stay v, rfl⟩
      · intro hwalk
        obtain ⟨-, h⟩ := hwalk
        exact h
  | succ k ih =>
      intro v as
      simp only [walksFrom, List.mem_flatMap, List.mem_map, mem_stepsFrom, ih]
      constructor
      · intro h
        obtain ⟨a, hstep, rest, ⟨hwalk, hlen⟩, rfl⟩ := h
        exact ⟨.step hstep hwalk, by simp [hlen]⟩
      · intro h
        obtain ⟨hwalk, hlen⟩ := h
        cases hwalk with
        | stay => simp at hlen
        | step first rest => exact ⟨_, first, _, ⟨rest, by simpa using hlen⟩, rfl⟩

/-! ## §3. Where nothing halts. -/

/-- The adjacency of a node is answered, and every entry can be followed. -/
def Passable (g : GraphView) (m : Mapping) (v : NodeId) : Prop :=
  ∃ entries, g.adjacentEdges v = .ok entries ∧ ∀ entry ∈ entries, ∃ label edge node,
    entry.2 = some label ∧ m.edgeIndex label = .ok edge ∧ m.indexOfNode g entry.1 = .ok node

/-- All nodes are passable that a walk from `v` comes to in less than `hops` hops
without a node at which it is to stop. -/
def Clear (g : GraphView) (m : Mapping) (stops : NodeId → Bool) (hops : Nat) (v : NodeId) : Prop :=
  ∀ as, IsWalk g m v as → (∀ a ∈ as, stops a.node = false) → as.length < hops →
    Passable g m (endOf v as)

theorem clear_zero (g : GraphView) (m : Mapping) (stops : NodeId → Bool) (v : NodeId) :
    Clear g m stops 0 v := by
  intro as _ _ h
  omega

/-- The way is clear for one hop more when the node is passable and the way is clear
from everywhere it leads to. -/
theorem clear_succ {g : GraphView} {m : Mapping} {stops : NodeId → Bool} {hops : Nat}
    {v : NodeId} :
    Clear g m stops (hops + 1) v ↔ Passable g m v ∧
      ∀ a, Arrives g m v a → stops a.node = false → Clear g m stops hops a.node := by
  constructor
  · intro h
    refine ⟨h [] (.stay v) (by simp) (by simp), ?_⟩
    intro a ha hstop as hwalk has hlen
    refine h (a :: as) (.step ha hwalk) ?_ (by simpa using hlen)
    simpa [hstop] using has
  · intro h as hwalk has hlen
    obtain ⟨hpass, hnext⟩ := h
    cases hwalk with
    | stay => exact hpass
    | step first rest =>
        refine hnext _ first (has _ List.mem_cons_self) _ rest ?_ (by simpa using hlen)
        intro b hb
        exact has b (List.mem_cons_of_mem _ hb)

/-- Stopping at fewer nodes and walking farther asks for more. -/
theorem Clear.mono {g : GraphView} {m : Mapping} {stops stops' : NodeId → Bool}
    {hops hops' : Nat} {v : NodeId} (h : Clear g m stops' hops' v)
    (hstops : ∀ w, stops w = false → stops' w = false) (hhops : hops ≤ hops') :
    Clear g m stops hops v := by
  intro as hwalk has hlen
  exact h as hwalk (fun a ha => hstops _ (has a ha)) (by omega)

/-! ## §4. A small graph. -/

/-- Two nodes with labels 1 and 2 and two edges with label 7 between them. -/
def twins : Network :=
  Network.empty.load [⟨1, 2, 7, 1, 2⟩, ⟨1, 2, 7, 1, 2⟩]

/-- The labels of `twins`. -/
def twinLabels : Mapping :=
  (Mapping.ofView twins.view).toOption.getD .empty

end LabelWalks
