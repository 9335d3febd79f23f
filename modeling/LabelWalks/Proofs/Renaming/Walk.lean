/-
  LabelWalks.Proofs.Renaming.Walk
  ───────────────────────────────
  **THE SAME GRAPH UNDER OTHER NODE IDS.**

  One graph is a renaming of another when its ids are those of the other under an
  injective function; its lists may have any order.  A walk looks at ids only to
  go from one node to the next, so the walks of the two graphs are the same up to
  the renaming, and they have the same labels.

    • `Renamed` — the relation of the two graphs,
    • `Renamed.stepsFrom_perm`, `Renamed.arrives_iff` — one hop,
    • `Renamed.exists_isWalk_iff`, `Renamed.clear_iff`, `Renamed.endsAt_iff` — one walk,
    • `Renamed.walksFrom_perm`, `Renamed.walkCount_eq` — all walks.
-/
import LabelWalks.Proofs.Expansion

namespace LabelWalks

/-! ## §1. Two graphs. -/

/-- The arrival at a node under its other id. -/
def Arrival.rename (s : NodeId → NodeId) (a : Arrival) : Arrival :=
  ⟨a.hop, s a.node⟩

@[simp]
theorem Arrival.node_rename (s : NodeId → NodeId) (a : Arrival) :
    (a.rename s).node = s a.node := rfl

/-- The second graph is the first one with its ids renamed and its lists in any order.  An
answer that breaks off does so in both, in words of its own. -/
structure Renamed (s : NodeId → NodeId) (g g' : GraphView) : Prop where
  injective : Function.Injective s
  nodeIds : g'.nodeIds.Perm (g.nodeIds.map s)
  labelOf : ∀ v, g'.labelOf (s v) = g.labelOf v
  edges : ∀ v entries, g.adjacentEdges v = .ok entries → ∃ entries',
    g'.adjacentEdges (s v) = .ok entries'
      ∧ entries'.Perm (entries.map fun entry => (s entry.1, entry.2))
  breaks : ∀ v breakdown, g.adjacentEdges v = .error breakdown → ∃ breakdown',
    g'.adjacentEdges (s v) = .error breakdown'

namespace Renamed

variable {s : NodeId → NodeId} {g g' : GraphView} {m : Mapping} (h : Renamed s g g')
include h

/-! ## §2. One hop. -/

theorem indexOfNode_eq_ok_iff (v : NodeId) {label : LabelIndex} :
    m.indexOfNode g' (s v) = .ok label ↔ m.indexOfNode g v = .ok label := by
  unfold Mapping.indexOfNode
  rw [h.labelOf]
  cases g.labelOf v with
  | none => simp
  | some label => rfl

/-- An entry is followed in both graphs or in neither. -/
theorem toOption_over (v : NodeId) (entry : NodeId × Option Label) :
    (Arrival.over g' m (s v) (s entry.1, entry.2)).toOption
      = (Arrival.over g m v entry).toOption.map (Arrival.rename s) := by
  refine Option.ext fun b => ?_
  rw [Option.map_eq_some_iff]
  simp only [toOption_eq_some_iff, over_eq_ok_iff]
  obtain ⟨hop, u⟩ := b
  constructor
  · intro hover
    obtain ⟨label, hentry, hedge, hnode⟩ := hover
    obtain ⟨hsame, hlabel⟩ := Prod.mk.inj hentry
    have hsame : s entry.1 = u := hsame
    subst hsame
    refine ⟨⟨hop, entry.1⟩, ⟨label, ?_, hedge, (h.indexOfNode_eq_ok_iff _).1 hnode⟩, rfl⟩
    rw [← hlabel]
  · intro hover
    obtain ⟨⟨hop', w⟩, ⟨label, rfl, hedge, hnode⟩, hsame⟩ := hover
    injection hsame with hhop hu
    subst hhop hu
    exact ⟨label, rfl, hedge, (h.indexOfNode_eq_ok_iff w).2 hnode⟩

/-- **The hops from a node** are the hops from it under its other id, in some order. -/
theorem stepsFrom_perm (v : NodeId) :
    (stepsFrom g' m (s v)).Perm ((stepsFrom g m v).map (Arrival.rename s)) := by
  unfold stepsFrom
  cases hadj : g.adjacentEdges v with
  | error breakdown =>
      obtain ⟨breakdown', hadj'⟩ := h.breaks v breakdown hadj
      rw [hadj']
      exact .refl []
  | ok entries =>
      obtain ⟨entries', hadj', hperm⟩ := h.edges v entries hadj
      rw [hadj']
      show (entries'.filterMap fun entry => (Arrival.over g' m (s v) entry).toOption).Perm
        ((entries.filterMap fun entry => (Arrival.over g m v entry).toOption).map (Arrival.rename s))
      have hsame : (entries.map fun entry => (s entry.1, entry.2)).filterMap
          (fun entry => (Arrival.over g' m (s v) entry).toOption)
          = (entries.filterMap fun entry => (Arrival.over g m v entry).toOption).map
            (Arrival.rename s) := by
        rw [List.filterMap_map, List.map_filterMap]
        exact List.filterMap_congr fun entry _ => h.toOption_over v entry
      rw [← hsame]
      exact hperm.filterMap _

theorem arrives_iff (v : NodeId) {b : Arrival} :
    Arrives g' m (s v) b ↔ ∃ a, Arrives g m v a ∧ a.rename s = b := by
  simp only [← mem_stepsFrom]
  rw [(h.stepsFrom_perm v).mem_iff, List.mem_map]

theorem passable_iff (v : NodeId) : Passable g' m (s v) ↔ Passable g m v := by
  unfold Passable
  cases hadj : g.adjacentEdges v with
  | error breakdown =>
      obtain ⟨breakdown', hadj'⟩ := h.breaks v breakdown hadj
      rw [hadj']
      simp
  | ok entries =>
      obtain ⟨entries', hadj', hperm⟩ := h.edges v entries hadj
      rw [hadj']
      simp only [Except.ok.injEq, exists_eq_left', hperm.mem_iff, List.forall_mem_map,
        h.indexOfNode_eq_ok_iff]

/-! ## §3. One walk. -/

omit h in
theorem hopTokens_map_rename (as : List Arrival) :
    hopTokens (as.map (Arrival.rename s)) = hopTokens as := by
  unfold hopTokens
  rw [List.flatMap_map]
  rfl

omit h in
theorem endOf_map_rename (as : List Arrival) :
    ∀ v, endOf (s v) (as.map (Arrival.rename s)) = s (endOf v as) := by
  induction as with
  | nil => intro v; rfl
  | cons a as ih => intro v; exact ih a.node

/-- **A walk from a node** is a walk from it under its other id. -/
theorem exists_isWalk_iff (v : NodeId) {bs : List Arrival} :
    IsWalk g' m (s v) bs ↔ ∃ as, IsWalk g m v as ∧ as.map (Arrival.rename s) = bs := by
  -- on the walk in the renamed graph, which tells the hops one after another
  induction bs generalizing v with
  | nil =>
      constructor
      · intro _
        exact ⟨[], .stay v, rfl⟩
      · intro _
        exact .stay (s v)
  | cons b bs ih =>
      rw [isWalk_cons, h.arrives_iff]
      constructor
      · intro hwalk
        obtain ⟨⟨a, first, rfl⟩, rest⟩ := hwalk
        obtain ⟨as, hrest, rfl⟩ := (ih a.node).1 rest
        exact ⟨a :: as, .step first hrest, rfl⟩
      · intro hwalk
        obtain ⟨as, hwalk, hmap⟩ := hwalk
        obtain ⟨a, rest, rfl, rfl, rfl⟩ := List.map_eq_cons_iff.1 hmap
        obtain ⟨first, hrest⟩ := isWalk_cons.1 hwalk
        exact ⟨⟨a, first, rfl⟩, (ih a.node).2 ⟨rest, hrest, rfl⟩⟩

theorem traceOf_map_rename (v : NodeId) (as : List Arrival) :
    traceOf g' m (s v) (as.map (Arrival.rename s)) = traceOf g m v as := by
  refine Option.ext fun tokens => ?_
  simp only [traceOf_eq_some_iff, hopTokens_map_rename, h.indexOfNode_eq_ok_iff]

/-- **The way is clear** in both graphs or in neither. -/
theorem clear_iff {stops stops' : NodeId → Bool} (hstops : ∀ w, stops' (s w) = stops w)
    {hops : Nat} (v : NodeId) : Clear g' m stops' hops (s v) ↔ Clear g m stops hops v := by
  unfold Clear
  simp only [h.exists_isWalk_iff]
  constructor
  · intro hclear as hwalk has hlen
    have hpass := hclear (as.map (Arrival.rename s)) ⟨as, hwalk, rfl⟩ ?_ (by simpa using hlen)
    · rw [endOf_map_rename] at hpass
      exact (h.passable_iff _).1 hpass
    · intro b hb
      obtain ⟨a, ha, rfl⟩ := List.mem_map.1 hb
      rw [Arrival.node_rename, hstops]
      exact has a ha
  · intro hclear bs hwalk hbs hlen
    obtain ⟨as, hwalk, rfl⟩ := hwalk
    rw [endOf_map_rename, h.passable_iff]
    refine hclear as hwalk (fun a ha => ?_) (by simpa using hlen)
    rw [← hstops]
    exact hbs _ (List.mem_map_of_mem ha)

theorem endsAt_iff (v : NodeId) {t : Suffix} {u : NodeId} :
    EndsAt g' m (s v) t u ↔ ∃ w, EndsAt g m v t w ∧ s w = u := by
  unfold EndsAt
  simp only [h.exists_isWalk_iff]
  constructor
  · intro hends
    obtain ⟨bs, ⟨as, hwalk, rfl⟩, htokens, hend⟩ := hends
    rw [hopTokens_map_rename] at htokens
    rw [endOf_map_rename] at hend
    exact ⟨endOf v as, ⟨as, hwalk, htokens, rfl⟩, hend⟩
  · intro hends
    obtain ⟨w, ⟨as, hwalk, htokens, rfl⟩, hend⟩ := hends
    refine ⟨as.map (Arrival.rename s), ⟨as, hwalk, rfl⟩, ?_, ?_⟩
    · rw [hopTokens_map_rename]
      exact htokens
    · rw [endOf_map_rename]
      exact hend

/-! ## §4. All walks. -/

/-- **All walks of a length**, each once for each choice of entries, are the same. -/
theorem walksFrom_perm (k : Nat) (v : NodeId) :
    (walksFrom g' m k (s v)).Perm ((walksFrom g m k v).map (List.map (Arrival.rename s))) := by
  induction k generalizing v with
  | zero => exact .refl [[]]
  | succ k ih =>
      show ((stepsFrom g' m (s v)).flatMap fun b => (walksFrom g' m k b.node).map (b :: ·)).Perm
        (((stepsFrom g m v).flatMap fun a => (walksFrom g m k a.node).map (a :: ·)).map
          (List.map (Arrival.rename s)))
      refine ((h.stepsFrom_perm v).flatMap_right _).trans ?_
      rw [List.flatMap_map, List.map_flatMap]
      refine List.Perm.flatMap (.refl _) fun a _ => ?_
      rw [List.map_map]
      have hrest := (ih a.node).map (a.rename s :: ·)
      rw [List.map_map] at hrest
      exact hrest

theorem mem_nodeIds_iff {u : NodeId} : u ∈ g'.nodeIds ↔ ∃ v ∈ g.nodeIds, s v = u := by
  rw [h.nodeIds.mem_iff, List.mem_map]

theorem eraseDups_nodeIds_perm :
    g'.nodeIds.eraseDups.Perm (g.nodeIds.eraseDups.map s) := by
  refine (List.perm_ext_iff_of_nodup (nodup_eraseDups _)
    ((nodup_eraseDups g.nodeIds).map h.injective)).2 fun u => ?_
  rw [List.mem_eraseDups, h.mem_nodeIds_iff, List.mem_map]
  simp only [List.mem_eraseDups]

/-- **The number of walks** of a path is the same. -/
theorem walkCount_eq (p : MetaPath) : walkCount g' m p = walkCount g m p := by
  unfold walkCount
  rw [(h.eraseDups_nodeIds_perm.map _).sum_eq, List.map_map]
  refine congrArg List.sum (List.map_congr_left fun v _ => ?_)
  show (walksFrom g' m p.hops (s v)).countP (fun bs => traceOf g' m (s v) bs = some p.tokens) = _
  rw [(h.walksFrom_perm p.hops v).countP_eq, List.countP_map]
  refine List.countP_congr fun as _ => ?_
  show decide (traceOf g' m (s v) (as.map (Arrival.rename s)) = some p.tokens) = true ↔ _
  rw [h.traceOf_map_rename]

end Renamed

end LabelWalks
