/-
  LabelWalks.Proofs.Synthetic.Families
  ────────────────────────────────────
  **EVERY FAMILY DRAWS A GRAPH FOR EVERY SIZE.**

  A family guards its draws by conditions on the size that differ from one family to the
  next: a ring or a half has a node before one is drawn from it, a hub is drawn from ends
  that are there, the surface is never empty.  With them each drawing has a result, and
  its nodes are numbered without a gap.

    • one section for each family: what one turn of its loops keeps, and its `generate`,
    • `Family.exists_generate` — all of them.
-/
import LabelWalks.Proofs.Synthetic.Numbered
import LabelWalks.Synthetic.Family

namespace LabelWalks.Synthetic

open Draw Network

/-! ## §1. The tree. -/

namespace Tree

/-- A tree that grows: its nodes are those before the next one, and there are not more than
wanted. -/
structure Growing (size : Nat) (t : Growth) : Prop where
  numbered : t.graph.Numbered t.next
  least : 1 ≤ t.next
  most : t.next ≤ max 1 size
  level : ∀ v ∈ t.level, v.toNat < t.next

variable {size : Nat} {t : Growth}

/-- A child is drawn while there is room for one. -/
theorem gives_addChild (hsize : size < UInt64.size) (ht : Growing size t) {parent : NodeId}
    (hparent : parent.toNat < t.next) :
    (addChild size parent t).Gives fun t' => Growing size t' ∧ t.next ≤ t'.next
      ∧ (t.next < size → t.next < t'.next ∧ 0 < t'.level.size)
      ∧ t.level.size ≤ t'.level.size := by
  unfold addChild
  by_cases hroom : t.next < size
  · rw [if_pos hroom]
    have hchild : (nodeId t.next).toNat = t.next := toNat_nodeId (by omega)
    refine (gives_addNode ht.numbered (by omega)).bind fun g hg => ?_
    refine (gives_addEdge hg (v := parent) (w := nodeId t.next) (by omega) (by omega)).bind
      fun g hg => gives_pure ?_
    refine ⟨⟨hg, Nat.le_add_left _ _, ?_, fun v hv => ?_⟩, Nat.le_succ _,
      fun _ => ⟨Nat.lt_succ_self _, ?_⟩, ?_⟩
    · show t.next + 1 ≤ max 1 size
      omega
    · show v.toNat < t.next + 1
      rcases Array.mem_push.1 hv with hv | rfl
      · have hold := ht.level v hv
        omega
      · omega
    · simp
    · simp
  · rw [if_neg hroom]
    exact gives_pure ⟨ht, Nat.le_refl _, fun h => absurd h hroom, Nat.le_refl _⟩

/-- What the turns of a level keep: the tree grows, and once there was room the new level has a
node. -/
def Grown (size : Nat) (t t' : Growth) : Prop :=
  Growing size t' ∧ t.next ≤ t'.next ∧ t.level.size ≤ t'.level.size

theorem gives_addChildren (hsize : size < UInt64.size) (ht : Growing size t) {parent : NodeId}
    (hparent : parent.toNat < t.next) :
    (addChildren size t parent).Gives fun t' => Grown size t t'
      ∧ (t.next < size → t.next < t'.next ∧ 0 < t'.level.size) := by
  -- the first child takes the room, the other two lose nothing
  have hfirst := gives_addChild hsize ht hparent
  show ([0, 1, 2].foldlM (fun t _ => addChild size parent t) t).Gives _
  rw [List.foldlM_cons]
  refine hfirst.bind fun t₁ h₁ => ?_
  obtain ⟨ht₁, hnext, hroom, hlevel⟩ := h₁
  have hrest : ([1, 2].foldlM (fun t _ => addChild size parent t) t₁).Gives (Grown size t₁) := by
    refine gives_foldlM _ (fun _ _ t₂ h₂ => ?_) ⟨ht₁, Nat.le_refl _, Nat.le_refl _⟩
    obtain ⟨ht₂, hnext₂, hlevel₂⟩ := h₂
    have hparent₂ : parent.toNat < t₂.next := by omega
    refine (gives_addChild hsize ht₂ hparent₂).imp fun t₃ h₃ => ?_
    obtain ⟨ht₃, hnext₃, -, hlevel₃⟩ := h₃
    exact ⟨ht₃, by omega, by omega⟩
  refine hrest.imp fun t' h' => ?_
  obtain ⟨ht', hnext', hlevel'⟩ := h'
  refine ⟨⟨ht', by omega, by omega⟩, fun hlt => ?_⟩
  have hgrown := hroom hlt
  omega

/-- A whole level: while there is room it adds a node, and the next level has one. -/
theorem gives_level (hsize : size < UInt64.size) (ht : Growing size t) (hlevel : 0 < t.level.size)
    (hroom : t.next < size) :
    (t.level.toList.foldlM (addChildren size) ⟨t.graph, t.next, #[]⟩).Gives fun t' =>
      Growing size t' ∧ t.next < t'.next ∧ 0 < t'.level.size := by
  obtain ⟨parent, parents, hparents⟩ := List.exists_cons_of_length_pos
    (l := t.level.toList) (by rwa [Array.length_toList])
  have hmem : ∀ v ∈ t.level.toList, v.toNat < t.next := fun v hv =>
    ht.level v (Array.mem_toList_iff.1 hv)
  have hstart : Growing size ⟨t.graph, t.next, #[]⟩ :=
    ⟨ht.numbered, ht.least, ht.most, fun v hv => absurd hv (Array.not_mem_empty v)⟩
  rw [hparents] at hmem ⊢
  rw [List.foldlM_cons]
  refine (gives_addChildren hsize hstart (hmem parent List.mem_cons_self)).bind fun t₁ h₁ => ?_
  obtain ⟨⟨ht₁, hnext₁, -⟩, hgrown⟩ := h₁
  obtain ⟨hnext, hfilled⟩ := hgrown hroom
  have hnext : t.next < t₁.next := hnext
  refine gives_foldlM parents (fun v hv t₂ h₂ => ?_) ⟨ht₁, hnext, hfilled⟩
  obtain ⟨ht₂, hnext₂, hfilled₂⟩ := h₂
  have hv := hmem v (List.mem_cons_of_mem _ hv)
  refine (gives_addChildren hsize ht₂ (by omega)).imp fun t₃ h₃ => ?_
  obtain ⟨⟨ht₃, hnext₃, hlevel₃⟩, -⟩ := h₃
  exact ⟨ht₃, by omega, by omega⟩

/-- **Enough levels** make the tree as large as wanted. -/
theorem gives_grow (hsize : size < UInt64.size) (levels : Nat) :
    ∀ {t : Growth}, Growing size t → 0 < t.level.size → size ≤ t.next + levels →
      (grow size levels t).Gives fun t' => Growing size t' ∧ size ≤ t'.next := by
  induction levels with
  | zero => exact fun ht _ henough => gives_pure ⟨ht, henough⟩
  | succ levels ih =>
      intro t ht hlevel henough
      unfold grow
      by_cases hroom : t.next < size
      · rw [if_pos ⟨hroom, hlevel⟩]
        refine (gives_level hsize ht hlevel hroom).bind fun t' h' => ?_
        obtain ⟨ht', hnext', hlevel'⟩ := h'
        exact ih ht' hlevel' (by omega)
      · rw [if_neg fun h => hroom h.1]
        exact gives_pure ⟨ht, by omega⟩

/-- **The tree of a size** has so many nodes, and one at least. -/
theorem gives_generate (hsize : size < UInt64.size) :
    (generate size).Gives (Numbered (max 1 size)) := by
  refine (gives_addNode .empty (by decide)).bind fun g hg => ?_
  have hroot : Growing size ⟨g, 1, #[nodeId 0]⟩ := by
    refine ⟨hg, Nat.le_refl _, Nat.le_max_left _ _, fun v hv => ?_⟩
    rw [List.mem_toArray, List.mem_singleton] at hv
    rw [hv]
    exact Nat.one_pos
  refine (gives_grow hsize size hroot Nat.one_pos (by omega)).bind fun t ht => gives_pure ?_
  obtain ⟨ht, hlast⟩ := ht
  have hnext : t.next = max 1 size := by
    have hleast := ht.least
    have hmost := ht.most
    omega
  rw [← hnext]
  exact ht.numbered

end Tree

/-! ## §2. The graph with hubs. -/

namespace ScaleFree

/-- A graph that grows: edges end at its nodes, and their ends are not too many. -/
structure Growing (k most : Nat) (t : Growth) : Prop where
  numbered : t.graph.Numbered k
  ends : ∀ v ∈ t.ends, v.toNat < k
  few : t.ends.size ≤ most

variable {k most : Nat} {t : Growth}

theorem Growing.mono (h : Growing k most t) {most' : Nat} (hmost : most ≤ most') :
    Growing k most' t :=
  ⟨h.numbered, h.ends, Nat.le_trans h.few hmost⟩

theorem gives_join (h : Growing k most t) {v w : NodeId} (hv : v.toNat < k) (hw : w.toNat < k) :
    (join t v w).Gives (Growing k (most + 2)) := by
  refine (gives_addEdge h.numbered hv hw).bind fun g hg => gives_pure ⟨hg, fun u hu => ?_, ?_⟩
  · rcases Array.mem_push.1 hu with hu | rfl
    · rcases Array.mem_push.1 hu with hu | rfl
      · exact h.ends u hu
      · exact hv
    · exact hw
  · have hfew := h.few
    simpa using hfew

/-- An end is drawn only when there is one. -/
theorem gives_attach (h : Growing k most t) (hmost : most < UInt64.size) {v : NodeId}
    (hv : v.toNat < k) : (attach v t).Gives (Growing k (most + 2)) := by
  have hfew := h.few
  have hsame : Growing k (most + 2) t := h.mono (by omega)
  unfold attach
  by_cases hempty : t.ends.isEmpty = true
  · rw [if_pos hempty]
    exact gives_pure hsame
  · rw [if_neg hempty]
    have hpos : 0 < t.ends.size := by
      rw [Array.isEmpty_iff_size_eq_zero] at hempty
      omega
    refine (gives_pick hpos (by omega)).bind fun target htarget => ?_
    by_cases hself : target = v
    · rw [if_pos hself]
      exact gives_pure hsame
    · rw [if_neg hself]
      exact gives_join h hv (h.ends target htarget)

theorem gives_addAttached (h : Growing k most t) (hk : k < UInt64.size)
    (hmost : most + 6 < UInt64.size) : (addAttached t k).Gives (Growing (k + 1) (most + 6)) := by
  refine (gives_addNode h.numbered hk).bind fun g hg => ?_
  have hstart : Growing (k + 1) (most + 2 * 0) ⟨g, t.ends⟩ :=
    ⟨hg, fun v hv => Nat.lt_succ_of_lt (h.ends v hv), h.few⟩
  have hnode : (nodeId k).toNat < k + 1 := toNat_nodeId_lt (Nat.lt_succ_self k) hk
  have hall := gives_foldlM_range (f := fun t _ => attach (nodeId k) t)
    (I := fun j => Growing (k + 1) (most + 2 * j)) (min 3 k) hstart
    fun j t hj ht => gives_attach ht (by omega) hnode
  exact hall.imp fun t ht => ht.mono (by omega)

theorem gives_joinLater {i : Nat} (h : Growing k most t) (hi : i < k) (hk : k < UInt64.size) :
    (joinLater k t i).Gives (Growing k (most + 2 * (k - (i + 1)))) := by
  have hstart : Growing k (most + 2 * (i + 1 - (i + 1))) t := h.mono (Nat.le_add_right _ _)
  have hall := gives_foldlM_range' (f := fun t j => join t (nodeId i) (nodeId j))
    (I := fun j => Growing k (most + 2 * (j - (i + 1)))) (k - (i + 1)) hstart
    fun j t hfirst hj ht => ?_
  · exact hall.imp fun t ht => ht.mono (by omega)
  · have hi : (nodeId i).toNat = i := toNat_nodeId (by omega)
    have hj : (nodeId j).toNat = j := toNat_nodeId (by omega)
    exact (gives_join ht (by omega) (by omega)).imp fun t ht => ht.mono (by omega)

/-- The nodes that are joined in pairs. -/
theorem gives_clique {g : Network} (hg : g.Numbered k) (hk : k ≤ 5) :
    ((List.range k).foldlM (joinLater k) ⟨g, #[]⟩).Gives (Growing k 50) := by
  have hword : UInt64.size = 18446744073709551616 := rfl
  have hstart : Growing k (10 * 0) ⟨g, #[]⟩ :=
    ⟨hg, fun v hv => absurd hv (Array.not_mem_empty v), Nat.le_refl _⟩
  have hclique := gives_foldlM_range (f := joinLater k) (I := fun i => Growing k (10 * i)) k hstart
    fun i t hi ht => (gives_joinLater ht hi (by omega)).imp fun t ht => ht.mono (by omega)
  exact hclique.imp fun t ht => ht.mono (by omega)

/-- There is a graph as long as the ends of its edges can be counted by a word. -/
theorem gives_generate {size : Nat} (hsize : 50 + 6 * size < UInt64.size) :
    (generate size).Gives (Numbered size) := by
  refine (gives_addNodes .empty (min 5 size) (by omega)).bind fun g hg => ?_
  rw [Nat.zero_add] at hg
  refine (gives_clique hg (Nat.min_le_left _ _)).bind fun t ht => ?_
  have hjoined : Growing (min 5 size) (50 + 6 * min 5 size) t := ht.mono (by omega)
  have hothers := gives_foldlM_range' (f := addAttached) (I := fun i => Growing i (50 + 6 * i))
    (size - min 5 size) hjoined fun i t hfirst hi ht =>
      have hmost : 50 + 6 * i + 6 < UInt64.size := by omega
      gives_addAttached ht (by omega) hmost
  refine hothers.bind fun t ht => gives_pure ?_
  have hlast : min 5 size + (size - min 5 size) = size := by omega
  have hnumbered := ht.numbered
  rwa [hlast] at hnumbered

theorem yields_attach (h : Growing k most t) {v : NodeId} (hv : v.toNat < k) :
    (attach v t).Yields (Growing k (most + 2)) := by
  have hsame : Growing k (most + 2) t := h.mono (Nat.le_add_right _ _)
  unfold attach
  by_cases hempty : t.ends.isEmpty = true
  · rw [if_pos hempty]
    exact yields_pure hsame
  · rw [if_neg hempty]
    refine (yields_pick t.ends).bind fun target htarget => ?_
    by_cases hself : target = v
    · rw [if_pos hself]
      exact yields_pure hsame
    · rw [if_neg hself]
      exact (gives_join h hv (h.ends target htarget)).yields

theorem yields_addAttached (h : Growing k most t) (hk : k < UInt64.size) :
    (addAttached t k).Yields fun t => ∃ most, Growing (k + 1) most t := by
  refine (gives_addNode h.numbered hk).yields.bind fun g hg => ?_
  have hnode : (nodeId k).toNat < k + 1 := toNat_nodeId_lt (Nat.lt_succ_self k) hk
  -- how many ends there are is of no account when a draw may fail
  refine yields_foldlM _ (fun _ _ t ht => ?_)
    ⟨most, hg, fun v hv => Nat.lt_succ_of_lt (h.ends v hv), h.few⟩
  obtain ⟨most, ht⟩ := ht
  exact (yields_attach ht hnode).imp fun t ht => ⟨_, ht⟩

/-- A graph that there is has its nodes, however many ends of edges there are. -/
theorem yields_generate {size : Nat} (hsize : size < UInt64.size) :
    (generate size).Yields (Numbered size) := by
  refine (gives_addNodes .empty (min 5 size) (by omega)).yields.bind fun g hg => ?_
  rw [Nat.zero_add] at hg
  refine (gives_clique hg (Nat.min_le_left _ _)).yields.bind fun t ht => ?_
  have hothers := yields_foldlM_range' (f := addAttached) (I := fun i t => ∃ most, Growing i most t)
    (size - min 5 size) ⟨50, ht⟩ fun i t _ hi ht =>
      have ⟨_, ht⟩ := ht
      yields_addAttached ht (by omega)
  refine hothers.bind fun t ht => yields_pure ?_
  obtain ⟨_, ht⟩ := ht
  have hlast : min 5 size + (size - min 5 size) = size := by omega
  have hnumbered := ht.numbered
  rwa [hlast] at hnumbered

end ScaleFree

/-! ## §3. The ring. -/

namespace SmallWorld

variable {size i : Nat} {g : Network}

/-- A ring with a node has a place for every number of steps. -/
theorem gives_joinOne (hsize : size < UInt64.size) (hi : i < size) (h : g.Numbered size) (j : Nat) :
    (joinOne size i g j).Gives (Numbered size) := by
  have hnode : (nodeId i).toNat < size := toNat_nodeId_lt hi (Nat.le_of_lt hsize)
  refine (gives_remainder (by omega)).bind fun place hplace => ?_
  have hneighbour : (nodeId place).toNat < size := by
    rw [hplace]
    exact toNat_nodeId_lt (Nat.mod_lt _ (by omega)) (Nat.le_of_lt hsize)
  refine gives_edgeLabel.bind fun label hlabel => gives_unit.bind fun x _ => ?_
  by_cases hrewired : x.lt rewiring = true
  · rw [if_pos hrewired]
    refine (gives_below_ofNat (by omega) hsize).bind fun drawn hdrawn => gives_pure ?_
    refine h.connect hnode ?_ (by omega)
    split
    · exact hneighbour
    · exact hdrawn
  · rw [if_neg hrewired]
    exact gives_pure (h.connect hnode hneighbour (by omega))

theorem gives_generate (hsize : size < UInt64.size) : (generate size).Gives (Numbered size) := by
  refine (gives_addNodes .empty size (by omega)).bind fun g hg => ?_
  rw [Nat.zero_add] at hg
  refine gives_foldlM _ (fun i hi g hg => ?_) hg
  exact gives_foldlM _ (fun j _ g hg => gives_joinOne hsize (List.mem_range.1 hi) hg j) hg

end SmallWorld

/-! ## §4. Edges drawn evenly. -/

namespace Uniform

variable {size : Nat} {g : Network}

theorem gives_joinDrawn (hsize : size < UInt64.size) (hpos : 0 < size) (h : g.Numbered size) :
    (joinDrawn size g).Gives (Numbered size) := by
  refine (gives_below_ofNat hpos hsize).bind fun v hv => ?_
  refine (gives_below_ofNat hpos hsize).bind fun w hw => ?_
  by_cases hself : v = w
  · rw [if_pos hself]
    exact gives_pure h
  · rw [if_neg hself]
    exact gives_addEdge h hv hw

/-- A graph without nodes has no draws either. -/
theorem gives_generate (hsize : size < UInt64.size) : (generate size).Gives (Numbered size) := by
  refine (gives_addNodes .empty size (by omega)).bind fun g hg => ?_
  rw [Nat.zero_add] at hg
  refine gives_foldlM _ (fun i hi g hg => gives_joinDrawn hsize ?_ hg) hg
  have hi := List.mem_range.1 hi
  omega

end Uniform

/-! ## §5. Two halves and a bridge. -/

namespace Barbell

variable {k first half : Nat} {g : Network}

theorem gives_joinDrawn {i : Nat} (h : g.Numbered k) (hk : k < UInt64.size)
    (hhalf : first + half ≤ k) (hi : i < half) :
    (joinDrawn first half i g).Gives (Numbered k) := by
  refine (gives_below_ofNat (by omega) (by omega)).bind fun target htarget => ?_
  by_cases hself : target = nodeId i
  · rw [if_pos hself]
    exact gives_pure h
  · rw [if_neg hself]
    have hfrom : (nodeId (first + i)).toNat < k := toNat_nodeId_lt (by omega) (Nat.le_of_lt hk)
    have hto : (nodeId (first + target.toNat)).toNat < k :=
      toNat_nodeId_lt (by omega) (Nat.le_of_lt hk)
    exact gives_addEdge h hfrom hto

theorem gives_joinHalf (h : g.Numbered k) (hk : k < UInt64.size) (hhalf : first + half ≤ k)
    (fanOut : Nat) : (joinHalf first half fanOut g).Gives (Numbered k) := by
  refine gives_foldlM _ (fun i hi g hg => ?_) h
  exact gives_foldlM _ (fun _ _ g hg => gives_joinDrawn hg hk hhalf (List.mem_range.1 hi)) hg

/-- The node before a node other than the first one. -/
theorem gives_joinLast (h : g.Numbered k) (hk : k < UInt64.size) {v : Nat} (hv : v < k)
    (hpos : 0 < v) : (joinLast g v).Gives (Numbered k) := by
  refine (gives_difference hpos).bind fun before hbefore => gives_pure ?_
  have hnode : (nodeId v).toNat < k := toNat_nodeId_lt hv (Nat.le_of_lt hk)
  refine h.connect ?_ hnode (by decide)
  exact toNat_nodeId_lt (by omega) (Nat.le_of_lt hk)

theorem gives_addBridgeNode {i : Nat} (h : g.Numbered (half + i)) (hk : half + i + 1 < UInt64.size) :
    (addBridgeNode half g i).Gives (Numbered (half + i + 1)) := by
  have hadd : (g.add (nodeId (half + i)) bridgeLabel).Numbered (half + i + 1) :=
    h.add (by omega) (by decide)
  unfold addBridgeNode
  by_cases hbefore : 0 < i ∨ 0 < half
  · simp only [if_pos hbefore]
    exact gives_joinLast hadd hk (Nat.lt_succ_self _) (by omega)
  · simp only [if_neg hbefore]
    exact gives_pure hadd

theorem gives_joinSecond {bridge : Nat} (h : g.Numbered k) (hk : k < UInt64.size)
    (hhalf : half + bridge + half ≤ k) : (joinSecond half bridge g).Gives (Numbered k) := by
  unfold joinSecond
  by_cases hboth : 0 < half ∧ 0 < bridge
  · rw [if_pos hboth]
    exact gives_joinLast h hk (by omega) (by omega)
  · rw [if_neg hboth]
    exact gives_pure h

theorem gives_generate {size : Nat} (hsize : size < UInt64.size) :
    (generate size).Gives (Numbered (2 * ((size - min 10 size) / 2) + min 10 size)) := by
  refine (gives_difference (Nat.min_le_right 10 size)).bind fun both hboth => ?_
  subst hboth
  generalize hhalf : (size - min 10 size) / 2 = half
  have hfit : half + half + min 10 size ≤ size := by omega
  refine (gives_addNodes .empty half (by omega)).bind fun g hg => ?_
  rw [Nat.zero_add] at hg
  refine (gives_joinHalf hg (by omega) (by omega) _).bind fun g hg => ?_
  have hbridge := gives_foldlM_range (f := addBridgeNode half)
    (I := fun i => Numbered (half + i)) (min 10 size) hg
    fun i g hi hg => gives_addBridgeNode hg (by omega)
  refine hbridge.bind fun g hg => ?_
  refine (gives_addNodes hg half (by omega)).bind fun g hg => ?_
  have hall : half + min 10 size + half = 2 * half + min 10 size := by omega
  rw [← hall]
  refine (gives_joinSecond hg (by omega) (by omega)).bind fun g hg => ?_
  exact gives_joinHalf hg (by omega) (Nat.le_refl _) _

end Barbell

/-! ## §6. Growth at a surface. -/

namespace Aggregation

/-- A graph that grows: its surface is never empty and has nodes of the graph alone. -/
structure Growing (k : Nat) (t : Growth) : Prop where
  numbered : t.graph.Numbered k
  members : ∀ v ∈ t.surface.nodes, v.toNat < k
  kept : t.surface.left < t.surface.nodes.size
  few : t.surface.nodes.size ≤ k

variable {k : Nat} {t : Growth} {g : Network}

theorem gives_pick (h : Growing k t) (hk : k < UInt64.size) :
    t.surface.pick.Gives fun v => v.toNat < k := by
  have hkept := h.kept
  have hfew := h.few
  have hpos : 0 < t.surface.size := Nat.sub_pos_of_lt hkept
  have hlt : t.surface.size < UInt64.size :=
    Nat.lt_of_le_of_lt (Nat.sub_le _ _) (Nat.lt_of_le_of_lt hfew hk)
  refine (gives_below_ofNat hpos hlt).bind fun i hi => ?_
  have hplace : t.surface.left + i.toNat < t.surface.nodes.size := by
    have hi : i.toNat < t.surface.nodes.size - t.surface.left := hi
    omega
  rw [Array.getElem?_eq_getElem hplace]
  exact gives_pure (h.members _ (Array.getElem_mem hplace))

/-- The surface holds a node after any push, for it holds many. -/
theorem Growing.push (h : Growing k t) (hg : g.Numbered (k + 1)) (hk : k < UInt64.size) :
    Growing (k + 1) ⟨g, t.surface.push (nodeId k)⟩ := by
  have hkept := h.kept
  have hfew := h.few
  refine ⟨hg, fun v hv => ?_, ?_, ?_⟩
  · rcases Array.mem_push.1 hv with hv | rfl
    · exact Nat.lt_succ_of_lt (h.members v hv)
    · exact toNat_nodeId_lt (Nat.lt_succ_self k) hk
  · show (if surfaceLimit < (t.surface.nodes.push (nodeId k)).size - t.surface.left
      then t.surface.left + 1 else t.surface.left) < (t.surface.nodes.push (nodeId k)).size
    rw [Array.size_push]
    split <;> omega
  · show (t.surface.nodes.push (nodeId k)).size ≤ k + 1
    rw [Array.size_push]
    omega

theorem gives_addSecond {first : NodeId} (h : g.Numbered (k + 1)) (hk : k < UInt64.size) :
    (addSecond k first g).Gives (Numbered (k + 1)) := by
  refine (gives_below (by decide)).bind fun x _ => ?_
  by_cases hsecond : x = 0 ∧ 1 < k
  · rw [if_pos hsecond]
    refine (gives_below_ofNat (by omega) hk).bind fun other hother => ?_
    by_cases hsame : other = first
    · rw [if_pos hsame]
      exact gives_pure h
    · rw [if_neg hsame]
      exact gives_addEdge h (toNat_nodeId_lt (Nat.lt_succ_self k) hk) (by omega)
  · rw [if_neg hsecond]
    exact gives_pure h

theorem gives_addStuck (h : Growing k t) (hk : k < UInt64.size) :
    (addStuck t k).Gives (Growing (k + 1)) := by
  refine (gives_addNode h.numbered hk).bind fun g hg => ?_
  refine (gives_pick h hk).bind fun first hfirst => ?_
  have hnode : (nodeId k).toNat < k + 1 := toNat_nodeId_lt (Nat.lt_succ_self k) hk
  refine (gives_addEdge hg hnode (by omega)).bind fun g hg => ?_
  exact (gives_addSecond hg hk).bind fun g hg => gives_pure (h.push hg hk)

theorem gives_generate {size : Nat} (hsize : size < UInt64.size) :
    (generate size).Gives (Numbered size) := by
  unfold generate
  by_cases hzero : size = 0
  · rw [if_pos hzero, hzero]
    exact gives_pure .empty
  · rw [if_neg hzero]
    refine (gives_addNode .empty (by decide)).bind fun g hg => ?_
    have hstart : Growing 1 ⟨g, ⟨#[nodeId 0], 0⟩⟩ := by
      refine ⟨hg, fun v hv => ?_, Nat.one_pos, Nat.le_refl _⟩
      rw [List.mem_toArray, List.mem_singleton] at hv
      rw [hv]
      exact Nat.one_pos
    have hall := gives_foldlM_range' (f := addStuck) (I := Growing) (size - 1) hstart
      fun i t _ hi ht => gives_addStuck ht (by omega)
    refine hall.bind fun t ht => gives_pure ?_
    have hlast : 1 + (size - 1) = size := by omega
    have hnumbered := ht.numbered
    rwa [hlast] at hnumbered

end Aggregation

/-! ## §7. All families. -/

namespace Family

/-- How many nodes the graph of a family has: as many as wanted, but the tree has one at least,
and the halves of the barbell are of the same size. -/
def nodeCount : Family → Nat → Nat
  | .tree, size => max 1 size
  | .barbell, size => 2 * ((size - min 10 size) / 2) + min 10 size
  | .scaleFree, size | .smallWorld, size | .uniform, size | .aggregation, size => size

/-- What a drawing gives is there, whatever word a family starts at. -/
theorem exists_of_gives {family : Family} {size : Nat} {P : Network → Prop}
    (h : (family.draw size).Gives P) : ∃ g, family.generate? size = some g ∧ P g := by
  obtain ⟨g, r, hrun, hg⟩ := h ⟨family.seed⟩
  refine ⟨g, ?_, hg⟩
  unfold generate?
  rw [hrun]
  rfl

theorem gives_draw (family : Family) {size : Nat} (hsize : size < UInt64.size)
    (hends : family = .scaleFree → 50 + 6 * size < UInt64.size) :
    (family.draw size).Gives (Numbered (family.nodeCount size)) := by
  cases family with
  | tree => exact Tree.gives_generate hsize
  | scaleFree => exact ScaleFree.gives_generate (hends rfl)
  | smallWorld => exact SmallWorld.gives_generate hsize
  | uniform => exact Uniform.gives_generate hsize
  | barbell => exact Barbell.gives_generate hsize
  | aggregation => exact Aggregation.gives_generate hsize

/-- **Every family draws a graph for every size**, and its nodes are numbered from zero on. -/
theorem exists_generate (family : Family) {size : Nat} (hsize : size < 4294967296) :
    ∃ g, family.generate? size = some g ∧ g.Numbered (family.nodeCount size) := by
  have hword : UInt64.size = 18446744073709551616 := rfl
  exact exists_of_gives (gives_draw family (by omega) fun _ => by omega)

end Family

end LabelWalks.Synthetic
