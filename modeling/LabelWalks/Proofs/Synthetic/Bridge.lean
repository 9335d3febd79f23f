/-
  LabelWalks.Proofs.Synthetic.Bridge
  ──────────────────────────────────
  **THE TWO HALVES OF A BARBELL AND WHAT IS BETWEEN THEM.**

  The nodes of a barbell are those of the first half, ten of the bridge and those of the
  second half, in this order.  An edge has a drawn label and stays in one half, or it has
  the label of the bridge and is one of the eleven steps from the last node of the first
  half over the bridge to the first node of the second half.  The targets of edges are
  drawn, and so are most labels; where an edge leads is decided by the bounds of the draws.

    • `Adjoins`, `Joined` — the steps of the bridge, and where edges may lead,
    • `Bridged`, `Bridged.add`, `Bridged.connect` — a network of which this holds so far,
    • `yields_joinHalf`, `yields_joinLast`, `yields_addBridgeNode` — what is drawn,
    • `exists_bridged` — the barbell of a size.
-/
import LabelWalks.Proofs.Synthetic.Families

namespace LabelWalks

namespace Network

open Synthetic.Barbell (bridgeLabel)

/-! ## §1. The shape. -/

/-- One of the eleven steps from half to half: from a number to the next one, the last node of the
first half and all of the bridge being those that are left. -/
def Adjoins (half v w : Nat) : Prop :=
  w = v + 1 ∧ half ≤ w ∧ w ≤ half + 10

/-- Where an edge with a label may lead: within a half, or a step along the bridge, and these alone
have the label of the bridge. -/
def Joined (half v w : Nat) (label : Label) : Prop :=
  (label ≠ bridgeLabel ∧ (v < half ∧ w < half ∨ half + 10 ≤ v ∧ half + 10 ≤ w))
  ∨ (label = bridgeLabel ∧ (Adjoins half v w ∨ Adjoins half w v))

theorem Joined.symm {half v w : Nat} {label : Label} (h : Joined half v w label) :
    Joined half w v label :=
  h.imp (And.imp_right (Or.imp And.symm And.symm)) (And.imp_right Or.symm)

/-- The ten nodes of the bridge and no others have its label, and edges lead where they may. -/
structure Bridged (half : Nat) (n : Network) : Prop where
  nodes : ∀ v label, n.labelOf v = some label →
    (label = bridgeLabel ↔ half ≤ v.toNat ∧ v.toNat < half + 10)
  edges : ∀ side v, ∀ e ∈ n.entriesOf side v, Joined half v.toNat e.target.toNat e.label

namespace Bridged

variable {half : Nat} {n : Network}

theorem empty : Bridged half .empty where
  nodes v label hlabel := by
    rw [labelOf_empty] at hlabel
    cases hlabel
  edges side v e he := by
    rw [entriesOf_empty] at he
    cases he

/-- **One node more**, with the label that goes with its number. -/
theorem add (h : Bridged half n) {v : NodeId} {label : Label}
    (hlabel : label = bridgeLabel ↔ half ≤ v.toNat ∧ v.toNat < half + 10) :
    Bridged half (n.add v label) where
  nodes u label' hlabel' := by
    rw [labelOf_add] at hlabel'
    by_cases huv : v = u
    · rw [if_pos huv] at hlabel'
      obtain rfl := Option.some.inj hlabel'
      exact huv ▸ hlabel
    · rw [if_neg huv] at hlabel'
      exact h.nodes u label' hlabel'
  edges side u e he := h.edges side u e (by cases side <;> exact he)

/-- **One edge more**, where it may lead; it is kept at both of its ends. -/
theorem connect (h : Bridged half n) {v w : NodeId} {label : Label}
    (hjoined : Joined half v.toNat w.toNat label) : Bridged half (n.connect v w label) where
  nodes := h.nodes
  edges side u e he := by
    rcases mem_or_of_mem_connect he with he | ⟨rfl, rfl⟩ | ⟨rfl, rfl⟩
    · exact h.edges side u e he
    · exact hjoined
    · exact hjoined.symm

theorem withDirection (h : Bridged half n) (direction : Direction) :
    Bridged half (n.withDirection direction) where
  nodes := h.nodes
  edges side v e he := h.edges side v e (by cases side <;> exact he)

end Bridged

end Network

/-! ## §2. What is drawn. -/

namespace Synthetic.Barbell

open Draw Network

variable {half first : Nat} {g : Network}

/-- Small labels are not that of the bridge. -/
theorem ne_bridgeLabel {label : Label} (h : label.toNat < 10) : label ≠ bridgeLabel := by
  rintro rfl
  exact absurd h (by decide)

/-- The nodes of a half. -/
theorem yields_addNodes (h : g.Bridged half) (hfit : first + half < UInt64.size)
    (hout : first = 0 ∨ half + 10 ≤ first) : (addNodes g first half).Yields (Bridged half) := by
  refine yields_foldlM _ (fun i hi g hg => ?_) h
  obtain ⟨hle, hlt⟩ := List.mem_range'_1.1 hi
  refine gives_nodeLabel.yields.bind fun label hlabel => yields_pure (hg.add ?_)
  -- such a node stands before the bridge or behind it
  rw [toNat_nodeId (by omega)]
  exact iff_of_false (ne_bridgeLabel (by omega)) (by omega)

/-- An edge within a half: its target is drawn below the number of nodes there. -/
theorem yields_joinDrawn {i : Nat} (h : g.Bridged half) (hfit : first + half < UInt64.size)
    (hout : first = 0 ∨ half + 10 ≤ first) (hi : i < half) :
    (joinDrawn first half i g).Yields (Bridged half) := by
  refine (gives_below_ofNat (by omega) (by omega)).yields.bind fun target htarget => ?_
  by_cases hself : target = nodeId i
  · rw [if_pos hself]
    exact yields_pure h
  · rw [if_neg hself]
    refine gives_edgeLabel.yields.bind fun label hlabel => yields_pure (h.connect ?_)
    rw [toNat_nodeId (by omega), toNat_nodeId (by omega)]
    exact .inl ⟨ne_bridgeLabel (by omega), by omega⟩

/-- **The edges of a half** stay in it. -/
theorem yields_joinHalf (h : g.Bridged half) (hfit : first + half < UInt64.size)
    (hout : first = 0 ∨ half + 10 ≤ first) (fanOut : Nat) :
    (joinHalf first half fanOut g).Yields (Bridged half) := by
  refine yields_foldlM _ (fun i hi g hg => ?_) h
  exact yields_foldlM _ (fun _ _ g hg => yields_joinDrawn hg hfit hout (List.mem_range.1 hi)) hg

/-- **A step along the bridge** leads to a node from the one before it. -/
theorem yields_joinLast {v : Nat} (h : g.Bridged half) (hpos : 0 < v) (hleast : half ≤ v)
    (hmost : v ≤ half + 10) (hfit : v < UInt64.size) : (joinLast g v).Yields (Bridged half) := by
  refine (gives_difference hpos).yields.bind fun before hbefore => yields_pure (h.connect ?_)
  rw [toNat_nodeId (by omega), toNat_nodeId hfit]
  exact .inr ⟨rfl, .inl ⟨by omega, hleast, hmost⟩⟩

theorem yields_addBridgeNode {i : Nat} (h : g.Bridged half) (hi : i < 10)
    (hfit : half + i < UInt64.size) : (addBridgeNode half g i).Yields (Bridged half) := by
  have hadd : (g.add (nodeId (half + i)) bridgeLabel).Bridged half := by
    refine h.add (iff_of_true rfl ?_)
    rw [toNat_nodeId hfit]
    omega
  unfold addBridgeNode
  by_cases hbefore : 0 < i ∨ 0 < half
  · simp only [if_pos hbefore]
    exact yields_joinLast hadd (by omega) (by omega) (by omega) hfit
  · simp only [if_neg hbefore]
    exact yields_pure hadd

theorem yields_joinSecond (h : g.Bridged half) (hfit : half + 10 < UInt64.size) :
    (joinSecond half 10 g).Yields (Bridged half) := by
  unfold joinSecond
  by_cases hboth : 0 < half ∧ 0 < 10
  · rw [if_pos hboth]
    exact yields_joinLast h (by omega) (by omega) (Nat.le_refl _) hfit
  · rw [if_neg hboth]
    exact yields_pure h

/-- **A barbell with a whole bridge** has its shape. -/
theorem yields_generate {size : Nat} (hleast : 10 ≤ size) (hsize : size < UInt64.size)
    (hhalf : half = (size - 10) / 2) : (generate size).Yields (Bridged half) := by
  have hbridge : min 10 size = 10 := by omega
  unfold generate
  simp only [hbridge]
  refine (gives_difference hleast).yields.bind fun both hboth => ?_
  obtain rfl : half = both / 2 := by rw [hboth, hhalf]
  -- in the order in which it is drawn: the first half, the bridge, the second half
  refine (yields_addNodes .empty (by omega) (.inl rfl)).bind fun g hg => ?_
  refine (yields_joinHalf hg (by omega) (.inl rfl) _).bind fun g hg => ?_
  have hchain : ((List.range 10).foldlM (addBridgeNode (both / 2)) g).Yields
      (Bridged (both / 2)) := by
    refine yields_foldlM _ (fun i hi g hg => ?_) hg
    have hi := List.mem_range.1 hi
    exact yields_addBridgeNode hg hi (by omega)
  refine hchain.bind fun g hg => ?_
  refine (yields_addNodes hg (by omega) (.inr (Nat.le_refl _))).bind fun g hg => ?_
  refine (yields_joinSecond hg (by omega)).bind fun g hg => ?_
  exact yields_joinHalf hg (by omega) (.inr (Nat.le_refl _)) _

/-- **The barbell of a size**: its nodes are numbered without a gap, and it has its shape. -/
theorem exists_bridged {size : Nat} (hleast : 10 ≤ size) (hsize : size < UInt64.size)
    (hhalf : half = (size - 10) / 2) :
    ∃ n, Family.barbell.generate? size = some n ∧ n.Numbered (2 * half + 10) ∧ n.Bridged half := by
  have hcount : 2 * ((size - min 10 size) / 2) + min 10 size = 2 * half + 10 := by omega
  have hnumbered := gives_generate hsize
  rw [hcount] at hnumbered
  exact Family.exists_of_gives (hnumbered.and (yields_generate hleast hsize hhalf))

end Synthetic.Barbell

end LabelWalks
