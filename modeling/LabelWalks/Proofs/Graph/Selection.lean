/-
  LabelWalks.Proofs.Graph.Selection
  ─────────────────────────────────
  **THE NODES OF HIGH DEGREE ARE A PREFIX OF ONE RANKING.**

  How many nodes a ratio asks for is decided by a rounded product and by rounding that
  up.  Neither turns two ratios round, and for a ratio of one the product is the number of
  nodes itself; so every ratio cuts the same ranking, and a greater ratio does not cut it
  shorter.

    • `value_min_one` — the share of the nodes that a ratio asks for,
    • `wanted_eq`, `wanted_le`, `wanted_pos`, `wanted_mono` — how many nodes these are,
    • `Outranks`, `pairwise_ranking` — the ranking,
    • `highDegree_cuts_one_ranking` — all of this.
-/
import LabelWalks.Graph.Network
import LabelWalks.Graph.Selection
import LabelWalks.Proofs.Binary64.Rounding
import LabelWalks.Proofs.Ranking

namespace LabelWalks.GraphView

open Binary64

/-! ## §1. Shares. -/

section
variable {ratio ratio' : Binary64}

theorem one_pos : 0 < Binary64.one.magnitudeBits := by
  decide +kernel

/-- A ratio above zero without NaN, as a magnitude word. -/
theorem nonneg_of_not_nonpositive (h : ratio.isNonpositive = false) (hnan : ratio.isNaN = false) :
    ratio.isNegative = false ∧ 0 < ratio.magnitudeBits :=
  (isNonpositive_eq_false_iff.1 h).resolve_left (by simp [hnan])

/-- **The share of the nodes** that a ratio above zero asks for: the ratio itself, but one for NaN
and for anything above one. -/
theorem magnitudeBits_min_one (h : ratio.isNonpositive = false) :
    (ratio.min .one).isNegative = false
      ∧ (ratio.min .one).magnitudeBits =
        if ratio.isNaN then Binary64.one.magnitudeBits
        else Nat.min ratio.magnitudeBits Binary64.one.magnitudeBits := by
  unfold Binary64.min
  cases hnan : ratio.isNaN with
  | true => exact ⟨isNegative_ofNat 1, rfl⟩
  | false =>
      obtain ⟨hsign, -⟩ := nonneg_of_not_nonpositive h hnan
      have hlt := lt_iff_of_nonneg isNaN_one hnan (isNegative_ofNat 1) hsign
      by_cases habove : Binary64.one.lt ratio = true
      · have hbits := hlt.1 habove
        rw [if_neg Bool.false_ne_true, if_pos habove, if_neg Bool.false_ne_true]
        exact ⟨isNegative_ofNat 1, (Nat.min_eq_right hbits.le).symm⟩
      · have hbits := mt hlt.2 habove
        rw [if_neg Bool.false_ne_true, if_neg habove, if_neg Bool.false_ne_true]
        exact ⟨hsign, (Nat.min_eq_left (Nat.not_lt.1 hbits)).symm⟩

theorem magnitudeBits_min_one_le (h : ratio.isNonpositive = false) :
    (ratio.min .one).magnitudeBits ≤ Binary64.one.magnitudeBits := by
  rw [(magnitudeBits_min_one h).2]
  split
  · exact le_rfl
  · exact Nat.min_le_right _ _

theorem value_min_one_le (h : ratio.isNonpositive = false) : (ratio.min .one).value ≤ 1 :=
  (value_le (magnitudeBits_min_one_le h)).trans_eq value_one

theorem value_min_one_pos (h : ratio.isNonpositive = false) : 0 < (ratio.min .one).value := by
  obtain ⟨-, hbits⟩ := magnitudeBits_min_one h
  refine value_pos ?_
  rw [hbits]
  cases hnan : ratio.isNaN with
  | true => exact one_pos
  | false => exact Nat.lt_min.2 ⟨(nonneg_of_not_nonpositive h hnan).2, one_pos⟩

/-- All nodes are the share of NaN and of one or more. -/
theorem value_min_one_eq_one (h : ratio.isNaN = true ∨ Binary64.one.le ratio = true) :
    ratio.isNonpositive = false ∧ (ratio.min .one).value = 1 := by
  rcases h with hnan | hle
  · have hpositive : ratio.isNonpositive = false := isNonpositive_eq_false_iff.2 (.inl hnan)
    obtain ⟨-, hbits⟩ := magnitudeBits_min_one hpositive
    rw [if_pos hnan] at hbits
    exact ⟨hpositive, (value_eq_of_magnitudeBits hbits).trans value_one⟩
  · obtain ⟨-, hnan, hsign, hbits⟩ := le_of_pos (isNegative_ofNat 1) one_pos hle
    have hpositive : ratio.isNonpositive = false :=
      isNonpositive_eq_false_iff.2 (.inr ⟨hsign, one_pos.trans_le hbits⟩)
    obtain ⟨-, hmin⟩ := magnitudeBits_min_one hpositive
    rw [hnan, if_neg Bool.false_ne_true] at hmin
    have hshare := hmin.trans (Nat.min_eq_right hbits)
    exact ⟨hpositive, (value_eq_of_magnitudeBits hshare).trans value_one⟩

/-- A greater ratio asks for no lesser share. -/
theorem value_min_one_mono (h : ratio.isNonpositive = false) (hle : ratio.le ratio' = true) :
    ratio'.isNonpositive = false ∧ (ratio.min .one).value ≤ (ratio'.min .one).value := by
  have hnan : ratio.isNaN = false := by
    unfold Binary64.le at hle
    simp_all
  obtain ⟨hsign, hpos⟩ := nonneg_of_not_nonpositive h hnan
  obtain ⟨-, hnan', hsign', hbits⟩ := le_of_pos hsign hpos hle
  have hpositive : ratio'.isNonpositive = false :=
    isNonpositive_eq_false_iff.2 (.inr ⟨hsign', hpos.trans_le hbits⟩)
  refine ⟨hpositive, value_le ?_⟩
  rw [(magnitudeBits_min_one h).2, (magnitudeBits_min_one hpositive).2, hnan, hnan',
    if_neg Bool.false_ne_true, if_neg Bool.false_ne_true]
  exact min_le_min_right _ hbits

end

/-! ## §2. How many nodes. -/

section
variable {n : ℕ} {ratio ratio' : Binary64}

theorem wanted_eq_ceil (n : ℕ) (h : ratio.isNonpositive = false) :
    wanted n ratio = ⌈((Binary64.ofNat n).mul (ratio.min .one)).value⌉₊ := by
  obtain ⟨hsign, -⟩ := magnitudeBits_min_one h
  obtain ⟨-, -, -, hproduct⟩ := rounds_mul (isNegative_ofNat n) hsign
  unfold wanted
  rw [if_neg (by rw [h]; exact Bool.false_ne_true), ceil_eq hproduct]

/-- **A greater ratio asks for no fewer nodes.** -/
theorem wanted_mono (n : ℕ) (h : ratio.le ratio' = true) : wanted n ratio ≤ wanted n ratio' := by
  cases hpositive : ratio.isNonpositive with
  | true =>
      unfold wanted
      rw [if_pos hpositive]
      exact Nat.zero_le _
  | false =>
      obtain ⟨hpositive', hshare⟩ := value_min_one_mono hpositive h
      obtain ⟨hsign, -⟩ := magnitudeBits_min_one hpositive
      obtain ⟨hsign', -⟩ := magnitudeBits_min_one hpositive'
      rw [wanted_eq_ceil n hpositive, wanted_eq_ceil n hpositive']
      refine Nat.ceil_mono (value_mul_le (isNegative_ofNat n) hsign (isNegative_ofNat n) hsign' ?_)
      exact mul_le_mul_of_nonneg_left hshare (value_nonneg _)

/-- **No more nodes than there are** are asked for. -/
theorem wanted_le (hn : n < 2 ^ 53) (ratio : Binary64) : wanted n ratio ≤ n := by
  cases hpositive : ratio.isNonpositive with
  | true =>
      unfold wanted
      rw [if_pos hpositive]
      exact Nat.zero_le _
  | false =>
      obtain ⟨hsign, -⟩ := magnitudeBits_min_one hpositive
      rw [wanted_eq_ceil n hpositive, Nat.ceil_le]
      refine (value_mul_le_of_le (z := Binary64.ofNat n) (isNegative_ofNat n) hsign ?_).trans_eq
        (value_ofNat hn)
      exact mul_le_of_le_one_right (value_nonneg _) (value_min_one_le hpositive)

/-- **Some node** is asked for by every ratio above zero when there is one. -/
theorem wanted_pos (hn : n < 2 ^ 53) (hpos : 0 < n) (h : ratio.isNonpositive = false) :
    0 < wanted n ratio := by
  obtain ⟨hsign, -⟩ := magnitudeBits_min_one h
  have hone : (1 : ℚ) ≤ (Binary64.ofNat n).value := by
    rw [value_ofNat hn]
    exact_mod_cast hpos
  rw [wanted_eq_ceil n h, Nat.ceil_pos]
  -- the product is not below the share, which is a number
  refine (value_min_one_pos h).trans_le ?_
  refine le_value_mul_of_le (isNegative_ofNat n) hsign ?_ ?_
  · exact (magnitudeBits_min_one_le h).trans (magnitudeBits_ofNat_le 1)
  · exact le_mul_of_one_le_left (value_nonneg _) hone

/-- **All nodes** are asked for by NaN and by one or more. -/
theorem wanted_eq (hn : n < 2 ^ 53) (h : ratio.isNaN = true ∨ Binary64.one.le ratio = true) :
    wanted n ratio = n := by
  obtain ⟨hpositive, hshare⟩ := value_min_one_eq_one h
  obtain ⟨hsign, -⟩ := magnitudeBits_min_one hpositive
  refine le_antisymm (wanted_le hn ratio) ?_
  -- the exact product is the number of nodes, which is its own rounding
  have hproduct : (Binary64.ofNat n).value ≤ ((Binary64.ofNat n).mul (ratio.min .one)).value := by
    refine le_value_mul_of_le (isNegative_ofNat n) hsign (magnitudeBits_ofNat_le n) ?_
    rw [hshare, mul_one]
  rw [value_ofNat hn] at hproduct
  rw [wanted_eq_ceil n hpositive]
  exact_mod_cast hproduct.trans (Nat.le_ceil _)

end

/-! ## §3. The ranking. -/

section
variable {g : GraphView}

/-- One node ranks above another: it has the higher degree, or of two nodes of one degree the
lesser id. -/
def Outranks (g : GraphView) (v w : NodeId) : Prop :=
  g.degree w < g.degree v ∨ (g.degree v = g.degree w ∧ v < w)

theorem ranks_ranksBefore (g : GraphView) : Ranks g.ranksBefore :=
  ranks_byScore g.degree (fun v w => decide (v ≤ w))
    (fun _ _ _ hab hbc =>
      decide_eq_true (UInt64.le_trans (of_decide_eq_true hab) (of_decide_eq_true hbc)))
    (fun a b => by simpa using UInt64.le_total a b)
    fun _ _ _ hab hba => UInt64.le_antisymm (of_decide_eq_true hab) (of_decide_eq_true hba)

theorem outranks_of_ranksBefore {v w : NodeId} (h : g.ranksBefore v w = true) (hne : v ≠ w) :
    g.Outranks v w := by
  simp only [ranksBefore, Bool.or_eq_true, decide_eq_true_eq, Bool.and_eq_true, beq_iff_eq] at h
  exact h.imp_right fun ⟨hdegree, hle⟩ => ⟨hdegree, UInt64.lt_of_le_of_ne hle hne⟩

theorem not_outranks_of_outranks {v w : NodeId} (h : g.Outranks v w) : ¬ g.Outranks w v := by
  rintro (hlt | ⟨heq, hlt⟩)
  · rcases h with hlt' | ⟨heq', -⟩ <;> omega
  · rcases h with hlt' | ⟨-, hlt'⟩
    · omega
    · exact UInt64.lt_asymm hlt hlt'

/-- **The ranking** of different nodes puts each above all that follow it. -/
theorem pairwise_ranking (hnodup : g.nodeIds.Nodup) : g.ranking.Pairwise g.Outranks :=
  ((ranks_ranksBefore g).pairwise_mergeSort hnodup).imp fun ⟨hbefore, hne⟩ =>
    outranks_of_ranksBefore hbefore hne

/-- The order in which the nodes are listed is of no account. -/
theorem highDegree_eq_of_perm {ids : List NodeId} (hperm : ids.Perm g.nodeIds) (ratio : Binary64) :
    ({ g with nodeIds := ids } : GraphView).highDegree ratio = g.highDegree ratio := by
  have hranking : ids.mergeSort g.ranksBefore = g.ranking :=
    (ranks_ranksBefore g).mergeSort_eq_of_perm hperm
  show (ids.mergeSort g.ranksBefore).take (wanted ids.length ratio) = g.highDegree ratio
  rw [hranking, hperm.length_eq]
  rfl

end

/-! ## §4. The selection. -/

/-- What a ratio may ask for of `n` nodes: nothing at zero or below, all at one or above and for
NaN, and in between something, if there is anything. -/
structure Asks (n : ℕ) (ratio : Binary64) (k : ℕ) : Prop where
  none : ratio.le (.zero false) = true → k = 0
  all : ratio.isNaN = true ∨ Binary64.one.le ratio = true → k = n
  some : (Binary64.zero false).lt ratio = true → ratio.lt .one = true → 0 < n → 1 ≤ k ∧ k ≤ n

theorem asks_wanted {n : ℕ} (hn : n < 2 ^ 53) (ratio : Binary64) :
    Asks n ratio (wanted n ratio) where
  none hle := by
    unfold wanted
    rw [if_pos ((isNonpositive_eq_le_zero ratio).trans hle)]
  all h := wanted_eq hn h
  some habove _ hpos := by
    have hpositive : ratio.isNonpositive = false := by
      rw [isNonpositive_eq_le_zero]
      unfold Binary64.le
      rw [habove]
      exact Bool.and_false _
    exact ⟨wanted_pos hn hpos hpositive, wanted_le hn ratio⟩

/-- **The nodes of high degree** are the front of one ranking of all nodes, which puts every node
above all that follow it and does not depend on the order in which the nodes are listed.  How many
there are is decided by the ratio; no node that is left out ranks above one that is taken, and a
greater ratio only adds nodes at the end. -/
theorem highDegree_cuts_one_ranking (g : GraphView) (hnodup : g.nodeIds.Nodup)
    (hfew : g.nodeIds.length < 2 ^ 53) :
    (∃ ranked : List NodeId, ranked.Perm g.nodeIds ∧ ranked.Pairwise g.Outranks
      ∧ ∀ ratio, ∃ k, g.highDegree ratio = ranked.take k ∧ Asks g.nodeIds.length ratio k)
    ∧ (∀ ratio, ∀ v ∈ g.highDegree ratio, ∀ w ∈ g.nodeIds, w ∉ g.highDegree ratio →
        g.Outranks v w ∧ ¬ g.Outranks w v)
    ∧ (∀ ratio (ids : List NodeId), ids.Perm g.nodeIds →
        ({ g with nodeIds := ids } : GraphView).highDegree ratio = g.highDegree ratio)
    ∧ ∀ ratio ratio', ratio.le ratio' = true → g.highDegree ratio <+: g.highDegree ratio' := by
  -- every ratio cuts this one list
  have hranking := pairwise_ranking hnodup
  have hperm : g.ranking.Perm g.nodeIds := List.mergeSort_perm _ _
  refine ⟨⟨g.ranking, hperm, hranking, fun ratio => ⟨_, rfl, asks_wanted hfew ratio⟩⟩, ?_,
    fun ratio ids h => highDegree_eq_of_perm h ratio, ?_⟩
  · intro ratio v hv w hw hout
    -- a node that is left out stands behind the cut
    have hbehind : w ∈ g.ranking.drop (wanted g.nodeIds.length ratio) := by
      have hmem := hperm.mem_iff.2 hw
      rw [← List.take_append_drop (wanted g.nodeIds.length ratio) g.ranking] at hmem
      exact (List.mem_append.1 hmem).resolve_left hout
    rw [← List.take_append_drop (wanted g.nodeIds.length ratio) g.ranking,
      List.pairwise_append] at hranking
    have habove := hranking.2.2 v hv w hbehind
    exact ⟨habove, not_outranks_of_outranks habove⟩
  · intro ratio ratio' hle
    exact List.take_prefix_take_left (wanted_mono _ hle)

/-- A node with two neighbours, which have no others. -/
def fork : Network :=
  Network.empty.load [⟨1, 2, 7, 5, 5⟩, ⟨3, 2, 7, 5, 5⟩]

/-- Of the three nodes of a fork a half takes the middle one and, of the other two, the lesser;
the third ranks below both, and NaN takes it as well. -/
theorem highDegree_of_fork :
    fork.view.nodeIds.Nodup ∧ fork.view.nodeIds.length < 2 ^ 53
      ∧ fork.view.highDegree ((Binary64.ofNat 1).div (.ofNat 2)) = [2, 1]
      ∧ (∀ v ∈ ([2, 1] : List NodeId), fork.view.Outranks v 3 ∧ ¬ fork.view.Outranks 3 v)
      ∧ Asks 3 .nan (fork.view.highDegree .nan).length := by
  have hids : fork.view.nodeIds = [1, 2, 3] := by decide +kernel
  have hnodup : fork.view.nodeIds.Nodup := by rw [hids]; decide
  have hfew : fork.view.nodeIds.length < 2 ^ 53 := by rw [hids]; decide
  have hhalf : fork.view.highDegree ((Binary64.ofNat 1).div (.ofNat 2)) = [2, 1] := by
    have hranking : fork.view.ranking = [2, 1, 3] := by
      have hperm : fork.view.nodeIds.Perm [2, 1, 3] := by rw [hids]; decide
      have hsorted : [2, 1, 3].Pairwise fun v w => fork.view.ranksBefore v w = true := by
        decide +kernel
      exact ((ranks_ranksBefore _).mergeSort_eq_of_perm hperm).trans
        (List.mergeSort_of_pairwise hsorted)
    have hwanted : wanted 3 ((Binary64.ofNat 1).div (.ofNat 2)) = 2 := by decide +kernel
    unfold highDegree
    rw [hids, hranking]
    exact congrArg (List.take · [2, 1, 3]) hwanted
  obtain ⟨⟨ranked, hperm, -, hcut⟩, hout, -⟩ := highDegree_cuts_one_ranking fork.view hnodup hfew
  refine ⟨hnodup, hfew, hhalf, fun v hv => ?_, ?_⟩
  · refine hout _ v (hhalf ▸ hv) 3 ?_ ?_
    · rw [hids]; decide
    · rw [hhalf]; decide
  · obtain ⟨k, htake, hasks⟩ := hcut .nan
    rw [hids] at hasks
    have hk : k = 3 := hasks.all (.inl (by decide +kernel))
    have hlength : ranked.length = 3 := by rw [hperm.length_eq, hids]; rfl
    rw [htake, List.length_take, hlength, hk]
    rw [hk] at hasks
    exact hasks

end LabelWalks.GraphView
