/-
  LabelWalks.Proofs.Ranking
  ─────────────────────────
  **THINGS IN THE ORDER OF A SCORE.**

  Nodes are ranked by their degrees and found paths by their weights, the highest score
  first, and an order of their own decides between things of one score.  Such a
  comparison puts any two things in one order and never in both, so a ranking is decided
  by the things in it: it does not matter in what order they came.

    • `Ranks`, `ranks_byScore` — comparisons that leave nothing open,
    • `pairwise_mergeSort`, `mergeSort_eq_of_perm` — lists that are sorted by them.
-/
import Mathlib

namespace LabelWalks

variable {α : Type} {before : α → α → Bool}

/-- A comparison that puts any two things in an order, and in both orders only a thing and
itself. -/
structure Ranks (before : α → α → Bool) : Prop where
  trans : ∀ a b c, before a b = true → before b c = true → before a c = true
  total : ∀ a b, (before a b || before b a) = true
  antisymm : ∀ a b, before a b = true → before b a = true → a = b

/-- **The highest score first**, and things of one score in an order of their own. -/
theorem ranks_byScore (score : α → ℕ) (tie : α → α → Bool)
    (htrans : ∀ a b c, tie a b = true → tie b c = true → tie a c = true)
    (htotal : ∀ a b, (tie a b || tie b a) = true)
    (hantisymm : ∀ a b, score a = score b → tie a b = true → tie b a = true → a = b) :
    Ranks fun a b => decide (score b < score a) || (score a == score b && tie a b) where
  trans a b c hab hbc := by
    simp only [Bool.or_eq_true, decide_eq_true_eq, Bool.and_eq_true, beq_iff_eq] at hab hbc ⊢
    rcases hab with hab | ⟨hab, htie⟩
    · exact .inl (by omega)
    · rcases hbc with hbc | ⟨hbc, htie'⟩
      · exact .inl (by omega)
      · exact .inr ⟨hab.trans hbc, htrans a b c htie htie'⟩
  total a b := by
    have htie := htotal a b
    simp only [Bool.or_eq_true, decide_eq_true_eq, Bool.and_eq_true, beq_iff_eq] at htie ⊢
    rcases Nat.lt_trichotomy (score a) (score b) with hlt | heq | hlt
    · exact .inr (.inl hlt)
    · exact htie.imp (fun h => .inr ⟨heq, h⟩) fun h => .inr ⟨heq.symm, h⟩
    · exact .inl (.inl hlt)
  antisymm a b hab hba := by
    simp only [Bool.or_eq_true, decide_eq_true_eq, Bool.and_eq_true, beq_iff_eq] at hab hba
    rcases hab with hab | ⟨hab, htie⟩
    · omega
    · rcases hba with hba | ⟨-, htie'⟩
      · omega
      · exact hantisymm a b hab htie htie'

/-- **In a sorted list** of different things each comes strictly before all that follow it. -/
theorem Ranks.pairwise_mergeSort (h : Ranks before) {xs : List α} (hnodup : xs.Nodup) :
    (xs.mergeSort before).Pairwise fun a b => before a b = true ∧ a ≠ b :=
  (List.pairwise_mergeSort h.trans h.total xs).and ((List.mergeSort_perm xs before).nodup_iff.2 hnodup)

/-- **The order in which things came** is of no account. -/
theorem Ranks.mergeSort_eq_of_perm (h : Ranks before) {xs ys : List α} (hperm : xs.Perm ys) :
    xs.mergeSort before = ys.mergeSort before := by
  refine List.Perm.eq_of_pairwise (fun a b _ _ => h.antisymm a b)
    (List.pairwise_mergeSort h.trans h.total xs) (List.pairwise_mergeSort h.trans h.total ys) ?_
  exact (List.mergeSort_perm xs before).trans (hperm.trans (List.mergeSort_perm ys before).symm)

end LabelWalks
