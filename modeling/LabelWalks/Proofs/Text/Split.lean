/-
  LabelWalks.Proofs.Text.Split
  ────────────────────────────
  **CUTTING WHAT WAS PUT TOGETHER.**

  Pieces without the separator come back from a list that was made of them, one
  after another with separators between them or behind each of them.  A list
  without blanks is not changed by trimming.

    • `split_append_cons`, `split_intercalate`, `split_flatMap`, `split_join` — all separators,
    • `split_append_sep_cons`, `exists_mem_split` — what the pieces of any list are,
    • `splitOn_intercalate` — separators of more than one member,
    • `cut?_append_cons`, `cut?_eq_none_iff`, `cut?_eq_some_iff` — the first separator,
    • `trim_eq_self`, `trim_append_cons`, `trim_ne_nil` — the ends.
-/
import LabelWalks.Text.Blank
import LabelWalks.Text.Split
import Mathlib

namespace LabelWalks.Text

variable {α : Type} [DecidableEq α]

/-! ## §1. All separators. -/

theorem split_of_not_mem {sep : α} {s : List α} (h : sep ∉ s) : split sep s = [s] := by
  induction s with
  | nil => rfl
  | cons c s ih =>
      rw [List.mem_cons, not_or] at h
      unfold split
      rw [if_neg (Ne.symm h.1), ih h.2]

/-- The piece before the first separator comes first. -/
theorem split_append_cons {sep : α} {s : List α} (h : sep ∉ s) (rest : List α) :
    split sep (s ++ sep :: rest) = s :: split sep rest := by
  induction s with
  | nil =>
      show split sep (sep :: rest) = [] :: split sep rest
      unfold split
      rw [if_pos rfl]
      cases rest <;> rfl
  | cons c s ih =>
      rw [List.mem_cons, not_or] at h
      show split sep (c :: (s ++ sep :: rest)) = _
      unfold split
      rw [if_neg (Ne.symm h.1), ih h.2]
      cases rest <;> rfl

/-- **Pieces with separators between them** come back. -/
theorem split_intercalate {sep : α} :
    ∀ {pieces : List (List α)}, pieces ≠ [] → (∀ p ∈ pieces, sep ∉ p) →
      split sep ([sep].intercalate pieces) = pieces
  | [], hne, _ => absurd rfl hne
  | [p], _, h => by
      rw [List.intercalate_singleton]
      exact split_of_not_mem (h p List.mem_cons_self)
  | p :: q :: pieces, _, h => by
      have hrest : split sep ([sep].intercalate (q :: pieces)) = q :: pieces :=
        split_intercalate (List.cons_ne_nil _ _) fun r hr => h r (List.mem_cons_of_mem _ hr)
      have hcons : [sep].intercalate (p :: q :: pieces) =
          p ++ sep :: [sep].intercalate (q :: pieces) := by
        rw [List.intercalate_cons_cons, List.append_assoc]
        rfl
      rw [hcons, split_append_cons (h p List.mem_cons_self), hrest]

/-- **Pieces with a separator behind each of them** come back, with what follows them. -/
theorem split_flatMap {sep : α} {pieces : List (List α)} (h : ∀ p ∈ pieces, sep ∉ p)
    (rest : List α) :
    split sep ((pieces.flatMap fun p => p ++ [sep]) ++ rest) = pieces ++ split sep rest := by
  induction pieces with
  | nil => rfl
  | cons p pieces ih =>
      have hcons : ((p :: pieces).flatMap fun p => p ++ [sep]) ++ rest =
          p ++ sep :: ((pieces.flatMap fun p => p ++ [sep]) ++ rest) := by
        rw [List.flatMap_cons, List.append_assoc, List.append_assoc]
        rfl
      rw [hcons, split_append_cons (h p List.mem_cons_self),
        ih fun q hq => h q (List.mem_cons_of_mem _ hq), List.cons_append]

theorem split_cons_of_ne {sep c : α} {s piece : List α} {pieces : List (List α)} (hc : c ≠ sep)
    (hs : split sep s = piece :: pieces) : split sep (c :: s) = (c :: piece) :: pieces := by
  unfold split
  rw [if_neg hc, hs]

/-- **Two lists with a separator between them** are cut one after the other. -/
theorem split_append_sep_cons (sep : α) (s rest : List α) :
    split sep (s ++ sep :: rest) = split sep s ++ split sep rest := by
  induction s with
  | nil => exact split_append_cons List.not_mem_nil rest
  | cons c s ih =>
      by_cases hc : c = sep
      · subst hc
        show split c ([] ++ c :: (s ++ c :: rest)) = split c ([] ++ c :: s) ++ split c rest
        rw [split_append_cons List.not_mem_nil, split_append_cons List.not_mem_nil, ih]
        rfl
      · obtain ⟨piece, pieces, hs⟩ := List.exists_cons_of_ne_nil (split_ne_nil sep s)
        rw [hs, List.cons_append] at ih
        rw [List.cons_append, split_cons_of_ne hc ih, split_cons_of_ne hc hs]
        rfl

/-- **Pieces that were joined** come back. -/
theorem split_join {sep : α} : ∀ {pieces : List (List α)}, pieces ≠ [] →
    (∀ p ∈ pieces, sep ∉ p) → split sep (join sep pieces) = pieces
  | [], hne, _ => absurd rfl hne
  | [p], _, h => split_of_not_mem (h p List.mem_cons_self)
  | p :: q :: pieces, _, h => by
      have hrest : split sep (join sep (q :: pieces)) = q :: pieces :=
        split_join (List.cons_ne_nil _ _) fun r hr => h r (List.mem_cons_of_mem _ hr)
      show split sep (p ++ sep :: join sep (q :: pieces)) = _
      rw [split_append_cons (h p List.mem_cons_self), hrest]

/-- What is no separator is in a piece. -/
theorem exists_mem_split {sep c : α} {s : List α} (hc : c ∈ s) (hne : c ≠ sep) :
    ∃ p ∈ split sep s, c ∈ p := by
  induction s with
  | nil => cases hc
  | cons d s ih =>
      obtain ⟨piece, pieces, hs⟩ := List.exists_cons_of_ne_nil (split_ne_nil sep s)
      rw [hs] at ih
      by_cases hd : d = sep
      · subst hd
        show ∃ p ∈ split d ([] ++ d :: s), c ∈ p
        rw [split_append_cons List.not_mem_nil, hs]
        obtain ⟨p, hp, hmem⟩ := ih ((List.mem_cons.1 hc).resolve_left hne)
        exact ⟨p, List.mem_cons_of_mem _ hp, hmem⟩
      · rw [split_cons_of_ne hd hs]
        rcases List.mem_cons.1 hc with rfl | hc
        · exact ⟨_, List.mem_cons_self, List.mem_cons_self⟩
        · obtain ⟨p, hp, hmem⟩ := ih hc
          rcases List.mem_cons.1 hp with rfl | hp
          · exact ⟨_, List.mem_cons_self, List.mem_cons_of_mem _ hmem⟩
          · exact ⟨p, List.mem_cons_of_mem _ hp, hmem⟩

/-! ## §2. Longer separators. -/

/-- The pieces between the places where a separator stands, found from the left; of a separator
that was found `skip` members are still to be passed. -/
def splitOnFrom (sep : List α) : Nat → List α → List (List α)
  | _, [] => [[]]
  | 0, c :: rest =>
    if sep.isPrefixOf (c :: rest) then [] :: splitOnFrom sep (sep.length - 1) rest
    else
      match splitOnFrom sep 0 rest with
      | [] => [[c]]
      | piece :: pieces => (c :: piece) :: pieces
  | skip + 1, _ :: rest => splitOnFrom sep skip rest

/-- The pieces between the places where a separator stands, which is not empty. -/
def splitOn (sep s : List α) : List (List α) :=
  splitOnFrom sep 0 s

theorem splitOnFrom_append (sep : List α) (s rest : List α) :
    splitOnFrom sep s.length (s ++ rest) = splitOn sep rest := by
  induction s with
  | nil => rfl
  | cons c s ih => exact ih

/-- A separator at the start has an empty piece before it. -/
theorem splitOn_sep_append (x : α) (xs rest : List α) :
    splitOn (x :: xs) (x :: xs ++ rest) = [] :: splitOn (x :: xs) rest := by
  have hprefix : (x :: xs).isPrefixOf (x :: (xs ++ rest)) = true := by
    rw [List.isPrefixOf_iff_prefix]
    exact List.prefix_append (x :: xs) rest
  show splitOnFrom (x :: xs) 0 (x :: (xs ++ rest)) = _
  rw [splitOnFrom, if_pos hprefix]
  exact congrArg (List.cons []) (splitOnFrom_append (x :: xs) xs rest)

/-- No separator begins with another member. -/
theorem splitOn_cons_of_ne {x c : α} {xs s piece : List α} {pieces : List (List α)} (hc : x ≠ c)
    (hs : splitOn (x :: xs) s = piece :: pieces) :
    splitOn (x :: xs) (c :: s) = (c :: piece) :: pieces := by
  have hno : ¬ (x :: xs).isPrefixOf (c :: s) = true := by
    rw [List.isPrefixOf_iff_prefix, List.cons_prefix_cons]
    exact fun hprefix => hc hprefix.1
  unfold splitOn at hs ⊢
  rw [splitOnFrom, if_neg hno, hs]

theorem splitOn_of_not_mem {x : α} {xs s : List α} (h : x ∉ s) : splitOn (x :: xs) s = [s] := by
  induction s with
  | nil => rfl
  | cons c s ih =>
      rw [List.mem_cons, not_or] at h
      exact splitOn_cons_of_ne h.1 (ih h.2)

/-- The piece before the first separator comes first. -/
theorem splitOn_append {x : α} {xs s : List α} (h : x ∉ s) (rest : List α) :
    splitOn (x :: xs) (s ++ (x :: xs ++ rest)) = s :: splitOn (x :: xs) rest := by
  induction s with
  | nil => exact splitOn_sep_append x xs rest
  | cons c s ih =>
      rw [List.mem_cons, not_or] at h
      exact splitOn_cons_of_ne h.1 (ih h.2)

/-- **Pieces without the first member of a separator**, with separators between them, come back. -/
theorem splitOn_intercalate {x : α} {xs : List α} :
    ∀ {pieces : List (List α)}, pieces ≠ [] → (∀ p ∈ pieces, x ∉ p) →
      splitOn (x :: xs) ((x :: xs).intercalate pieces) = pieces
  | [], hne, _ => absurd rfl hne
  | [p], _, h => by
      rw [List.intercalate_singleton]
      exact splitOn_of_not_mem (h p List.mem_cons_self)
  | p :: q :: pieces, _, h => by
      have hrest : splitOn (x :: xs) ((x :: xs).intercalate (q :: pieces)) = q :: pieces :=
        splitOn_intercalate (List.cons_ne_nil _ _) fun r hr => h r (List.mem_cons_of_mem _ hr)
      rw [List.intercalate_cons_cons, List.append_assoc, splitOn_append (h p List.mem_cons_self),
        hrest]

/-! ## §3. The first separator. -/

theorem cut?_append_cons {sep : α} {s : List α} (h : sep ∉ s) (rest : List α) :
    cut? sep (s ++ sep :: rest) = some (s, rest) := by
  induction s with
  | nil =>
      show cut? sep (sep :: rest) = _
      unfold cut?
      rw [if_pos rfl]
  | cons c s ih =>
      rw [List.mem_cons, not_or] at h
      show cut? sep (c :: (s ++ sep :: rest)) = _
      unfold cut?
      rw [if_neg (Ne.symm h.1), ih h.2]
      rfl

theorem cut?_eq_none {sep : α} {s : List α} (h : sep ∉ s) : cut? sep s = none := by
  induction s with
  | nil => rfl
  | cons c s ih =>
      rw [List.mem_cons, not_or] at h
      unfold cut?
      rw [if_neg (Ne.symm h.1), ih h.2]
      rfl

theorem cut?_eq_none_iff {sep : α} {s : List α} : cut? sep s = none ↔ sep ∉ s := by
  constructor
  · intro hnone hmem
    obtain ⟨before, after, rfl, hbefore⟩ := List.eq_append_cons_of_mem hmem
    rw [cut?_append_cons hbefore] at hnone
    cases hnone
  · exact cut?_eq_none

/-- **A cut** is at the first separator. -/
theorem cut?_eq_some_iff {sep : α} {s before after : List α} :
    cut? sep s = some (before, after) ↔ s = before ++ sep :: after ∧ sep ∉ before := by
  constructor
  · intro h
    by_cases hmem : sep ∈ s
    · obtain ⟨before', after', rfl, hbefore⟩ := List.eq_append_cons_of_mem hmem
      rw [cut?_append_cons hbefore] at h
      obtain ⟨rfl, rfl⟩ := Prod.mk.inj (Option.some.inj h)
      exact ⟨rfl, hbefore⟩
    · rw [cut?_eq_none hmem] at h
      cases h
  · intro h
    obtain ⟨rfl, hbefore⟩ := h
    exact cut?_append_cons hbefore after

/-- What stands before the first separator does not depend on how much follows it. -/
theorem cut?_take {sep : α} {s rest before after : List α} {n : Nat} (h : sep ∉ s)
    (hcut : cut? sep ((s ++ sep :: rest).take n) = some (before, after)) : before = s := by
  by_cases hn : n ≤ s.length
  · have hno : sep ∉ (s ++ sep :: rest).take n := by
      rw [List.take_append_of_le_length hn]
      exact fun hmem => h (List.mem_of_mem_take hmem)
    rw [cut?_eq_none hno] at hcut
    cases hcut
  · have htake : (s ++ sep :: rest).take n = s ++ sep :: rest.take (n - s.length - 1) := by
      obtain ⟨k, hk⟩ : ∃ k, n = s.length + (k + 1) := ⟨n - s.length - 1, by omega⟩
      have hk' : n - s.length - 1 = k := by omega
      rw [hk', hk, List.take_length_add_append, List.take_succ_cons]
    rw [htake, cut?_append_cons h] at hcut
    injection hcut with hcut
    exact (congrArg Prod.fst hcut).symm

/-! ## §4. Trimming. -/

theorem trimStart_eq_self {s : List Char} (h : ∀ c ∈ s, isBlank c = false) :
    trimStart s = s := by
  cases s with
  | nil => rfl
  | cons c s =>
      unfold trimStart
      rw [List.dropWhile_cons_of_neg]
      rw [h c List.mem_cons_self]
      simp

/-- Trimming keeps a text without blanks. -/
theorem trim_eq_self {s : List Char} (h : ∀ c ∈ s, isBlank c = false) : trim s = s := by
  have hreverse : ∀ c ∈ s.reverse, isBlank c = false := fun c hc => h c (List.mem_reverse.1 hc)
  unfold trim trimEnd
  rw [trimStart_eq_self h, trimStart_eq_self hreverse, List.reverse_reverse]

theorem trimStart_append_cons (s : List Char) {c : Char} (hc : isBlank c = false)
    (rest : List Char) : trimStart (s ++ c :: rest) = trimStart s ++ c :: rest := by
  unfold trimStart
  rw [List.dropWhile_append]
  by_cases hs : (s.dropWhile isBlank).isEmpty = true
  · rw [if_pos hs, List.isEmpty_iff.1 hs, List.dropWhile_cons_of_neg (by rw [hc]; decide)]
    rfl
  · rw [if_neg hs]

theorem trim_trimStart (s : List Char) : trim (trimStart s) = trim s := by
  unfold trim trimStart
  rw [List.dropWhile_idempotent]

/-- A text that has no blank from some character on has none at its end. -/
theorem trimEnd_append_cons (s : List Char) {c : Char} {rest : List Char}
    (h : ∀ d ∈ c :: rest, isBlank d = false) : trimEnd (s ++ c :: rest) = s ++ c :: rest := by
  obtain ⟨last, before, hlast⟩ := List.exists_cons_of_ne_nil
    (List.reverse_ne_nil_iff.2 (List.cons_ne_nil c rest))
  have hblank : isBlank last = false :=
    h last (List.mem_reverse.1 (hlast ▸ List.mem_cons_self))
  unfold trimEnd
  rw [List.reverse_append, hlast, List.cons_append]
  unfold trimStart
  rw [List.dropWhile_cons_of_neg (by rw [hblank]; decide), ← List.cons_append, ← hlast,
    ← List.reverse_append, List.reverse_reverse]

/-- **Without a blank from some character on** only the start is trimmed. -/
theorem trim_append_cons (s : List Char) {c : Char} {rest : List Char}
    (h : ∀ d ∈ c :: rest, isBlank d = false) : trim (s ++ c :: rest) = trimStart s ++ c :: rest := by
  unfold trim
  rw [trimStart_append_cons s (h c List.mem_cons_self), trimEnd_append_cons _ h]

/-- A text with a character that is not blank is not trimmed away. -/
theorem trim_ne_nil {s : List Char} {c : Char} (hc : c ∈ s) (hblank : isBlank c = false) :
    trim s ≠ [] := by
  obtain ⟨before, after, rfl⟩ := List.append_of_mem hc
  unfold trim trimEnd
  rw [trimStart_append_cons before hblank, List.reverse_append, List.reverse_cons,
    List.append_assoc, List.singleton_append, trimStart_append_cons _ hblank]
  simp

end LabelWalks.Text
