/-
  LabelWalks.Text.Split
  ─────────────────────
  **CUTTING A LIST AT A SEPARATOR.**

  `split` cuts at every separator and keeps the empty pieces, so it always
  gives at least one piece; `cut?` cuts once, at the first separator.  Both
  work on any list: on characters they read fields, on octets they read lines.

    • `split_ne_nil` — there is at least one piece,
    • `not_mem_of_mem_split` — no piece holds the separator.
-/

namespace LabelWalks.Text

variable {α : Type} [DecidableEq α]

/-! ## §1. Cutting. -/

/-- The pieces between the separators, empty ones included. -/
def split (sep : α) : List α → List (List α)
  | [] => [[]]
  | c :: rest =>
    if c = sep then [] :: split sep rest
    else
      match split sep rest with
      | [] => [[c]]
      | piece :: pieces => (c :: piece) :: pieces

/-- What stands before and after the first separator. -/
def cut? (sep : α) : List α → Option (List α × List α)
  | [] => none
  | c :: rest =>
    if c = sep then some ([], rest)
    else (cut? sep rest).map fun (before, after) => (c :: before, after)

/-- The pieces with the separator between them. -/
def join (sep : α) : List (List α) → List α
  | [] => []
  | [piece] => piece
  | piece :: pieces => piece ++ sep :: join sep pieces

/-! ## §2. The pieces. -/

theorem split_ne_nil (sep : α) (s : List α) : split sep s ≠ [] := by
  cases s with
  | nil => simp [split]
  | cons c rest =>
    simp only [split]
    split
    · simp
    · split <;> simp

theorem not_mem_of_mem_split (sep : α) (s : List α) : ∀ p ∈ split sep s, sep ∉ p := by
  induction s with
  | nil => simp [split]
  | cons c rest ih =>
    intro p hp
    simp only [split] at hp
    split at hp
    · rcases List.mem_cons.1 hp with rfl | hp
      · simp
      · exact ih p hp
    · next hc =>
      split at hp
      · simp only [List.mem_singleton] at hp
        subst hp
        simp [Ne.symm hc]
      · next q qs hq =>
        rw [hq] at ih
        rcases List.mem_cons.1 hp with rfl | hp
        · simp only [List.mem_cons, not_or]
          exact ⟨Ne.symm hc, ih q List.mem_cons_self⟩
        · exact ih p (List.mem_cons_of_mem _ hp)

end LabelWalks.Text
