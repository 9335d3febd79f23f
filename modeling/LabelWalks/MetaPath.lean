/-
  LabelWalks.MetaPath
  ───────────────────
  **META-PATHS.**

  A meta-path is what a walk looks like when only labels are seen: node label,
  edge label, node label, and so on, from a node to a node.  Its tokens are
  dense indices, an odd number of them.  Paths are ordered by their tokens.

  A suffix is what a walk adds to a path: pairs of an edge and a node token.
-/
import LabelWalks.Label.Mapping

namespace LabelWalks

/-! ## §1. Tokens and their places. -/

/-- What a token stands for; the two alternate along a path. -/
inductive Place where
  | node
  | edge
  deriving DecidableEq, Repr

namespace Place

/-- The place that follows. -/
def next : Place → Place
  | .node => .edge
  | .edge => .node

/-- The raw label of a token at a place. -/
def label (place : Place) (m : Mapping) (token : LabelIndex) : Except Fault Label :=
  match place with
  | .node => m.nodeLabel token
  | .edge => m.edgeLabel token

end Place

/-- The raw labels of tokens whose first one stands at `place`. -/
def rawLabels (m : Mapping) : Place → List LabelIndex → Except Fault (List Label)
  | _, [] => .ok []
  | place, token :: tokens => do
    let label ← place.label m token
    let labels ← rawLabels m place.next tokens
    return label :: labels

/-- Tokens as raw labels with bars between them; the first token stands at `place`. -/
def renderTokens (m : Mapping) (place : Place) (tokens : List LabelIndex) :
    Except Fault String := do
  let labels ← rawLabels m place tokens
  return "|".intercalate (labels.map fun label => toString label.toNat)

/-! ## §2. Paths. -/

/-- A path: tokens for a node, an edge, a node, …, a node. -/
structure MetaPath where
  tokens : List LabelIndex
  odd : tokens.length % 2 = 1
  deriving DecidableEq

namespace MetaPath

@[ext]
theorem ext {p q : MetaPath} (h : p.tokens = q.tokens) : p = q := by
  cases p; cases q; cases h; rfl

/-- The path of a walk that stays where it starts. -/
def single (node : LabelIndex) : MetaPath :=
  ⟨[node], rfl⟩

/-- The path with the given tokens, which must be odd in number. -/
def ofTokens (tokens : List LabelIndex) : Except Fault MetaPath :=
  if odd : tokens.length % 2 = 1 then .ok ⟨tokens, odd⟩
  else .error (.configuration (.tokenCount tokens.length))

/-- Tokens make the path that has them. -/
theorem ofTokens_eq_ok_iff {p : MetaPath} {tokens : List LabelIndex} :
    ofTokens tokens = .ok p ↔ p.tokens = tokens := by
  unfold ofTokens
  constructor
  · intro h
    split at h
    next =>
      injection h with h
      rw [← h]
    next => cases h
  · intro h
    subst h
    rw [dif_pos p.odd]

/-- The path with one hop more. -/
def extend (p : MetaPath) (edge node : LabelIndex) : MetaPath :=
  ⟨p.tokens ++ [edge, node], by simp [p.odd]⟩

@[simp]
theorem tokens_extend (p : MetaPath) (edge node : LabelIndex) :
    (p.extend edge node).tokens = p.tokens ++ [edge, node] := rfl

/-- The path with a run of pairs appended, which must be even in number of tokens. -/
def splice (p : MetaPath) (suffix : List LabelIndex) : Except Fault MetaPath :=
  if even : suffix.length % 2 = 0 then
    .ok ⟨p.tokens ++ suffix, by have := p.odd; simp only [List.length_append]; omega⟩
  else .error (.configuration (.suffixCount suffix.length))

/-- A suffix can be appended when there is a path for the result. -/
theorem splice_eq_ok_iff {p q : MetaPath} {s : List LabelIndex} :
    p.splice s = .ok q ↔ q.tokens = p.tokens ++ s := by
  unfold splice
  constructor
  · intro h
    split at h
    next =>
      injection h with h
      rw [← h]
    next => cases h
  · intro h
    have heven : s.length % 2 = 0 := by
      have hp := p.odd
      have hq := q.odd
      rw [h, List.length_append] at hq
      omega
    rw [dif_pos heven]
    exact congrArg Except.ok (ext h.symm)

theorem exists_splice_iff {p : MetaPath} {s : List LabelIndex} :
    (∃ q, p.splice s = .ok q) ↔ s.length % 2 = 0 := by
  unfold splice
  by_cases heven : s.length % 2 = 0 <;> simp [heven]

/-- How many tokens the path has. -/
def length (p : MetaPath) : Nat :=
  p.tokens.length

/-- How many edges the path crosses. -/
def hops (p : MetaPath) : Nat :=
  p.tokens.length / 2

theorem length_tokens (p : MetaPath) : p.tokens.length = 2 * p.hops + 1 := by
  have hodd := p.odd
  unfold hops
  omega

@[simp]
theorem hops_extend (p : MetaPath) (edge node : LabelIndex) :
    (p.extend edge node).hops = p.hops + 1 := by
  unfold hops
  rw [tokens_extend, List.length_append]
  show (p.tokens.length + 2) / 2 = _
  omega

theorem tokens_ne_nil (p : MetaPath) : p.tokens ≠ [] := by
  intro h
  have := p.odd
  simp [h] at this

/-- The label of the first node. -/
def first (p : MetaPath) : LabelIndex :=
  p.tokens.head p.tokens_ne_nil

/-- The label of the last node. -/
def last (p : MetaPath) : LabelIndex :=
  p.tokens.getLast p.tokens_ne_nil

/-- The path as raw labels with bars between them, the form that is kept in files. -/
def render (m : Mapping) (p : MetaPath) : Except Fault String :=
  renderTokens m .node p.tokens

/-- The path as dense indices with spaced bars between them. -/
def display (p : MetaPath) : String :=
  " | ".intercalate (p.tokens.map fun token => toString token.toNat)

/-! ## §3. The order of paths. -/

instance : Ord MetaPath :=
  ⟨compareOn tokens⟩

instance : Std.TransOrd MetaPath :=
  inferInstanceAs (Std.TransCmp (compareOn tokens))

instance : Std.LawfulEqOrd MetaPath where
  eq_of_compare h := ext (Std.LawfulEqOrd.eq_of_compare h)

end MetaPath

end LabelWalks
