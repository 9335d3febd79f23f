/-
  LabelWalks.Proofs.Recoding.Tokens
  ─────────────────────────────────
  **THE SAME LABELS UNDER OTHER DENSE INDICES.**

  Which index a label has depends on the order in which labels came to a dictionary.
  Two mappings give different tokens to the same labels, and what is to be the same
  under both can only be told by the labels.  As no two tokens of a mapping stand for
  one label, the tokens under the one determine those under the other.

    • `SameLabels` — tokens under two mappings for the same labels,
    • `SameLabels.eq_iff` — different tokens stand for different labels,
    • `sameLabels_cons`, `sameLabels_append_pair` — runs of tokens,
    • `SameLabels.render_eq` — what is written is the same.
-/
import LabelWalks.Proofs.Search.Line

namespace LabelWalks

/-- Tokens under one mapping and under another that stand for the same labels. -/
def SameLabels (m m' : Mapping) (place : Place) (tokens tokens' : List LabelIndex) : Prop :=
  ∃ labels, rawLabels m place tokens = .ok labels ∧ rawLabels m' place tokens' = .ok labels

/-! ## §1. Labels tell the tokens. -/

theorem Place.label_injective {m : Mapping} {place : Place} {token token' : LabelIndex}
    {label : Label} (h : place.label m token = .ok label) (h' : place.label m token' = .ok label) :
    token = token' := by
  cases place with
  | node =>
      have hindex := Mapping.nodeLabel_eq_ok_iff.1 h
      rw [Mapping.nodeLabel_eq_ok_iff.1 h'] at hindex
      exact (Except.ok.inj hindex).symm
  | edge =>
      have hindex := Mapping.edgeLabel_eq_ok_iff.1 h
      rw [Mapping.edgeLabel_eq_ok_iff.1 h'] at hindex
      exact (Except.ok.inj hindex).symm

/-- **Different tokens stand for different labels.** -/
theorem rawLabels_injective {m : Mapping} {tokens : List LabelIndex} :
    ∀ {place : Place} {tokens' : List LabelIndex} {labels : List Label},
      rawLabels m place tokens = .ok labels → rawLabels m place tokens' = .ok labels →
      tokens = tokens' := by
  -- on the tokens, with the place left open: the two dictionaries are asked by turns
  induction tokens with
  | nil =>
      intro place tokens' labels h h'
      injection h with h
      subst h
      exact (List.length_eq_zero_iff.1 (length_of_rawLabels h').symm).symm
  | cons token tokens ih =>
      intro place tokens' labels h h'
      obtain ⟨label, hlabel, rest, hrest, rfl⟩ := rawLabels_cons_eq_ok_iff.1 h
      cases tokens' with
      | nil => cases length_of_rawLabels h'
      | cons token' tokens' =>
          obtain ⟨label', hlabel', rest', hrest', hsame⟩ := rawLabels_cons_eq_ok_iff.1 h'
          obtain ⟨rfl, rfl⟩ := List.cons.inj hsame
          rw [Place.label_injective hlabel hlabel', ih hrest hrest']

namespace SameLabels

variable {m m' : Mapping} {place : Place} {tokens tokens' : List LabelIndex}

theorem symm (h : SameLabels m m' place tokens tokens') :
    SameLabels m' m place tokens' tokens := by
  obtain ⟨labels, hlabels, hlabels'⟩ := h
  exact ⟨labels, hlabels', hlabels⟩

theorem length_eq (h : SameLabels m m' place tokens tokens') : tokens'.length = tokens.length := by
  obtain ⟨labels, hlabels, hlabels'⟩ := h
  rw [← length_of_rawLabels hlabels, length_of_rawLabels hlabels']

theorem registered (h : SameLabels m m' place tokens tokens') : Registered m place tokens := by
  obtain ⟨labels, hlabels, -⟩ := h
  exact (exists_rawLabels_iff tokens).1 ⟨labels, hlabels⟩

/-- The tokens under one mapping determine those under the other. -/
theorem unique {other : List LabelIndex} (h : SameLabels m m' place tokens tokens')
    (hother : SameLabels m m' place tokens other) : tokens' = other := by
  obtain ⟨labels, hlabels, hlabels'⟩ := h
  obtain ⟨_, hsame, hother⟩ := hother
  rw [hlabels] at hsame
  obtain rfl := Except.ok.inj hsame
  exact rawLabels_injective hlabels' hother

/-- **Two runs of tokens are the same** under both mappings or under neither. -/
theorem eq_iff {other other' : List LabelIndex} (h : SameLabels m m' place tokens tokens')
    (hother : SameLabels m m' place other other') : tokens = other ↔ tokens' = other' := by
  constructor
  · intro hsame
    subst hsame
    exact h.unique hother
  · intro hsame
    subst hsame
    exact h.symm.unique hother.symm

/-- **What is written** is the same. -/
theorem render_eq (h : SameLabels m m' place tokens tokens') :
    renderTokens m place tokens = renderTokens m' place tokens' := by
  obtain ⟨labels, hlabels, hlabels'⟩ := h
  unfold renderTokens
  rw [hlabels, hlabels']

end SameLabels

/-! ## §2. Runs of tokens. -/

section
variable {m m' : Mapping} {place : Place} {s s' : List LabelIndex} {x y x' y' : LabelIndex}

theorem sameLabels_nil : SameLabels m m' place [] [] :=
  ⟨[], rfl, rfl⟩

/-- Runs that start with a token each. -/
theorem sameLabels_cons :
    SameLabels m m' place (x :: s) (x' :: s') ↔
      (∃ label, place.label m x = .ok label ∧ place.label m' x' = .ok label)
        ∧ SameLabels m m' place.next s s' := by
  unfold SameLabels
  simp only [rawLabels_cons_eq_ok_iff]
  constructor
  · intro h
    obtain ⟨_, ⟨label, hx, rest, hs, rfl⟩, label', hx', rest', hs', hsame⟩ := h
    obtain ⟨rfl, rfl⟩ := List.cons.inj hsame
    exact ⟨⟨label', hx, hx'⟩, rest', hs, hs'⟩
  · intro h
    obtain ⟨⟨label, hx, hx'⟩, rest, hs, hs'⟩ := h
    exact ⟨label :: rest, ⟨label, hx, rest, hs, rfl⟩, label, hx', rest, hs', rfl⟩

/-- After pairs of tokens the same place comes again. -/
theorem sameLabels_append_pair :
    SameLabels m m' place ([x, y] ++ s) ([x', y'] ++ s') ↔
      SameLabels m m' place [x, y] [x', y'] ∧ SameLabels m m' place s s' := by
  -- behind a pair the same dictionary is asked again
  have hplace : place.next.next = place := by cases place <;> rfl
  show SameLabels m m' place (x :: y :: s) (x' :: y' :: s') ↔ _
  simp only [sameLabels_cons, hplace, sameLabels_nil, and_true, and_assoc]

end

/-! ## §3. Paths. -/

/-- A path under one mapping and a path under another for the same labels. -/
def MetaPath.Recoded (m m' : Mapping) (p p' : MetaPath) : Prop :=
  SameLabels m m' .node p.tokens p'.tokens

/-- Tokens of a path under the other mapping make a path. -/
theorem MetaPath.exists_recoded {m m' : Mapping} {p : MetaPath} {tokens' : List LabelIndex}
    (h : SameLabels m m' .node p.tokens tokens') :
    ∃ p' : MetaPath, p'.tokens = tokens' ∧ p.Recoded m m' p' := by
  have hodd : tokens'.length % 2 = 1 := by
    rw [h.length_eq]
    exact p.odd
  exact ⟨⟨tokens', hodd⟩, rfl, h⟩

namespace MetaPath.Recoded

variable {m m' : Mapping} {p p' q q' : MetaPath}

theorem symm (h : p.Recoded m m' p') : p'.Recoded m' m p :=
  SameLabels.symm h

theorem eq_iff (hp : p.Recoded m m' p') (hq : q.Recoded m m' q') : p = q ↔ p' = q' := by
  rw [MetaPath.ext_iff, MetaPath.ext_iff]
  exact SameLabels.eq_iff hp hq

theorem unique (hp : p.Recoded m m' p') (hq : p.Recoded m m' q') : p' = q' :=
  (eq_iff hp hq).1 rfl

theorem hops_eq (h : p.Recoded m m' p') : p'.hops = p.hops :=
  congrArg (· / 2) (SameLabels.length_eq h)

theorem render_eq (h : p.Recoded m m' p') : p.render m = p'.render m' :=
  SameLabels.render_eq h

end MetaPath.Recoded

end LabelWalks
