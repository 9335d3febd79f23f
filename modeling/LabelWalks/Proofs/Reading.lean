/-
  LabelWalks.Proofs.Reading
  ─────────────────────────
  **A TEXT OF A PATH TELLS ITS TOKENS.**

  The labels of tokens and the tokens of labels are the same relation, read from
  either side, as long as nodes and edges alternate.  Numbers hold no bar and no
  blank, so what stands between the bars of a text are the labels, or the tokens,
  that were written.

    • `tokensOfLabels_eq_ok_iff` — tokens and labels,
    • `exists_render_iff` — which paths have a rendering,
    • `tokensOfRendering_of_render`, `tokensOfDisplay_display` — there and back,
    • `rendering_is_faithful` — all of this.
-/
import LabelWalks.Proofs.Search.Line

namespace LabelWalks

open Text

variable {m : Mapping}

/-! ## §1. Tokens and labels. -/

/-- The token of a raw label at a place. -/
def Place.token (place : Place) (m : Mapping) (label : Label) : Except Fault LabelIndex :=
  match place with
  | .node => m.nodeIndex label
  | .edge => m.edgeIndex label

/-- The tokens of labels that alternate; the first one stands at `place`. -/
def tokensOfLabels (m : Mapping) : Place → List Label → Except Fault (List LabelIndex)
  | _, [] => .ok []
  | place, label :: labels => do
    let token ← place.token m label
    let tokens ← tokensOfLabels m place.next labels
    return token :: tokens

theorem Place.token_eq_ok_iff {place : Place} {label : Label} {token : LabelIndex} :
    place.token m label = .ok token ↔ place.label m token = .ok label := by
  cases place with
  | node => exact Mapping.nodeLabel_eq_ok_iff.symm
  | edge => exact Mapping.edgeLabel_eq_ok_iff.symm

/-- **Labels have the tokens** whose labels they are. -/
theorem tokensOfLabels_eq_ok_iff {labels : List Label} : ∀ {place : Place} {tokens : List LabelIndex},
    tokensOfLabels m place labels = .ok tokens ↔ rawLabels m place tokens = .ok labels := by
  induction labels with
  | nil =>
      intro place tokens
      cases tokens with
      | nil => exact iff_of_true rfl rfl
      | cons token tokens =>
          refine iff_of_false (fun h => by cases h) fun h => ?_
          obtain ⟨label, -, rest, -, hcons⟩ := rawLabels_cons_eq_ok_iff.1 h
          cases hcons
  | cons label labels ih =>
      intro place tokens
      simp only [tokensOfLabels, bind_eq_ok_iff, pure_eq_ok_iff, Place.token_eq_ok_iff, ih]
      cases tokens with
      | nil =>
          refine iff_of_false (fun h => ?_) fun h => by cases h
          obtain ⟨token, -, rest, -, hcons⟩ := h
          cases hcons
      | cons token tokens =>
          rw [rawLabels_cons_eq_ok_iff]
          constructor
          · intro h
            obtain ⟨_, htoken, _, hrest, hcons⟩ := h
            obtain ⟨rfl, rfl⟩ := List.cons.inj hcons
            exact ⟨label, htoken, labels, hrest, rfl⟩
          · intro h
            obtain ⟨_, hlabel, _, hrest, hcons⟩ := h
            obtain ⟨rfl, rfl⟩ := List.cons.inj hcons
            exact ⟨token, hlabel, tokens, hrest, rfl⟩

/-- The dictionary for a place. -/
def Place.dictionary (m : Mapping) : Place → Dictionary
  | .node => m.nodes
  | .edge => m.edges

/-- What stands at a position of a path. -/
def Place.ofPosition (i : Nat) : Place :=
  if i % 2 = 0 then .node else .edge

theorem Place.next_ofPosition (i : Nat) : (ofPosition i).next = ofPosition (i + 1) := by
  unfold ofPosition
  rcases Nat.mod_two_eq_zero_or_one i with hi | hi
  · rw [if_pos hi, if_neg (by omega)]
    rfl
  · rw [if_neg (by omega), if_pos (by omega)]
    rfl

/-- A token stands for a label when the dictionary is as large. -/
theorem Place.exists_label_iff {place : Place} {token : LabelIndex} :
    (∃ label, place.label m token = .ok label) ↔ token.toNat < (place.dictionary m).size := by
  have hresolve : ∀ d : Dictionary, (∃ label, d.resolve? token = some label) ↔
      token.toNat < d.size := by
    intro d
    constructor
    · intro h
      obtain ⟨label, hlabel⟩ := h
      exact (Array.getElem?_eq_some_iff.1 hlabel).1
    · intro h
      exact ⟨_, Array.getElem?_eq_getElem h⟩
  rw [← hresolve]
  cases place with
  | node => exact exists_congr fun label => elim_error_eq_ok_iff
  | edge => exact exists_congr fun label => elim_error_eq_ok_iff

/-- **Tokens are registered** when each of them is, position by position. -/
theorem registered_iff_lt {tokens : List LabelIndex} : ∀ {k : Nat},
    Registered m (.ofPosition k) tokens ↔ ∀ i (hi : i < tokens.length),
      tokens[i].toNat < ((Place.ofPosition (k + i)).dictionary m).size := by
  induction tokens with
  | nil =>
      intro k
      exact iff_of_true trivial fun i hi => absurd hi (Nat.not_lt_zero i)
  | cons token tokens ih =>
      intro k
      show (∃ label, (Place.ofPosition k).label m token = .ok label)
        ∧ Registered m (Place.ofPosition k).next tokens ↔ _
      rw [Place.next_ofPosition, ih, Place.exists_label_iff]
      have hshift : ∀ i, k + (i + 1) = k + 1 + i := fun i => by omega
      constructor
      · intro h i hi
        cases i with
        | zero => exact h.1
        | succ i =>
            rw [hshift]
            exact h.2 i (Nat.lt_of_succ_lt_succ hi)
      · intro h
        refine ⟨h 0 (Nat.zero_lt_succ _), fun i hi => ?_⟩
        rw [← hshift]
        exact h (i + 1) (Nat.succ_lt_succ hi)

/-- **A path has a rendering** when its tokens at even positions are indices of node labels and
those at odd positions indices of edge labels. -/
theorem exists_render_iff {p : MetaPath} :
    (∃ text, p.render m = .ok text) ↔ ∀ i (hi : i < p.tokens.length),
      (i % 2 = 0 → p.tokens[i].toNat < m.nodes.size)
        ∧ (i % 2 = 1 → p.tokens[i].toNat < m.edges.size) := by
  show (∃ text, renderTokens m (.ofPosition 0) p.tokens = .ok text) ↔ _
  rw [exists_renderTokens_iff, registered_iff_lt]
  refine forall_congr' fun i => forall_congr' fun hi => ?_
  rw [Nat.zero_add]
  unfold Place.ofPosition
  rcases Nat.mod_two_eq_zero_or_one i with heven | hodd
  · rw [if_pos heven]
    exact ⟨fun h => ⟨fun _ => h, fun hodd => by omega⟩, fun h => h.1 heven⟩
  · rw [if_neg (by omega)]
    exact ⟨fun h => ⟨fun heven => by omega, fun _ => h⟩, fun h => h.2 hodd⟩

/-! ## §2. There and back. -/

/-- The tokens that a rendering tells: what stands between its bars are labels, which are looked
up as labels of nodes and of edges in turn. -/
def tokensOfRendering (m : Mapping) (text : String) : Option (List LabelIndex) := do
  let labels ← (split '|' text.toList).mapM word32?
  (tokensOfLabels m .node labels).toOption

/-- The tokens that the dense form of a path tells. -/
def tokensOfDisplay (text : String) : Option (List LabelIndex) :=
  (splitOn " | ".toList text.toList).mapM word16?

/-- Words that were written are read again one by one. -/
theorem mapM_words {ω : Type} {read : List Char → Option ω} {write : ω → String}
    (h : ∀ w, read (write w).toList = some w) (words : List ω) :
    (words.map fun w => (write w).toList).mapM read = some words := by
  apply mapM_eq_some_of_forall₂
  rw [List.forall₂_map_right_iff]
  exact List.forall₂_same.2 fun w _ => h w

/-- **A rendering tells its tokens.** -/
theorem tokensOfRendering_of_render {p : MetaPath} {text : String} (h : p.render m = .ok text) :
    tokensOfRendering m text = some p.tokens := by
  obtain ⟨labels, hlabels, rfl⟩ := MetaPath.render_eq_ok_iff.1 h
  have hne : labels.map (fun label => (toString label.toNat).toList) ≠ [] := by
    rw [Ne, List.map_eq_nil_iff, ← List.length_eq_zero_iff, length_of_rawLabels hlabels,
      List.length_eq_zero_iff]
    exact p.tokens_ne_nil
  have hsplit : split '|' ("|".intercalate (labels.map fun label => toString label.toNat)).toList
      = labels.map fun label => (toString label.toNat).toList := by
    rw [HubIndex.toList_intercalate_words]
    refine split_intercalate hne fun piece hpiece => ?_
    obtain ⟨label, -, rfl⟩ := List.mem_map.1 hpiece
    exact not_mem_toString (by decide)
  unfold tokensOfRendering
  rw [hsplit, mapM_words word32?_toString labels]
  show (tokensOfLabels m .node labels).toOption = some p.tokens
  rw [toOption_eq_some_iff, tokensOfLabels_eq_ok_iff]
  exact hlabels

/-- **The dense form tells its tokens.** -/
theorem tokensOfDisplay_display (p : MetaPath) : tokensOfDisplay p.display = some p.tokens := by
  have hne : p.tokens.map (fun token => (toString token.toNat).toList) ≠ [] := by
    rw [Ne, List.map_eq_nil_iff]
    exact p.tokens_ne_nil
  have hsplit : splitOn " | ".toList p.display.toList
      = p.tokens.map fun token => (toString token.toNat).toList := by
    unfold MetaPath.display
    rw [HubIndex.toList_intercalate_words]
    refine splitOn_intercalate hne fun piece hpiece => ?_
    obtain ⟨token, -, rfl⟩ := List.mem_map.1 hpiece
    exact not_mem_toString (by decide)
  unfold tokensOfDisplay
  rw [hsplit]
  exact mapM_words word16?_toString p.tokens

/-- **Rendering is faithful**, whatever was assigned to the dictionaries of the mapping.  A path
has a rendering just when its tokens are registered at their positions; the rendering and the
dense form tell the tokens, so that different paths differ in both. -/
theorem rendering_is_faithful (m : Mapping) (p : MetaPath) :
    ((∃ text, p.render m = .ok text) ↔ ∀ i (hi : i < p.tokens.length),
        (i % 2 = 0 → p.tokens[i].toNat < m.nodes.size)
          ∧ (i % 2 = 1 → p.tokens[i].toNat < m.edges.size))
      ∧ (∀ text, p.render m = .ok text → tokensOfRendering m text = some p.tokens)
      ∧ tokensOfDisplay p.display = some p.tokens
      ∧ ∀ q, q ≠ p → q.display ≠ p.display
        ∧ ∀ text, p.render m = .ok text → q.render m ≠ .ok text := by
  refine ⟨exists_render_iff, fun text => tokensOfRendering_of_render, tokensOfDisplay_display p,
    fun q hne => ⟨fun hsame => hne ?_, fun text hp hq => hne (MetaPath.eq_of_render_eq hq hp)⟩⟩
  have hq := tokensOfDisplay_display q
  rw [hsame, tokensOfDisplay_display p] at hq
  exact MetaPath.ext (Option.some.inj hq).symm

/-- The path over an edge of `twins`, in both forms and back. -/
theorem rendering_is_faithful_twins :
    ∃ text, (⟨[0, 0, 1], rfl⟩ : MetaPath).render twinLabels = .ok text
      ∧ tokensOfRendering twinLabels text = some [0, 0, 1]
      ∧ (⟨[1, 0, 0], rfl⟩ : MetaPath).render twinLabels ≠ .ok text := by
  obtain ⟨hexists, hread, -, hdiffer⟩ := rendering_is_faithful twinLabels ⟨[0, 0, 1], rfl⟩
  have hnodes : twinLabels.nodes.size = 2 := by decide +kernel
  have hedges : twinLabels.edges.size = 1 := by decide +kernel
  obtain ⟨text, htext⟩ := hexists.2 (by
    rw [hnodes, hedges]
    decide)
  refine ⟨text, htext, hread text htext, (hdiffer ⟨[1, 0, 0], rfl⟩ ?_).2 text htext⟩
  decide

end LabelWalks
