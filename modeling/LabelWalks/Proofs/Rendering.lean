/-
  LabelWalks.Proofs.Rendering
  ───────────────────────────
  **TOKENS AND THE LABELS THEY STAND FOR.**

  The two dictionaries of a mapping are bijections, so a token that was looked up
  for a label stands for that label.  Tokens are rendered when each of them is
  registered at its place, and all tokens that a walk adds are.

    • `nodeLabel_eq_ok_iff`, `edgeLabel_eq_ok_iff` — one token,
    • `exists_rawLabels_iff` — a run of tokens,
    • `tokensOf_of_rawLabels` — there and back for pairs of tokens,
    • `IsWalk.registered` — the tokens of a walk.
-/
import LabelWalks.HubIndex.Reader
import LabelWalks.Proofs.Walk

namespace LabelWalks

/-! ## §1. One token. -/

theorem Mapping.nodeLabel_eq_ok_iff {m : Mapping} {index : LabelIndex} {label : Label} :
    m.nodeLabel index = .ok label ↔ m.nodeIndex label = .ok index := by
  unfold nodeLabel nodeIndex
  rw [elim_error_eq_ok_iff, elim_error_eq_ok_iff, m.nodes.indexOf?_eq_some_iff]

theorem Mapping.edgeLabel_eq_ok_iff {m : Mapping} {index : LabelIndex} {label : Label} :
    m.edgeLabel index = .ok label ↔ m.edgeIndex label = .ok index := by
  unfold edgeLabel edgeIndex
  rw [elim_error_eq_ok_iff, elim_error_eq_ok_iff, m.edges.indexOf?_eq_some_iff]

/-- A node with a dense label has a label that the dense one stands for. -/
theorem Mapping.exists_label_of_indexOfNode {m : Mapping} {g : GraphView} {v : NodeId}
    {index : LabelIndex} (h : m.indexOfNode g v = .ok index) :
    ∃ label, g.labelOf v = some label ∧ m.nodeLabel index = .ok label := by
  unfold indexOfNode at h
  cases hlabel : g.labelOf v with
  | none =>
      rw [hlabel] at h
      cases h
  | some label =>
      rw [hlabel] at h
      exact ⟨label, rfl, nodeLabel_eq_ok_iff.2 h⟩

theorem Mapping.exists_nodeLabel_of_indexOfNode {m : Mapping} {g : GraphView} {v : NodeId}
    {index : LabelIndex} (h : m.indexOfNode g v = .ok index) :
    ∃ label, m.nodeLabel index = .ok label := by
  obtain ⟨label, -, hlabel⟩ := exists_label_of_indexOfNode h
  exact ⟨label, hlabel⟩

theorem Mapping.exists_labelOf_of_indexOfNode {m : Mapping} {g : GraphView} {v : NodeId}
    {index : LabelIndex} (h : m.indexOfNode g v = .ok index) :
    ∃ label, g.labelOf v = some label := by
  obtain ⟨label, hlabel, -⟩ := exists_label_of_indexOfNode h
  exact ⟨label, hlabel⟩

/-! ## §2. Runs of tokens. -/

/-- Each token stands for a label at its place; the first one is at `place`. -/
def Registered (m : Mapping) : Place → List LabelIndex → Prop
  | _, [] => True
  | place, token :: tokens =>
    (∃ label, place.label m token = .ok label) ∧ Registered m place.next tokens

/-- Labels are found for tokens one after another. -/
theorem rawLabels_cons_eq_ok_iff {m : Mapping} {place : Place} {token : LabelIndex}
    {tokens : List LabelIndex} {labels : List Label} :
    rawLabels m place (token :: tokens) = .ok labels ↔
      ∃ label, place.label m token = .ok label ∧ ∃ rest, rawLabels m place.next tokens = .ok rest
        ∧ label :: rest = labels := by
  simp only [rawLabels, bind_eq_ok_iff, pure_eq_ok_iff]

/-- **Tokens have labels** just when each of them is registered at its place. -/
theorem exists_rawLabels_iff {m : Mapping} (tokens : List LabelIndex) :
    ∀ {place : Place}, (∃ labels, rawLabels m place tokens = .ok labels) ↔
      Registered m place tokens := by
  induction tokens with
  | nil =>
      intro place
      exact ⟨fun _ => trivial, fun _ => ⟨[], rfl⟩⟩
  | cons token tokens ih =>
      intro place
      simp only [rawLabels_cons_eq_ok_iff]
      show _ ↔ (∃ label, place.label m token = .ok label) ∧ Registered m place.next tokens
      rw [← ih]
      constructor
      · intro h
        obtain ⟨labels, label, hlabel, rest, hrest, -⟩ := h
        exact ⟨⟨label, hlabel⟩, rest, hrest⟩
      · intro h
        obtain ⟨⟨label, hlabel⟩, rest, hrest⟩ := h
        exact ⟨_, label, hlabel, rest, hrest, rfl⟩

theorem length_of_rawLabels {m : Mapping} {tokens : List LabelIndex} :
    ∀ {place : Place} {labels : List Label}, rawLabels m place tokens = .ok labels →
      labels.length = tokens.length := by
  induction tokens with
  | nil =>
      intro place labels h
      injection h with h
      exact congrArg List.length h.symm
  | cons token tokens ih =>
      intro place labels h
      obtain ⟨label, -, rest, hrest, rfl⟩ := rawLabels_cons_eq_ok_iff.1 h
      rw [List.length_cons, List.length_cons, ih hrest]

theorem renderTokens_eq_ok_iff {m : Mapping} {place : Place} {tokens : List LabelIndex}
    {text : String} :
    renderTokens m place tokens = .ok text ↔
      ∃ labels, rawLabels m place tokens = .ok labels
        ∧ "|".intercalate (labels.map fun label => toString label.toNat) = text := by
  simp only [renderTokens, bind_eq_ok_iff, pure_eq_ok_iff]

theorem exists_renderTokens_iff {m : Mapping} {place : Place} {tokens : List LabelIndex} :
    (∃ text, renderTokens m place tokens = .ok text) ↔ Registered m place tokens := by
  simp only [← exists_rawLabels_iff, renderTokens_eq_ok_iff]
  constructor
  · intro hsome
    obtain ⟨text, labels, h, -⟩ := hsome
    exact ⟨labels, h⟩
  · intro hsome
    obtain ⟨labels, h⟩ := hsome
    exact ⟨_, labels, h, rfl⟩

/-- After pairs of tokens the same place comes again. -/
theorem registered_append_pair {m : Mapping} {place : Place} {x y : LabelIndex}
    {tokens : List LabelIndex} :
    Registered m place ([x, y] ++ tokens) ↔
      Registered m place [x, y] ∧ Registered m place tokens := by
  have hplace : place.next.next = place := by cases place <;> rfl
  show (∃ label, place.label m x = .ok label) ∧ (∃ label, place.next.label m y = .ok label)
    ∧ Registered m place.next.next tokens ↔ _
  rw [hplace]
  simp only [Registered, and_true, and_assoc]

/-- Tokens in ascending order are in the order of the first two that differ, the shorter run
first when there are none. -/
theorem compare_tokens_eq_lt_iff {s t : List LabelIndex} : compare s t = .lt ↔ s < t := by
  induction s generalizing t with
  | nil => cases t <;> simp
  | cons x s ih =>
      cases t with
      | nil => simp
      | cons y t =>
          rw [List.compare_eq_compareLex] at ih ⊢
          rw [List.compareLex_cons_cons, Ordering.then_eq_lt, ih, List.cons_lt_cons_iff,
            Std.compare_eq_lt, Std.LawfulEqOrd.compare_eq_iff_eq]

/-! ## §3. Labels for pairs of tokens, and back. -/

/-- **Reading back what was rendered**: the labels of pairs of tokens have these tokens. -/
theorem tokensOf_of_rawLabels {m : Mapping} :
    ∀ {tokens : List LabelIndex} {labels : List Label}, tokens.length % 2 = 0 →
      rawLabels m .edge tokens = .ok labels → HubIndex.tokensOf m labels = .ok tokens
  | [], labels, _, h => by
      injection h with h
      subst h
      rfl
  | [_], _, heven, _ => by cases heven
  | e :: n :: tokens, labels, heven, h => by
      obtain ⟨edge, hedge, labels', h', rfl⟩ := rawLabels_cons_eq_ok_iff.1 h
      obtain ⟨node, hnode, rest, hrest, rfl⟩ := rawLabels_cons_eq_ok_iff.1 h'
      have heven' : tokens.length % 2 = 0 := by
        simp only [List.length_cons] at heven
        omega
      simp only [HubIndex.tokensOf, bind_eq_ok_iff, pure_eq_ok_iff]
      refine ⟨e, ?_, n, ?_, tokens, ?_, rfl⟩
      · exact Mapping.edgeLabel_eq_ok_iff.1 hedge
      · exact Mapping.nodeLabel_eq_ok_iff.1 hnode
      · exact tokensOf_of_rawLabels heven' hrest

/-! ## §4. Tokens of walks. -/

theorem Arrives.registered {g : GraphView} {m : Mapping} {v : NodeId} {a : Arrival}
    (h : Arrives g m v a) : Registered m .edge a.hop.tokens := by
  obtain ⟨entries, -, label, -, hedge, hnode⟩ := h
  refine ⟨⟨label, Mapping.edgeLabel_eq_ok_iff.2 hedge⟩, ?_, trivial⟩
  exact Mapping.exists_nodeLabel_of_indexOfNode hnode

/-- **All tokens that a walk adds are registered.** -/
theorem IsWalk.registered {g : GraphView} {m : Mapping} {v : NodeId} {as : List Arrival}
    (h : IsWalk g m v as) : Registered m .edge (hopTokens as) := by
  induction h with
  | stay v => trivial
  | step first rest ih => exact registered_append_pair.2 ⟨first.registered, ih⟩

theorem EndsAt.registered {g : GraphView} {m : Mapping} {v w : NodeId} {s : Suffix}
    (h : EndsAt g m v s w) : Registered m .edge s := by
  obtain ⟨as, hwalk, rfl, -⟩ := h
  exact hwalk.registered

end LabelWalks
