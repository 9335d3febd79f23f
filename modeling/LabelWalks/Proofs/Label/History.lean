/-
  LabelWalks.Proofs.Label.History
  ───────────────────────────────
  **WHAT A DICTIONARY KEEPS OF ALL THAT WAS ASKED OF IT.**

  A dictionary is asked for the indices of labels, one after another, old ones and
  new ones, and also when it is full.  What it has afterwards is told from the calls:
  the labels in the order in which they first came, as many as there are indices for.
  All else follows, and in particular that nothing is ever taken back.

    • `assign_known`, `assign_new`, `assign_full` — what one call can do,
    • `labels_after` — what there is after all calls,
    • `Faithful`, `faithful_and_ordered` — all that can be asked of a dictionary,
    • `ofLabels_eq_ok_iff`, `Mapping.ofView_eq_ok_iff` — the dictionaries that get made.
-/
import LabelWalks.Proofs.Walk

namespace LabelWalks

/-- A list with one more member keeps one member more if that one is new. -/
theorem eraseDups_concat {α : Type} [BEq α] [LawfulBEq α] (xs : List α) (x : α) :
    (xs ++ [x]).eraseDups = if x ∈ xs then xs.eraseDups else xs.eraseDups ++ [x] := by
  rw [List.eraseDups_append, List.removeAll]
  by_cases hx : x ∈ xs
  · simp [hx]
  · simp [hx, List.eraseDups_cons]

/-- A list without repetitions keeps all its members. -/
theorem eraseDups_of_nodup {α : Type} [BEq α] [LawfulBEq α] (xs : List α) (h : xs.Nodup) :
    xs.eraseDups = xs := by
  induction xs using List.reverseRecOn with
  | nil => rfl
  | append_singleton xs x ih =>
      obtain ⟨hxs, -, hnew⟩ := List.nodup_append.1 h
      have hx : x ∉ xs := fun hx => hnew x hx x (List.mem_singleton_self x) rfl
      rw [eraseDups_concat, if_neg hx, ih hxs]

namespace Dictionary

/-! ## §1. One call. -/

section
variable {d : Dictionary} {label : Label} {index : LabelIndex}

/-- A known label has its index, and nothing changes. -/
theorem assign_known (h : d.indexOf? label = some index) : d.assign label = (d, .ok index) := by
  unfold assign
  split
  · next i hi =>
      rw [h] at hi
      injection hi with hi
      rw [hi]
  · next hi =>
      rw [h] at hi
      cases hi

/-- A new label, when there is room, has the next index and comes last. -/
theorem assign_new (h : d.indexOf? label = none) (room : d.size < maxLabels) :
    (d.assign label).1.labels = d.labels.push label
      ∧ (d.assign label).2 = .ok (UInt16.ofNat d.size) := by
  unfold assign
  split
  · next i hi =>
      rw [h] at hi
      cases hi
  · rw [dif_pos room]
    exact ⟨rfl, rfl⟩

/-- A new label, when there is no room, has no index, and nothing changes. -/
theorem assign_full (h : d.indexOf? label = none) (full : d.size = maxLabels) :
    d.assign label = (d, .error (.configuration .dictionaryFull)) := by
  unfold assign
  split
  · next i hi =>
      rw [h] at hi
      cases hi
  · rw [dif_neg (by omega)]

/-- A dictionary has room or is full. -/
theorem size_lt_or_eq (d : Dictionary) : d.size < maxLabels ∨ d.size = maxLabels :=
  Nat.lt_or_eq_of_le d.bounded

/-- The labels of a dictionary are those that it has an index for. -/
theorem mem_labels_iff : label ∈ d.labels.toList ↔ ∃ index, d.indexOf? label = some index := by
  simp only [indexOf?_eq_some_iff, resolve?]
  constructor
  · intro h
    obtain ⟨k, hk, hlabel⟩ := List.getElem_of_mem h
    rw [Array.length_toList] at hk
    have hindex : (UInt16.ofNat k).toNat = k :=
      UInt16.toNat_ofNat_of_lt' (Nat.lt_of_lt_of_le hk d.bounded)
    refine ⟨UInt16.ofNat k, ?_⟩
    rw [hindex, Array.getElem?_eq_getElem hk, ← hlabel, Array.getElem_toList]
  · intro h
    obtain ⟨i, hi⟩ := h
    exact Array.mem_toList_iff.2 (Array.mem_of_getElem? hi)

theorem indexOf?_eq_none_iff : d.indexOf? label = none ↔ label ∉ d.labels.toList := by
  rw [mem_labels_iff, Option.eq_none_iff_forall_ne_some, not_exists]

/-- **Why a call fails**: the label is new, and there is no index left. -/
theorem assign_eq_error_iff {fault : Fault} :
    (d.assign label).2 = .error fault ↔
      d.indexOf? label = none ∧ d.size = maxLabels ∧ fault = .configuration .dictionaryFull := by
  cases h : d.indexOf? label with
  | some i => simp [assign_known h]
  | none =>
      rcases d.size_lt_or_eq with room | full
      · simp [(assign_new h room).2, Nat.ne_of_lt room]
      · simp [assign_full h full, full, eq_comm]

/-- After a call that gave an index, the label has that index. -/
theorem indexOf?_assign (h : (d.assign label).2 = .ok index) :
    (d.assign label).1.indexOf? label = some index := by
  cases hd : d.indexOf? label with
  | some i =>
      rw [assign_known hd] at h ⊢
      injection h with h
      rw [← h]
      exact hd
  | none =>
      rcases d.size_lt_or_eq with room | full
      · obtain ⟨hlabels, hindex⟩ := assign_new hd room
        rw [hindex] at h
        injection h with h
        have hsize : index.toNat = d.labels.size := by
          rw [← h]
          exact UInt16.toNat_ofNat_of_lt' room
        rw [indexOf?_eq_some_iff, resolve?, hlabels, hsize, Array.getElem?_push_size]
      · rw [assign_full hd full] at h
        cases h

/-- **A call takes nothing back**: what stood at an index stands there still. -/
theorem resolve?_assign (h : d.resolve? index = some label) (next : Label) :
    (d.assign next).1.resolve? index = some label := by
  cases hd : d.indexOf? next with
  | some i =>
      rw [assign_known hd]
      exact h
  | none =>
      rcases d.size_lt_or_eq with room | full
      · have hlt : index.toNat < d.labels.size := (Array.getElem?_eq_some_iff.1 h).1
        rw [resolve?, (assign_new hd room).1, Array.getElem?_push, if_neg (by omega)]
        exact h
      · rw [assign_full hd full]
        exact h

end

/-! ## §2. All calls. -/

/-- The dictionary after calls, one after another from the one without a label; a call that
fails is a call as well. -/
def after (calls : List Label) : Dictionary :=
  calls.foldl (fun d label => (d.assign label).1) empty

theorem after_concat (calls : List Label) (label : Label) :
    after (calls ++ [label]) = ((after calls).assign label).1 := by
  unfold after
  rw [List.foldl_append]
  rfl

/-- **The labels after all calls**: in the order in which they first came, as many as there
are indices for. -/
theorem labels_after (calls : List Label) :
    (after calls).labels.toList = calls.eraseDups.take maxLabels := by
  -- from the end, where the last call was made
  induction calls using List.reverseRecOn with
  | nil => rfl
  | append_singleton calls label ih =>
      have hsize : (after calls).size = (calls.eraseDups.take maxLabels).length := by
        rw [← ih]
        exact Array.length_toList.symm
      rw [List.length_take] at hsize
      rw [after_concat, eraseDups_concat]
      cases h : (after calls).indexOf? label with
      | some i =>
          have hmem : label ∈ calls.eraseDups := by
            refine List.mem_of_mem_take (?_ : label ∈ calls.eraseDups.take maxLabels)
            rw [← ih]
            exact mem_labels_iff.2 ⟨i, h⟩
          rw [assign_known h, if_pos (List.mem_eraseDups.1 hmem)]
          exact ih
      | none =>
          rw [indexOf?_eq_none_iff, ih] at h
          rcases (after calls).size_lt_or_eq with room | full
          · -- all labels fit so far, and so the label did not come before
            have hfit : calls.eraseDups.length ≤ maxLabels := by omega
            rw [List.take_of_length_le hfit] at h ih
            have hnew : label ∉ calls := fun hin => h (List.mem_eraseDups.2 hin)
            have hnone : (after calls).indexOf? label = none := by
              rw [indexOf?_eq_none_iff, ih]
              exact h
            rw [(assign_new hnone room).1, if_neg hnew, Array.toList_push, ih,
              List.take_of_length_le (by rw [List.length_append, List.length_singleton]; omega)]
          · -- the first labels are the same, whether or not one more follows
            have hnone : (after calls).indexOf? label = none := by
              rw [indexOf?_eq_none_iff, ih]
              exact h
            have hfull : maxLabels ≤ calls.eraseDups.length := by omega
            rw [assign_full hnone full, ih]
            by_cases hin : label ∈ calls
            · rw [if_pos hin]
            · rw [if_neg hin, List.take_append_of_le_length hfull]

theorem size_after (calls : List Label) :
    (after calls).size = min calls.eraseDups.length maxLabels := by
  have h := congrArg List.length (labels_after calls)
  rw [List.length_take, Array.length_toList] at h
  rw [size, h, Nat.min_comm]

/-- The label at an index is the one that came after so many other labels. -/
theorem resolve?_after (calls : List Label) (index : LabelIndex) :
    (after calls).resolve? index = calls.eraseDups[index.toNat]? := by
  have hindex : index.toNat < maxLabels := index.toNat_lt
  rw [resolve?, ← Array.getElem?_toList, labels_after, List.getElem?_take_of_lt hindex]

/-- **What has an index keeps it**, whatever is called next. -/
theorem resolve?_after_append {calls : List Label} {label : Label} {index : LabelIndex}
    (h : (after calls).resolve? index = some label) (more : List Label) :
    (after (calls ++ more)).resolve? index = some label := by
  induction more using List.reverseRecOn with
  | nil =>
      rw [List.append_nil]
      exact h
  | append_singleton more next ih =>
      rw [← List.append_assoc, after_concat]
      exact resolve?_assign ih next

/-! ## §3. Dictionaries that are made of a list. -/

theorem assignAll_concat (labels : List Label) (label : Label) :
    ∀ d : Dictionary, d.assignAll (labels ++ [label]) =
      match d.assignAll labels with
      | (d, some fault) => (d, some fault)
      | (d, none) => ((d.assign label).1, match (d.assign label).2 with
        | .ok _ => none
        | .error fault => some fault) := by
  induction labels with
  | nil =>
      intro d
      simp only [List.nil_append, assignAll]
      split
      · next h => rw [h]
      · next h => rw [h]
  | cons l labels ih =>
      intro d
      simp only [List.cons_append, assignAll]
      split
      · exact ih _
      · rfl

/-- A call fails after labels that all have room just when its label has none. -/
theorem assign_after_fails_iff {labels : List Label} (hfit : labels.eraseDups.length ≤ maxLabels)
    (label : Label) :
    (∃ fault, ((after labels).assign label).2 = .error fault) ↔
      maxLabels < (labels ++ [label]).eraseDups.length := by
  have hsize : (after labels).size = labels.eraseDups.length := by
    rw [size_after, Nat.min_eq_left hfit]
  simp only [assign_eq_error_iff, indexOf?_eq_none_iff, labels_after, hsize,
    List.take_of_length_le hfit, List.mem_eraseDups, eraseDups_concat]
  by_cases hin : label ∈ labels
  · simp [hin, hfit]
  · rw [if_neg hin, List.length_append, List.length_singleton]
    simp only [hin, not_false_eq_true, true_and, exists_and_left, exists_eq, and_true]
    omega

/-- All labels of a list get an index just when there are enough indices. -/
theorem assignAll_empty (labels : List Label) :
    if labels.eraseDups.length ≤ maxLabels then empty.assignAll labels = (after labels, none)
    else (empty.assignAll labels).2 ≠ none := by
  induction labels using List.reverseRecOn with
  | nil => rfl
  | append_singleton labels label ih =>
      have hlength : labels.eraseDups.length ≤ (labels ++ [label]).eraseDups.length := by
        rw [eraseDups_concat]
        split
        · exact Nat.le_refl _
        · simp
      by_cases hfit : labels.eraseDups.length ≤ maxLabels
      · -- all went well so far, and the last call decides
        have hlast := assign_after_fails_iff hfit label
        rw [if_pos hfit] at ih
        simp only [assignAll_concat, ih, after_concat]
        cases hanswer : ((after labels).assign label).2 with
        | ok index =>
            have hroom : (labels ++ [label]).eraseDups.length ≤ maxLabels := by
              by_contra hlong
              obtain ⟨fault, hfault⟩ := hlast.2 (Nat.not_le.1 hlong)
              rw [hanswer] at hfault
              cases hfault
            rw [if_pos hroom]
        | error fault =>
            have hlong := hlast.1 ⟨fault, hanswer⟩
            rw [if_neg (Nat.not_le.2 hlong)]
            simp
      · -- it went wrong before
        rw [if_neg hfit] at ih
        rw [if_neg (by omega), assignAll_concat]
        split
        · simp
        · next h =>
            rw [h] at ih
            exact absurd rfl ih

/-- **The dictionary of a list** is the one after its labels, when they all have room. -/
theorem ofLabels_eq_ok_iff {labels : List Label} {d : Dictionary} :
    ofLabels labels = .ok d ↔ labels.eraseDups.length ≤ maxLabels ∧ d = after labels := by
  have h := assignAll_empty labels
  unfold ofLabels
  split at h
  · next hfit => simp [h, hfit, eq_comm]
  · next hfit =>
      simp only [hfit, false_and, iff_false]
      split
      · next hnone => exact absurd (congrArg Prod.snd hnone) h
      · simp

/-! ## §4. All that can be asked of a dictionary. -/

/-- Labels are in the same order as their indices. -/
def Ordered (d : Dictionary) : Prop :=
  ∀ ⦃l l' : Label⦄ ⦃i i' : LabelIndex⦄,
    d.indexOf? l = some i → d.indexOf? l' = some i' → (l < l' ↔ i < i')

/-- What holds of a dictionary after calls, whatever they were. -/
structure Faithful (calls : List Label) : Prop where
  /-- The two ways round agree. -/
  inverse : ∀ label index,
    (after calls).indexOf? label = some index ↔ (after calls).resolve? index = some label
  /-- Labels stand in the order in which they first came. -/
  order : ∀ index, (after calls).resolve? index = calls.eraseDups[index.toNat]?
  /-- There are as many labels as came, or as there are indices for. -/
  size : (after calls).size = min calls.eraseDups.length 65536
  /-- The indices in use are those below the number of labels. -/
  used : ∀ index,
    (∃ label, (after calls).indexOf? label = some index) ↔ index.toNat < (after calls).size
  /-- An index stays with its label, whatever is called next. -/
  kept : ∀ label index, (after calls).indexOf? label = some index →
    ∀ more, (after (calls ++ more)).indexOf? label = some index
      ∧ (after (calls ++ more)).resolve? index = some label
      ∧ (after (calls ++ more)).assign label = (after (calls ++ more), .ok index)
  /-- The index that a call gives is the one that the label has from then on. -/
  given : ∀ label index, ((after calls).assign label).2 = .ok index →
    ∀ more, (after (calls ++ label :: more)).indexOf? label = some index
  /-- A new label gets the next index when there is one. -/
  next : ∀ label, (after calls).indexOf? label = none → (after calls).size < 65536 →
    ∃ index, ((after calls).assign label).2 = .ok index ∧ index.toNat = (after calls).size
  /-- A call fails just when the label is new and all indices are in use. -/
  fails : ∀ label, (∃ fault, ((after calls).assign label).2 = .error fault) ↔
    (after calls).indexOf? label = none ∧ (after calls).size = 65536
  /-- A call that fails changes nothing, and what it reports is that the dictionary is full. -/
  unchanged : ∀ label fault, ((after calls).assign label).2 = .error fault →
    after (calls ++ [label]) = after calls ∧ fault = .configuration .dictionaryFull

theorem faithful_of_calls (calls : List Label) : Faithful calls where
  inverse := (after calls).indexOf?_eq_some_iff
  order := resolve?_after calls
  size := size_after calls
  used := by
    intro index
    simp only [indexOf?_eq_some_iff]
    show (∃ label, (after calls).labels[index.toNat]? = some label) ↔
      index.toNat < (after calls).labels.size
    rw [← Option.isSome_iff_exists, isSome_getElem?]
  kept := by
    intro label index h more
    have hresolve := resolve?_after_append ((indexOf?_eq_some_iff _ _ _).1 h) more
    have hindex := (indexOf?_eq_some_iff _ _ _).2 hresolve
    exact ⟨hindex, hresolve, assign_known hindex⟩
  given := by
    intro label index h more
    have hlast : (after (calls ++ [label])).indexOf? label = some index := by
      rw [after_concat]
      exact indexOf?_assign h
    have hkept := resolve?_after_append ((indexOf?_eq_some_iff _ _ _).1 hlast) more
    rw [List.append_assoc] at hkept
    exact (indexOf?_eq_some_iff _ _ _).2 hkept
  next := by
    intro label h room
    exact ⟨_, (assign_new h room).2, UInt16.toNat_ofNat_of_lt' room⟩
  fails := by
    intro label
    simp only [assign_eq_error_iff]
    constructor
    · intro h
      obtain ⟨_, hnew, hfull, -⟩ := h
      exact ⟨hnew, hfull⟩
    · intro h
      exact ⟨_, h.1, h.2, rfl⟩
  unchanged := by
    intro label fault h
    obtain ⟨hnew, hfull, hfault⟩ := assign_eq_error_iff.1 h
    rw [after_concat, assign_full hnew hfull]
    exact ⟨rfl, hfault⟩

/-- Labels that come in ascending order get ascending indices. -/
theorem ordered_after {labels : List Label} (h : labels.Pairwise (· < ·)) :
    (after labels).Ordered := by
  have hnodup : labels.Nodup := h.imp fun hlt => UInt32.ne_of_lt hlt
  -- the half that is said of any two labels gives the other half for the two exchanged
  have hup : ∀ {l l' : Label} {i i' : LabelIndex}, (after labels).indexOf? l = some i →
      (after labels).indexOf? l' = some i' → i < i' → l < l' := by
    intro l l' i i' hl hl' hlt
    rw [indexOf?_eq_some_iff, resolve?_after, eraseDups_of_nodup labels hnodup,
      List.getElem?_eq_some_iff] at hl hl'
    obtain ⟨hi, rfl⟩ := hl
    obtain ⟨hi', rfl⟩ := hl'
    exact List.pairwise_iff_getElem.1 h _ _ hi hi' (UInt16.lt_iff_toNat_lt.1 hlt)
  intro l l' i i' hl hl'
  constructor
  · intro hlt
    by_contra hge
    rcases Nat.lt_or_eq_of_le (UInt16.le_iff_toNat_le.1 (UInt16.not_lt.1 hge)) with hgt | heq
    · exact UInt32.lt_asymm hlt (hup hl' hl (UInt16.lt_iff_toNat_lt.2 hgt))
    · rw [UInt16.toNat_inj.1 heq, indexOf?_eq_some_iff] at hl'
      rw [indexOf?_eq_some_iff, hl'] at hl
      injection hl with hl
      rw [hl] at hlt
      exact UInt32.lt_irrefl _ hlt
  · exact hup hl hl'

end Dictionary

namespace Mapping

theorem pairwise_toList (labels : Std.ExtTreeSet Label) : labels.toList.Pairwise (· < ·) :=
  labels.ordered_toList.imp Std.compare_eq_lt.1

theorem eraseDups_toList (labels : Std.ExtTreeSet Label) :
    labels.toList.eraseDups = labels.toList :=
  eraseDups_of_nodup _ ((pairwise_toList labels).imp UInt32.ne_of_lt)

/-- **The mapping of a graph** is made when there is a node label and there are not too many
labels of either kind; its dictionaries are those of the labels in ascending order. -/
theorem ofView_eq_ok_iff {g : GraphView} {m : Mapping} :
    ofView g = .ok m ↔
      g.nodeLabels.toList ≠ [] ∧ g.nodeLabels.toList.length ≤ maxLabels
        ∧ g.edgeLabels.toList.length ≤ maxLabels
        ∧ m = ⟨.after g.nodeLabels.toList, .after g.edgeLabels.toList⟩ := by
  have hsize : ∀ labels : Std.ExtTreeSet Label, labels.toList.length ≤ maxLabels →
      ((Dictionary.after labels.toList).size = 0 ↔ labels.toList = []) := by
    intro labels hfit
    rw [Dictionary.size_after, eraseDups_toList, Nat.min_eq_left hfit, List.length_eq_zero_iff]
  unfold ofView
  simp only [bind_eq_ok_iff, guard_eq_ok_iff, pure_eq_ok_iff, Dictionary.ofLabels_eq_ok_iff,
    eraseDups_toList]
  constructor
  · intro h
    obtain ⟨_, ⟨hnodes, rfl⟩, hne, _, ⟨hedges, rfl⟩, rfl⟩ := h
    exact ⟨fun hnil => hne ((hsize _ hnodes).2 hnil), hnodes, hedges, rfl⟩
  · intro h
    obtain ⟨hne, hnodes, hedges, rfl⟩ := h
    exact ⟨_, ⟨hnodes, rfl⟩, fun hzero => hne ((hsize _ hnodes).1 hzero), _, ⟨hedges, rfl⟩, rfl⟩

/-- In the mapping of a graph every label of the graph has an index. -/
theorem exists_index_of_ofView {g : GraphView} {m : Mapping} (h : ofView g = .ok m) :
    (∀ label ∈ g.nodeLabels.toList, ∃ index, m.nodes.indexOf? label = some index)
      ∧ ∀ label ∈ g.edgeLabels.toList, ∃ index, m.edges.indexOf? label = some index := by
  obtain ⟨-, hnodes, hedges, rfl⟩ := ofView_eq_ok_iff.1 h
  have hall : ∀ labels : Std.ExtTreeSet Label, labels.toList.length ≤ maxLabels →
      ∀ label ∈ labels.toList, ∃ index, (Dictionary.after labels.toList).indexOf? label = some index := by
    intro labels hfit label hlabel
    rw [← Dictionary.mem_labels_iff, Dictionary.labels_after, eraseDups_toList,
      List.take_of_length_le hfit]
    exact hlabel
  exact ⟨hall _ hnodes, hall _ hedges⟩

end Mapping

/-- **A dictionary is faithful** to whatever was asked of it, and in the mapping of a graph
the labels are in the same order as their indices. -/
theorem faithful_and_ordered :
    (∀ calls, Dictionary.Faithful calls)
      ∧ ∀ g m, Mapping.ofView g = .ok m →
          m.nodes = .after g.nodeLabels.toList ∧ m.nodes.Ordered
            ∧ m.edges = .after g.edgeLabels.toList ∧ m.edges.Ordered := by
  refine ⟨Dictionary.faithful_of_calls, fun g m h => ?_⟩
  obtain ⟨-, -, -, rfl⟩ := Mapping.ofView_eq_ok_iff.1 h
  exact ⟨rfl, Dictionary.ordered_after (Mapping.pairwise_toList _),
    rfl, Dictionary.ordered_after (Mapping.pairwise_toList _)⟩

theorem faithful_and_ordered_twins :
    Mapping.ofView twins.view = .ok twinLabels
      ∧ twinLabels.nodes.Ordered ∧ twinLabels.edges.Ordered
      ∧ Dictionary.Faithful [5, 2, 5] := by
  have hm : Mapping.ofView twins.view = .ok twinLabels := by
    unfold twinLabels
    cbv
  have h := faithful_and_ordered.2 twins.view twinLabels hm
  exact ⟨hm, h.2.1, h.2.2.2, faithful_and_ordered.1 _⟩

end LabelWalks
