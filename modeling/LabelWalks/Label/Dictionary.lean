/-
  LabelWalks.Label.Dictionary
  ───────────────────────────
  **A DICTIONARY OF LABELS.**

  A dictionary gives dense indices to raw labels in the order in which they
  first come, and never takes one back.  It is kept both ways round: the labels
  in the order of their indices, and the index of every label.  That the two
  agree is a part of the dictionary.
-/
import LabelWalks.Fault
import Std.Data.ExtTreeMap

namespace LabelWalks

/-- Raw labels and their dense indices. -/
structure Dictionary where
  /-- The label at each index. -/
  labels : Array Label
  /-- The index of each label. -/
  indices : Std.ExtTreeMap Label LabelIndex
  /-- There is a dense index for every label. -/
  bounded : labels.size ≤ maxLabels
  /-- A label has an index just when it stands at that index. -/
  inverse : ∀ (label : Label) (index : LabelIndex),
    indices[label]? = some index ↔ labels[index.toNat]? = some label

namespace Dictionary

/-- The dictionary without a label. -/
def empty : Dictionary where
  labels := #[]
  indices := ∅
  bounded := Nat.zero_le _
  inverse := by simp

/-- How many labels the dictionary has. -/
def size (d : Dictionary) : Nat :=
  d.labels.size

/-- The index of a label, if it has one. -/
def indexOf? (d : Dictionary) (label : Label) : Option LabelIndex :=
  d.indices[label]?

/-- The label at an index, if there is one. -/
def resolve? (d : Dictionary) (index : LabelIndex) : Option Label :=
  d.labels[index.toNat]?

/-- A label is found under an index just when it stands at that index. -/
theorem indexOf?_eq_some_iff (d : Dictionary) (label : Label) (index : LabelIndex) :
    d.indexOf? label = some index ↔ d.resolve? index = some label :=
  d.inverse label index

/-- A new label at the end of the labels, with the next free index, keeps both ways round
in agreement. -/
theorem inverse_push {labels : Array Label} {indices : Std.ExtTreeMap Label LabelIndex}
    (inverse : ∀ (l : Label) (i : LabelIndex),
      indices[l]? = some i ↔ labels[i.toNat]? = some l)
    {label : Label} (new : indices[label]? = none) (room : labels.size < maxLabels)
    (l : Label) (i : LabelIndex) :
    (indices.insert label (UInt16.ofNat labels.size))[l]? = some i
      ↔ (labels.push label)[i.toNat]? = some l := by
  have hsize : (UInt16.ofNat labels.size).toNat = labels.size :=
    UInt16.toNat_ofNat_of_lt' room
  rw [Std.ExtTreeMap.getElem?_insert, Array.getElem?_push]
  by_cases hl : label = l
  · subst hl
    by_cases hi : i.toNat = labels.size
    · have : i = UInt16.ofNat labels.size := UInt16.toNat_inj.1 (by rw [hsize, hi])
      simp [this, hsize]
    · have hold : labels[i.toNat]? ≠ some label := by
        intro h
        rw [(inverse label i).2 h] at new
        cases new
      have hne : UInt16.ofNat labels.size ≠ i := by
        rintro rfl
        exact hi hsize
      simp [hi, hold, hne]
  · by_cases hi : i.toNat = labels.size
    · have hold : indices[l]? ≠ some i := by
        intro h
        have := (inverse l i).1 h
        rw [hi] at this
        simp at this
      simp [hl, hi, hold]
    · simp [hl, hi, inverse]

/-- Gives a label its index, the next free one when the label is new: the
dictionary afterwards and the index.  A new label fails when there is no index
left, and the dictionary stays as it is. -/
def assign (d : Dictionary) (label : Label) : Dictionary × Except Fault LabelIndex :=
  match new : d.indexOf? label with
  | some index => (d, .ok index)
  | none =>
    if room : d.size < maxLabels then
      let index := UInt16.ofNat d.size
      ({ labels := d.labels.push label
         indices := d.indices.insert label index
         bounded := by rw [Array.size_push]; exact room
         inverse := inverse_push d.inverse new room }, .ok index)
    else (d, .error (.configuration .dictionaryFull))

/-- Gives each label of a list its index, up to the first failure. -/
def assignAll (d : Dictionary) : List Label → Dictionary × Option Fault
  | [] => (d, none)
  | label :: labels =>
    match d.assign label with
    | (d, .ok _) => d.assignAll labels
    | (d, .error fault) => (d, some fault)

/-- The dictionary of the labels of a list, in the order in which they first come. -/
def ofLabels (labels : List Label) : Except Fault Dictionary :=
  match empty.assignAll labels with
  | (d, none) => .ok d
  | (_, some fault) => .error fault

end Dictionary

end LabelWalks
