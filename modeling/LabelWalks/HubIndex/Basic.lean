/-
  LabelWalks.HubIndex.Basic
  ─────────────────────────
  **AN INDEX OF SUFFIXES.**

  The index knows the suffix maps of some nodes, usually those of high degree.
  Every entry has the empty suffix; entries that are given for one node again
  and again are united.
-/
import LabelWalks.Suffix

namespace LabelWalks

/-- The suffix maps of the indexed nodes. -/
structure HubIndex where
  entries : Std.ExtTreeMap NodeId SuffixMap

namespace HubIndex

/-- The index without a node. -/
def empty : HubIndex :=
  ⟨∅⟩

/-- The map with the empty suffix, which ends at the node itself unless the map
has ends for it. -/
def withSelf (v : NodeId) (map : SuffixMap) : SuffixMap :=
  map.insertIfNew [] ((∅ : NodeSet).insert v)

/-- The index with more suffixes for a node. -/
def insert (index : HubIndex) (v : NodeId) (rows : List SuffixEnds) : HubIndex :=
  ⟨index.entries.insert v (withSelf v ((index.entries.getD v ∅).mergeAll rows))⟩

/-- The suffix map of a node, if the node is indexed. -/
def get? (index : HubIndex) (v : NodeId) : Option SuffixMap :=
  index.entries[v]?

/-- The node is indexed. -/
def contains (index : HubIndex) (v : NodeId) : Bool :=
  index.entries.contains v

theorem contains_iff {index : HubIndex} {v : NodeId} :
    index.contains v = true ↔ ∃ map, index.get? v = some map := by
  show index.entries.contains v = true ↔ ∃ map, index.entries[v]? = some map
  rw [← Std.ExtTreeMap.mem_iff_contains, Std.ExtTreeMap.mem_iff_isSome_getElem?,
    Option.isSome_iff_exists]

theorem contains_eq_false_iff {index : HubIndex} {v : NodeId} :
    index.contains v = false ↔ index.get? v = none := by
  rw [← Bool.not_eq_true, contains_iff]
  cases index.get? v <;> simp

theorem get?_empty (v : NodeId) : empty.get? v = none := by
  show (∅ : Std.ExtTreeMap NodeId SuffixMap)[v]? = none
  exact Std.ExtTreeMap.getElem?_empty

theorem contains_empty (v : NodeId) : empty.contains v = false :=
  contains_eq_false_iff.2 (get?_empty v)

/-- How many nodes are indexed. -/
def size (index : HubIndex) : Nat :=
  index.entries.size

end HubIndex

end LabelWalks
