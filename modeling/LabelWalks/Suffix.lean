/-
  LabelWalks.Suffix
  ─────────────────
  **ALL SUFFIXES FROM ONE NODE.**

  A suffix is the run of edge and node tokens that a walk from a given node
  crosses; the empty one stays at the node.  A suffix map gives for each suffix
  the nodes at which its walks end.

    • `growSuffix` follows all walks on from a suffix, depth first,
    • `suffixesWithin` is the map of a node, or the halt that was met,
    • `suffixesFrom` is that of a computation, which bounds the length of its paths.
-/
import LabelWalks.Arrival
import LabelWalks.PathLength

namespace LabelWalks

/-- The tokens that a walk adds: an edge, a node, an edge, a node, … -/
abbrev Suffix := List LabelIndex

/-- The end nodes of each suffix. -/
abbrev SuffixMap := Std.ExtTreeMap Suffix NodeSet

/-- A suffix with the nodes it ends at. -/
abbrev SuffixEnds := Suffix × NodeSet

namespace SuffixMap

/-- The map with more end nodes for one suffix. -/
def merge (map : SuffixMap) (row : SuffixEnds) : SuffixMap :=
  map.alter row.1 fun ends => some (ends.getD ∅ ∪ row.2)

/-- The map with more end nodes for each suffix of a list. -/
def mergeAll (map : SuffixMap) (rows : List SuffixEnds) : SuffixMap :=
  rows.foldl merge map

end SuffixMap

/-- The suffixes that are longer than `suffix` by at most the given hops, where
`suffix` ends at `nodes`.  Those one hop longer come first, ascending; the last
of them is followed first. -/
def growSuffix (g : GraphView) (m : Mapping) : Nat → Suffix → NodeSet → Trail SuffixEnds
  | 0, _, _ => .done
  | hops + 1, suffix, nodes =>
    (Trail.each (arrivals g m) nodes.toList).whenSettled fun reached =>
      let longer := (groupNodes reached).toList.map fun (hop, ends) => (suffix ++ hop.tokens, ends)
      (Trail.give longer).andThen fun _ =>
        .each (fun (suffix, ends) => growSuffix g m hops suffix ends) longer.reverse

/-- The suffix map of a node for walks of the given number of hops: all suffixes
within them, the empty one included, each with the nodes it ends at. -/
def suffixesWithin (g : GraphView) (m : Mapping) (v : NodeId) (hops : Nat) :
    Except Halt SuffixMap :=
  match m.indexOfNode g v with
  | .error fault => .error (.fault fault)
  | .ok _ =>
    let self : NodeSet := (∅ : NodeSet).insert v
    (growSuffix g m hops [] self).settled.map fun rows =>
      SuffixMap.mergeAll ∅ (([], self) :: rows)

/-- The suffix map of a node for paths of a length, the last node of which is
reached without an expansion of it. -/
def suffixesFrom (g : GraphView) (m : Mapping) (v : NodeId) (length : PathLength) :
    Except Halt SuffixMap :=
  suffixesWithin g m v length.hops

end LabelWalks
