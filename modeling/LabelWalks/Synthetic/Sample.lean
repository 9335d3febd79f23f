/-
  LabelWalks.Synthetic.Sample
  ───────────────────────────
  **START AND END NODES FOR A SEARCH.**

  Both sets are drawn from all nodes, the start nodes first; a node that is
  drawn again counts once.
-/
import LabelWalks.Arrival
import LabelWalks.Synthetic.Lcg

namespace LabelWalks.Synthetic

/-- The word at which the sequence of samples starts. -/
def sampleSeed : UInt64 := 2024

/-- As many draws from a list as are wanted, as a set. -/
def drawSet (ids : Array NodeId) (count : Nat) : Draw NodeSet :=
  (List.range count).foldlM (fun s _ => do return s.insert (← Draw.pick ids)) ∅

/-- Start and end nodes drawn from some nodes. -/
def drawEndpoints (ids : Array NodeId) (count : Nat) : Draw (List NodeId × List NodeId) := do
  let starts ← drawSet ids count
  let ends ← drawSet ids count
  return (starts.toList, ends.toList)

/-- Start and end nodes of a network, ascending, each at most `count` of them;
none if a draw had no result. -/
def sampleEndpoints? (g : Network) (count : Nat) : Option (List NodeId × List NodeId) :=
  let ids := g.nodeIds.toArray
  if ids.isEmpty ∨ count = 0 then some ([], [])
  else (drawEndpoints ids count ⟨sampleSeed⟩).map Prod.fst

end LabelWalks.Synthetic
