/-
  LabelWalks.Synthetic.Lcg
  ────────────────────────
  **DRAWING NUMBERS.**

  Synthetic graphs are drawn from a linear congruential sequence of 64-bit words,
  so that a graph is the same on every machine.  The low bits of such a sequence
  are weak, and only high bits of a word are used.

  A draw below a bound has no result when the bound is zero, and neither has
  arithmetic on the numbers of nodes that leaves the natural numbers.
-/
import LabelWalks.Binary64.Basic
import LabelWalks.Graph.Network

namespace LabelWalks.Synthetic

/-- A linear congruential sequence at one of its words. -/
structure Lcg where
  word : UInt64
  deriving DecidableEq, Repr

namespace Lcg

/-- The sequence at its next word. -/
def step (r : Lcg) : Lcg :=
  ⟨r.word * 6364136223846793005 + 1⟩

end Lcg

/-- A computation that draws from a sequence and may fail to have a result. -/
abbrev Draw := StateT Lcg Option

namespace Draw

/-- A number below a bound, from the upper 31 bits of the next word. -/
def below (bound : UInt64) : Draw UInt64 := fun r =>
  if bound = 0 then none else some ((r.step.word >>> 33) % bound, r.step)

/-- A number from zero up to one, from the upper 53 bits of the next word. -/
def unit : Draw Binary64 := fun r =>
  some (.ofFraction false (r.step.word >>> 11).toNat (Nat.pow 2 53), r.step)

/-- A node label out of four. -/
def nodeLabel : Draw Label := do
  return (← below 4).toUInt32

/-- An edge label out of five. -/
def edgeLabel : Draw Label := do
  return (← below 5).toUInt32

/-- The difference of two numbers that must not fall below zero. -/
def difference (a b : Nat) : Draw Nat :=
  if b ≤ a then pure (a - b) else failure

/-- What is left of a number by a division that must not be by zero. -/
def remainder (a b : Nat) : Draw Nat :=
  if b = 0 then failure else pure (a % b)

/-- A member of a list that has one at the drawn position. -/
def pick (xs : Array NodeId) : Draw NodeId := do
  let i ← below (.ofNat xs.size)
  match xs[i.toNat]? with
  | some x => return x
  | none => failure

end Draw

/-- The node with a number. -/
def nodeId (i : Nat) : NodeId :=
  .ofNat i

/-- The network with a node of a drawn label. -/
def addNode (g : Network) (v : NodeId) : Draw Network := do
  return g.add v (← Draw.nodeLabel)

/-- The network with an edge of a drawn label. -/
def addEdge (g : Network) (v w : NodeId) : Draw Network := do
  return g.connect v w (← Draw.edgeLabel)

/-- The network with nodes numbered from `first` on, each of a drawn label. -/
def addNodes (g : Network) (first count : Nat) : Draw Network :=
  (List.range' first count).foldlM (fun g i => addNode g (nodeId i)) g

end LabelWalks.Synthetic
