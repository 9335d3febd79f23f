/-
  LabelWalks.Synthetic.Family
  ───────────────────────────
  **THE FAMILIES OF SYNTHETIC GRAPHS.**

  A family has a graph for each size, drawn from a sequence that starts at a
  word of the family's own.
-/
import LabelWalks.Synthetic.Aggregation
import LabelWalks.Synthetic.Barbell
import LabelWalks.Synthetic.ScaleFree
import LabelWalks.Synthetic.SmallWorld
import LabelWalks.Synthetic.Tree
import LabelWalks.Synthetic.Uniform

namespace LabelWalks.Synthetic

/-- The families. -/
inductive Family where
  | tree
  | scaleFree
  | smallWorld
  | uniform
  | barbell
  | aggregation
  deriving DecidableEq, Repr

namespace Family

/-- All families in the order in which they are run. -/
def all : List Family :=
  [.tree, .scaleFree, .smallWorld, .uniform, .barbell, .aggregation]

/-- The short name of a family, in arguments and folders. -/
def slug : Family → String
  | .tree => "lsystem"
  | .scaleFree => "scalefree"
  | .smallWorld => "smallworld"
  | .uniform => "random"
  | .barbell => "barbell"
  | .aggregation => "dla"

/-- The family with a short name. -/
def ofSlug? (slug : String) : Option Family :=
  all.find? fun family => family.slug == slug

/-- The name of a family in reports. -/
def title : Family → String
  | .tree => "L-system tree"
  | .scaleFree => "Scale-free (edge sampling)"
  | .smallWorld => "Small-world (Watts-Strogatz)"
  | .uniform => "Erdos-Renyi random"
  | .barbell => "Barbell (clique-bridge-clique)"
  | .aggregation => "DLA (organic branching)"

/-- The word at which the sequence of a family starts. -/
def seed : Family → UInt64
  | .tree => 42
  | .scaleFree => 12345
  | .smallWorld => 67890
  | .uniform => 54321
  | .barbell => 99999
  | .aggregation => 77777

/-- The drawing of a family's graph. -/
def draw : Family → Nat → Draw Network
  | .tree => Tree.generate
  | .scaleFree => ScaleFree.generate
  | .smallWorld => SmallWorld.generate
  | .uniform => Uniform.generate
  | .barbell => Barbell.generate
  | .aggregation => Aggregation.generate

/-- The graph of a family with a size; none if a draw had no result. -/
def generate? (family : Family) (size : Nat) : Option Network :=
  (family.draw size ⟨family.seed⟩).map Prod.fst

end Family

end LabelWalks.Synthetic
