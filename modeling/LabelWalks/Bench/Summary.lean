/-
  LabelWalks.Bench.Summary
  ────────────────────────
  **WHAT IS TOLD OF ONE RUN.**

  A run draws the graph of one family, takes its census, builds its index and
  searches it.  Its summary has the sizes of the results and the time of each
  stage in nanoseconds.
-/
import LabelWalks.Synthetic.Family

namespace LabelWalks.Bench

open Synthetic

/-- The sizes and times of one run. -/
structure Summary where
  family : Family
  nodes : Nat
  edges : Nat
  /-- The memory of the graph in octets. -/
  memory : Nat
  pathLength : Nat
  /-- How many paths the census has. -/
  counted : Nat
  /-- How many nodes have a record in the index. -/
  indexed : Nat
  /-- How many nodes should have had one. -/
  failed : Nat
  /-- How many paths the search found. -/
  found : Nat
  /-- Where the files are. -/
  dir : String
  generation : Nat
  census : Nat
  indexing : Nat
  search : Nat
  /-- The time of the search without the index, if there was one. -/
  plainSearch : Option Nat
  deriving DecidableEq, Repr

/-- The memory of the graph in units of 2 ^ 20 octets. -/
def Summary.megabytes (s : Summary) : Binary64 :=
  .ofFraction false s.memory (Nat.pow 2 20)

end LabelWalks.Bench
