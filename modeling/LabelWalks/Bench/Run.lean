/-
  LabelWalks.Bench.Run
  ────────────────────
  **ONE RUN FOR ONE FAMILY.**

  A run works on a folder and may break off; the files that it wrote until then
  stay.  The clock that it reads is a parameter, so that a run is a value of its
  arguments when the clock is.

    • `Job` is work on a folder,
    • `writeFile` gives a computation a file as its sink,
    • `run` goes through all stages.
-/
import LabelWalks.Bench.Options
import LabelWalks.Bench.Summary
import LabelWalks.Folder
import LabelWalks.Graph.Selection
import LabelWalks.HubIndex.Builder
import LabelWalks.HubIndex.Reader
import LabelWalks.Search
import LabelWalks.Settings.Basic
import LabelWalks.Synthetic.Sample

namespace LabelWalks.Bench

open Synthetic

variable {m : Type → Type} [Monad m] {α : Type}

/-! ## §1. Work on a folder. -/

/-- Why a run did not come to its end. -/
inductive RunFault where
  /-- A computation failed. -/
  | fault (cause : Fault)
  /-- The folder of the run could not be made. -/
  | folder (problem : StorageProblem)
  /-- A draw had no result. -/
  | draw
  deriving DecidableEq, Repr

/-- A failure in words. -/
def RunFault.message : RunFault → String
  | .fault cause => cause.message
  | .folder problem => problem.text
  | .draw => "drew from nothing"

/-- Work on a folder that may break off; what it did to the folder stays. -/
abbrev Job (m : Type → Type) := ExceptT RunFault (StateT Folder m)

/-- The result of a computation. -/
def Job.ofExcept : Except Fault α → Job m α
  | .ok a => pure a
  | .error fault => throw (.fault fault)

/-- The result of a draw. -/
def Job.ofDraw : Option α → Job m α
  | some a => pure a
  | none => throw .draw

/-- Work and the time that it takes, from its first computation on. -/
def Job.timed (clock : m Nat) (job : Unit → Job m α) : Job m (α × Nat) := do
  let before : Nat ← clock
  let a ← job ()
  let after : Nat ← clock
  return (a, after - before)

/-- Makes a folder and those above it. -/
def enter (dir : String) : Job m Unit := do
  match (← get).createAll dir with
  | .ok folder => set folder
  | .error problem => throw (.folder problem)

/-- Makes a file and gives it to a computation as its sink. -/
def writeFile (path : String) (compute : Sink → Sink × Except Fault α) : Job m α := do
  match (← get).create path with
  | .error problem => throw (.fault (.storage problem))
  | .ok (names, folder) =>
    let (sink, result) := compute .unlimited
    set (folder.write names sink.written)
    Job.ofExcept result

/-- The octets of a file. -/
def octetsOf (folder : Folder) (path : String) : Except StorageProblem ByteArray :=
  (folder.read path).map String.toUTF8

/-! ## §2. The stages. -/

/-- Where a run keeps a file: under its last name in the folder of the run. -/
def placed (dir file : String) : String :=
  Path.below dir ((Path.fileName? file).getD file)

/-- Chooses the nodes of high degree, writes their index and reads it again. -/
def buildIndex (g : GraphView) (labels : Mapping) (s : Settings) (length : PathLength)
    (path : String) : Job m (HubIndex.Report × HubIndex) := do
  let chosen := g.highDegree s.ratio
  let report ← writeFile path (HubIndex.build g labels length chosen)
  let index ← Job.ofExcept (HubIndex.load labels (octetsOf (← get) path))
  return (report, index)

/-- All stages for a family. -/
def run (clock : m Nat) (o : Options) (s : Settings) (family : Family) : Job m Summary := do
  let dir := Path.below o.outDir family.slug
  enter dir
  let (network, generation) ← Job.timed clock fun _ => do
    return (← Job.ofDraw (family.generate? o.size.toNat)).withDirection s.direction
  let g := network.view
  let labels ← Job.ofExcept (Mapping.ofView g)
  let length ← Job.ofExcept s.validate
  let (table, census) ← Job.timed clock fun _ => do
    writeFile (placed dir s.censusFile) (writeCensus g labels length)
  let ((report, index), indexing) ← Job.timed clock fun _ => do
    buildIndex g labels s length (placed dir s.indexFile)
  let (starts, ends) ← Job.ofDraw (sampleEndpoints? network o.sample.toNat)
  let (found, searching) ← Job.timed clock fun _ => do
    writeFile (placed dir s.foundFile) (search g labels index length starts ends)
  let plainSearch ←
    if o.compare then do
      let (_, time) ← Job.timed clock fun _ => do
        Job.ofExcept (search g labels .empty length starts ends .unlimited).2
      pure (some time)
    else pure none
  return {
    family
    nodes := network.nodeCount
    edges := network.edgeCount
    memory := network.memory
    pathLength := length.nodes
    counted := table.size
    indexed := report.written
    failed := report.failed.length
    found := found.size
    dir
    generation
    census
    indexing
    search := searching
    plainSearch
  }

end LabelWalks.Bench
