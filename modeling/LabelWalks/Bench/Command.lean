/-
  LabelWalks.Bench.Command
  ────────────────────────
  **THE COMMAND.**

  The command runs the families that its options ask for, one after the other,
  up to the first run that breaks off.  Tables are printed as their runs end,
  JSON when all have ended.
-/
import LabelWalks.Bench.Report
import LabelWalks.Bench.Run
import LabelWalks.Settings.Reader

namespace LabelWalks.Bench

/-- The clock that a command reads and the place where it prints. -/
structure Console (m : Type → Type) where
  /-- A time in nanoseconds. -/
  clock : m Nat
  print : String → m Unit

/-- The settings of a command: the defaults or those of the settings file, whose
content is given, with what the options say instead. -/
def Options.settings (o : Options) (content : String → Except StorageProblem ByteArray) :
    Except Fault Settings := do
  let s ← match o.config with
    | some name => Settings.ofFile name (content name)
    | none => .ok {}
  let s := { s with
    pathLength := (o.pathLength.map UInt64.toNat).getD s.pathLength
    ratio := o.ratio.getD s.ratio
    workerLimit := (o.workers.map UInt64.toNat) <|> s.workerLimit }
  s.validate.map fun _ => s

/-- Runs what the options ask for. -/
def command {m : Type → Type} [Monad m] (console : Console m) (style : TimeStyle)
    (content : String → Except StorageProblem ByteArray) (o : Options) : Job m (List Summary) := do
  let s ← Job.ofExcept (o.settings content)
  unless o.json do console.print Report.header
  let summaries ← o.families.mapM fun family => do
    let summary ← run console.clock o s family
    unless o.json do console.print (Report.table style summary)
    return summary
  if o.json then console.print (Report.array summaries)
  return summaries

end LabelWalks.Bench
