/-
  LabelWalks.Bench.Options
  ────────────────────────
  **THE ARGUMENTS OF THE COMMAND.**

  An argument is a flag, an option with a value after it or after an equals sign,
  or a positional value: a family and a size.  Two dashes alone make everything
  after them positional.

  A value is checked when its argument is complete, that is, when the next
  argument begins or the arguments end.  An argument that nobody knows is
  refused before the value in front of it is checked.
-/
import LabelWalks.Binary64.Reader
import LabelWalks.Synthetic.Family
import LabelWalks.Text.Split

namespace LabelWalks.Bench

open Synthetic

/-! ## §1. Options and what can be wrong with them. -/

/-- What the arguments ask for. -/
structure Options where
  /-- The family to run, all of them if there is none. -/
  family : Option Family := none
  size : UInt64 := 2000
  /-- The settings file. -/
  config : Option String := none
  pathLength : Option UInt64 := none
  ratio : Option Binary64 := none
  workers : Option UInt64 := none
  outDir : String := "metapath-out"
  /-- How many start and end nodes to draw. -/
  sample : UInt64 := 8
  /-- Search without the index, too. -/
  compare : Bool := false
  /-- Report as JSON. -/
  json : Bool := false
  deriving DecidableEq, Repr

/-- The families to run. -/
def Options.families (o : Options) : List Family :=
  o.family.elim Family.all fun family => [family]

/-- Why arguments are no options. -/
inductive UsageError where
  /-- A value that is none of the possible ones, or that is missing. -/
  | invalidValue
  /-- A value that does not read as what is wanted. -/
  | valueValidation
  | unknownArgument
  /-- An argument that was given before. -/
  | argumentConflict
  /-- A value for a flag. -/
  | tooManyValues
  /-- A request for help, in full or in short. -/
  | displayHelp (full : Bool)
  deriving DecidableEq, Repr

/-! ## §2. Arguments. -/

/-- The arguments that have a value. -/
inductive Slot where
  | family
  | size
  | config
  | pathLength
  | ratio
  | workers
  | outDir
  | sample
  deriving DecidableEq, Repr

/-- The arguments that have none. -/
inductive Flag where
  | compare
  | json
  deriving DecidableEq, Repr

/-- What a name after two dashes names. -/
inductive Named where
  | slot (slot : Slot)
  | flag (flag : Flag)
  | help
  deriving DecidableEq, Repr

/-- The argument of a name. -/
def named? (name : String) : Option Named :=
  [("config", Named.slot .config), ("path-length", .slot .pathLength), ("ratio", .slot .ratio),
    ("workers", .slot .workers), ("out-dir", .slot .outDir), ("sample", .slot .sample),
    ("compare", .flag .compare), ("json", .flag .json), ("help", .help)].lookup name

/-- A word, if the text reads as one. -/
def word (value : String) : Except UsageError UInt64 :=
  (Text.word64? value.toList).elim (.error .valueValidation) .ok

/-- A path; the empty text is none. -/
def path (value : String) : Except UsageError String :=
  if value.isEmpty then .error .invalidValue else .ok value

/-- The options with a value for one argument. -/
def Options.set (o : Options) (slot : Slot) (value : String) : Except UsageError Options :=
  match slot with
  | .family =>
    if value = "all" then .ok { o with family := none }
    else (Family.ofSlug? value).elim (.error .invalidValue) fun f => .ok { o with family := some f }
  | .size => (word value).map fun n => { o with size := n }
  | .config => (path value).map fun file => { o with config := some file }
  | .pathLength => (word value).map fun n => { o with pathLength := some n }
  | .ratio =>
    (Binary64.ofText? value).elim (.error .valueValidation) fun x => .ok { o with ratio := some x }
  | .workers => (word value).map fun n => { o with workers := some n }
  | .outDir => (path value).map fun dir => { o with outDir := dir }
  | .sample => (word value).map fun n => { o with sample := n }

/-! ## §3. Reading. -/

/-- How far the arguments are read. -/
structure Reading where
  options : Options := {}
  /-- The arguments with a value that are complete. -/
  slots : List Slot := []
  /-- The flags that were given. -/
  flags : List Flag := []
  /-- An argument that is not complete yet, and its value if that was read. -/
  pending : Option (Slot × Option String) := none
  /-- How many positional values there were. -/
  positionals : Nat := 0
  /-- Only positional values follow. -/
  escaped : Bool := false
  deriving DecidableEq, Repr

namespace Reading

/-- An argument with its value is complete. -/
def fill (r : Reading) (slot : Slot) (value : String) : Except UsageError Reading := do
  if slot ∈ r.slots then throw .argumentConflict
  return { r with options := ← r.options.set slot value, slots := slot :: r.slots }

/-- The pending argument is complete. -/
def settle (r : Reading) : Except UsageError Reading :=
  match r.pending with
  | none => .ok r
  | some (_, none) => .error .invalidValue
  | some (slot, some value) => { r with pending := none }.fill slot value

/-- A flag is given. -/
def raise (r : Reading) (flag : Flag) : Except UsageError Reading := do
  let r ← r.settle
  if flag ∈ r.flags then throw .argumentConflict
  let options :=
    match flag with
    | .compare => { r.options with compare := true }
    | .json => { r.options with json := true }
  return { r with options, flags := flag :: r.flags }

/-- A positional value is read. -/
def positional (r : Reading) (value : String) : Except UsageError Reading := do
  let slot ← match r.positionals with
    | 0 => pure Slot.family
    | 1 => pure Slot.size
    | _ => throw .unknownArgument
  let r ← r.settle
  return { r with pending := some (slot, some value), positionals := r.positionals + 1 }

/-- An argument that starts with two dashes: its name, and its value after an
equals sign if there is one. -/
def long (r : Reading) (name : String) (value : Option String) : Except UsageError Reading :=
  match named? name, value with
  | none, _ => .error .unknownArgument
  | some (.slot slot), none => do
    let r ← r.settle
    return { r with pending := some (slot, none) }
  | some (.slot slot), some value => do
    let r ← r.settle
    r.fill slot value
  | some (.flag flag), none => r.raise flag
  | some .help, none => do
    let _ ← r.settle
    throw (.displayHelp true)
  | some _, some _ => .error .tooManyValues

/-- An argument that starts with one dash: only help has a short name. -/
def short (r : Reading) (letter : Char) : Except UsageError Reading := do
  if letter ≠ 'h' then throw .unknownArgument
  let _ ← r.settle
  throw (.displayHelp false)

/-- A name and what stands after its first equals sign. -/
def cutName (s : List Char) : String × Option String :=
  match Text.cut? '=' s with
  | some (name, value) => (.ofList name, some (.ofList value))
  | none => (.ofList s, none)

/-- A value is read: that of the pending argument if it waits for one, else a
positional one. -/
def value (r : Reading) (text : String) : Except UsageError Reading :=
  match r.escaped, r.pending with
  | false, some (slot, none) => .ok { r with pending := some (slot, some text) }
  | _, _ => r.positional text

/-- One argument is read. -/
def next (r : Reading) (arg : String) : Except UsageError Reading :=
  if r.escaped then r.value arg
  else
    match arg.toList with
    | ['-', '-'] => .ok { r with escaped := true }
    | '-' :: '-' :: rest =>
      let (name, value) := cutName rest
      r.long name value
    | '-' :: letter :: _ => r.short letter
    | _ => r.value arg

end Reading

/-- The options that arguments ask for. -/
def Options.ofArgs (args : List String) : Except UsageError Options := do
  let r ← args.foldlM Reading.next {}
  return (← r.settle).options

end LabelWalks.Bench
