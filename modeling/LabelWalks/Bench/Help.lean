/-
  LabelWalks.Bench.Help
  ─────────────────────
  **THE HELP OF THE COMMAND.**

  Help lists the positional arguments and the options.  In short, each has one
  line; in full, its text stands below it, and the families are told apart.
-/
import LabelWalks.Bench.Options

namespace LabelWalks.Bench

open Synthetic

/-! ## §1. What there is to tell. -/

/-- An argument as help tells it. -/
structure Entry where
  /-- The way it is given. -/
  term : String
  text : String
  /-- The value that it has if it is not given. -/
  default? : Option String := none
  /-- The possible values, each with its meaning. -/
  values : List (String × String) := []
  deriving DecidableEq, Repr

namespace Help

/-- What the graphs of a family are like. -/
def meaning : Family → String
  | .tree => "Fractal branching tree (deep paths)"
  | .scaleFree => "Preferential attachment via edge sampling (hub-and-spoke)"
  | .smallWorld => "Watts-Strogatz ring lattice + shortcuts"
  | .uniform => "Erdos-Renyi uniform random edges"
  | .barbell => "Two dense cliques connected by a thin bridge"
  | .aggregation => "Diffusion-limited aggregation (organic branching)"

/-- The positional arguments. -/
def positionals : List Entry :=
  [{ term := "[MODE]", text := "Graph generator to benchmark", default? := some "all"
     values := ("all", "Run all generators") :: Family.all.map fun f => (f.slug, meaning f) },
    { term := "[NODE_COUNT]", text := "Target number of nodes per generated graph"
      default? := some "2000" }]

/-- The options, apart from help itself. -/
def options : List Entry :=
  [{ term := "    --config <CONFIG>"
     text := "JSON file with engine settings. Flags below override it" },
    { term := "    --path-length <PATH_LENGTH>"
      text := "Maximum number of node labels per meta-path" },
    { term := "    --ratio <RATIO>", text := "Fraction of nodes, by degree, to precompute" },
    { term := "    --workers <WORKERS>", text := "Upper bound on concurrent workers" },
    { term := "    --out-dir <OUT_DIR>", text := "Output files go to `<out-dir>/<generator>/`"
      default? := some "metapath-out" },
    { term := "    --sample <SAMPLE>", text := "Size of the sampled start and end node sets"
      default? := some "8" },
    { term := "    --compare", text := "Also time instance search without the high-degree index" },
    { term := "    --json", text := "Print a JSON summary instead of the table" }]

/-- Help as an option. -/
def helpEntry (full : Bool) : Entry where
  term := "-h, --help"
  text := if full then "Print help (see a summary with '-h')" else
    "Print help (see more with '--help')"

/-! ## §2. Layout. -/

/-- A text with blanks after it up to a width. -/
def alignLeft (width : Nat) (s : String) : String :=
  s ++ String.ofList (List.replicate (width - s.length) ' ')

/-- The greatest length among texts. -/
def widest (texts : List String) : Nat :=
  (texts.map String.length).foldl max 0

/-- An entry on one line, its text in the column that `width` leaves. -/
def short (width : Nat) (e : Entry) : String :=
  let default := e.default?.elim "" fun d => " [default: " ++ d ++ "]"
  let values :=
    if e.values.isEmpty then ""
    else " [possible values: " ++ ", ".intercalate (e.values.map Prod.fst) ++ "]"
  "  " ++ alignLeft width e.term ++ "  " ++ e.text ++ default ++ values ++ "\n"

/-- The blanks before the text of an entry in full. -/
def indent : String := "          "

/-- An entry with its text below it. -/
def long (e : Entry) : String :=
  let default := e.default?.elim "" fun d =>
    indent ++ "\n" ++ indent ++ "[default: " ++ d ++ "]\n"
  let width := widest (e.values.map Prod.fst) + 1
  let value (name meaning : String) :=
    indent ++ "- " ++ alignLeft width (name ++ ":") ++ " " ++ meaning ++ "\n"
  let values :=
    if e.values.isEmpty then ""
    else "\n" ++ indent ++ "Possible values:\n"
      ++ String.join (e.values.map fun (name, meaning) => value name meaning)
  "  " ++ e.term ++ "\n" ++ indent ++ e.text ++ "\n" ++ default ++ values

/-- Entries in full or in short. -/
def entries (full : Bool) (es : List Entry) : String :=
  if full then "\n".intercalate (es.map long)
  else String.join (es.map (short (widest (es.map Entry.term))))

end Help

/-- The help text, in full or in short. -/
def help (full : Bool) : String :=
  "Run the meta-path engines over synthetic labeled graphs\n\n"
    ++ "Usage: metapath-bench [OPTIONS] [MODE] [NODE_COUNT]\n\n"
    ++ "Arguments:\n" ++ Help.entries full Help.positionals
    ++ "\nOptions:\n" ++ Help.entries full (Help.options ++ [Help.helpEntry full])

end LabelWalks.Bench
