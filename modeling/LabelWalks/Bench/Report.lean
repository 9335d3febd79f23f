/-
  LabelWalks.Bench.Report
  ───────────────────────
  **REPORTING SUMMARIES.**

  A summary is reported as a table with a row for each stage, or all summaries
  together as a JSON array.  How times are written in a table is up to a style.
-/
import LabelWalks.Bench.Summary
import LabelWalks.Binary64.Printer
import LabelWalks.Json.Text

namespace LabelWalks.Bench

/-! ## §1. Tables. -/

/-- How times in nanoseconds are written in a table. -/
structure TimeStyle where
  /-- The time to draw the graph, in seconds, without the unit. -/
  seconds : Nat → String
  /-- The last column of a row, with the blanks before it and the unit. -/
  cell : Nat → String

/-- A text with blanks before it up to a width. -/
def alignRight (width : Nat) (s : String) : String :=
  String.ofList (List.replicate (width - s.length) ' ') ++ s

/-- A number of dashes. -/
def dashes (n : Nat) : String :=
  String.ofList (List.replicate n '-')

/-- Nanoseconds in milliseconds. -/
def milliseconds (time : Nat) : Binary64 :=
  .ofFraction false time (Nat.pow 10 6)

/-- Seconds with two places, and milliseconds with one. -/
def TimeStyle.measured : TimeStyle where
  seconds time := (Binary64.ofFraction false time (Nat.pow 10 9)).fixedText 2
  cell time := " " ++ alignRight 10 ((milliseconds time).fixedText 1) ++ "ms"

namespace Report

/-- What stands above all tables. -/
def header : String :=
  "metapath-bench\n==============\n\n"

/-- The row of a stage. -/
def row (style : TimeStyle) (stage : String) (count time : Nat) : String :=
  alignRight 14 stage ++ " " ++ alignRight 12 (toString count) ++ style.cell time ++ "\n"

/-- The table of a summary. -/
def table (style : TimeStyle) (s : Summary) : String :=
  String.join [
    "--- ", s.family.title, " ---\n",
    "Generated in ", style.seconds s.generation, "s: ", toString s.nodes, " nodes, ",
    toString s.edges, " edges, ~", s.megabytes.wholeText, "MB\n\n",
    alignRight 14 "stage", " ", alignRight 12 "paths", " ", alignRight 12 "time", "\n",
    dashes 14, " ", dashes 12, " ", dashes 12, "\n",
    row style "full" s.counted s.census,
    row style "precompute" s.indexed s.indexing,
    row style "instances" s.found s.search,
    s.plainSearch.elim "" (row style "no index" s.found),
    if s.failed = 0 then "" else toString s.failed ++ " high-degree nodes failed to index\n",
    "Output written to ", s.dir, "\n\n"]

/-! ## §2. JSON. -/

/-- The members of a summary: keys with values as they are written. -/
def members (s : Summary) : List (String × String) :=
  [("generator", Json.quoted s.family.slug),
    ("nodes", toString s.nodes),
    ("edges", toString s.edges),
    ("memory_mb", s.megabytes.literal),
    ("path_length", toString s.pathLength),
    ("full_paths", toString s.counted),
    ("full_ms", (milliseconds s.census).literal),
    ("indexed_nodes", toString s.indexed),
    ("failed_nodes", toString s.failed),
    ("precompute_ms", (milliseconds s.indexing).literal),
    ("instance_paths", toString s.found),
    ("instance_ms", (milliseconds s.search).literal)]
  ++ s.plainSearch.elim [] fun time =>
    [("unindexed_instance_ms", (milliseconds time).literal)]

/-- A summary as an indented JSON object. -/
def object (s : Summary) : String :=
  let lines := (members s).map fun (key, value) => "    " ++ Json.quoted key ++ ": " ++ value
  "  \x7b\n" ++ ",\n".intercalate lines ++ "\n  \x7d"

/-- All summaries as an indented JSON array. -/
def array (summaries : List Summary) : String :=
  if summaries.isEmpty then "[]\n"
  else "[\n" ++ ",\n".intercalate (summaries.map object) ++ "\n]\n"

end Report

end LabelWalks.Bench
