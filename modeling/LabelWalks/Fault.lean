/-
  LabelWalks.Fault
  ────────────────
  **WHAT CAN GO WRONG, AND HOW IT IS TOLD.**

  A fault is a cause with its particulars; `Fault.message` is the one place that
  words it.
-/
import LabelWalks.Binary64.Printer
import LabelWalks.Label.Basic
import LabelWalks.Limits

namespace LabelWalks

/-! ## §1. Particulars. -/

/-- What a lookup was after. -/
inductive Subject where
  | node
  | nodeLabel
  | edgeLabel
  | nodeLabelIndex
  | edgeLabelIndex
  /-- The label of an edge that leaves the node named by the lookup. -/
  | edgeLabelFromNode
  | pathIndex
  deriving DecidableEq, Repr

/-- The words for a subject. -/
def Subject.text : Subject → String
  | .node => "node"
  | .nodeLabel => "node label"
  | .edgeLabel => "edge label"
  | .nodeLabelIndex => "node label index"
  | .edgeLabelIndex => "edge label index"
  | .edgeLabelFromNode => "edge label from node"
  | .pathIndex => "path index"

/-- The share of the work that one worker has. -/
inductive WorkUnit where
  /-- All walks that start at nodes of one label, in a census. -/
  | nodeLabel (index : LabelIndex)
  /-- All walks that start at start nodes of one label, in a search. -/
  | startLabel (index : LabelIndex)
  deriving DecidableEq, Repr

/-- The words for a worker's share. -/
def WorkUnit.text : WorkUnit → String
  | .nodeLabel i => "node label index " ++ toString i.toNat
  | .startLabel i => "start label index " ++ toString i.toNat

/-- Why a file or a sink refused. -/
inductive StorageProblem where
  | notFound
  | alreadyExists
  | notDirectory
  | isDirectory
  | nameTooLong
  | nulInName
  | notUtf8
  /-- A sink's own words. -/
  | refused (cause : String)
  deriving DecidableEq, Repr

/-- The words for a refusal; those of a file system carry its error number. -/
def StorageProblem.text : StorageProblem → String
  | .notFound => "No such file or directory (os error 2)"
  | .alreadyExists => "File exists (os error 17)"
  | .notDirectory => "Not a directory (os error 20)"
  | .isDirectory => "Is a directory (os error 21)"
  | .nameTooLong => "File name too long (os error 36)"
  | .nulInName => "file name contained an unexpected NUL byte"
  | .notUtf8 => "stream did not contain valid UTF-8"
  | .refused cause => cause

/-- What is wrong with one line of an index text. -/
inductive LineProblem where
  | missingColon
  | badNode (text : String)
  | missingEquals (part : String)
  | badLabel (text : String)
  | unpaired (path : String)
  | badEnd (text : String)
  deriving DecidableEq, Repr

/-- The words for what is wrong with a line. -/
def LineProblem.text : LineProblem → String
  | .missingColon => "missing ':' after node id"
  | .badNode text => "invalid node id '" ++ text ++ "'"
  | .missingEquals part => "missing '=' in '" ++ part ++ "'"
  | .badLabel text => "invalid label '" ++ text ++ "'"
  | .unpaired path => "suffix '" ++ path ++ "' is not (edge, node) pairs"
  | .badEnd text => "invalid end node '" ++ text ++ "'"

/-- What is wrong with a setting, a label or a path before any walk is made. -/
inductive Misconfiguration where
  /-- A path length of zero or above the bound. -/
  | pathLength (given : Nat)
  /-- A share of high-degree nodes outside (0, 1]. -/
  | ratio (given : Binary64)
  /-- A worker limit of zero. -/
  | workerLimit
  /-- An even number of tokens where a path was to be made. -/
  | tokenCount (given : Nat)
  /-- An odd number of tokens where pairs were to be appended. -/
  | suffixCount (given : Nat)
  /-- A new label for a dictionary that has no index left. -/
  | dictionaryFull
  /-- A graph without a single node label. -/
  | noNodeLabels
  /-- A settings file that holds no settings. -/
  | unreadable (file reason : String)
  deriving DecidableEq, Repr

/-- The words for a misconfiguration. -/
def Misconfiguration.text : Misconfiguration → String
  | .pathLength n =>
    "path_length must be in [1, " ++ toString maxPathLength ++ "], got " ++ toString n
  | .ratio x => "high_degree_ratio must be in (0, 1], got " ++ x.positional
  | .workerLimit => "worker_limit must be at least 1"
  | .tokenCount n => "meta-path must have an odd number of tokens, got " ++ toString n
  | .suffixCount n => "suffix must be (edge, node) pairs, got " ++ toString n ++ " tokens"
  | .dictionaryFull => "label dictionary exceeded maximum of " ++ toString maxLabels ++ " labels"
  | .noNodeLabels => "graph has no node labels"
  | .unreadable file reason => file ++ ": " ++ reason

/-! ## §2. Faults. -/

/-- Why an operation gave no result. -/
inductive Fault where
  /-- Settings, labels or tokens that cannot be used. -/
  | configuration (cause : Misconfiguration)
  /-- A file or a sink that refused. -/
  | storage (problem : StorageProblem)
  /-- A lookup that found nothing. -/
  | unregistered (what : Subject) (id : Nat)
  /-- A weight outside its bounds. -/
  | weight (given : UInt32)
  /-- A worker that broke off. -/
  | worker (unit : WorkUnit) (reason : String)
  /-- A line of an index text that is not a record. -/
  | indexLine (number : Nat) (problem : LineProblem)
  deriving DecidableEq, Repr

/-- A fault in words. -/
def Fault.message : Fault → String
  | .configuration cause => "configuration error: " ++ cause.text
  | .storage problem => "I/O error: " ++ problem.text
  | .unregistered what id => what.text ++ " " ++ toString id ++ " is not registered"
  | .weight n =>
    "invalid weight " ++ toString n.toNat ++ ": must be in [" ++ toString minWeight.toNat ++ ", "
      ++ toString maxWeight.toNat ++ "]"
  | .worker unit reason => "worker for " ++ unit.text ++ " failed: " ++ reason
  | .indexLine number problem =>
    "malformed index line " ++ toString number ++ ": " ++ problem.text

end LabelWalks
