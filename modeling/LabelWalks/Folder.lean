/-
  LabelWalks.Folder
  ─────────────────
  **A FOLDER AND WHAT IS IN IT.**

  A folder holds files and further folders under paths, which start at the top or
  at a place inside.  Paths are walked component by component: what a component is
  looked up in must be a folder, one dot stays there, and two dots go up, never
  above the top.

    • `create` makes or empties a file, `read` gives its content,
    • `createAll` makes a folder and those above it.
-/
import LabelWalks.Fault
import LabelWalks.Text.Split
import Std.Data.ExtTreeMap

namespace LabelWalks

/-! ## §1. Path texts. -/

namespace Path

/-- The components of a path text; empty ones mean nothing. -/
def components (path : String) : List String :=
  ((Text.split '/' path.toList).filter fun c => !c.isEmpty).map String.ofList

/-- A path below another one; an absolute one stands for itself. -/
def below (base path : String) : String :=
  if path.startsWith "/" || base.isEmpty then path
  else if base.endsWith "/" then base ++ path
  else base ++ "/" ++ path

/-- The last component of a path, if it is a name; a dot at the end means nothing. -/
def fileName? (path : String) : Option String :=
  let names := (components path).filter fun c => c != "."
  match names.getLast? with
  | some name => if name = ".." then none else some name
  | none => none

end Path

/-! ## §2. Folders. -/

/-- What a path leads to. -/
inductive Node where
  | folder
  | file (content : String)
  deriving DecidableEq, Repr

/-- Files and folders by the names that lead to them from the top, and the names
of the folder where relative paths start. -/
structure Folder where
  nodes : Std.ExtTreeMap (List String) Node
  here : List String

namespace Folder

/-- The folder with nothing in it but those on the way to where relative paths start. -/
def emptyAt (here : List String) : Folder :=
  let above := (List.range here.length).map fun i => here.take (i + 1)
  { nodes := .ofList (above.map fun names => (names, Node.folder)), here }

/-- What names from the top lead to; no name leads to the top. -/
def node? (f : Folder) (names : List String) : Option Node :=
  if names.isEmpty then some .folder else f.nodes[names]?

/-- The folder with something else at the end of names. -/
def put (f : Folder) (names : List String) (node : Node) : Folder :=
  { f with nodes := f.nodes.insert names node }

/-- Walks components from `names` on.  The last name need not lead to anything. -/
def walk (f : Folder) (names : List String) : List String → Except StorageProblem (List String)
  | [] => .ok names
  | c :: rest =>
    match f.node? names with
    | none => .error .notFound
    | some (.file _) => .error .notDirectory
    | some .folder =>
      if c = "." then f.walk names rest
      else if c = ".." then f.walk names.dropLast rest
      else if 255 < c.utf8ByteSize then .error .nameTooLong
      else f.walk (names ++ [c]) rest

/-- The names that a path text leads along. -/
def resolve (f : Folder) (path : String) : Except StorageProblem (List String) :=
  if path.contains '\x00' then .error .nulInName
  else if path.isEmpty then .error .notFound
  else if 4096 ≤ path.utf8ByteSize then .error .nameTooLong
  else f.walk (if path.startsWith "/" then [] else f.here) (Path.components path)

/-! ## §3. Files. -/

/-- The content of the file at a path. -/
def read (f : Folder) (path : String) : Except StorageProblem String := do
  let names ← f.resolve path
  match f.node? names with
  | none => .error .notFound
  | some .folder => .error .isDirectory
  | some (.file content) =>
    if path.endsWith "/" then .error .notDirectory else .ok content

/-- The names of a file that is made, or emptied if it is there. -/
def create (f : Folder) (path : String) : Except StorageProblem (List String × Folder) := do
  let names ← f.resolve path
  if path.endsWith "/" then throw .isDirectory
  match f.node? names with
  | some .folder => throw .isDirectory
  | _ => return (names, f.put names (.file ""))

/-- The folder with another content of a file. -/
def write (f : Folder) (names : List String) (content : String) : Folder :=
  f.put names (.file content)

/-- The files below the place where relative paths start, with their paths from there. -/
def files (f : Folder) : List (String × String) :=
  f.nodes.toList.filterMap fun (names, node) =>
    match node with
    | .folder => none
    | .file content =>
      if f.here.isPrefixOf names then some ("/".intercalate (names.drop f.here.length), content)
      else none

/-! ## §4. Making folders. -/

/-- Makes a folder in a folder that is there. -/
def createOne (f : Folder) (path : String) : Except StorageProblem Folder := do
  let names ← f.resolve path
  match f.node? names with
  | some _ => throw .alreadyExists
  | none => return f.put names .folder

/-- The path leads to a folder. -/
def isFolder (f : Folder) (path : String) : Bool :=
  match f.resolve path with
  | .ok names => f.node? names == some .folder
  | .error _ => false

/-- Makes a folder that may be there already. -/
def ensureOne (f : Folder) (path : String) : Except StorageProblem Folder :=
  match f.createOne path with
  | .ok f => .ok f
  | .error problem => if f.isFolder path then .ok f else .error problem

/-- Makes a folder whose components are given last first below `base`, and, if
what it is to be made in is not there, that one before. -/
def createUp (f : Folder) (base : String) : List String → Except StorageProblem Folder
  | [] => .ok f
  | c :: above =>
    let path := base ++ "/".intercalate (c :: above).reverse
    match f.ensureOne path with
    | .error .notFound => do (← f.createUp base above).ensureOne path
    | made => made

/-- Makes a folder and those above it. -/
def createAll (f : Folder) (path : String) : Except StorageProblem Folder :=
  let base := if path.startsWith "/" then "/" else ""
  if path.contains '\x00' then .error .nulInName
  else f.createUp base (Path.components path).reverse

end Folder

end LabelWalks
