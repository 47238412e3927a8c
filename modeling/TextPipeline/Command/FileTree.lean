import TextPipeline.Command.Path
import TextPipeline.Command.Storage

/-!
Files in memory: a tree of directories and files with a current directory, and the storage
that it provides. A path is followed segment by segment, and only directories can be passed
through.
-/

namespace TextPipeline.Command

open Wasm (Bytes)

inductive Node
  | file (contents : Bytes)
  | directory
  deriving DecidableEq, Repr

/-- The nodes by the names on the way to them from the root; the root itself is not listed.
Of two entries with one path the earlier one counts. -/
structure FileTree where
  nodes : List (List String × Node)
  here : List String
  deriving DecidableEq, Repr

namespace FileTree

def node? (t : FileTree) (names : List String) : Option Node :=
  if names.isEmpty then some .directory else t.nodes.lookup names

def put (t : FileTree) (names : List String) (node : Node) : FileTree :=
  { t with nodes := (names, node) :: t.nodes }

/-- The most bytes that a name can have. -/
def nameLimit : Nat := 255

/-- The most bytes that a path can have. -/
def pathLimit : Nat := 4095

/-- Looks a name up in a directory. -/
def find (t : FileTree) (dir : List String) (name : String) : Except FileFault (Option Node) :=
  if nameLimit < name.utf8ByteSize then .error .nameTooLong else .ok (t.node? (dir ++ [name]))

/-- The last step of a path. -/
inductive Target
  /-- The path ends where it stands, in a directory. -/
  | directory
  /-- A name in a directory, which may not have it, and whether a slash follows the name. -/
  | name (dir : List String) (name : String) (slash : Bool)
  deriving DecidableEq, Repr

/-- Follows segments from a directory, up to the last name. -/
def follow (t : FileTree) (dir : List String) : List String → Except FileFault Target
  | [] => .ok .directory
  | s :: rest =>
    if s = "" ∨ s = "." then follow t dir rest
    else if s = ".." then follow t dir.dropLast rest
    else if rest.all (· = "") then .ok (.name dir s !rest.isEmpty)
    else
      match t.find dir s with
      | .error f => .error f
      | .ok (some .directory) => follow t (dir ++ [s]) rest
      | .ok (some (.file _)) => .error .notDirectory
      | .ok none => .error .notFound

def resolve (t : FileTree) (path : String) : Except FileFault Target :=
  if pathLimit < path.utf8ByteSize then .error .nameTooLong
  else
    match Path.segments path with
    | [""] => .error .notFound
    | "" :: rest => t.follow [] rest
    | segments => t.follow t.here segments

def read (t : FileTree) (path : String) : Except FileFault Bytes := do
  match ← t.resolve path with
  | .directory => .error .isDirectory
  | .name dir name slash =>
    match ← t.find dir name with
    | some .directory => .error .isDirectory
    | some (.file contents) => if slash then .error .notDirectory else return contents
    | none => .error .notFound

def makeDirectory (t : FileTree) (path : String) : Except FileFault FileTree := do
  match ← t.resolve path with
  | .directory => .error .alreadyExists
  | .name dir name _ =>
    match ← t.find dir name with
    | some _ => .error .alreadyExists
    | none => return t.put (dir ++ [name]) .directory

def isDirectory (t : FileTree) (path : String) : Bool :=
  match t.resolve path with
  | .ok .directory => true
  | .ok (.name dir name _) => t.node? (dir ++ [name]) = some .directory
  | .error _ => false

/-- Writes a file. A slash at the end asks for a directory, whatever has the name before it. -/
def write (t : FileTree) (path : String) (contents : Bytes) : Except FileFault FileTree := do
  match ← t.resolve path with
  | .directory | .name _ _ true => .error .isDirectory
  | .name dir name false =>
    match ← t.find dir name with
    | some .directory => .error .isDirectory
    | _ => return t.put (dir ++ [name]) (.file contents)

/-- Makes a change that may fail to the tree in the state. -/
def change (f : FileTree → Except FileFault FileTree) : StateM FileTree (Except FileFault Unit) :=
  fun t =>
    match f t with
    | .ok t' => (.ok (), t')
    | .error e => (.error e, t)

/-- A tree in the state as storage, with these bytes on the standard input. -/
def storage (standardInput : Bytes) : Storage (StateM FileTree) where
  standardInput := pure standardInput
  read path := return (← get).read path
  makeDirectory path := change (·.makeDirectory path)
  isDirectory path := return (← get).isDirectory path
  write path contents := change (·.write path contents)

end FileTree

end TextPipeline.Command
