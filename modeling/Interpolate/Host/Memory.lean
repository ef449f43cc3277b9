import Interpolate.Host
import Interpolate.Text.Utf8

/-!
# Hosts in memory

A host that is a value: an environment of bytes and a tree of files.

* **`Environment`** — names with bytes, which are read as UTF-8 with replacements;
* **`FileTree`** — files and directories below the working directory, and **`FileTree.read`**;
* **`Host.ofMemory`** — the host made of them, in any monad.
-/

namespace Interpolate

/-! ## The environment -/

/-- Names with the bytes they are set to. -/
structure Environment where
  /-- the names that are set, each once -/
  settings : List (String × List UInt8)

namespace Environment

/-- The environment with a name taken out. -/
def unset (environment : Environment) (name : String) : Environment :=
  ⟨environment.settings.filter fun v => v.1 != name⟩

/-- The environment with a name set to some bytes. -/
def set (environment : Environment) (name : String) (bytes : List UInt8) : Environment :=
  ⟨(name, bytes) :: (environment.unset name).settings⟩

/-- The text of a name. -/
def get? (environment : Environment) (name : String) : Option String :=
  (environment.settings.find? fun v => v.1 == name).map fun v => Text.decodeLossy v.2

end Environment

/-! ## Files -/

/-- What stands at a place in a tree of files. -/
inductive FileNode where
  /-- a file with its bytes -/
  | file (bytes : List UInt8)
  /-- a directory -/
  | directory

/-- Files and directories by the names on the way to them, from the working directory on. A directory is there as soon
as something in it is. -/
structure FileTree where
  /-- the places that are listed -/
  nodes : List (List String × FileNode)

namespace FileTree

/-- The names in a path. -/
def components (path : String) : List String :=
  path.splitOn "/"

/-- A tree from paths and what stands at them. -/
def ofPaths (nodes : List (String × FileNode)) : FileTree :=
  ⟨nodes.map fun (path, node) => (components path, node)⟩

/-- What stands at a place. -/
def node? (tree : FileTree) (place : List String) : Option FileNode :=
  match tree.nodes.find? fun n => n.1 == place with
  | some n => some n.2
  | none =>
    if place.isEmpty || tree.nodes.any fun n => place.isPrefixOf n.1 then some .directory else none

/-- Follows names from a place, where `node` stands. An empty name and `.` stay in a directory, `..` leaves it; whatever
is above the working directory is out of reach. -/
def walk (tree : FileTree) (place : List String) (node : FileNode) :
    (names : List String) → Except FileFault FileNode
  | [] => .ok node
  | name :: names =>
    match node with
    | .file _ => .error .notDirectory
    | .directory =>
      if name = "" ∨ name = "." then tree.walk place node names
      else if name = ".." then
        if place.isEmpty then (if names.isEmpty then .ok .directory else .error .missing)
        else tree.walk place.dropLast node names
      else
        match tree.node? (place ++ [name]) with
        | some next => tree.walk (place ++ [name]) next names
        | none => .error .missing

/-- The text of the file at a path. -/
def read (tree : FileTree) (path : String) : Except FileFault String := do
  if path.isEmpty || path.startsWith "/" then
    .error .missing
  else
    match ← tree.walk [] .directory (components path) with
    | .directory => .error .directory
    | .file bytes =>
      match Text.decode? bytes with
      | some text => .ok text
      | none => .error .notText

end FileTree

/-- A host made of values. -/
def Host.ofMemory {m : Type → Type} [Monad m] (environment : Environment) (files : FileTree) (time : LocalTime)
    (directory : String) : Host m where
  environment name := pure (environment.get? name)
  readFile path := pure (files.read path)
  time := pure time
  workingDirectory := pure (.ok directory)

end Interpolate
