import Lisplet.Machine

/-! A directory tree held in memory, and how a path leads through it. Paths start at the
top of the tree; what lies above the top is taken to be empty. -/

namespace Lisplet

inductive Node where
  | file (content : ByteArray)
  | directory (entries : List (String × Node))
deriving Inhabited

namespace Node

/-- The longest name, and the longest path, in bytes. -/
def longestName : Nat := 255

def longestPath : Nat := 4095

def child? (name : String) : List (String × Node) → Option Node
  | [] => none
  | (n, node) :: rest => if n = name then some node else child? name rest

/-- What stands where a node is put: a directory that is there already stays. -/
def replacing : Node → Option Node → Node
  | directory _, some (directory inner) => directory inner
  | node, _ => node

/-- Puts a node at the end of a way of names, through directories made where none are. -/
def place (leaf : Node) : List String → List (String × Node) → List (String × Node)
  | [], entries => entries
  | [name], entries =>
    entries.filter (fun e => e.1 ≠ name) ++ [(name, leaf.replacing (child? name entries))]
  | name :: names, entries =>
    let within :=
      match child? name entries with
      | some (directory inner) => inner
      | _ => []
    entries.filter (fun e => e.1 ≠ name) ++ [(name, directory (place leaf names within))]

/-- Puts a node at the end of a path, of which `names` are left and `way` leads to where it
has come, the last name first. A directory that the path leaves again is made as well. -/
def placeAlong (leaf : Node) (way : List String) :
    List String → List (String × Node) → List (String × Node)
  | [], entries => place leaf way.reverse entries
  | name :: names, entries =>
    if name = "" ∨ name = "." then placeAlong leaf way names entries
    else if name = ".." then
      placeAlong leaf way.tail names (place (directory []) way.reverse entries)
    else placeAlong leaf (name :: way) names entries

/-- The directory of `nodes`, each at its path. -/
def ofPaths (nodes : List (String × Node)) : Node :=
  directory (nodes.foldl (fun entries n => placeAlong n.2 [] (n.1.splitOn "/") entries) [])

/-- Follows names from a node; `outer` are the directories around it, the nearest first. -/
def walk : List Node → Node → List String → Except FileFault Node
  | _, node, [] => .ok node
  | _, file _, _ :: _ => .error .notDirectory
  | outer, directory entries, name :: names =>
    if name = "" ∨ name = "." then walk outer (directory entries) names
    else if name = ".." then
      match outer with
      | [] => walk [] (directory []) names
      | up :: above => walk above up names
    else if longestName < name.utf8ByteSize then .error .nameTooLong
    else
      match child? name entries with
      | none => .error .notFound
      | some node => walk (directory entries :: outer) node names

/-- The text of the file at a path. -/
def readText (top : Node) (path : String) : Except FileFault String :=
  if path = "" then .error .notFound
  else if path.toList.contains '\x00' then .error .zeroInPath
  else if longestPath < path.utf8ByteSize then .error .nameTooLong
  else
    match walk [] top (path.splitOn "/") with
    | .error fault => .error fault
    | .ok (directory _) => .error .isDirectory
    | .ok (file content) =>
      match String.fromUTF8? content with
      | some s => .ok s
      | none => .error .notUnicode

end Node

namespace Disk

/-- The disk that holds a directory tree. -/
def ofNode (top : Node) : Disk := ⟨fun path => some (top.readText path)⟩

/-- The disk of which only the files listed have been looked at. -/
def ofList (known : List (String × Except FileFault String)) : Disk :=
  ⟨fun path => known.lookup path⟩

end Disk

end Lisplet
