import DeadCode.Path
import DeadCode.Warning

/-!
A tree of files. A place in the tree is the list of the names that lead to it from the root; a
directory exists if it was made or if something lies below it. There are no links: each file and each
directory has one place.
-/
namespace DeadCode

/-- What a file holds. -/
inductive Content where
  | text (contents : String)
  /-- Bytes that are not UTF-8, and the lines before the first one that is not. -/
  | malformed (readable : String)
deriving DecidableEq, Repr

namespace Content

private def splitLines : List UInt8 → List (List UInt8)
  | [] => [[]]
  | byte :: rest =>
    match byte == 10, splitLines rest with
    | false, line :: lines => (byte :: line) :: lines
    | _, lines => [] :: lines

def ofBytes (bytes : ByteArray) : Content :=
  match String.fromUTF8? bytes with
  | some contents => .text contents
  | none =>
    let lines := (splitLines bytes.toList).map fun line => String.fromUTF8? ⟨line.toArray⟩
    .malformed (String.join ((lines.takeWhile Option.isSome).map fun line => line.getD "" ++ "\n"))

/-- What can be read line by line. -/
def readable : Content → String
  | text contents => contents
  | malformed lines => lines

end Content

inductive Node where
  | file (content : Content)
  | directory
deriving DecidableEq, Repr

/-- The names that lead to a place. -/
abbrev Place := List String

/-- The place that a path from the root denotes, without looking at any tree. -/
def Place.ofPath (path : Path) : Place :=
  path.normalize.components.filterMap fun
    | .name text => some text
    | _ => none

def Place.path (place : Place) : Path :=
  .ofComponents (.root :: place.map .name)

/-- Where a component leads from a place. The root is its own parent. -/
def Component.leadFrom (here : Place) : Component → Place
  | .root => []
  | .current => here
  | .parent => here.dropLast
  | .name text => here ++ [text]

structure FileTree where
  entries : List (Place × Node)
  /-- Where relative paths begin. -/
  here : Place
deriving DecidableEq, Repr

namespace FileTree

def empty : FileTree := ⟨[], []⟩

/-- Puts something at a place, instead of what is there. -/
def insert (tree : FileTree) (place : Place) (node : Node) : FileTree :=
  { tree with entries := tree.entries.filter (·.1 != place) ++ [(place, node)] }

def node? (tree : FileTree) (place : Place) : Option Node :=
  match tree.entries.find? (·.1 == place) with
  | some (_, node) => some node
  | none =>
    if place.isEmpty || tree.entries.any (fun entry => place.isPrefixOf entry.1) then some .directory
    else none

/-- The place where a path leads from another place. Every step but the last has to be a directory,
also one that is taken back. -/
def follow (tree : FileTree) : Place → List Component → Except ReadError Place
  | here, [] => .ok here
  | here, step :: rest =>
    match tree.node? here with
    | none => .error .missing
    | some (.file _) => .error .notADirectory
    | some .directory => tree.follow (step.leadFrom here) rest

/-- The place of a path and what stands there. The empty path leads nowhere, and one that ends in a
slash leads to a directory only. -/
def locate (tree : FileTree) (path : Path) : Except ReadError (Place × Node) := do
  if path.text.isEmpty then .error .missing
  else
    let place ← tree.follow tree.here path.components
    match tree.node? place with
    | none => .error .missing
    | some (.file content) =>
      if path.endsIdle then .error .notADirectory else .ok (place, .file content)
    | some .directory => .ok (place, .directory)

def read (tree : FileTree) (path : Path) : Except ReadError String := do
  match ← tree.locate path with
  | (_, .file (.text contents)) => .ok contents
  | (_, .file (.malformed _)) => .error .malformed
  | (_, .directory) => .error .isADirectory

def «exists» (tree : FileTree) (path : Path) : Bool := (tree.locate path).isOk

def isFile (tree : FileTree) (path : Path) : Bool :=
  match tree.locate path with
  | .ok (_, .file _) => true
  | _ => false

def isDirectory (tree : FileTree) (path : Path) : Bool :=
  match tree.locate path with
  | .ok (_, .directory) => true
  | _ => false

/-- The places of all files. -/
def files (tree : FileTree) : List Place :=
  tree.entries.filterMap fun
    | (place, .file _) => some place
    | (_, .directory) => none

/-- The components of the paths in normal form that lead to a place. They begin at the root or where
relative paths do, and go up by one level at most before they go down. -/
def spellings (tree : FileTree) (place : Place) : List (List Component) :=
  let leads : List (List Component × Place) :=
    [([.root], []), ([.root, .parent], []), ([], tree.here), ([.parent], tree.here.dropLast)]
  leads.filterMap fun (lead, above) =>
    if above.isPrefixOf place then some (lead ++ (place.drop above.length).map .name) else none

/-- Writes a file, into a directory that exists and over no directory. -/
def write? (tree : FileTree) (path : Path) (contents : String) : Option FileTree :=
  match path.components.getLast? with
  | some (.name name) =>
    match tree.follow tree.here path.components.dropLast with
    | .error _ => none
    | .ok above =>
      if path.endsIdle || tree.node? above ≠ some .directory ||
        tree.node? (above ++ [name]) = some .directory then none
      else some (tree.insert (above ++ [name]) (.file (.text contents)))
  | _ => none

end FileTree
end DeadCode
