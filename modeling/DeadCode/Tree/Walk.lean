import DeadCode.Settings.Basic
import DeadCode.Tree.Basic
import DeadCode.Tree.Ignore

/-!
The files of a project. Hidden files and those that ignore files name are passed over, except where a
walk begins; then the settings leave some out. Of the exclusions of a repository those in its own
directory count: worktrees that are linked to another repository, and what a user excludes everywhere,
are left out.
-/
namespace DeadCode
open DeadCode.Ignore

/-- The files that a run is about. -/
inductive FileType where
  | dart
  | pubspec
deriving DecidableEq, Repr

def FileType.tag : FileType → String
  | dart => "dart"
  | pubspec => "pubspec"

/-- The type of a file by its name. -/
def FileType.of? (path : Path) : Option FileType :=
  if path.fileName? == some "pubspec.yaml" then some .pubspec
  else if path.extension? == some "dart" then some .dart
  else none

/-- What the ignore files in a directory say. -/
structure DirectoryRules where
  place : Place
  /-- From `.ignore`. -/
  plain : List Rule
  /-- From `.gitignore`. -/
  git : List Rule
  /-- From the exclusions of a repository. -/
  exclude : List Rule
  /-- Whether the directory is that of a repository. -/
  isRepository : Bool

namespace FileTree

def rulesIn (tree : FileTree) (place : Place) : List Rule :=
  match tree.node? place with
  | some (.file content) => rulesOf content.readable
  | _ => []

def directoryRules (tree : FileTree) (place : Place) : DirectoryRules where
  place := place
  plain := tree.rulesIn (place ++ [".ignore"])
  git := tree.rulesIn (place ++ [".gitignore"])
  exclude := tree.rulesIn (place ++ [".git", "info", "exclude"])
  isRepository := [".git", ".jj"].any fun name => (tree.node? (place ++ [name])).isSome

/-- The directories around a place, the innermost first. -/
def directoriesAround (place : Place) : List Place :=
  (List.range place.length).reverse.map place.take

/-- The directories up to the first that is a repository. -/
private def inRepository : List DirectoryRules → List DirectoryRules
  | [] => []
  | rules :: rest => if rules.isRepository then [rules] else rules :: inRepository rest

private def firstVerdict (place : Place) (isDirectory : Bool)
    (rulesOf : DirectoryRules → List Rule) (directories : List DirectoryRules) : Verdict :=
  directories.foldr
    (fun rules later =>
      let below := "/".intercalate (place.drop rules.place.length)
      (verdict (rulesOf rules) below.toList isDirectory).orElse later)
    .undecided

/-- What the ignore files around a place say about it. Those of a repository hold only inside one, and
yield to the others. -/
def ignoreVerdict (tree : FileTree) (place : Place) (isDirectory : Bool) : Verdict :=
  let around := (directoriesAround place).map tree.directoryRules
  let inside := if around.any (·.isRepository) then inRepository around else []
  ((firstVerdict place isDirectory (·.plain) around).orElse
    (firstVerdict place isDirectory (·.git) inside)).orElse
      (firstVerdict place isDirectory (·.exclude) inside)

/-- Whether a walk passes over a place. -/
def isPassedOver (tree : FileTree) (place : Place) (isDirectory : Bool) : Bool :=
  match tree.ignoreVerdict place isDirectory with
  | .ignored => true
  | .kept => false
  | .undecided => place.getLast?.any fun name => name.toList.head? == some '.'

def isReached (tree : FileTree) (start : Place) (below : List String) : Bool :=
  (List.range below.length).all fun i =>
    !tree.isPassedOver (start ++ below.take (i + 1)) (i + 1 < below.length)

/-- The files that a walk from a path comes to, named from that path on. -/
def walk (tree : FileTree) (start : Path) : List Path :=
  match tree.locate start with
  | .error _ => []
  | .ok (_, .file _) => [start]
  | .ok (place, .directory) =>
    (tree.files.filter fun file => place.isPrefixOf file && place.length < file.length &&
      tree.isReached place (file.drop place.length)).map fun file =>
        (file.drop place.length).foldl (fun path name => path.join ⟨name⟩) start

end FileTree

/-- Puts a path in front of later ones, in place of the first of them if that is equal. -/
def consPath (path : Path) : List Path → List Path
  | [] => [path]
  | next :: rest => if path.same next then path :: rest else path :: next :: rest

/-- Paths in order, of equal ones the first. -/
def sortPaths (paths : List Path) : List Path :=
  (paths.mergeSort fun a b => (compare a b).isLE).foldr consPath []

namespace Settings

/-- The files of a type that a walk from a path comes to and that are not left out. -/
def filesBelow (settings : Settings) (tree : FileTree) (root start : Path) (type : FileType) :
    List Path :=
  (tree.walk start).filter fun path =>
    FileType.of? path == some type && !settings.excludes ((path.stripBase? root).getD path)

/-- The root of a project, from the root of the tree. -/
def checkRoot (tree : FileTree) (root : Path) : Except RunError Path :=
  match tree.locate root with
  | .error _ => .error (.missingRoot root)
  | .ok (_, .file _) => .error (.rootNotADirectory root)
  | .ok (place, .directory) => .ok place.path

/-- The sources of a project, in order. -/
def findFiles (settings : Settings) (tree : FileTree) (root : Path) : Except RunError (List Path) := do
  let root ← checkRoot tree root
  let starts := if settings.targets.isEmpty then [root] else settings.targets.map root.join
  .ok (sortPaths (starts.flatMap fun start => settings.filesBelow tree root start .dart))

/-- The package descriptions of a project, in order. -/
def findPubspecs (settings : Settings) (tree : FileTree) (root : Path) : List Path :=
  (settings.filesBelow tree root root .pubspec).mergeSort fun a b => (compare a b).isLE

end Settings
end DeadCode
