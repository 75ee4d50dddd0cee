import DeadCode.Package
import DeadCode.Settings.Load

/-!
Package descriptions, and the layout of the packages of a project.
-/
namespace DeadCode

/-- The name of a package, if its description gives one. -/
def Format.packageName? {α : Type} (format : Format α) (value : α) : Option (Option String) := do
  let fields ← format.fields? ["name"] value
  field? fields "name" none fun value => do
    match ← format.optional? value with
    | none => some none
    | some value => (format.text? value).map some

/-- The name of a package, from its description; `none` also if it is malformed. -/
def pubspecName? (contents : List Char) : Option String := do
  let document ← (← Yaml.Document.read? contents)
  (← (Format.yaml document).packageName? document.root)

/-- The packages that are described, with the directories of their descriptions. Of two with the same
name the first counts; those that cannot be read or have no name do not. -/
def FileTree.packages (tree : FileTree) (pubspecs : List Path) : SortedMap String Path :=
  pubspecs.foldl
    (fun packages pubspec =>
      match pubspec.parent?, (tree.read pubspec).toOption.bind fun text => pubspecName? text.toList with
      | some root, some name => packages.insertIfNew name root
      | _, _ => packages)
    .empty

/-- The layout of the packages of some files. -/
def PackageStrategy.layout (strategy : PackageStrategy) (tree : FileTree)
    (files pubspecs : List Path) : PackageLayout :=
  match strategy with
  | .libSegment => .libSegment (.ofFiles files)
  | .pubspec => .pubspec (tree.packages pubspecs) (.ofFiles files)

end DeadCode
