import DeadCode.Path
import DeadCode.SortedMap
import DeadCode.Text.Affix

/-!
Files and the `package:` addresses under which they can be imported. Either the directory around the
last `lib` directory of a path names the package, or the packages are known by name with their roots.
-/
namespace DeadCode
open DeadCode.Text

/-- The package name and the path inside the package that an address holds. -/
def splitPackageUri? (uri : String) : Option (String × String) := do
  let body ← stripLead? uri.toList "package:"
  let name := body.takeWhile (· != '/')
  match body.dropWhile (· != '/') with
  | _ :: rest =>
    if name.isEmpty || rest.isEmpty then none else some (String.ofList name, String.ofList rest)
  | [] => none

def packageUri (package : String) (inside : List Component) : String :=
  "package:" ++ package ++ "/" ++ "/".intercalate (inside.map (·.text))

/-- The directories named `lib`, by the name of the directory around each. -/
structure LibDirectories where
  directories : SortedMap String Path
deriving DecidableEq, Repr

namespace LibDirectories

/-- Splits the components of a file at the last directory `lib`: the name of the directory around it,
the components up to it, and those below. Nothing may be missing on either side. -/
def split? (file : Path) : Option (String × List Component × List Component) :=
  let reversed := file.components.reverse
  let below := (reversed.takeWhile (· != .name "lib")).reverse
  match reversed.dropWhile (· != .name "lib") with
  | lib :: around :: above =>
    if below.isEmpty then none else some (around.text, (lib :: around :: above).reverse, below)
  | _ => none

/-- Learns the directories from files; for a name that occurs twice the first file decides. -/
def ofFiles (files : List Path) : LibDirectories :=
  ⟨files.foldl (fun known file =>
    match split? file with
    | some (package, directory, _) => known.insertIfNew package (Path.ofComponents directory)
    | none => known) .empty⟩

def uriOf? (file : Path) : Option String :=
  (split? file).map fun (package, _, inside) => packageUri package inside

def fileOf? (known : LibDirectories) (uri : String) : Option Path := do
  let (package, inside) ← splitPackageUri? uri
  let directory ← known.directories.get? package
  some (directory.join ⟨inside⟩).normalize

end LibDirectories

/-- How files and addresses correspond. -/
inductive PackageLayout where
  | libSegment (known : LibDirectories)
  /-- Packages by name with their roots; files outside of all of them go by their `lib` directory. -/
  | pubspec (packages : SortedMap String Path) (fallback : LibDirectories)
deriving DecidableEq, Repr

namespace PackageLayout

/-- Of two packages the one with the deeper root; on a par the later one. -/
def deeper (best : Option (String × Path)) (next : String × Path) : Option (String × Path) :=
  match best with
  | none => some next
  | some old => if next.2.components.length < old.2.components.length then some old else some next

/-- The innermost package whose `lib` directory holds a file, with that directory. -/
def owner? (packages : SortedMap String Path) (file : Path) : Option (String × Path) :=
  let libraries := packages.entries.map fun (name, root) => (name, root.join ⟨"lib"⟩)
  (libraries.filter fun (_, library) => file.startsWith library).foldl deeper none

/-- The address under which a file can be imported. -/
def uriOf? (layout : PackageLayout) (file : Path) : Option String :=
  match layout with
  | libSegment _ => LibDirectories.uriOf? file
  | pubspec packages _ =>
    match owner? packages file with
    | some (name, library) =>
      some (packageUri name (file.components.drop library.components.length))
    | none => LibDirectories.uriOf? file

def fileOf? (layout : PackageLayout) (uri : String) : Option Path :=
  match layout with
  | libSegment known => known.fileOf? uri
  | pubspec packages fallback => do
    let (package, inside) ← splitPackageUri? uri
    match packages.get? package with
    | some root => some ((root.join ⟨"lib"⟩).join ⟨inside⟩).normalize
    | none => fallback.fileOf? uri

/-- The file that the address in a directive stands for, seen from the file that holds it. Addresses
of other schemes stand for none. -/
def resolve? (layout : PackageLayout) (uri : String) (source : Path) : Option Path :=
  if startsWith uri.toList "package:" then layout.fileOf? uri
  else if uri.toList.contains ':' then none
  else source.parent?.map fun directory => (directory.join ⟨uri⟩).normalize

end PackageLayout
end DeadCode
