import DeadCode.Proofs.Access
import DeadCode.Proofs.PackageAddresses
import DeadCode.Proofs.Scanning

/-!
What an import points at is asked twice. Its address is resolved when it is read, and when access is worked out a file
is also accepted if its own address is the one that is written. The answers agree, except for files outside of all
packages that go by a name under which another directory is known, and for packages with a slash in their name.
-/
namespace DeadCode
open DeadCode.Text

/-! ### Directories around files -/

namespace LibDirectories

/-- A file is split right after the last directory `lib`. It has a directory around that one and something below. -/
theorem exists_of_split? {file : Path} {name : String} {directory inside : List Component}
    (place : split? file = some (name, directory, inside)) :
    ∃ above around, directory = above ++ [around, .name "lib"] ∧ name = around.text ∧
      file.components = directory ++ inside ∧ inside ≠ [] := by
  unfold split? at place
  dsimp only at place
  split at place
  case h_2 => cases place
  case h_1 lib around above rest =>
    split at place
    · cases place
    · rename_i more
      obtain ⟨rfl, rfl, rfl⟩ : around.text = name ∧ (lib :: around :: above).reverse = directory ∧
          (file.components.reverse.takeWhile (· != .name "lib")).reverse = inside := by simpa using place
      have named : lib = .name "lib" := by
        have stopped := List.head?_dropWhile_not (· != Component.name "lib") file.components.reverse
        rw [rest, List.head?_cons] at stopped
        simpa using stopped
      have whole := congrArg List.reverse
        (List.takeWhile_append_dropWhile (p := (· != Component.name "lib")) (l := file.components.reverse))
      rw [rest, List.reverse_append, List.reverse_reverse] at whole
      exact ⟨above.reverse, around, by simp [named], rfl, whole.symm, by simpa using more⟩

end LibDirectories

namespace PackageLayout

def packages : PackageLayout → SortedMap String Path
  | libSegment _ => .empty
  | pubspec packages _ => packages

def directory? (layout : PackageLayout) (name : String) : Option Path :=
  match layout with
  | libSegment known => known.directories.get? name
  | pubspec packages fallback =>
    match packages.get? name with
    | some root => some (libOf root)
    | none => fallback.directories.get? name

/-- The address of a file is misleading: the name in it ends early, or the file is in no package and another directory
is known by the name of the one around it. -/
inductive Shadowed (layout : PackageLayout) (file : Path) : Prop where
  | divided {name : String} {library : Path} (owned : owner? layout.packages file = some (name, library))
      (slash : '/' ∈ name.toList)
  | taken {name : String} {directory inside : List Component} {known : Path}
      (free : owner? layout.packages file = none)
      (place : LibDirectories.split? file = some (name, directory, inside))
      (other : layout.directory? name = some known)
      (apart : known.normalize ≠ (Path.ofComponents directory).normalize)

/-- Addresses are looked up in the directory of their package. -/
theorem fileOf?_eq (layout : PackageLayout) (uri : String) :
    layout.fileOf? uri = (splitPackageUri? uri).bind fun parts =>
      (layout.directory? parts.1).map fun directory => (directory.join ⟨parts.2⟩).normalize := by
  cases split : splitPackageUri? uri with
  | none => cases layout <;> simp [fileOf?, LibDirectories.fileOf?, split]
  | some parts =>
    cases layout with
    | libSegment known =>
      cases found : known.directories.get? parts.1 <;>
        simp [fileOf?, LibDirectories.fileOf?, split, directory?, found]
    | pubspec packages fallback =>
      cases found : packages.get? parts.1 with
      | some root => simp [fileOf?, split, directory?, found, libOf]
      | none =>
        cases kept : fallback.directories.get? parts.1 <;>
          simp [fileOf?, LibDirectories.fileOf?, split, directory?, found, kept]

/-- A file outside of all packages goes by the directory around it. -/
theorem uriOf?_of_free {layout : PackageLayout} {file : Path} (free : owner? layout.packages file = none) :
    layout.uriOf? file = LibDirectories.uriOf? file := by
  cases layout with
  | libSegment _ => rfl
  | pubspec packages fallback =>
    have free : owner? packages file = none := free
    rw [uriOf?, free]

/-! ### There and elsewhere -/

/-- A directory has a name that can be read in an address, unless it is the root. -/
private theorem readable_around {file : Path} {above rest : List Component} {around : Component}
    (split : file.components = above ++ around :: rest) (notRoot : around ≠ .root) :
    around.text ≠ "" ∧ '/' ∉ around.text.toList := by
  have ofStep (step : around.IsStep) : around.text ≠ "" ∧ '/' ∉ around.text.toList := by
    obtain ⟨undivided, busy, -⟩ := Path.text_of_isStep step
    refine ⟨fun empty => ?_, undivided⟩
    rw [empty] at busy
    cases busy
  cases above with
  | nil =>
    rcases (Path.isStep_of_components_eq_cons split).1 with root | rfl | step
    · exact absurd root notRoot
    · decide
    · exact ofStep step
  | cons first others =>
    exact ofStep ((Path.isStep_of_components_eq_cons split).2 around (List.mem_append_right _ List.mem_cons_self))

/-- An address that begins with a slash cannot be read. -/
private theorem splitPackageUri?_slash (inside : List Component) : splitPackageUri? (packageUri "/" inside) = none := by
  have body : stripLead? (packageUri "/" inside).toList "package:" =
      some ('/' :: '/' :: (Path.separated inside).toList) := by
    rw [toList_packageUri, stripLead?, startsWith, if_pos (List.isPrefixOf_iff_prefix.mpr (List.prefix_append _ _)),
      List.drop_left]
    rfl
  simp [splitPackageUri?, body]

/-- A file outside of all packages has an address that leads below the directory which is known by the name in it, and
the file itself lies below its own directory in the same way. -/
private theorem exists_directory?_of_split? {layout : PackageLayout} {file start : Path} {name : String}
    {directory inside : List Component} (place : LibDirectories.split? file = some (name, directory, inside))
    (resolved : layout.fileOf? (packageUri name inside) = some start) :
    ∃ known path : Path, layout.directory? name = some known ∧ start = path.normalize ∧
      start.components = inside.foldl Path.fold known.normalize.components ∧
      file.normalize.components = inside.foldl Path.fold (Path.ofComponents directory).normalize.components := by
  obtain ⟨above, around, rfl, rfl, split, nonempty⟩ := LibDirectories.exists_of_split? place
  have allSteps := Path.isStep_of_components_eq (by simp) split
  have below : file.normalize.components =
      inside.foldl Path.fold (Path.ofComponents (above ++ [around, .name "lib"])).normalize.components := by
    rw [Path.components_normalize, Path.components_normalize, Path.components_ofComponents_of_prefix split, split,
      List.foldl_append]
  rw [fileOf?_eq] at resolved
  by_cases root : around = .root
  · rw [root] at resolved
    have unread : splitPackageUri? (packageUri Component.root.text inside) = none := splitPackageUri?_slash inside
    rw [unread] at resolved
    cases resolved
  · have named := split
    rw [List.append_assoc] at named
    obtain ⟨named, undivided⟩ := readable_around named root
    rw [splitPackageUri?_packageUri undivided allSteps, if_neg (not_or.mpr ⟨named, nonempty⟩), Option.bind_some,
      Option.map_eq_some_iff] at resolved
    obtain ⟨known, found, rfl⟩ := resolved
    have read := Path.components_separated allSteps
    rw [← read] at allSteps
    refine ⟨known, _, found, rfl, ?_, below⟩
    rw [Path.components_normalize, Path.components_join _ allSteps, read, List.foldl_append, Path.components_normalize]

/-- An address leads to the file that has it, unless that file is shadowed. -/
theorem eq_normalize_or_shadowed {layout : PackageLayout} {file start : Path} {uri : String}
    (address : layout.uriOf? file = some uri) (resolved : layout.fileOf? uri = some start) :
    start = file.normalize ∨ layout.Shadowed file := by
  cases owned : owner? layout.packages file with
  | none =>
    rw [uriOf?_of_free owned] at address
    obtain ⟨⟨name, directory, inside⟩, place, rfl⟩ := Option.map_eq_some_iff.mp address
    obtain ⟨known, path, found, rfl, leads, lies⟩ := exists_directory?_of_split? place resolved
    by_cases agree : known.normalize = (Path.ofComponents directory).normalize
    · refine .inl (Path.normalize_eq_of_same (Path.same_iff.mpr ?_))
      rw [leads, lies, agree]
    · exact .inr (.taken owned place found agree)
  | some chosen =>
    by_cases slash : '/' ∈ chosen.1.toList
    · exact .inr (.divided owned slash)
    · cases layout with
      | libSegment known => cases owned
      | pubspec packages fallback =>
        have owned : owner? packages file = some chosen := owned
        obtain ⟨root, inside, known, split, allSteps, -, written⟩ := exists_uriOf?_of_owner? owned fallback
        obtain rfl := Option.some.inj (written.symm.trans address)
        rw [fileOf?_packageUri known slash allSteps split] at resolved
        split_ifs at resolved
        exact .inl (Option.some.inj resolved).symm

/-- If names can be read, the address of a shadowed file in normal form leads to another file. -/
theorem not_same_of_shadowed {layout : PackageLayout} {file start : Path} {uri : String}
    (undivided : ∀ entry ∈ layout.packages.entries, '/' ∉ entry.1.toList) (normal : file.normalize = file)
    (shadowed : layout.Shadowed file) (address : layout.uriOf? file = some uri)
    (resolved : layout.fileOf? uri = some start) : ¬ start.same file := by
  cases shadowed with
  | divided owned slash =>
    obtain ⟨root, known, -⟩ := exists_of_owner? owned
    exact absurd slash (undivided _ known)
  | @taken name directory inside known free place other apart =>
    rw [uriOf?_of_free free, LibDirectories.uriOf?, place] at address
    obtain rfl := Option.some.inj address
    obtain ⟨_, _, found, -, leads, lies⟩ := exists_directory?_of_split? place resolved
    obtain rfl := Option.some.inj (other.symm.trans found)
    obtain ⟨above, around, ends, -, split, -⟩ := LibDirectories.exists_of_split? place
    have spelled : file.components.foldl Path.fold [] = (above ++ [around]) ++ .name "lib" :: inside := by
      rw [← Path.components_normalize, normal, split, ends]
      simp
    have names := Path.exists_name_of_normal spelled
    intro same
    -- With names alone below them, the directories can be read off from the paths.
    rw [Path.foldl_fold_of_names names] at leads lies
    have parts := Path.same_iff.mp same
    rw [← normal, leads, lies] at parts
    exact apart (Path.normalize_eq_of_same (Path.same_iff.mpr (List.append_cancel_right parts)))

theorem startsWith_of_uriOf? {layout : PackageLayout} {file : Path} {uri : String}
    (address : layout.uriOf? file = some uri) : startsWith uri.toList "package:" := by
  have written (name : String) (inside : List Component) : startsWith (packageUri name inside).toList "package:" := by
    rw [toList_packageUri]
    exact List.isPrefixOf_iff_prefix.mpr (List.prefix_append _ _)
  cases owned : owner? layout.packages file with
  | none =>
    rw [uriOf?_of_free owned] at address
    obtain ⟨_, -, rfl⟩ := Option.map_eq_some_iff.mp address
    exact written _ _
  | some chosen =>
    cases layout with
    | libSegment known => cases owned
    | pubspec packages fallback =>
      obtain ⟨root, inside, -, -, -, -, given⟩ := exists_uriOf?_of_owner? owned fallback
      obtain rfl := Option.some.inj (given.symm.trans address)
      exact written _ _

end PackageLayout

/-! ### Imports -/

namespace Visibility

/-- An import whose address was resolved leads to the file it was resolved to and along the exports from there. It
accepts another file by its address only if that file is shadowed, and every such file it does accept. -/
theorem targets_resolved_or_shadowed (table : SymbolTable) {layout : PackageLayout} {source start : Path}
    {contents : List Char} {directive : UriDirective}
    (stated : directive ∈ (Directive.read layout source contents).imports)
    (resolved : directive.resolved = some start) :
    (∀ symbol definedIn, (ofTable table layout).leadsTo symbol definedIn directive →
      ∃ target, (target = definedIn ∨ target = table.libraryOf definedIn) ∧
        (ExportChain table.exports symbol start target ∨ start = target.normalize ∨
          layout.uriOf? target = some directive.uri ∧ layout.Shadowed target)) ∧
    ∀ file : Path, file.normalize = file →
      ((ofTable table layout).targets directive file ↔
        start.same file ∨ layout.uriOf? file = some directive.uri ∧ layout.Shadowed file) ∧
      ((∀ entry ∈ layout.packages.entries, '/' ∉ entry.1.toList) →
        layout.uriOf? file = some directive.uri → layout.Shadowed file → ¬ start.same file) := by
  have leads (scheme : startsWith directive.uri.toList "package:") : layout.fileOf? directive.uri = some start := by
    obtain ⟨sameFile, links⟩ := Directive.resolved_read layout source contents
    rw [links directive (List.mem_append_left _ stated), PackageLayout.resolve?, if_pos scheme] at resolved
    exact resolved
  have byAddress {file : Path} (address : layout.uriOf? file = some directive.uri) :
      start = file.normalize ∨ layout.Shadowed file :=
    PackageLayout.eq_normalize_or_shadowed address (leads (PackageLayout.startsWith_of_uriOf? address))
  refine ⟨fun symbol definedIn found => ?_, fun file normal =>
    ⟨⟨fun accepted => ?_, ?_⟩, fun undivided address shadowed => ?_⟩⟩
  · rcases leadsTo_iff.mp found with @⟨path, target, home, leadsTo, arrived⟩ | @⟨target, home, scheme, address⟩ |
      @⟨path, target, home, leadsTo, chain⟩
    · obtain rfl := Option.some.inj (resolved.symm.trans leadsTo)
      exact ⟨target, home, .inl (.here arrived)⟩
    · exact ⟨target, home, .inr ((byAddress address).imp id fun shadowed => ⟨address, shadowed⟩)⟩
    · obtain rfl := Option.some.inj (resolved.symm.trans leadsTo)
      exact ⟨target, home, .inl chain⟩
  · rcases targets_iff.mp accepted with ⟨path, leadsTo, arrived⟩ | ⟨scheme, address⟩
    · obtain rfl := Option.some.inj (resolved.symm.trans leadsTo)
      exact .inl arrived
    · refine (byAddress address).imp (fun same => ?_) fun shadowed => ⟨address, shadowed⟩
      rw [same, normal]
      exact Path.same_refl _
  · rintro (arrived | ⟨address, -⟩)
    · exact targets_iff.mpr (.inl ⟨start, resolved, arrived⟩)
    · exact targets_iff.mpr (.inr ⟨PackageLayout.startsWith_of_uriOf? address, address⟩)
  · exact PackageLayout.not_same_of_shadowed undivided normal shadowed address
      (leads (PackageLayout.startsWith_of_uriOf? address))

/-- Two projects in directories of one name, each with a file `x.dart`, which the first project imports. -/
def twinSources : List (Path × String) :=
  [(⟨"/a/app/lib/x.dart"⟩, "class A {}\n"), (⟨"/b/app/lib/x.dart"⟩, "class B {}\n"),
    (⟨"/a/app/lib/main.dart"⟩, "import 'package:app/x.dart';\n")]

def twinLayout : PackageLayout := .libSegment (.ofFiles (twinSources.map (·.1)))

def twinDirectives : FileDirectives :=
  Directive.read twinLayout ⟨"/a/app/lib/main.dart"⟩ "import 'package:app/x.dart';\n".toList

def twinTable : SymbolTable :=
  twinSources.foldl (fun table source => table.insertSource true twinLayout source.1 source.2.toList) .empty

theorem targets_resolved_or_shadowed_twins :
    ∃ directive ∈ twinDirectives.imports, directive.resolved = some ⟨"/a/app/lib/x.dart"⟩ ∧
      (ofTable twinTable twinLayout).targets directive ⟨"/b/app/lib/x.dart"⟩ ∧
      ¬ (⟨"/a/app/lib/x.dart"⟩ : Path).same ⟨"/b/app/lib/x.dart"⟩ ∧
      ∀ symbol, (ofTable twinTable twinLayout).leadsTo symbol ⟨"/b/app/lib/x.dart"⟩ directive →
        ∃ target, (target = ⟨"/b/app/lib/x.dart"⟩ ∨ target = twinTable.libraryOf ⟨"/b/app/lib/x.dart"⟩) ∧
          (ExportChain twinTable.exports symbol ⟨"/a/app/lib/x.dart"⟩ target ∨
            ⟨"/a/app/lib/x.dart"⟩ = target.normalize ∨
            twinLayout.uriOf? target = some directive.uri ∧ twinLayout.Shadowed target) := by
  let link : UriDirective :=
    ⟨"package:app/x.dart", some ⟨"/a/app/lib/x.dart"⟩, none, [], [], false, ⟨"/a/app/lib/main.dart"⟩⟩
  have stated : link ∈ twinDirectives.imports := by decide +kernel
  have place : LibDirectories.split? ⟨"/b/app/lib/x.dart"⟩ =
      some ("app", [.root, .name "b", .name "app", .name "lib"], [.name "x.dart"]) := by decide +kernel
  have other : twinLayout.directory? "app" = some ⟨"/a/app/lib"⟩ := by decide +kernel
  have shadowed : twinLayout.Shadowed ⟨"/b/app/lib/x.dart"⟩ := .taken rfl place other (by decide +kernel)
  have address : twinLayout.uriOf? ⟨"/b/app/lib/x.dart"⟩ = some link.uri := by decide +kernel
  obtain ⟨leads, accepts⟩ := targets_resolved_or_shadowed twinTable stated rfl
  obtain ⟨accepted, elsewhere⟩ := accepts ⟨"/b/app/lib/x.dart"⟩ (by decide +kernel)
  refine ⟨link, stated, rfl, accepted.mpr (.inr ⟨address, shadowed⟩), ?_, fun symbol => leads symbol _⟩
  exact elsewhere (fun entry member => absurd member List.not_mem_nil) address shadowed

/-- What the second project declares counts as accessible in the first one, which does not import it. -/
theorem isAccessible_in_twin :
    twinLayout.resolve? "package:app/x.dart" ⟨"/a/app/lib/main.dart"⟩ = some ⟨"/a/app/lib/x.dart"⟩ ∧
      twinTable.exports = [] ∧
      ¬ (twinTable.libraryOf ⟨"/b/app/lib/x.dart"⟩).same ⟨"/a/app/lib/x.dart"⟩ ∧
      (ofTable twinTable twinLayout).isAccessible "B" ⟨"/b/app/lib/x.dart"⟩ ⟨"/a/app/lib/main.dart"⟩ := by
  decide +kernel

end Visibility
end DeadCode
