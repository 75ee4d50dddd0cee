import DeadCode.Package
import DeadCode.Proofs.SortedMap
import DeadCode.Proofs.Spelling

/-!
Addresses of files in packages. The innermost package gives a file its address, and the address leads back to the
file, unless the file is itself the `lib` directory of a package: then nothing is left to stand after the name.
-/
namespace DeadCode
open DeadCode.Text

/-! ### Reading addresses -/

private theorem intercalate_text (inside : List Component) :
    "/".intercalate (inside.map (·.text)) = Path.separated inside := by
  fun_induction Path.separated inside with
  | case1 => rfl
  | case2 last => exact String.intercalate_singleton
  | case3 first rest more ih =>
    obtain ⟨second, others, rfl⟩ := List.exists_cons_of_ne_nil more
    rw [List.map_cons, List.map_cons, String.intercalate_cons_cons, ← List.map_cons, ih]

theorem toList_packageUri (name : String) (inside : List Component) :
    (packageUri name inside).toList = "package:".toList ++ (name.toList ++ '/' :: (Path.separated inside).toList) := by
  rw [packageUri, intercalate_text]
  simp

private theorem separated_eq_empty_iff {inside : List Component} (allSteps : ∀ part ∈ inside, part.IsStep) :
    Path.separated inside = "" ↔ inside = [] := by
  constructor
  · intro empty
    rw [← Path.components_separated allSteps, empty]
    decide
  · rintro rfl
    rfl

private theorem takeWhile_slash {text : List Char} (undivided : '/' ∉ text) (rest : List Char) :
    (text ++ '/' :: rest).takeWhile (· != '/') = text := by
  rw [List.takeWhile_append_of_pos fun c member => by simpa using ne_of_mem_of_not_mem member undivided]
  simp

private theorem dropWhile_slash {text : List Char} (undivided : '/' ∉ text) (rest : List Char) :
    (text ++ '/' :: rest).dropWhile (· != '/') = '/' :: rest := by
  rw [List.dropWhile_append_of_pos fun c member => by simpa using ne_of_mem_of_not_mem member undivided]
  simp

/-- An address is read as the name up to the first slash, and what follows; neither may be missing. -/
theorem splitPackageUri?_packageUri {name : String} (undivided : '/' ∉ name.toList) {inside : List Component}
    (allSteps : ∀ part ∈ inside, part.IsStep) :
    splitPackageUri? (packageUri name inside) =
      if name = "" ∨ inside = [] then none else some (name, Path.separated inside) := by
  have body : stripLead? (packageUri name inside).toList "package:" =
      some (name.toList ++ '/' :: (Path.separated inside).toList) := by
    rw [toList_packageUri, stripLead?, startsWith, if_pos (List.isPrefixOf_iff_prefix.mpr (List.prefix_append _ _)),
      List.drop_left]
  simp only [splitPackageUri?, body, Option.bind_eq_bind, Option.bind_some, takeWhile_slash undivided,
    dropWhile_slash undivided]
  simp [← separated_eq_empty_iff allSteps]

/-- An address says what it was made from. -/
theorem packageUri_inj {name other : String} (undivided : '/' ∉ name.toList) (undividedToo : '/' ∉ other.toList)
    {inside insideToo : List Component} (allSteps : ∀ part ∈ inside, part.IsStep)
    (allStepsToo : ∀ part ∈ insideToo, part.IsStep) (same : packageUri name inside = packageUri other insideToo) :
    name = other ∧ inside = insideToo := by
  have texts := congrArg String.toList same
  rw [toList_packageUri, toList_packageUri] at texts
  have texts := List.append_cancel_left texts
  have names := congrArg (List.takeWhile (· != '/')) texts
  rw [takeWhile_slash undivided, takeWhile_slash undividedToo] at names
  have paths := congrArg (List.dropWhile (· != '/')) texts
  rw [dropWhile_slash undivided, dropWhile_slash undividedToo] at paths
  have separated := String.toList_injective (List.cons.inj paths).2
  refine ⟨String.toList_injective names, ?_⟩
  rw [← Path.components_separated allSteps, separated, Path.components_separated allStepsToo]

/-! ### The innermost package -/

def libOf (root : Path) : Path := root.join ⟨"lib"⟩

theorem components_libOf (root : Path) : (libOf root).components = root.components ++ [.name "lib"] := by
  have parts : (⟨"lib"⟩ : Path).components = [.name "lib"] := by decide
  rw [libOf, root.components_join, parts]
  rw [parts]
  exact List.forall_mem_singleton.mpr ⟨by decide, by decide, by decide, by decide⟩

namespace PackageLayout

private theorem foldl_deeper_spec {libraries : List (String × Path)} {best : Option (String × Path)}
    {chosen : String × Path} (found : libraries.foldl deeper best = some chosen) :
    (chosen ∈ libraries ∨ best = some chosen) ∧
      (∀ library ∈ libraries, library.2.components.length ≤ chosen.2.components.length) ∧
      ∀ old, best = some old → old.2.components.length ≤ chosen.2.components.length := by
  induction libraries generalizing best with
  | nil => simp_all
  | cons next rest ih =>
    obtain ⟨member, deepest, bounded⟩ := ih found
    cases best with
    | none =>
      simp only [deeper] at member bounded
      grind
    | some old =>
      simp only [deeper] at member bounded
      grind

private theorem foldl_deeper_eq_none {libraries : List (String × Path)} {best : Option (String × Path)} :
    libraries.foldl deeper best = none ↔ libraries = [] ∧ best = none := by
  induction libraries generalizing best with
  | nil => simp
  | cons next rest ih =>
    have kept : deeper best next ≠ none := by
      unfold deeper
      split
      · simp
      · split <;> simp
    simp [ih, kept]

/-- Of the packages whose `lib` directory a file is in, the owner is one whose root is the deepest. -/
theorem exists_of_owner? {packages : SortedMap String Path} {file library : Path} {name : String}
    (owned : owner? packages file = some (name, library)) :
    ∃ root, (name, root) ∈ packages.entries ∧ library = libOf root ∧ file.startsWith (libOf root) ∧
      ∀ entry ∈ packages.entries, file.startsWith (libOf entry.2) →
        (libOf entry.2).components.length ≤ (libOf root).components.length := by
  obtain ⟨member, deepest, -⟩ := foldl_deeper_spec owned
  obtain ⟨listed, holds⟩ := List.mem_filter.mp (member.resolve_right (by simp))
  obtain ⟨⟨_, root⟩, known, same⟩ := List.mem_map.mp listed
  obtain ⟨rfl, rfl⟩ := Prod.mk.inj same
  refine ⟨root, known, rfl, holds, fun entry present around => ?_⟩
  exact deepest (entry.1, libOf entry.2) (List.mem_filter.mpr ⟨List.mem_map_of_mem present, around⟩)

theorem owner?_eq_none_iff {packages : SortedMap String Path} {file : Path} :
    owner? packages file = none ↔ ∀ entry ∈ packages.entries, file.startsWith (libOf entry.2) = false := by
  rw [owner?, foldl_deeper_eq_none, and_iff_left rfl, List.filter_eq_nil_iff, List.forall_mem_map]
  exact forall₂_congr fun entry _ => Bool.eq_false_iff.symm

/-! ### There and back -/

/-- A path that is read from a directory and the steps below it leads to where they lead together. -/
theorem normalize_join_separated {directory file : Path} {inside : List Component}
    (allSteps : ∀ part ∈ inside, part.IsStep) (split : file.components = directory.components ++ inside) :
    (directory.join ⟨Path.separated inside⟩).normalize = file.normalize := by
  have read := Path.components_separated allSteps
  rw [← read] at allSteps
  rw [Path.normalize, Path.components_join _ allSteps, read, ← split, Path.normalize]

/-- The address of a file in a package leads to the file, unless the name is empty or nothing stands after it. -/
theorem fileOf?_packageUri {packages : SortedMap String Path} {fallback : LibDirectories} {name : String}
    {root file : Path} {inside : List Component} (known : (name, root) ∈ packages.entries) (undivided : '/' ∉ name.toList)
    (allSteps : ∀ part ∈ inside, part.IsStep) (split : file.components = (libOf root).components ++ inside) :
    (pubspec packages fallback).fileOf? (packageUri name inside) =
      if name = "" ∨ inside = [] then none else some file.normalize := by
  have found := SortedMap.get?_of_mem known
  rw [fileOf?, splitPackageUri?_packageUri undivided allSteps]
  split_ifs
  · rfl
  · simp only [Option.bind_eq_bind, Option.bind_some, found]
    exact congrArg some (normalize_join_separated allSteps split)

/-- A file that has an owner is known by the address which that package gives it. -/
theorem exists_uriOf?_of_owner? {packages : SortedMap String Path} {file : Path} {chosen : String × Path}
    (owned : owner? packages file = some chosen) (fallback : LibDirectories) :
    ∃ root inside, (chosen.1, root) ∈ packages.entries ∧ file.components = (libOf root).components ++ inside ∧
      (∀ part ∈ inside, part.IsStep) ∧
      (∀ entry ∈ packages.entries, file.startsWith (libOf entry.2) →
        (libOf entry.2).components.length ≤ (libOf root).components.length) ∧
      (pubspec packages fallback).uriOf? file = some (packageUri chosen.1 inside) := by
  obtain ⟨root, known, library, holds, innermost⟩ := exists_of_owner? owned
  obtain ⟨inside, split⟩ := List.isPrefixOf_iff_prefix.mp holds
  have nonempty : (libOf root).components ≠ [] := by simp [components_libOf]
  have allSteps := Path.isStep_of_components_eq nonempty split.symm
  have address : (pubspec packages fallback).uriOf? file = some (packageUri chosen.1 inside) := by
    simp only [uriOf?, owned, library, ← split, List.drop_left]
  exact ⟨root, inside, known, split.symm, allSteps, innermost, address⟩

/-- A file in the `lib` directory of a package has an owner. -/
theorem exists_owner? {packages : SortedMap String Path} {file : Path}
    (held : ∃ entry ∈ packages.entries, file.startsWith (libOf entry.2)) :
    ∃ chosen, owner? packages file = some chosen := by
  cases owned : owner? packages file with
  | some chosen => exact ⟨chosen, rfl⟩
  | none =>
    obtain ⟨entry, known, holds⟩ := held
    rw [owner?_eq_none_iff.mp owned entry known] at holds
    cases holds

/-- A file is in the `lib` directory of a package, and is not that directory itself. -/
def LiesBelow (packages : SortedMap String Path) (file : Path) : Prop :=
  ∃ entry ∈ packages.entries, file.startsWith (libOf entry.2) ∧ ¬ file.same (libOf entry.2)

def IsLib (packages : SortedMap String Path) (file : Path) : Prop :=
  ∃ entry ∈ packages.entries, file.same (libOf entry.2)

/-- The file of an address whose package is the innermost one is a `lib` directory just if nothing is left of it. -/
private theorem isLib_iff {packages : SortedMap String Path} {file root : Path} {name : String}
    {inside : List Component} (known : (name, root) ∈ packages.entries)
    (split : file.components = (libOf root).components ++ inside)
    (innermost : ∀ entry ∈ packages.entries, file.startsWith (libOf entry.2) →
      (libOf entry.2).components.length ≤ (libOf root).components.length) :
    IsLib packages file ↔ inside = [] := by
  constructor
  · rintro ⟨entry, present, same⟩
    have parts := Path.same_iff.mp same
    have deep := innermost entry present (List.isPrefixOf_iff_prefix.mpr (parts ▸ List.prefix_rfl))
    rw [← parts, split, List.length_append] at deep
    exact List.length_eq_zero_iff.mp (by omega)
  · rintro rfl
    exact ⟨(name, root), known, Path.same_iff.mpr (by rw [split, List.append_nil])⟩

/-- A file in normal form below the `lib` directory of a package has an address in an innermost package. The address
leads back to the file unless the file is itself the `lib` directory of a package, and no other file has it. -/
theorem fileOf?_uriOf?_of_liesBelow {packages : SortedMap String Path}
    (named : ∀ entry ∈ packages.entries, entry.1 ≠ "" ∧ '/' ∉ entry.1.toList) (fallback : LibDirectories)
    {file : Path} (normal : file.normalize = file) (below : LiesBelow packages file) :
    let layout := pubspec packages fallback
    ∃ name root inside, (name, root) ∈ packages.entries ∧ file.components = (libOf root).components ++ inside ∧
      (∀ entry ∈ packages.entries, file.startsWith (libOf entry.2) →
        (libOf entry.2).components.length ≤ (libOf root).components.length) ∧
      layout.uriOf? file = some (packageUri name inside) ∧
      (layout.fileOf? (packageUri name inside) = some file ↔ ¬ IsLib packages file) ∧
      ∀ other : Path, other.normalize = other → LiesBelow packages other → layout.uriOf? other = layout.uriOf? file →
        other = file := by
  have held {file : Path} (below : LiesBelow packages file) : ∃ chosen, owner? packages file = some chosen :=
    exists_owner? (below.imp fun _ inside => ⟨inside.1, inside.2.1⟩)
  obtain ⟨⟨name, _⟩, owned⟩ := held below
  obtain ⟨root, inside, known, split, allSteps, innermost, address⟩ := exists_uriOf?_of_owner? owned fallback
  refine ⟨name, root, inside, known, split, innermost, address, ?_, fun other normalToo belowToo same => ?_⟩
  · rw [fileOf?_packageUri known (named _ known).2 allSteps split, isLib_iff known split innermost, normal]
    by_cases empty : inside = [] <;> simp [empty, (named _ known).1]
  · obtain ⟨⟨nameToo, _⟩, ownedToo⟩ := held belowToo
    obtain ⟨rootToo, insideToo, knownToo, splitToo, allStepsToo, -, addressToo⟩ :=
      exists_uriOf?_of_owner? ownedToo fallback
    rw [address, addressToo] at same
    obtain ⟨rfl, rfl⟩ :=
      packageUri_inj (named _ knownToo).2 (named _ known).2 allStepsToo allSteps (Option.some.inj same)
    obtain rfl : rootToo = root := SortedMap.snd_eq_of_mem knownToo known Std.ReflCmp.compare_self
    rw [← normal, ← normalToo, Path.normalize, splitToo, ← split, Path.normalize]

/-- A package, and two names for one inside of its `lib` directory. -/
def nestedPackages : SortedMap String Path :=
  ((SortedMap.empty.insert "app" ⟨"/repo"⟩).insert "core" ⟨"/repo/lib/core"⟩).insert "kit" ⟨"/repo/lib/core"⟩

theorem fileOf?_uriOf?_nested :
    (pubspec nestedPackages ⟨.empty⟩).uriOf? ⟨"/repo/lib/core/lib/x.dart"⟩ = some "package:kit/x.dart" ∧
      (pubspec nestedPackages ⟨.empty⟩).fileOf? "package:kit/x.dart" = some ⟨"/repo/lib/core/lib/x.dart"⟩ ∧
      ∀ other : Path, other.normalize = other → LiesBelow nestedPackages other →
        (pubspec nestedPackages ⟨.empty⟩).uriOf? other = some "package:kit/x.dart" →
          other = ⟨"/repo/lib/core/lib/x.dart"⟩ := by
  have below : LiesBelow nestedPackages ⟨"/repo/lib/core/lib/x.dart"⟩ :=
    ⟨("app", ⟨"/repo"⟩), by decide +kernel, by decide +kernel, by decide +kernel⟩
  have apart : ∀ entry ∈ nestedPackages.entries, ¬ (⟨"/repo/lib/core/lib/x.dart"⟩ : Path).same (libOf entry.2) := by
    decide +kernel
  have uri : (pubspec nestedPackages ⟨.empty⟩).uriOf? ⟨"/repo/lib/core/lib/x.dart"⟩ = some "package:kit/x.dart" := by
    decide +kernel
  obtain ⟨name, root, inside, -, -, -, address, back, alone⟩ :=
    fileOf?_uriOf?_of_liesBelow (by decide +kernel) ⟨.empty⟩ (by decide +kernel) below
  rw [uri] at address alone
  rw [← Option.some.inj address] at back
  exact ⟨uri, back.mpr fun ⟨entry, known, same⟩ => apart entry known same, alone⟩

/-- A file below the `lib` directory of one package that is named like that of another one inside of it. -/
theorem uriOf?_of_lib_in_lib :
    let packages := (SortedMap.empty.insert "a" ⟨"/repo"⟩).insert "b" ⟨"/repo/lib"⟩
    let layout := pubspec packages ⟨.empty⟩
    let file : Path := ⟨"/repo/lib/lib"⟩
    file.normalize = file ∧ LiesBelow packages file ∧ layout.uriOf? file = some "package:b/" ∧
      layout.fileOf? "package:b/" = none ∧ layout.fileOf? "package:a/lib" = some file :=
  ⟨by decide +kernel, ⟨("a", ⟨"/repo"⟩), by decide +kernel, by decide +kernel, by decide +kernel⟩,
    by decide +kernel, by decide +kernel, by decide +kernel⟩

end PackageLayout
end DeadCode
