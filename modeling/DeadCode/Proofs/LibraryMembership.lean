import DeadCode.Proofs.Access

/-!
The library of a file by what directives say. A file that lists it comes first, then what the file itself says.
Where no library is a part of another one, being in the same library is what the directives make of it, and the
order in which files came into the table never matters.
-/
namespace DeadCode

def FileDirectives.lists (directives : FileDirectives) (part : Path) : Bool :=
  directives.parts.any (·.same part)

namespace SymbolTable

/-- The smallest of the files whose directives are accepted. -/
def IsSmallest (table : SymbolTable) (accepts : FileDirectives → Bool) (file : Path) : Prop :=
  ∃ directives, (file, directives) ∈ table.directives.entries ∧ accepts directives ∧
    ∀ entry ∈ table.directives.entries, accepts entry.2 → (compare file entry.1).isLE

inductive NamesLibrary (table : SymbolTable) (file library : Path) : Prop
  | byUri {directives : FileDirectives} {text : String} (found : table.directives.get? file = some directives)
      (given : directives.partOf = some (.uri text (some library)))
  | byName {directives : FileDirectives} {name : String} (found : table.directives.get? file = some directives)
      (given : directives.partOf = some (.library name))
      (declares : table.IsSmallest (·.libraryName == some name) library)

inductive BelongsTo (table : SymbolTable) (file : Path) : Path → Prop
  | listed {library : Path} (lists : table.IsSmallest (·.lists file) library) : table.BelongsTo file library
  | named {library : Path} (unlisted : ∀ entry ∈ table.directives.entries, entry.2.lists file = false)
      (names : table.NamesLibrary file library) : table.BelongsTo file library
  | itself (unlisted : ∀ entry ∈ table.directives.entries, entry.2.lists file = false)
      (nameless : ∀ library, ¬ table.NamesLibrary file library) : table.BelongsTo file file

end SymbolTable

namespace LibraryIndex
open SortedMap

/-! ### What the index holds -/

section
variable (known : SortedMap Path Path) (entries : List (Path × FileDirectives))

private theorem get?_foldl_parts (file part : Path) (parts : List Path) :
    (parts.foldl (fun known part => known.insertIfNew part file) known).get? part =
      (known.get? part).or (if parts.any (·.same part) then some file else none) := by
  induction parts generalizing known with
  | nil => exact Option.or_none.symm
  | cons first rest ih =>
    rw [List.foldl_cons, ih, get?_insertIfNew, Option.or_assoc, List.any_cons]
    congr 1
    by_cases here : first.same part
    · rw [if_pos (Path.compare_eq_iff_same.mpr (Path.same_symm here)), here, Bool.true_or, if_pos rfl, Option.some_or]
    · have apart : compare part first ≠ .eq := fun equal => here (Path.same_symm (Path.compare_eq_iff_same.mp equal))
      rw [if_neg apart, Option.none_or, Bool.eq_false_iff.mpr here, Bool.false_or]

private theorem get?_foldl_lists (part : Path) :
    (entries.foldl (fun known entry => entry.2.parts.foldl (fun known part => known.insertIfNew part entry.1) known)
      known).get? part = (known.get? part).or ((entries.find? (·.2.lists part)).map (·.1)) := by
  induction entries generalizing known with
  | nil => exact Option.or_none.symm
  | cons first rest ih =>
    rw [List.foldl_cons, ih, get?_foldl_parts, Option.or_assoc, List.find?_cons]
    congr 1
    cases lists : first.2.lists part with
    | true => exact congrArg (Option.or · _) (if_pos lists)
    | false => exact congrArg (Option.or · _) (if_neg (Bool.eq_false_iff.mp lists))

private theorem get?_foldl_own (own? : FileDirectives → Option Path) (file : Path) :
    (entries.foldl (fun known entry => (own? entry.2).elim known (known.insertIfNew entry.1)) known).get? file =
      (known.get? file).or
        (entries.findSome? fun entry => if compare file entry.1 = .eq then own? entry.2 else none) := by
  induction entries generalizing known with
  | nil => exact Option.or_none.symm
  | cons first rest ih =>
    rw [List.foldl_cons, ih, List.findSome?_cons]
    cases own? first.2 with
    | none => simp
    | some library =>
      rw [Option.elim_some, get?_insertIfNew, Option.or_assoc]
      by_cases here : compare file first.1 = .eq <;> simp [here]

end

section
variable {table : SymbolTable} {file library : Path}

/-- What a file says itself counts where no file lists it. -/
private theorem libraryOf_eq :
    (ofTable table).libraryOf file =
      (((table.directives.entries.find? (·.2.lists file)).map (·.1)).or
        ((table.directives.get? file).bind (ownLibrary? table))).getD file := by
  have listing : listed table = table.directives.entries.foldl
      (fun known entry => entry.2.parts.foldl (fun known part => known.insertIfNew part entry.1) known) .empty := rfl
  have index : (ofTable table).libraries = table.directives.entries.foldl
      (fun known entry => (ownLibrary? table entry.2).elim known (known.insertIfNew entry.1)) (listed table) := by
    refine List.foldl_ext _ _ (listed table) fun known entry _ => ?_
    obtain ⟨path, directives⟩ := entry
    dsimp only
    cases ownLibrary? table directives <;> rfl
  rw [libraryOf, index, get?_foldl_own, findSome?_entries, listing, get?_foldl_lists]
  rfl

/-- The entries of a table are in order, so the first file that is accepted is the smallest one. -/
private theorem first_eq_some_iff {accepts : FileDirectives → Bool} :
    (table.directives.entries.find? (accepts ·.2)).map (·.1) = some file ↔ table.IsSmallest accepts file := by
  rw [Option.map_eq_some_iff]
  constructor
  · rintro ⟨entry, found, rfl⟩
    obtain ⟨member, accepted, smallest⟩ := find?_entries_eq_some_iff.mp found
    exact ⟨entry.2, member, accepted, smallest⟩
  · rintro ⟨directives, member, accepted, smallest⟩
    exact ⟨(file, directives), find?_entries_eq_some_iff.mpr ⟨member, accepted, smallest⟩, rfl⟩

private theorem first_eq_none_iff (accepts : FileDirectives → Bool) :
    (table.directives.entries.find? (accepts ·.2)).map (·.1) = none ↔
      ∀ entry ∈ table.directives.entries, accepts entry.2 = false := by
  simp

private theorem own_eq_some_iff :
    (table.directives.get? file).bind (ownLibrary? table) = some library ↔ table.NamesLibrary file library := by
  rw [Option.bind_eq_some_iff]
  constructor
  · rintro ⟨directives, found, own⟩
    unfold ownLibrary? at own
    split at own
    case h_1 given =>
      rw [own] at given
      exact .byUri found given
    case h_2 given => exact .byName found given (first_eq_some_iff.mp own)
    case h_3 => cases own
  · rintro (⟨found, given⟩ | ⟨found, given, declares⟩)
    · exact ⟨_, found, by rw [ownLibrary?, given]⟩
    · refine ⟨_, found, ?_⟩
      rw [ownLibrary?, given]
      exact first_eq_some_iff.mpr declares

theorem libraryOf_eq_iff_belongsTo :
    (ofTable table).libraryOf file = library ↔ table.BelongsTo file library := by
  rw [libraryOf_eq]
  constructor
  · rintro rfl
    cases listing : (table.directives.entries.find? (·.2.lists file)).map (·.1) with
    | some library => exact .listed (first_eq_some_iff.mp listing)
    | none =>
      have unlisted := (first_eq_none_iff (·.lists file)).mp listing
      cases own : (table.directives.get? file).bind (ownLibrary? table) with
      | some library => exact .named unlisted (own_eq_some_iff.mp own)
      | none =>
        refine .itself unlisted fun library names => ?_
        rw [own_eq_some_iff.mpr names] at own
        cases own
  · intro belongs
    cases belongs with
    | listed lists => rw [first_eq_some_iff.mpr lists, Option.some_or, Option.getD_some]
    | named unlisted names =>
      rw [(first_eq_none_iff (·.lists file)).mpr unlisted, own_eq_some_iff.mpr names, Option.none_or, Option.getD_some]
    | itself unlisted nameless =>
      have nothing : (table.directives.get? file).bind (ownLibrary? table) = none :=
        Option.eq_none_iff_forall_ne_some.mpr fun library own => nameless library (own_eq_some_iff.mp own)
      rw [(first_eq_none_iff (·.lists file)).mpr unlisted, nothing, Option.none_or, Option.getD_none]

end

/-! ### Libraries that are no parts -/

section
variable (index : LibraryIndex)

def IsPartOf (part library : Path) : Prop :=
  (index.libraryOf part).same library ∧ ¬ part.same library

/-- No file that others belong to belongs to another one itself. -/
def IsFlat : Prop :=
  ∀ part library other, index.IsPartOf part library → ¬ index.IsPartOf library other

theorem isFlat_iff :
    index.IsFlat ↔
      ∀ entry ∈ index.libraries.entries, entry.1.same entry.2 ∨ (index.libraryOf entry.2).same entry.2 := by
  constructor
  · intro flat entry member
    have library : index.libraryOf entry.1 = entry.2 := by rw [libraryOf, get?_of_mem member, Option.getD_some]
    refine or_iff_not_imp_left.mpr fun apart => Decidable.byContradiction fun further => ?_
    refine flat entry.1 entry.2 (index.libraryOf entry.2) ⟨?_, apart⟩ ⟨Path.same_refl _, ?_⟩
    · rw [library]
      exact Path.same_refl _
    · exact fun back => further (Path.same_symm back)
  · rintro ends part library other ⟨leads, apart⟩ ⟨further, elsewhere⟩
    rw [libraryOf] at leads
    cases found : index.libraries.get? part with
    | none =>
      rw [found] at leads
      exact apart leads
    | some value =>
      rw [found] at leads
      obtain ⟨entry, member, equal, rfl⟩ := exists_mem_of_get? found
      rcases ends entry member with itself | fixed
      · exact apart (Path.same_trans (Path.compare_eq_iff_same.mp equal) (Path.same_trans itself leads))
      · have back : (index.libraryOf library).same library :=
          Path.same_trans (index.libraryOf_same (Path.same_symm leads)) (Path.same_trans fixed leads)
        exact elsewhere (Path.same_trans (Path.same_symm back) further)

instance : Decidable index.IsFlat := decidable_of_iff _ index.isFlat_iff.symm

variable {index}

theorem IsFlat.libraryOf_libraryOf (flat : index.IsFlat) (file : Path) :
    (index.libraryOf (index.libraryOf file)).same (index.libraryOf file) := by
  by_cases itself : (index.libraryOf file).same file
  · exact index.libraryOf_same itself
  · have part : index.IsPartOf file (index.libraryOf file) :=
      ⟨Path.same_refl _, fun back => itself (Path.same_symm back)⟩
    refine Decidable.byContradiction fun further => flat _ _ (index.libraryOf (index.libraryOf file)) part ?_
    exact ⟨Path.same_refl _, fun back => further (Path.same_symm back)⟩

theorem IsFlat.sameLibrary_iff (flat : index.IsFlat) (a b : Path) :
    index.sameLibrary a b ↔
      a.same b ∨ (index.libraryOf a).same b ∨ (index.libraryOf b).same a ∨
        (index.libraryOf a).same (index.libraryOf b) := by
  rw [index.sameLibrary_iff]
  constructor
  · exact fun shared => .inr (.inr (.inr shared))
  · have joined {part library : Path} (leads : (index.libraryOf part).same library) :
        (index.libraryOf part).same (index.libraryOf library) :=
      Path.same_trans (Path.same_symm (flat.libraryOf_libraryOf part)) (index.libraryOf_same leads)
    rintro (same | leads | leads | shared)
    · exact index.libraryOf_same same
    · exact joined leads
    · exact Path.same_symm (joined leads)
    · exact shared

end

/-! ### The order of files -/

private theorem ofTable_of_directives {first second : SymbolTable} (same : first.directives = second.directives) :
    ofTable first = ofTable second := by
  have own : ownLibrary? first = ownLibrary? second := by
    funext directives
    simp only [ownLibrary?, fileOfName?, same]
  rw [ofTable, ofTable, listed, listed, own, same]

private theorem directives_foldl_insertDirectives (table : SymbolTable) (files : List FileDirectives) :
    (files.foldl SymbolTable.insertDirectives table).directives =
      files.foldl (fun known directives => known.insert directives.file directives) table.directives := by
  induction files generalizing table with
  | nil => rfl
  | cons first rest ih => exact ih (table.insertDirectives first)

theorem ofTable_foldl_of_perm (table : SymbolTable) {files others : List FileDirectives} (perm : files.Perm others)
    (once : ∀ a ∈ files, ∀ b ∈ files, a.file.same b.file → a = b) :
    ofTable (files.foldl SymbolTable.insertDirectives table) =
      ofTable (others.foldl SymbolTable.insertDirectives table) := by
  apply ofTable_of_directives
  rw [directives_foldl_insertDirectives, directives_foldl_insertDirectives]
  apply perm.foldl_eq'
  intro a inFiles b inFilesToo known
  by_cases same : a.file.same b.file
  · rw [once a inFiles b inFilesToo same]
  · exact alter_comm known _ _ fun equal => same (Path.compare_eq_iff_same.mp equal)

/-- The library of a file is what the directives say. Where no library is a part of another file, a library is its own
library, and two files are in the same library exactly if they are the same file, one is the library of the other, or
they have one library. Files that come into a table one after another give the same index in any order. -/
theorem libraryOf_follows_directives (table : SymbolTable) :
    let index := ofTable table
    (∀ file library, index.libraryOf file = library ↔ table.BelongsTo file library) ∧
      (index.IsFlat →
        (∀ file, (index.libraryOf (index.libraryOf file)).same (index.libraryOf file)) ∧
        ∀ a b, index.sameLibrary a b ↔
          a.same b ∨ (index.libraryOf a).same b ∨ (index.libraryOf b).same a ∨
            (index.libraryOf a).same (index.libraryOf b)) ∧
      ∀ files others : List FileDirectives, files.Perm others →
        (∀ a ∈ files, ∀ b ∈ files, a.file.same b.file → a = b) →
        ofTable (files.foldl SymbolTable.insertDirectives table) =
          ofTable (others.foldl SymbolTable.insertDirectives table) := by
  refine ⟨fun file library => libraryOf_eq_iff_belongsTo, fun flat => ?_, ?_⟩
  · exact ⟨flat.libraryOf_libraryOf, flat.sameLibrary_iff⟩
  · exact fun files others => ofTable_foldl_of_perm table

/-- Two files declare one library name and list one part; another part names the library, and the listed one names
the file that is not the smaller. -/
def rivalDirectives : List FileDirectives :=
  [{ FileDirectives.empty ⟨"/zoo.dart"⟩ with libraryName := some "app", parts := [⟨"/a.dart"⟩] },
    { FileDirectives.empty ⟨"/b.dart"⟩ with partOf := some (.library "app") },
    { FileDirectives.empty ⟨"/app.dart"⟩ with libraryName := some "app", parts := [⟨"/./a.dart"⟩] },
    { FileDirectives.empty ⟨"/a.dart"⟩ with partOf := some (.uri "zoo.dart" (some ⟨"/zoo.dart"⟩)) }]

theorem libraryOf_follows_directives_rivals :
    let table := rivalDirectives.foldl SymbolTable.insertDirectives .empty
    let index := ofTable table
    table.BelongsTo ⟨"/a.dart"⟩ ⟨"/app.dart"⟩ ∧ table.BelongsTo ⟨"/b.dart"⟩ ⟨"/app.dart"⟩ ∧ index.IsFlat ∧
      index.sameLibrary ⟨"/a.dart"⟩ ⟨"/app.dart"⟩ ∧
      ofTable (rivalDirectives.reverse.foldl SymbolTable.insertDirectives .empty) = index := by
  intro table index
  obtain ⟨belongs, whole, -⟩ := libraryOf_follows_directives table
  obtain ⟨-, -, ordered⟩ := libraryOf_follows_directives .empty
  have flat : index.IsFlat := by decide +kernel
  have part : index.libraryOf ⟨"/a.dart"⟩ = ⟨"/app.dart"⟩ := by decide +kernel
  refine ⟨(belongs _ _).mp part, (belongs _ _).mp (by decide +kernel), flat, ?_, ?_⟩
  · exact ((whole flat).2 _ _).mpr (.inr (.inl (by rw [part]; exact Path.same_refl _)))
  · refine (ordered rivalDirectives rivalDirectives.reverse (List.reverse_perm _).symm ?_).symm
    decide +kernel

end LibraryIndex
end DeadCode
