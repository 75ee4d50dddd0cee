import DeadCode.Proofs.EmptiedFiles
import DeadCode.Proofs.UsageSums
import Mathlib.Data.List.Find

/-!
A file that cannot be read counts as an empty one. A run over a tree in which some sources hold no text and one over
the tree in which they are empty go side by side: the tables differ in empty directives only, the warnings in those
about the sources, and the uses that are counted are the same.
-/
namespace DeadCode
open DeadCode.Text DeadCode.Source

/-! ### Tables -/

structure FillsIn (unread : Path → Bool) (first second : SortedMap Path FileDirectives) : Prop where
  others : first = second.restrict (!unread ·)
  empty : ∀ entry ∈ second.entries, unread entry.1 → entry.2 = .empty entry.2.file

namespace FillsIn
variable {unread : Path → Bool} (alike : ∀ a b, compare a b = .eq → unread a = unread b)
  {first second : SortedMap Path FileDirectives}
include alike

private theorem not_alike (a b : Path) (same : compare a b = .eq) : (!unread a) = !unread b := by
  rw [alike a b same]

theorem insert (fills : FillsIn unread first second) {file : Path} (apart : unread file = false)
    (directives : FileDirectives) : FillsIn unread (first.insert file directives) (second.insert file directives) where
  others := by
    rw [fills.others]
    exact (SortedMap.restrict_alter (not_alike alike) second (by simp [apart]) _).symm
  empty := by
    intro entry member isUnread
    rcases SortedMap.of_mem_alterEntries member with present | rfl | ⟨old, present, equal, rfl⟩
    · exact fills.empty entry present isUnread
    · rw [apart] at isUnread
      cases isUnread
    · rw [← alike file old.1 equal, apart] at isUnread
      cases isUnread

theorem insert_empty (fills : FillsIn unread first second) {file : Path} (isUnread : unread file)
    {directives : FileDirectives} (empty : directives = .empty directives.file) :
    FillsIn unread first (second.insert file directives) where
  others := by
    rw [fills.others]
    exact (SortedMap.restrict_alter_of_left (not_alike alike) second (by simp [isUnread]) _).symm
  empty := by
    intro entry member unreadEntry
    rcases SortedMap.of_mem_alterEntries member with present | rfl | ⟨old, -, -, rfl⟩
    · exact fills.empty entry present unreadEntry
    · exact empty
    · exact empty

theorem get? (fills : FillsIn unread first second) (file : Path) :
    first.get? file = if unread file then none else second.get? file := by
  rw [fills.others, SortedMap.get?_restrict (not_alike alike)]
  cases unread file <;> rfl

end FillsIn

/-- Tables that differ only in empty directives for files that are not read. -/
structure SymbolTable.FilledIn (unread : Path → Bool) (first second : SymbolTable) : Prop where
  classes : second.classes = first.classes
  functions : second.functions = first.functions
  exports : second.exports = first.exports
  directives : FillsIn unread first.directives second.directives

namespace SymbolTable.FilledIn
variable {unread : Path → Bool} (alike : ∀ a b, compare a b = .eq → unread a = unread b)
  {first second : SymbolTable}
include alike

theorem insertSource (filled : first.FilledIn unread second) {file : Path} (apart : unread file = false)
    (withFunctions : Bool) (layout : PackageLayout) (contents : List Char) :
    (first.insertSource withFunctions layout file contents).FilledIn unread
      (second.insertSource withFunctions layout file contents) := by
  rw [insertSource_eq, insertSource_eq]
  refine ⟨by rw [filled.classes], by rw [filled.functions], by rw [filled.exports], ?_⟩
  rw [← SortedMap.insert_eq_addWith, ← SortedMap.insert_eq_addWith, (Directive.read_spec layout file contents).1]
  exact filled.directives.insert alike apart _

theorem insertDirectives_empty (filled : first.FilledIn unread second) {file : Path} (isUnread : unread file) :
    first.FilledIn unread (second.insertDirectives (.empty file)) :=
  ⟨filled.classes, filled.functions, (List.append_nil _).trans filled.exports,
    filled.directives.insert_empty alike isUnread rfl⟩

private theorem mergeDirectives (filled : first.FilledIn unread second) {entry : Path × FileDirectives}
    (apart : unread entry.1 = false) :
    (first.mergeDirectives entry).FilledIn unread (second.mergeDirectives entry) := by
  have known : first.directives.contains entry.1 = second.directives.contains entry.1 := by
    rw [SortedMap.contains, SortedMap.contains, filled.directives.get? alike, apart]
    rfl
  refine ⟨filled.classes, filled.functions, ?_, filled.directives.insert alike apart _⟩
  simp only [SymbolTable.mergeDirectives, known, filled.exports]

private theorem mergeDirectives_empty (filled : first.FilledIn unread second) {entry : Path × FileDirectives}
    (isUnread : unread entry.1) (empty : entry.2 = .empty entry.2.file) :
    first.FilledIn unread (second.mergeDirectives entry) := by
  have nothing : entry.2.exports = [] := by rw [empty]; rfl
  refine ⟨filled.classes, filled.functions, ?_, filled.directives.insert_empty alike isUnread empty⟩
  simp only [SymbolTable.mergeDirectives, nothing, List.append_nil, ite_self, filled.exports]

private theorem foldl_mergeDirectives (filled : first.FilledIn unread second) {entries : List (Path × FileDirectives)}
    (empty : ∀ entry ∈ entries, unread entry.1 → entry.2 = .empty entry.2.file) :
    ((entries.filter fun entry => !unread entry.1).foldl SymbolTable.mergeDirectives first).FilledIn unread
      (entries.foldl SymbolTable.mergeDirectives second) := by
  induction entries generalizing first second with
  | nil => exact filled
  | cons entry rest ih =>
    obtain ⟨head, others⟩ := List.forall_mem_cons.mp empty
    cases isUnread : unread entry.1 with
    | false =>
      rw [List.filter_cons_of_pos (by simp [isUnread])]
      exact ih (filled.mergeDirectives alike isUnread) others
    | true =>
      rw [List.filter_cons_of_neg (by simp [isUnread])]
      exact ih (filled.mergeDirectives_empty alike isUnread (head isUnread)) others

theorem merge (filled : first.FilledIn unread second) {part other : SymbolTable}
    (filledPart : part.FilledIn unread other) :
    (first.merge part).FilledIn unread (second.merge other) := by
  let start := { first with
    classes := first.classes.insertAll part.classes
    functions := first.functions.insertAll part.functions }
  have started : start.FilledIn unread { second with
      classes := second.classes.insertAll other.classes
      functions := second.functions.insertAll other.functions } :=
    ⟨by rw [filled.classes, filledPart.classes], by rw [filled.functions, filledPart.functions], filled.exports,
      filled.directives⟩
  rw [SymbolTable.merge, SymbolTable.merge, filledPart.directives.others]
  exact started.foldl_mergeDirectives alike filledPart.directives.empty

end SymbolTable.FilledIn

/-! ### Reading -/

/-- A warning that is about one of the files which hold no text. -/
def Warning.isAbout (unread : Path → Bool) : Warning → Bool
  | .unreadable file .malformed => unread file
  | _ => false

/-- A warning about a file that fails in the same way when it is emptied stays. -/
theorem Warning.isAbout_of_kept {tree : FileTree} {unread : Path → Bool} {file : Path} {cause : ReadError}
    (apart : unread file = false ∨ ∃ cause, cause ≠ .malformed ∧ tree.read file = .error cause)
    (failed : tree.read file = .error cause) : (Warning.unreadable file cause).isAbout unread = false := by
  cases cause with
  | malformed =>
    refine apart.resolve_right ?_
    rintro ⟨other, different, failedSo⟩
    exact different (Except.error.inj (failedSo.symm.trans failed))
  | _ => rfl

theorem Warning.isAbout_of_pool (unread : Path → Bool) {warning : Warning} (pool : warning.tag = "pool") :
    warning.isAbout unread = false := by
  cases warning with
  | unreadable file cause => exact absurd (show "io" = "pool" from pool) (by decide)
  | chunkFailed index reason => rfl
  | noWorkers reason => rfl

structure Scan.Matches (tree : FileTree) (chosen : Place → Bool) (first second : Scan) : Prop where
  table : first.table.FilledIn (tree.isUnread chosen) second.table
  warnings : second.warnings = first.warnings.filter (!·.isAbout (tree.isUnread chosen))
  followed : first.followed = second.followed.filter (!tree.isEmptied chosen ·)

def Project.emptied (project : Project) (chosen : Place → Bool) : Project :=
  { project with tree := project.tree.emptied chosen }

theorem Project.tree_emptied (project : Project) (chosen : Place → Bool) :
    (project.emptied chosen).tree = project.tree.emptied chosen := rfl

namespace Project
variable (project : Project) (chosen : Place → Bool)

theorem outward_emptied (file : Path) : (project.emptied chosen).outward file = project.outward file := by
  have targets : (fun target => !(project.emptied chosen).holds target && (project.emptied chosen).tree.isFile target) =
      fun target => !project.holds target && project.tree.isFile target := by
    funext target
    exact congrArg (!project.holds target && ·) (project.tree.isFile_emptied chosen target)
  rw [outward, outward, targets, tree_emptied]
  cases project.tree.reread chosen file with
  | kept same =>
    rw [same]
    rfl
  | emptied unread filled before after =>
    rw [before, after]
    dsimp only
    split <;> rfl

theorem reach_emptied (file : Path) : (project.emptied chosen).reach file = project.reach file := by
  have next : (project.emptied chosen).outward = project.outward := funext (project.outward_emptied chosen)
  have files : (project.emptied chosen).tree.files = project.tree.files := project.tree.files_emptied chosen
  rw [reach, reach, next, files]
  rfl

end Project

namespace Scan.Matches
variable {project : Project} {chosen : Place → Bool} {first second : Scan}

theorem warn (matched : first.Matches project.tree chosen second) {warning : Warning}
    (other : warning.isAbout (project.tree.isUnread chosen) = false) :
    Scan.Matches project.tree chosen { first with warnings := first.warnings ++ [warning] }
      { second with warnings := second.warnings ++ [warning] } where
  table := matched.table
  warnings := by simp [matched.warnings, other]
  followed := matched.followed

/-- Reading a file leaves what is known in step. -/
theorem scanFile (matched : first.Matches project.tree chosen second) (file : Path) :
    (project.scanFile first file).Matches project.tree chosen ((project.emptied chosen).scanFile second file) := by
  have alike (a b : Path) (same : compare a b = .eq) := project.tree.isUnread_congr chosen same
  rw [Project.scanFile, Project.scanFile, Project.tree_emptied]
  cases project.tree.reread chosen file with
  | kept same left apart =>
    rw [same]
    cases given : project.tree.read file with
    | error cause => exact matched.warn (Warning.isAbout_of_kept apart given)
    | ok contents =>
      have apart : project.tree.isUnread chosen file = false := by
        refine apart.resolve_right ?_
        rintro ⟨cause, -, failed⟩
        cases given.symm.trans failed
      refine ⟨matched.table.insertSource alike apart _ _ _, matched.warnings, ?_⟩
      change (if project.holds file then _ else _) = List.filter _ (if project.holds file then _ else _)
      split
      · exact matched.followed
      · rw [matched.followed, List.filter_append, List.filter_singleton, left]
        rfl
  | emptied unread filled before after =>
    rw [before, after]
    refine ⟨matched.table.insertDirectives_empty alike unread, ?_, ?_⟩
    · simp [matched.warnings, Warning.isAbout, unread]
    · change first.followed = List.filter _ (if project.holds file then _ else _)
      split
      · exact matched.followed
      · rw [List.filter_append, List.filter_singleton, filled]
        simpa using matched.followed

theorem foldl_scanFile (matched : first.Matches project.tree chosen second) (files : List Path) :
    (files.foldl project.scanFile first).Matches project.tree chosen
      (files.foldl (project.emptied chosen).scanFile second) := by
  induction files generalizing first second with
  | nil => exact matched
  | cons file rest ih => exact ih (matched.scanFile file)

theorem foldl_scanFrom (matched : first.Matches project.tree chosen second) (files : List Path) :
    (files.foldl project.scanFrom first).Matches project.tree chosen
      (files.foldl (project.emptied chosen).scanFrom second) := by
  induction files generalizing first second with
  | nil => exact matched
  | cons file rest ih =>
    refine ih ?_
    rw [Project.scanFrom, Project.scanFrom, project.reach_emptied chosen]
    exact matched.foldl_scanFile _

theorem add (matched : first.Matches project.tree chosen second) {part other : Scan}
    (matchedPart : part.Matches project.tree chosen other) :
    (first.add part).Matches project.tree chosen (second.add other) where
  table := matched.table.merge (fun _ _ same => project.tree.isUnread_congr chosen same) matchedPart.table
  warnings := by simp [Scan.add, matched.warnings, matchedPart.warnings]
  followed := by simp [Scan.add, matched.followed, matchedPart.followed]

end Scan.Matches

namespace Project
variable (project : Project)

/-- Reading in the two trees goes side by side. -/
theorem matches_collected (chosen : Place → Bool) (machine : Machine) (parallel : ParallelSettings) :
    (project.collected machine parallel).Matches project.tree chosen
      ((project.emptied chosen).collected machine parallel) := by
  have empty {warnings : List Warning} (pool : ∀ warning ∈ warnings, warning.tag = "pool") :
      Scan.Matches project.tree chosen { Scan.empty with warnings } { Scan.empty with warnings } := by
    refine ⟨⟨rfl, rfl, rfl, rfl, fun _ member => absurd member List.not_mem_nil⟩, ?_, rfl⟩
    refine (List.filter_eq_self.mpr fun warning member => ?_).symm
    rw [Warning.isAbout_of_pool _ (pool warning member)]
    rfl
  have folded (chunks : List (List Path)) {first second : Scan} (matched : first.Matches project.tree chosen second) :
      (chunks.foldl (fun scan chunk => scan.add (project.scanFiles chunk)) first).Matches project.tree chosen
        (chunks.foldl (fun scan chunk => scan.add ((project.emptied chosen).scanFiles chunk)) second) := by
    induction chunks generalizing first second with
    | nil => exact matched
    | cons chunk rest ih =>
      refine ih (matched.add ?_)
      exact Scan.Matches.foldl_scanFrom (empty fun _ member => absurd member List.not_mem_nil) chunk
  have pool : (parallel.distribute machine (project.emptied chosen).scanFiles (project.emptied chosen).files).2 =
      (parallel.distribute machine project.scanFiles project.files).2 := by
    rw [snd_distribute, snd_distribute]
    rfl
  rw [collected, collected, pool]
  exact folded _ (empty fun _ => tag_of_mem_distribute)

end Project

/-! ### Paths outside of a project -/

namespace Project
variable {project : Project}

/-- The paths that exports led to are in normal form and not those of files of the project. -/
def FollowsOutside (project : Project) (scan : Scan) : Prop :=
  ∀ path ∈ scan.followed, (∃ other : Path, path = other.normalize) ∧ project.holds path = false

private theorem followsOutside_scanFile {scan : Scan} (outside : project.FollowsOutside scan) {file : Path}
    (known : project.holds file ∨ ∃ other : Path, file = other.normalize) :
    project.FollowsOutside (project.scanFile scan file) := by
  rw [scanFile]
  split
  · exact outside
  · intro path member
    change path ∈ (if project.holds file then scan.followed else scan.followed ++ [file]) at member
    split at member
    case isTrue => exact outside path member
    case isFalse notHeld =>
      rcases List.mem_append.mp member with present | added
      · exact outside path present
      · rw [List.mem_singleton.mp added]
        exact ⟨known.resolve_left notHeld, by simpa using notHeld⟩

private theorem followsOutside_scanFiles {files : List Path} (inside : ∀ file ∈ files, file ∈ project.files) :
    project.FollowsOutside (project.scanFiles files) := by
  refine List.foldlRecOn (motive := project.FollowsOutside) files _ (fun _ member => absurd member List.not_mem_nil)
    fun scan outside file member => ?_
  refine List.foldlRecOn (motive := project.FollowsOutside) (project.reach file) _ outside
    fun scan outside path reached => ?_
  refine followsOutside_scanFile outside ?_
  rcases of_mem_reach reached with rfl | ⟨normal, -⟩
  · exact .inl (List.any_eq_true.mpr ⟨path, inside path member, Path.same_refl _⟩)
  · exact .inr normal

theorem followsOutside_collected (project : Project) (machine : Machine) (parallel : ParallelSettings) :
    project.FollowsOutside (project.collected machine parallel) := by
  refine List.foldlRecOn (motive := project.FollowsOutside) _ _ (fun _ member => absurd member List.not_mem_nil)
    fun scan outside chunk member => ?_
  have inside : ∀ file ∈ chunk, file ∈ project.files := by
    intro file inChunk
    rw [← flatten_partition project.files (parallel.workersFor machine project.files.length)]
    exact List.mem_flatten.mpr ⟨chunk, member, inChunk⟩
  intro path listed
  rcases List.mem_append.mp listed with before | added
  · exact outside path before
  · exact followsOutside_scanFiles inside path added

/-- The files whose uses are counted are in strict order, and are those of the project and those that exports led to. -/
theorem counted_spec (ascending : project.files.Pairwise fun a b => compare a b = .lt) {scan : Scan}
    (outside : project.FollowsOutside scan) :
    let counted := (project.files ++ sortPaths scan.followed).mergeSort fun a b => (compare a b).isLE
    (counted.Pairwise fun a b => compare a b = .lt) ∧
      ∀ path, path ∈ counted ↔ path ∈ project.files ∨ path ∈ scan.followed := by
  have spelled : ∀ a ∈ scan.followed, ∀ b ∈ scan.followed, a.same b → a = b := by
    intro a inA b inB same
    obtain ⟨⟨pathA, rfl⟩, -⟩ := outside a inA
    obtain ⟨⟨pathB, rfl⟩, -⟩ := outside b inB
    exact Path.normalize_eq_of_same same
  have distinct {paths : List Path} (ascending : paths.Pairwise fun a b => compare a b = .lt) :
      paths.Pairwise fun a b => compare a b ≠ .eq :=
    ascending.imp fun less equal => by rw [less] at equal; cases equal
  refine ⟨pairwise_mergeSort_paths ?_, fun path => by rw [List.mem_mergeSort, List.mem_append, mem_sortPaths spelled]⟩
  refine List.pairwise_append.mpr ⟨distinct ascending, distinct (pairwise_sortPaths _), ?_⟩
  intro a inFiles b followed equal
  obtain ⟨-, notHeld⟩ := outside b ((mem_sortPaths spelled).mp followed)
  exact not_same_of_outside inFiles notHeld (Path.compare_eq_iff_same.mp equal)

end Project

/-! ### Access -/

namespace SymbolTable.FilledIn
variable {unread : Path → Bool} {first second : SymbolTable} (filled : first.FilledIn unread second)
include filled

/-- A walk over the directives that passes over empty ones comes to the same. -/
private theorem foldl_directives {α : Type} (f : α → Path × FileDirectives → α) (start : α)
    (idle : ∀ value path file, f value (path, .empty file) = value) :
    first.directives.entries.foldl f start = second.directives.entries.foldl f start := by
  have entries : first.directives.entries = second.directives.entries.filter fun entry => !unread entry.1 :=
    congrArg SortedMap.entries filled.directives.others
  rw [entries, List.foldl_filter]
  refine List.foldl_ext _ _ _ fun value entry member => ?_
  cases isUnread : unread entry.1 with
  | false => rfl
  | true =>
    obtain ⟨path, directives⟩ := entry
    have empty : directives = .empty directives.file := filled.directives.empty _ member isUnread
    rw [empty]
    exact (idle value path _).symm

private theorem fileOfName? (name : String) :
    LibraryIndex.fileOfName? first name = LibraryIndex.fileOfName? second name := by
  have entries : first.directives.entries = second.directives.entries.filter fun entry => !unread entry.1 :=
    congrArg SortedMap.entries filled.directives.others
  rw [LibraryIndex.fileOfName?, LibraryIndex.fileOfName?, entries, List.find?_filter]
  refine congrArg (Option.map _) (List.find?_congr fun entry member => ?_)
  rw [Bool.eq_iff_iff]
  cases isUnread : unread entry.1 with
  | false => simp
  | true =>
    rw [filled.directives.empty _ member isUnread]
    simp [FileDirectives.empty]

theorem libraries : LibraryIndex.ofTable first = LibraryIndex.ofTable second := by
  have own : LibraryIndex.ownLibrary? first = LibraryIndex.ownLibrary? second := by
    funext directives
    simp only [LibraryIndex.ownLibrary?, filled.fileOfName?]
  rw [LibraryIndex.ofTable, LibraryIndex.ofTable, LibraryIndex.listed, LibraryIndex.listed, own,
    filled.foldl_directives _ _ fun _ _ _ => rfl, filled.foldl_directives _ _ fun _ _ _ => rfl]

theorem importsIn (alike : ∀ a b, compare a b = .eq → unread a = unread b) :
    Visibility.importsIn first = Visibility.importsIn second := by
  funext file
  rw [Visibility.importsIn, Visibility.importsIn, filled.directives.get? alike]
  cases isUnread : unread file with
  | false => rfl
  | true =>
    cases found : second.directives.get? file with
    | none => rfl
    | some directives =>
      obtain ⟨entry, member, equal, rfl⟩ := SortedMap.exists_mem_of_get? found
      rw [alike file entry.1 equal] at isUnread
      rw [filled.directives.empty entry member isUnread]
      rfl

/-- What a file adds to the counts does not depend on empty directives. -/
theorem countFile (alike : ∀ a b, compare a b = .eq → unread a = unread b) (layout : PackageLayout) :
    (Usage.Counter.ofVisibility (.ofTable first layout)).countFile =
      (Usage.Counter.ofVisibility (.ofTable second layout)).countFile := by
  refine Usage.Counter.countFile_congr filled.classes.symm filled.functions.symm filled.libraries ?_ ?_
  · funext file
    simp only [Visibility.importsOf, Visibility.ofTable, filled.libraries, filled.importsIn alike]
    rfl
  · funext symbol definedIn directive
    simp only [Visibility.leadsTo, Visibility.ofTable, filled.libraries, ExportGraph.ofTable, filled.exports]
    rfl

end SymbolTable.FilledIn

/-! ### Counting -/

/-- In an empty file nothing is used. -/
theorem Usage.Counter.countFile_nil (counter : Counter) (counts : SortedMap SymbolKey ExactCounts) (file : Path) :
    counter.countFile counts file [] = counts := by
  have idle (targets : List Target) : targets.foldl (fun counts target =>
      addCounts counts target.key (target.countIn counter.visibility file [])) counts = counts := by
    induction targets with
    | nil => rfl
    | cons target rest ih => exact ih
  exact idle counter.targets

namespace Usage.Tally
variable (counter : Counter) (tree : FileTree) (chosen : Place → Bool)

def countPath (counts : SortedMap SymbolKey ExactCounts) (file : Path) : SortedMap SymbolKey ExactCounts :=
  match tree.read file with
  | .ok contents => counter.countFile counts file contents.toList
  | .error _ => counts

theorem counts_foldl_addFile (tally : Tally) (files : List Path) :
    (files.foldl (addFile counter tree) tally).exact = files.foldl (countPath counter tree) tally.exact := by
  induction files generalizing tally with
  | nil => rfl
  | cons file rest ih =>
    rw [List.foldl_cons, ih, List.foldl_cons, addFile, countPath]
    cases tree.read file <;> rfl

/-- An emptied file has no uses, as one that cannot be read. -/
theorem countPath_emptied : countPath counter (tree.emptied chosen) = countPath counter tree := by
  funext counts file
  rw [countPath, countPath]
  cases tree.reread chosen file with
  | kept same => rw [same]
  | emptied unread filled before after =>
    rw [before, after]
    exact counter.countFile_nil counts file

theorem foldl_countPath_filter (counts : SortedMap SymbolKey ExactCounts) (files : List Path) :
    (files.filter (!tree.isEmptied chosen ·)).foldl (countPath counter tree) counts =
      files.foldl (countPath counter tree) counts := by
  rw [List.foldl_filter]
  refine List.foldl_ext _ _ _ fun counts file _ => ?_
  cases tree.reread chosen file with
  | kept same left => simp [left]
  | emptied unread filled before => simp [filled, countPath, before]

/-- The warnings that are left are those that are not about the files which were emptied. -/
theorem unreadable_emptied (files : List Path) : unreadable (tree.emptied chosen) files =
    (unreadable tree files).filter (!·.isAbout (tree.isUnread chosen)) := by
  rw [unreadable, unreadable, List.filter_filterMap]
  refine List.filterMap_congr fun file _ => ?_
  cases tree.reread chosen file with
  | kept same left apart =>
    rw [same]
    cases given : tree.read file with
    | ok contents => rfl
    | error cause => simp [Option.filter, Warning.isAbout_of_kept apart given]
  | emptied unread filled before after => simp [before, after, Option.filter, Warning.isAbout, unread]

theorem unreadable_filter (files : List Path) : unreadable (tree.emptied chosen)
    (files.filter (!tree.isEmptied chosen ·)) = unreadable (tree.emptied chosen) files := by
  rw [unreadable, unreadable, List.filterMap_filter]
  refine List.filterMap_congr fun file _ => ?_
  cases tree.reread chosen file with
  | kept same left => simp [left]
  | emptied unread filled before after => simp [filled, after]

/-- Counting goes side by side in the two trees, if the files to count in are the same apart from emptied ones. -/
theorem ofFiles_emptied {first second : Counter} (counting : first.countFile = second.countFile)
    {files others : List Path}
    (same : files.filter (!tree.isEmptied chosen ·) = others.filter (!tree.isEmptied chosen ·)) (machine : Machine)
    (parallel : ParallelSettings) :
    let tally := ofFiles first tree machine parallel files
    let other := ofFiles second (tree.emptied chosen) machine parallel others
    tally.exact = other.exact ∧
      tally.warnings = parallel.refusals machine files.length ++ unreadable tree files ∧
      other.warnings = parallel.refusals machine others.length ++
        (unreadable tree files).filter (!·.isAbout (tree.isUnread chosen)) := by
  intro tally other
  have paths : countPath first tree = countPath second tree := by
    funext counts file
    rw [countPath, countPath, counting]
  refine ⟨?_, ?_, ?_⟩
  · simp only [tally, other, ofFiles_eq_foldl_warned, counts_foldl_addFile, countPath_emptied, paths]
    rw [← foldl_countPath_filter second tree chosen _ files, same, foldl_countPath_filter]
  · simp only [tally, ofFiles_eq_foldl_warned, foldl_addFile]
  · simp only [other, ofFiles_eq_foldl_warned, foldl_addFile]
    rw [← unreadable_emptied, ← unreadable_filter tree chosen others, ← same, unreadable_filter]

end Usage.Tally

/-! ### Runs -/

theorem SymbolTable.FilledIn.applyUsage {unread : Path → Bool} {first second : SymbolTable}
    (filled : first.FilledIn unread second) (counts : SortedMap SymbolKey UsageCounts) :
    (first.applyUsage counts).FilledIn unread (second.applyUsage counts) := by
  refine ⟨?_, ?_, filled.exports, filled.directives⟩
  · simp only [SymbolTable.applyUsage, filled.classes]
  · simp only [SymbolTable.applyUsage, filled.classes, filled.functions]

section
variable {project : Project} {chosen : Place → Bool} (ascending : project.files.Pairwise fun a b => compare a b = .lt)
  {scan other : Scan} (matched : scan.Matches project.tree chosen other) (outside : project.FollowsOutside scan)
  (outsideToo : project.FollowsOutside other)
include ascending matched outside outsideToo

/-- The files whose uses are counted are the same, apart from emptied ones that exports led to. -/
private theorem Project.filter_counted_eq :
    ((project.files ++ sortPaths scan.followed).mergeSort fun a b => (compare a b).isLE).filter
        (!project.tree.isEmptied chosen ·) =
      ((project.files ++ sortPaths other.followed).mergeSort fun a b => (compare a b).isLE).filter
        (!project.tree.isEmptied chosen ·) := by
  obtain ⟨order, members⟩ := counted_spec ascending outside
  obtain ⟨orderToo, membersToo⟩ := counted_spec ascending outsideToo
  refine eq_of_ascending (order.filter _) (orderToo.filter _) fun path => ?_
  rw [List.mem_filter, List.mem_filter, members, membersToo, matched.followed, List.mem_filter]
  tauto

/-- Emptied files are added to those whose uses are counted. -/
private theorem Project.length_counted_le :
    ((project.files ++ sortPaths scan.followed).mergeSort fun a b => (compare a b).isLE).length ≤
      ((project.files ++ sortPaths other.followed).mergeSort fun a b => (compare a b).isLE).length := by
  obtain ⟨order, members⟩ := counted_spec ascending outside
  obtain ⟨-, membersToo⟩ := counted_spec ascending outsideToo
  have nodup := order.imp (S := (· ≠ ·)) fun less same => by simp [same] at less
  refine (List.subperm_of_subset nodup fun path member => ?_).length_le
  rw [members, matched.followed] at member
  exact (membersToo path).mpr (member.imp_right fun kept => (List.mem_filter.mp kept).1)

end

namespace Analysis

/-- What two runs find that differ only in that sources without text are empty in the second. -/
structure Matches (machine : Machine) (unread : Path → Bool) (first second : Analysis) : Prop where
  root : first.root = second.root
  findings : first.findings = second.findings
  table : first.table.FilledIn unread second.table
  /-- Of the warnings the second run lacks just those about these sources, if workers can be started or it counts uses
  with one worker wherever the first run does. -/
  warnings : machine.poolFailure = none ∨ (first.stats.usageWorkers = 1 → second.stats.usageWorkers = 1) →
    second.warnings = first.warnings.filter (!·.isAbout unread)
  /-- Otherwise it has one warning more: that no workers could be started for the files that are no longer few. -/
  refused : ∀ reason, machine.poolFailure = some reason → first.stats.usageWorkers = 1 →
    second.stats.usageWorkers ≠ 1 → ∃ before after, first.warnings.filter (!·.isAbout unread) = before ++ after ∧
      second.warnings = before ++ .noWorkers reason :: after

private theorem matches_of_tallies {tree : FileTree} {chosen : Place → Bool} {scan other : Scan}
    (matched : scan.Matches tree chosen other) {tally tallyToo : Usage.Tally} (counts : tally.exact = tallyToo.exact)
    {machine : Machine} {settings : Settings} {files others : Nat} (fewer : files ≤ others) {left : List Warning}
    (warnings : tally.warnings = settings.parallel.refusals machine files ++ left)
    (warningsToo : tallyToo.warnings = settings.parallel.refusals machine others ++
      left.filter (!·.isAbout (tree.isUnread chosen)))
    {root : Path} {stats statsToo : Stats} (workers : stats.usageWorkers = settings.parallel.workersFor machine files)
    (workersToo : statsToo.usageWorkers = settings.parallel.workersFor machine others) :
    Matches machine (tree.isUnread chosen)
      ⟨root, scan.table.applyUsage tally.counts, categorize settings (scan.table.applyUsage tally.counts), stats,
        scan.warnings ++ tally.warnings⟩
      ⟨root, other.table.applyUsage tallyToo.counts, categorize settings (other.table.applyUsage tallyToo.counts),
        statsToo, other.warnings ++ tallyToo.warnings⟩ := by
  have applied := matched.table.applyUsage tallyToo.counts
  have kept : (scan.warnings ++ tally.warnings).filter (!·.isAbout (tree.isUnread chosen)) =
      other.warnings ++ (settings.parallel.refusals machine files ++
        left.filter (!·.isAbout (tree.isUnread chosen))) := by
    rw [warnings, List.filter_append, List.filter_append, ← matched.warnings]
    congr 2
    refine List.filter_eq_self.mpr fun warning refused => ?_
    rw [Warning.isAbout_of_pool _ (ParallelSettings.tag_of_mem_refusals refused)]
    rfl
  rw [Usage.Tally.counts, counts]
  refine ⟨rfl, ?_, applied, fun alike => ?_, fun reason failure alone several => ?_⟩
  · simp only [categorize, applied.classes, applied.functions]
    rfl
  · rw [workers, workersToo] at alike
    rw [kept, warningsToo]
    rcases alike with started | alike
    · rw [ParallelSettings.refusals_of_started started, ParallelSettings.refusals_of_started started]
    · rw [ParallelSettings.refusals_of_le fewer alike]
  · refine ⟨other.warnings, left.filter (!·.isAbout (tree.isUnread chosen)), ?_, ?_⟩
    · rw [kept, ParallelSettings.refusals_of_alone (workers.symm.trans alone)]
      rfl
    · rw [warningsToo, ParallelSettings.refusals_of_several (workersToo ▸ several) failure]
      rfl

/-- How two runs end that differ only in that sources without text are empty in the second. -/
def EndMatched (machine : Machine) (unread : Path → Bool) (first second : Except RunError Analysis) : Prop :=
  (∃ cause, first = .error cause ∧ second = .error cause) ∨
    ∃ analysis other, first = .ok analysis ∧ second = .ok other ∧ analysis.Matches machine unread other

private theorem ofScan_emptied {project : Project} (chosen : Place → Bool)
    (ascending : project.files.Pairwise fun a b => compare a b = .lt) (machine : Machine) (settings : Settings)
    (root : Path) :
    EndMatched machine (project.tree.isUnread chosen)
      (ofScan machine settings project.tree project.layout root project.files
        (project.scan machine settings.parallel))
      (ofScan machine settings (project.emptied chosen).tree project.layout root project.files
        ((project.emptied chosen).scan machine settings.parallel)) := by
  have alike (a b : Path) (same : compare a b = .eq) := project.tree.isUnread_congr chosen same
  have matched := project.matches_collected chosen machine settings.parallel
  have outside := project.followsOutside_collected machine settings.parallel
  have outsideToo := (project.emptied chosen).followsOutside_collected machine settings.parallel
  have counted := Project.filter_counted_eq ascending matched outside outsideToo
  have fewer := Project.length_counted_le ascending matched outside outsideToo
  rw [Project.scan_eq_collected, Project.scan_eq_collected]
  generalize project.collected machine settings.parallel = scan at matched counted fewer
  generalize (project.emptied chosen).collected machine settings.parallel = other at matched counted fewer
  have isEmpty : other.table.isEmpty = scan.table.isEmpty := by
    rw [SymbolTable.isEmpty, SymbolTable.isEmpty, matched.table.classes, matched.table.functions]
  simp only [ofScan, Usage.Tally.ofTable, isEmpty, bind, Except.bind]
  cases scan.table.isEmpty with
  | true => exact .inl ⟨.noSymbols, rfl, rfl⟩
  | false =>
    obtain ⟨counts, warnings, warningsToo⟩ := Usage.Tally.ofFiles_emptied project.tree chosen
      (matched.table.countFile alike project.layout) counted machine settings.parallel
    exact .inr ⟨_, _, rfl, rfl, matches_of_tallies matched counts fewer warnings warningsToo rfl rfl⟩

/-- A tree in which a source of a project, and a file that another one exports from outside of it, hold no text. -/
def brokenSources : FileTree where
  entries := [
    (["app", "lib", "a.dart"], .file (.text "export '../gen/b.dart';\nclass A \x7b\x7d")),
    (["app", "lib", "c.dart"], .file (.malformed "class C \x7b\x7d\n")),
    (["app", "lib", "d.dart"], .file (.text "import 'a.dart';\nclass D extends A \x7b\x7d")),
    (["app", "gen", "b.dart"], .file (.malformed ""))]
  here := []

def brokenPlaces (place : Place) : Bool := place == ["app", "lib", "c.dart"] || place == ["app", "gen", "b.dart"]

/-- A source of a project that exports a file from outside of it, which is empty or holds no text. -/
def exportingSources (readable : Bool) : FileTree where
  entries := [
    (["app", "lib", "a.dart"], .file (.text "export '../src/b.dart';\nclass A \x7b\x7d")),
    (["app", "src", "b.dart"], .file (if readable then .text "" else .malformed ""))]
  here := []

/-- Two files are enough for two workers. -/
def pairedSettings : Settings := ⟨[⟨"lib"⟩], [], [], ⟨true, true⟩, ⟨none, 1, 2⟩, .libSegment⟩

section
variable (readable : Bool)

private def exporting : Project :=
  ⟨exportingSources readable, .libSegment (.ofFiles [⟨"/app/lib/a.dart"⟩]), [⟨"/app/lib/a.dart"⟩], ⟨true, true⟩⟩

private theorem reach_exporting :
    (exporting readable).reach ⟨"/app/lib/a.dart"⟩ = [⟨"/app/lib/a.dart"⟩, ⟨"/app/src/b.dart"⟩] := by
  -- The walk along exports does not evaluate, but its steps do.
  have first : (exporting readable).outward ⟨"/app/lib/a.dart"⟩ = [⟨"/app/src/b.dart"⟩] := by
    revert readable
    decide +kernel
  have last : (exporting readable).outward ⟨"/app/src/b.dart"⟩ = [] := by
    revert readable
    decide +kernel
  have unseen : (Path.mk "/app/src/b.dart").components ∈ without ((Path.mk "/app/lib/a.dart").components ::
      (exporting readable).tree.files.flatMap (exporting readable).tree.spellings)
        (Path.mk "/app/lib/a.dart").components := by
    revert readable
    decide +kernel
  rw [Project.reach, closure, if_pos List.mem_cons_self, first, List.cons_append, closure, if_pos unseen, last,
    List.nil_append, List.nil_append, closure]

private theorem collected_exporting (machine : Machine) :
    (exporting readable).collected machine pairedSettings.parallel =
      Scan.empty.add ([⟨"/app/lib/a.dart"⟩, ⟨"/app/src/b.dart"⟩].foldl (exporting readable).scanFile .empty) := by
  have cut : partition (exporting readable).files 1 = [[⟨"/app/lib/a.dart"⟩]] := by
    revert readable
    decide +kernel
  have alone : pairedSettings.parallel.workersFor machine (exporting readable).files.length = 1 := rfl
  rw [Project.collected, snd_distribute, ParallelSettings.refusals_of_alone alone, alone, cut, ← reach_exporting readable]
  rfl

private theorem run_exporting (machine : Machine) :
    run machine pairedSettings (exportingSources readable) ⟨"/app"⟩ =
      ofScan machine pairedSettings (exportingSources readable) (exporting readable).layout ⟨"/app"⟩
        (exporting readable).files ((exporting readable).scan machine pairedSettings.parallel) := by
  have rooted : Settings.checkRoot (exportingSources readable) ⟨"/app"⟩ = .ok ⟨"/app"⟩ := rfl
  have found : [Path.mk "/app/lib"].flatMap (fun start =>
      pairedSettings.filesBelow (exportingSources readable) ⟨"/app"⟩ start .dart) = [⟨"/app/lib/a.dart"⟩] := by
    revert readable
    decide +kernel
  have listed : pairedSettings.findFiles (exportingSources readable) ⟨"/app"⟩ = .ok [⟨"/app/lib/a.dart"⟩] := by
    rw [Settings.findFiles, rooted]
    exact congrArg Except.ok ((congrArg sortPaths found).trans (by simp [sortPaths, consPath]))
  rw [run, rooted]
  simp only [bind, Except.bind, listed]
  rfl

private def countedSources : List Path :=
  ⟨"/app/lib/a.dart"⟩ :: if readable then [⟨"/app/src/b.dart"⟩] else []

private theorem warnings_exporting (machine : Machine) :
    (run machine pairedSettings (exportingSources readable) ⟨"/app"⟩).map (·.warnings) =
      .ok ((if readable then [] else [.unreadable ⟨"/app/src/b.dart"⟩ .malformed]) ++
        pairedSettings.parallel.refusals machine (countedSources readable).length) := by
  have quiet : Usage.Tally.unreadable (exportingSources readable) (countedSources readable) = [] := by
    revert readable
    decide +kernel
  obtain ⟨some, warned, followed⟩ :
      let scan := Scan.empty.add ([⟨"/app/lib/a.dart"⟩, ⟨"/app/src/b.dart"⟩].foldl (exporting readable).scanFile .empty)
      scan.table.isEmpty = false ∧
      scan.warnings = (if readable then [] else [.unreadable ⟨"/app/src/b.dart"⟩ .malformed]) ∧
      scan.followed = if readable then [⟨"/app/src/b.dart"⟩] else [] := by
    revert readable
    decide +kernel
  rw [← collected_exporting readable machine] at some warned followed
  have order : (((exporting readable).files ++ sortPaths
      ((exporting readable).collected machine pairedSettings.parallel).followed).mergeSort
        fun a b => (compare a b).isLE) = countedSources readable := by
    rw [followed]
    cases readable with
    | false => simp [sortPaths, exporting, countedSources]
    | true =>
      simp only [sortPaths, exporting, countedSources, List.mergeSort_singleton, if_true]
      exact List.mergeSort_of_pairwise (by decide +kernel)
  rw [run_exporting, Project.scan_eq_collected, ← warned]
  simp only [ofScan, Usage.Tally.ofTable, some, order, Usage.Tally.ofFiles_eq_foldl_warned, Usage.Tally.foldl_addFile,
    bind, Except.bind]
  simp [Except.map, quiet, Usage.Tally.empty, exporting]

end

end Analysis
end DeadCode
