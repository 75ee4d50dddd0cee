import DeadCode.Proofs.Chunks
import DeadCode.Proofs.Closure
import DeadCode.Proofs.SortedMap
import DeadCode.Proofs.SortedPaths
import DeadCode.Proofs.Spelling
import Mathlib.Data.List.Perm.Basic

/-!
Reading the files of a project chunk by chunk finds what reading them one after another finds. Only the
order of the exports depends on the chunks: they are those of the files that were read, each file once,
also where exports lead to the same file from several sides.
-/
namespace DeadCode

/-- Of two values for a key the later one counts. -/
abbrev later {ν : Type} (_ new : ν) : ν := new

/-! ### Directives -/

private theorem exists_normalize_of_fileOf? {layout : PackageLayout} {uri : String} {target : Path}
    (found : layout.fileOf? uri = some target) : ∃ path : Path, target = path.normalize := by
  have fromLib (known : LibDirectories) (found : known.fileOf? uri = some target) :
      ∃ path : Path, target = path.normalize := by
    simp only [LibDirectories.fileOf?, Option.bind_eq_bind, Option.bind_eq_some_iff, Option.some.injEq] at found
    obtain ⟨_, _, _, _, same⟩ := found
    exact ⟨_, same.symm⟩
  cases layout with
  | libSegment known => exact fromLib known found
  | pubspec packages fallback =>
    simp only [PackageLayout.fileOf?, Option.bind_eq_bind, Option.bind_eq_some_iff] at found
    obtain ⟨_, _, found⟩ := found
    split at found
    · exact ⟨_, (Option.some.inj found).symm⟩
    · exact fromLib fallback found

private theorem exists_normalize_of_resolve? {layout : PackageLayout} {uri : String} {source target : Path}
    (found : layout.resolve? uri source = some target) : ∃ path : Path, target = path.normalize := by
  rw [PackageLayout.resolve?] at found
  split at found
  · exact exists_normalize_of_fileOf? found
  · split at found
    · cases found
    · obtain ⟨directory, -, rfl⟩ := Option.map_eq_some_iff.mp found
      exact ⟨_, rfl⟩

namespace Directive

/-- The links of a file point where their addresses lead from it. -/
def Resolved (layout : PackageLayout) (directives : FileDirectives) : Prop :=
  ∀ link ∈ directives.imports ++ directives.exports, link.resolved = layout.resolve? link.uri directives.file

private theorem resolved_readStatement {layout : PackageLayout} {directives : FileDirectives}
    (resolved : Resolved layout directives) (statement : List Char) :
    (readStatement layout directives statement).file = directives.file ∧
      Resolved layout (readStatement layout directives statement) := by
  unfold readStatement
  dsimp only
  split
  · split
    · refine ⟨rfl, fun link member => ?_⟩
      rw [← List.append_assoc] at member
      rcases List.mem_append.mp member with member | member
      · exact resolved link member
      · rw [List.mem_singleton.mp member]
    · refine ⟨rfl, fun link member => ?_⟩
      rw [List.append_assoc, List.mem_append, List.mem_append] at member
      rcases member with member | member | member
      · exact resolved link (List.mem_append_left _ member)
      · rw [List.mem_singleton.mp member]
      · exact resolved link (List.mem_append_right _ member)
  · split
    · exact ⟨rfl, resolved⟩
    · split
      · exact ⟨rfl, resolved⟩
      · split
        · exact ⟨rfl, resolved⟩
        · split <;> exact ⟨rfl, resolved⟩

/-- Directives are those of the file, and its links are resolved from there. -/
theorem resolved_read (layout : PackageLayout) (file : Path) (contents : List Char) :
    (read layout file contents).file = file ∧ Resolved layout (read layout file contents) := by
  have folded (statements : List (List Char)) (directives : FileDirectives) (resolved : Resolved layout directives) :
      (statements.foldl (readStatement layout) directives).file = directives.file ∧
        Resolved layout (statements.foldl (readStatement layout) directives) := by
    induction statements generalizing directives with
    | nil => exact ⟨rfl, resolved⟩
    | cons statement rest ih =>
      obtain ⟨stepFile, step⟩ := resolved_readStatement resolved statement
      obtain ⟨restFile, rest⟩ := ih _ step
      exact ⟨restFile.trans stepFile, rest⟩
  exact folded _ _ fun link member => absurd member List.not_mem_nil

/-- The exports of a file lead to paths in normal form. -/
theorem read_spec (layout : PackageLayout) (file : Path) (contents : List Char) :
    (read layout file contents).file = file ∧
      ∀ target ∈ (read layout file contents).exportTargets, ∃ path : Path, target = path.normalize := by
  obtain ⟨sameFile, resolved⟩ := resolved_read layout file contents
  refine ⟨sameFile, fun target member => ?_⟩
  obtain ⟨link, inExports, leads⟩ := List.mem_filterMap.mp member
  exact exists_normalize_of_resolve? ((resolved link (List.mem_append_right _ inExports)).symm.trans leads)

end Directive

/-! ### Tables apart from the order of exports -/

namespace SymbolTable

/-- The table apart from its list of exports. -/
def unlisted (table : SymbolTable) : SymbolTable := { table with exports := [] }

theorem unlisted_ext {a b : SymbolTable} (classes : a.classes = b.classes) (functions : a.functions = b.functions)
    (directives : a.directives = b.directives) : a.unlisted = b.unlisted := by
  simp [unlisted, classes, functions, directives]

theorem of_unlisted_eq {a b : SymbolTable} (same : a.unlisted = b.unlisted) :
    a.classes = b.classes ∧ a.functions = b.functions ∧ a.directives = b.directives := by
  obtain ⟨classes, functions, -, directives⟩ := SymbolTable.mk.inj same
  exact ⟨classes, functions, directives⟩

theorem foldl_insertClass (table : SymbolTable) (found : List ClassEntity) :
    found.foldl insertClass table =
      { table with classes := table.classes.addAll later (found.map fun entity => (entity.key, entity)) } := by
  induction found generalizing table with
  | nil => rfl
  | cons entity rest ih =>
    rw [List.foldl_cons, ih, insertClass, SortedMap.insert_eq_addWith]
    rfl

theorem foldl_insertFunction (table : SymbolTable) (found : List FunctionEntity) :
    found.foldl insertFunction table =
      { table with functions := table.functions.addAll later (found.map fun entity => (entity.key, entity)) } := by
  induction found generalizing table with
  | nil => rfl
  | cons entity rest ih =>
    rw [List.foldl_cons, ih, insertFunction, SortedMap.insert_eq_addWith]
    rfl

theorem insertSource_eq (table : SymbolTable) (withFunctions : Bool) (layout : PackageLayout) (file : Path)
    (contents : List Char) :
    let found := Source.scan withFunctions file contents
    let directives := Directive.read layout file contents
    table.insertSource withFunctions layout file contents =
      ⟨table.classes.addAll later (found.classes.map fun entity => (entity.key, entity)),
        table.functions.addAll later (found.functions.map fun entity => (entity.key, entity)),
        table.exports ++ directives.exports, table.directives.addWith later directives.file directives⟩ := by
  simp only [insertSource, foldl_insertClass, foldl_insertFunction, insertDirectives, SortedMap.insert_eq_addWith]

private theorem foldl_mergeDirectives (table : SymbolTable) (entries : List (Path × FileDirectives)) :
    (entries.foldl mergeDirectives table).classes = table.classes ∧
      (entries.foldl mergeDirectives table).functions = table.functions ∧
      (entries.foldl mergeDirectives table).directives = table.directives.addAll later entries := by
  induction entries generalizing table with
  | nil => exact ⟨rfl, rfl, rfl⟩
  | cons entry rest ih =>
    obtain ⟨classes, functions, directives⟩ := ih (table.mergeDirectives entry)
    refine ⟨classes, functions, directives.trans ?_⟩
    rw [mergeDirectives, SortedMap.insert_eq_addWith, SortedMap.addAll_cons]

theorem classes_merge (table other : SymbolTable) :
    (table.merge other).classes = table.classes.addAll later other.classes.entries := by
  rw [merge, (foldl_mergeDirectives _ _).1]
  exact SortedMap.insertAll_eq_addAll _ _

theorem functions_merge (table other : SymbolTable) :
    (table.merge other).functions = table.functions.addAll later other.functions.entries := by
  rw [merge, (foldl_mergeDirectives _ _).2.1]
  exact SortedMap.insertAll_eq_addAll _ _

theorem directives_merge (table other : SymbolTable) :
    (table.merge other).directives = table.directives.addAll later other.directives.entries := by
  rw [merge, (foldl_mergeDirectives _ _).2.2]

/-- Merging a table into which a file was read is merging the table and then reading the file. -/
theorem unlisted_merge_insertSource (table other : SymbolTable) (withFunctions : Bool) (layout : PackageLayout)
    (file : Path) (contents : List Char) :
    (table.merge (other.insertSource withFunctions layout file contents)).unlisted =
      ((table.merge other).insertSource withFunctions layout file contents).unlisted := by
  rw [insertSource_eq, insertSource_eq]
  refine unlisted_ext ?_ ?_ ?_
  · rw [classes_merge, classes_merge, SortedMap.addAll_gathered fun _ _ _ => rfl]
  · rw [functions_merge, functions_merge, SortedMap.addAll_gathered fun _ _ _ => rfl]
  · rw [directives_merge, directives_merge, SortedMap.addAll_addWith fun _ _ _ => rfl]

theorem unlisted_insertSource_congr {a b : SymbolTable} (same : a.unlisted = b.unlisted) (withFunctions : Bool)
    (layout : PackageLayout) (file : Path) (contents : List Char) :
    (a.insertSource withFunctions layout file contents).unlisted =
      (b.insertSource withFunctions layout file contents).unlisted := by
  obtain ⟨classes, functions, directives⟩ := of_unlisted_eq same
  rw [insertSource_eq, insertSource_eq, classes, functions, directives]
  rfl

end SymbolTable

/-! ### Reading chunk by chunk -/

namespace Scan

def unlisted (scan : Scan) : Scan := { scan with table := scan.table.unlisted }

def add (scan part : Scan) : Scan :=
  ⟨scan.table.merge part.table, scan.warnings ++ part.warnings, scan.filesScanned + part.filesScanned,
    scan.followed ++ part.followed⟩

theorem add_empty (scan : Scan) : scan.add .empty = scan := by
  simp [add, empty, SymbolTable.merge, SymbolTable.empty, SortedMap.empty, SortedMap.insertAll]

private theorem unlisted_add_scanFile (project : Project) (scan part : Scan) (file : Path) :
    (scan.add (project.scanFile part file)).unlisted = (project.scanFile (scan.add part) file).unlisted := by
  unfold Project.scanFile
  split
  · simp [add, unlisted]
  · simp only [add, unlisted, SymbolTable.unlisted_merge_insertSource, Nat.add_assoc]
    split <;> simp

private theorem unlisted_scanFile_congr (project : Project) (a b : Scan) (file : Path)
    (same : a.unlisted = b.unlisted) :
    (project.scanFile a file).unlisted = (project.scanFile b file).unlisted := by
  obtain ⟨table, warnings, filesScanned, followed⟩ := Scan.mk.inj same
  unfold Project.scanFile
  split
  · simp [unlisted, table, warnings, filesScanned, followed]
  · simp [unlisted, SymbolTable.unlisted_insertSource_congr table, warnings, filesScanned, followed]

private theorem unlisted_add_foldl (project : Project) (scan part : Scan) (files : List Path) :
    (scan.add (files.foldl project.scanFile part)).unlisted =
      (files.foldl project.scanFile (scan.add part)).unlisted := by
  induction files generalizing part with
  | nil => rfl
  | cons file rest ih =>
    rw [List.foldl_cons, ih, List.foldl_cons]
    exact foldl_congr_view (unlisted_scanFile_congr project) (unlisted_add_scanFile project scan part file) rest

end Scan

namespace Project

def gather (project : Project) (chunks : List (List Path)) : Scan :=
  chunks.foldl (fun scan chunk => scan.add (project.scanFiles chunk)) Scan.empty

/-- The files that are read, one after another; some may be read several times. -/
def visited (project : Project) : List Path := project.files.flatMap project.reach

/-- What is read with several workers, before the paths that exports led to are put in order. -/
def collected (project : Project) (machine : Machine) (parallel : ParallelSettings) : Scan :=
  (partition project.files (parallel.workersFor machine project.files.length)).foldl
    (fun scan chunk => scan.add (project.scanFiles chunk))
    { Scan.empty with warnings := (parallel.distribute machine project.scanFiles project.files).2 }

theorem scan_eq_collected (project : Project) (machine : Machine) (parallel : ParallelSettings) :
    project.scan machine parallel =
      { project.collected machine parallel with
        followed := sortPaths (project.collected machine parallel).followed } := by
  have absorbed (scan part : Scan) (index : Nat) : scan.absorb (.ok part, index) = scan.add part := rfl
  simp only [scan, fst_distribute, foldl_absorb absorbed]
  rfl

theorem scan_eq_gather {machine : Machine} (started : machine.poolFailure = none) (project : Project)
    (parallel : ParallelSettings) :
    ∃ chunks, chunks.flatten = project.files ∧ project.scan machine parallel =
      { project.gather chunks with followed := sortPaths (project.gather chunks).followed } := by
  refine ⟨_, flatten_partition project.files (parallel.workersFor machine project.files.length), ?_⟩
  rw [scan_eq_collected, collected, distribute_eq started]
  rfl

private theorem foldl_scanFrom (project : Project) (scan : Scan) (files : List Path) :
    files.foldl project.scanFrom scan = (files.flatMap project.reach).foldl project.scanFile scan :=
  List.foldl_flatMap.symm

/-- If exports are not followed, a file leads nowhere. -/
theorem scanFrom_of_unfollowed {project : Project} (unfollowed : project.settings.followExports = false) :
    project.scanFrom = project.scanFile := by
  funext scan file
  have stops : project.outward file = [] := by
    unfold outward
    split
    · rfl
    · rw [if_neg (by simp [unfollowed])]
  have alone : project.reach file = [file] := by
    rw [reach, closure, if_pos List.mem_cons_self, stops, List.nil_append, closure]
  rw [scanFrom, alone]
  rfl

/-- Apart from the order of exports, chunks do not show. -/
theorem unlisted_foldl_add (project : Project) (chunks : List (List Path)) (scan : Scan) :
    (chunks.foldl (fun scan chunk => scan.add (project.scanFiles chunk)) scan).unlisted =
      ((chunks.flatten.flatMap project.reach).foldl project.scanFile scan).unlisted := by
  have worked (scan : Scan) (chunk : List Path) : (scan.add (project.scanFiles chunk)).unlisted =
      (chunk.foldl project.scanFrom scan).unlisted := by
    rw [scanFiles, foldl_scanFrom, Scan.unlisted_add_foldl, Scan.add_empty, foldl_scanFrom]
  have same (a b : Scan) (file : Path) (start : a.unlisted = b.unlisted) :
      (project.scanFrom a file).unlisted = (project.scanFrom b file).unlisted :=
    foldl_congr_view (Scan.unlisted_scanFile_congr project) start (project.reach file)
  rw [foldl_chunks Scan.unlisted worked same, foldl_scanFrom]

theorem unlisted_gather (project : Project) (chunks : List (List Path)) :
    (project.gather chunks).unlisted =
      ((chunks.flatten.flatMap project.reach).foldl project.scanFile .empty).unlisted :=
  project.unlisted_foldl_add chunks .empty

end Project

/-! ### Exports -/

namespace SymbolTable

/-- The exports are those that the directives of the files hold, each file once. -/
def IsListed (table : SymbolTable) : Prop :=
  table.exports.Perm (table.directives.entries.flatMap (·.2.exports))

private theorem isListed_mergeDirectives {table : SymbolTable} (listed : table.IsListed)
    {entry : Path × FileDirectives}
    (agrees : ∀ old, table.directives.get? entry.1 = some old → old.exports = entry.2.exports) :
    (table.mergeDirectives entry).IsListed := by
  rw [IsListed, mergeDirectives]
  cases known : table.directives.get? entry.1 with
  | none =>
    have added := SortedMap.perm_entries_alter (fun _ => entry.2) known
    simp only [SortedMap.contains, known, Option.isSome_none, Bool.false_eq_true, if_false]
    refine ((listed.append_right _).trans List.perm_append_comm).trans ?_
    exact (added.flatMap_right fun entry => entry.2.exports).symm
  | some old =>
    have kept : (table.directives.insert entry.1 entry.2).entries.map (·.2.exports) =
        table.directives.entries.map (·.2.exports) :=
      SortedMap.map_values_alter known (agrees old known).symm
    simp only [SortedMap.contains, known, Option.isSome_some, if_true]
    rwa [List.flatMap_def, kept, ← List.flatMap_def]

end SymbolTable

namespace Project

def directivesOf? (project : Project) (file : Path) : Option FileDirectives :=
  match project.tree.read file with
  | .ok contents => some (Directive.read project.layout file contents.toList)
  | .error _ => none

def States (project : Project) (entry : Path × FileDirectives) : Prop :=
  entry.1 ∈ project.visited ∧ project.directivesOf? entry.1 = some entry.2

/-- The directives of a table are those of files that are read. -/
def StatesAll (project : Project) (table : SymbolTable) : Prop :=
  ∀ entry ∈ table.directives.entries, project.States entry

private theorem statesAll_empty (project : Project) : project.StatesAll Scan.empty.table :=
  fun _ member => absurd member List.not_mem_nil

/-- Of the files that are read none has two spellings. -/
def SpelledOnce (project : Project) : Prop :=
  ∀ a ∈ project.visited, ∀ b ∈ project.visited, a.same b → a = b

section
variable {project : Project} (once : project.SpelledOnce) {table : SymbolTable} (stated : project.StatesAll table)
include once stated

private theorem states_of_mem_insert {added : Path × FileDirectives} (new : project.States added) :
    ∀ entry ∈ (table.directives.insert added.1 added.2).entries, project.States entry := by
  intro entry member
  rcases SortedMap.of_mem_alterEntries member with present | rfl | ⟨old, present, equal, rfl⟩
  · exact stated entry present
  · exact new
  · obtain ⟨visited, -⟩ := stated old present
    have same := once added.1 new.1 old.1 visited (Path.compare_eq_iff_same.mp equal)
    exact same ▸ new

private theorem eq_of_states {added : Path × FileDirectives} (new : project.States added) {old : FileDirectives}
    (known : table.directives.get? added.1 = some old) : old = added.2 := by
  obtain ⟨entry, present, equal, rfl⟩ := SortedMap.exists_mem_of_get? known
  obtain ⟨visited, same⟩ := stated entry present
  rw [← once added.1 new.1 entry.1 visited (Path.compare_eq_iff_same.mp equal), new.2] at same
  exact (Option.some.inj same).symm

private theorem statesAll_foldl_mergeDirectives (listed : table.IsListed) {entries : List (Path × FileDirectives)}
    (new : ∀ entry ∈ entries, project.States entry) :
    project.StatesAll (entries.foldl SymbolTable.mergeDirectives table) ∧
      (entries.foldl SymbolTable.mergeDirectives table).IsListed := by
  induction entries generalizing table with
  | nil => exact ⟨stated, listed⟩
  | cons entry rest ih =>
    obtain ⟨first, others⟩ := List.forall_mem_cons.mp new
    refine ih (states_of_mem_insert once stated first) ?_ others
    exact SymbolTable.isListed_mergeDirectives listed fun old known => by rw [eq_of_states once stated first known]

private theorem statesAll_merge (listed : table.IsListed) {other : SymbolTable} (new : project.StatesAll other) :
    project.StatesAll (table.merge other) ∧ (table.merge other).IsListed := by
  let start := { table with
    classes := table.classes.insertAll other.classes
    functions := table.functions.insertAll other.functions }
  have startStated : project.StatesAll start := stated
  have startListed : start.IsListed := listed
  exact statesAll_foldl_mergeDirectives once startStated startListed new

omit stated in
private theorem statesAll_scanFile {scan : Scan} (stated : project.StatesAll scan.table) {file : Path}
    (visited : file ∈ project.visited) : project.StatesAll (project.scanFile scan file).table := by
  rw [scanFile]
  split
  · exact stated
  case h_2 contents read =>
    have same := (Directive.read_spec project.layout file contents.toList).1
    have new : project.States (file, Directive.read project.layout file contents.toList) :=
      ⟨visited, by rw [directivesOf?, read]⟩
    rw [SymbolTable.insertSource_eq, ← SortedMap.insert_eq_addWith, same]
    exact states_of_mem_insert once stated new

omit stated in
private theorem statesAll_foldl_scanFile {scan : Scan} (stated : project.StatesAll scan.table) {files : List Path}
    (visited : ∀ file ∈ files, file ∈ project.visited) :
    project.StatesAll (files.foldl project.scanFile scan).table := by
  induction files generalizing scan with
  | nil => exact stated
  | cons file rest ih =>
    obtain ⟨first, others⟩ := List.forall_mem_cons.mp visited
    exact ih (statesAll_scanFile once stated first) others

omit stated in
private theorem statesAll_scanFiles {chunk : List Path} (inside : ∀ file ∈ chunk, file ∈ project.files) :
    project.StatesAll (project.scanFiles chunk).table := by
  rw [scanFiles, foldl_scanFrom]
  refine statesAll_foldl_scanFile once (statesAll_empty project) fun path member => ?_
  obtain ⟨file, inChunk, reached⟩ := List.mem_flatMap.mp member
  exact List.mem_flatMap.mpr ⟨file, inside file inChunk, reached⟩

omit stated in
/-- The exports that were gathered are those of the files, each file once. -/
theorem isListed_gather {chunks : List (List Path)} (files : chunks.flatten = project.files) :
    (project.gather chunks).table.IsListed := by
  have folded (chunks : List (List Path)) (inside : ∀ chunk ∈ chunks, ∀ file ∈ chunk, file ∈ project.files)
      (scan : Scan) (stated : project.StatesAll scan.table) (listed : scan.table.IsListed) :
      (chunks.foldl (fun scan chunk => scan.add (project.scanFiles chunk)) scan).table.IsListed := by
    induction chunks generalizing scan with
    | nil => exact listed
    | cons chunk rest ih =>
      obtain ⟨first, others⟩ := List.forall_mem_cons.mp inside
      obtain ⟨nextStated, nextListed⟩ := statesAll_merge once stated listed (statesAll_scanFiles once first)
      exact ih others _ nextStated nextListed
  refine folded chunks (fun chunk inChunks file inChunk => ?_) .empty (statesAll_empty project) (.refl _)
  rw [← files]
  exact List.mem_flatten.mpr ⟨chunk, inChunks, inChunk⟩

end

/-! ### Spelling -/

theorem mem_outward_iff {project : Project} {file target : Path} : target ∈ project.outward file ↔
    ∃ contents, project.tree.read file = .ok contents ∧ project.settings.followExports ∧
      target ∈ (Directive.read project.layout file contents.toList).exportTargets ∧
        project.tree.isFile target ∧ project.holds target = false := by
  rw [outward]
  cases given : project.tree.read file with
  | error cause => simp
  | ok contents =>
    cases follows : project.settings.followExports with
    | false => simp
    | true => simp [and_comm]

private theorem of_mem_outward {project : Project} {file path : Path} (member : path ∈ project.outward file) :
    (∃ other : Path, path = other.normalize) ∧ project.holds path = false := by
  obtain ⟨contents, -, -, leads, -, outside⟩ := mem_outward_iff.mp member
  exact ⟨(Directive.read_spec project.layout file contents.toList).2 path leads, outside⟩

theorem of_mem_reach {project : Project} {file path : Path} (member : path ∈ project.reach file) :
    path = file ∨ (∃ other : Path, path = other.normalize) ∧ project.holds path = false :=
  closure_invariant
    (fun path => path = file ∨ (∃ other : Path, path = other.normalize) ∧ project.holds path = false)
    (fun _ _ _ inOutward => .inr (of_mem_outward inOutward))
    (fun _ isStart => .inl (List.mem_singleton.mp isStart)) path member

private theorem of_mem_visited {project : Project} {path : Path} (member : path ∈ project.visited) :
    path ∈ project.files ∨ (∃ other : Path, path = other.normalize) ∧ project.holds path = false := by
  obtain ⟨file, inFiles, reached⟩ := List.mem_flatMap.mp member
  rcases of_mem_reach reached with rfl | followed
  · exact .inl inFiles
  · exact .inr followed

theorem not_same_of_outside {project : Project} {file path : Path} (inFiles : file ∈ project.files)
    (outside : project.holds path = false) : ¬ file.same path := by
  intro same
  have inside : project.holds path := List.any_eq_true.mpr ⟨file, inFiles, same⟩
  exact absurd inside (outside ▸ Bool.false_ne_true)

/-- Two spellings of a file that is read are spellings in the project: exports lead to paths in normal form. -/
theorem eq_or_mem_files_of_same {project : Project} {a b : Path} (visitedA : a ∈ project.visited)
    (visitedB : b ∈ project.visited) (same : a.same b) : a = b ∨ a ∈ project.files ∧ b ∈ project.files := by
  rcases of_mem_visited visitedA with inFilesA | ⟨⟨pathA, rfl⟩, outsideA⟩
  · rcases of_mem_visited visitedB with inFilesB | ⟨-, outsideB⟩
    · exact .inr ⟨inFilesA, inFilesB⟩
    · exact absurd same (not_same_of_outside inFilesA outsideB)
  · rcases of_mem_visited visitedB with inFilesB | ⟨⟨pathB, rfl⟩, -⟩
    · exact absurd (Path.same_symm same) (not_same_of_outside inFilesB outsideA)
    · exact .inl (Path.normalize_eq_of_same same)

/-- In a project whose files are in strict order no file is read under two spellings. -/
theorem spelledOnce {project : Project} (ascending : project.files.Pairwise fun a b => compare a b = .lt) :
    project.SpelledOnce := by
  intro a visitedA b visitedB same
  rcases eq_or_mem_files_of_same visitedA visitedB same with equal | ⟨inFilesA, inFilesB⟩
  · exact equal
  · exact eq_of_same_of_ascending ascending inFilesA inFilesB same

end Project
end DeadCode
