import DeadCode.Proofs.FilePlaces
import DeadCode.Proofs.Scanning
import Mathlib.Logic.Function.Iterate

/-!
Following exports reads exactly what they lead to. The files that a file leads to are given by a relation; the walk
that reads them is a loop over a stack of paths, which ends because only so many paths lead to files of the tree. What
the loop has opened in the end are the files of the relation, each once, and what it has found is what reading them
one after another finds.
-/
namespace DeadCode

/-! ### Where exports lead -/

theorem PackageLayout.resolve?_congr (layout : PackageLayout) (uri : String) {a b : Path} (same : a.same b) :
    layout.resolve? uri a = layout.resolve? uri b := by
  rw [resolve?, resolve?, Path.parent?, Path.parent?, Path.same_iff.mp same]

namespace Directive

/-- Directives whose exports lead to the same files. -/
private def LeadAlike (a b : FileDirectives) : Prop := a.file.same b.file ∧ a.exportTargets = b.exportTargets

private theorem leadAlike_readStatement (layout : PackageLayout) {a b : FileDirectives} (alike : LeadAlike a b)
    (statement : List Char) : LeadAlike (readStatement layout a statement) (readStatement layout b statement) := by
  obtain ⟨same, targets⟩ := alike
  unfold readStatement
  dsimp only
  split
  case h_1 reading _ =>
    split
    · refine ⟨same, ?_⟩
      simp only [FileDirectives.exportTargets, List.filterMap_append] at targets ⊢
      rw [targets, layout.resolve?_congr _ same]
      rfl
    · exact ⟨same, targets⟩
  case h_2 =>
    split
    · exact ⟨same, targets⟩
    · split
      · exact ⟨same, targets⟩
      · split
        · exact ⟨same, targets⟩
        · split <;> exact ⟨same, targets⟩

/-- Where the exports of a file lead does not depend on how its path is written. -/
theorem exportTargets_read_congr (layout : PackageLayout) {a b : Path} (same : a.same b) (contents : List Char) :
    (read layout a contents).exportTargets = (read layout b contents).exportTargets := by
  have folded (texts : List (List Char)) (first second : FileDirectives) (alike : LeadAlike first second) :
      LeadAlike (texts.foldl (readStatement layout) first) (texts.foldl (readStatement layout) second) := by
    induction texts generalizing first second with
    | nil => exact alike
    | cons text rest ih => exact ih _ _ (leadAlike_readStatement layout alike text)
  have empty : LeadAlike (.empty a) (.empty b) := ⟨same, rfl⟩
  exact (folded (statements contents) _ _ empty).2

end Directive

namespace Project
variable {project : Project}

/-- The files that are read on behalf of a file: the file itself and, if exports are followed, each file outside of the
project to which an export of one of them leads that can be read. -/
inductive Reached (project : Project) (start : Path) : Path → Prop where
  | start : Reached project start start
  | exported {file target : Path} {contents : String} (reached : Reached project start file)
      (given : project.tree.read file = .ok contents) (follows : project.settings.followExports)
      (leads : target ∈ (Directive.read project.layout file contents.toList).exportTargets)
      (isFile : project.tree.isFile target) (outside : project.holds target = false) :
      Reached project start target

theorem reached_iff_chain {start path : Path} : project.Reached start path ↔
    Relation.ReflTransGen (fun a b => b ∈ project.outward a) start path := by
  constructor
  · intro reached
    induction reached with
    | start => exact .refl
    | exported _ given follows leads isFile outside ih =>
      exact ih.tail (mem_outward_iff.mpr ⟨_, given, follows, leads, isFile, outside⟩)
  · intro chain
    induction chain with
    | refl => exact .start
    | tail _ step ih =>
      obtain ⟨contents, given, follows, leads, isFile, outside⟩ := mem_outward_iff.mp step
      exact .exported ih given follows leads isFile outside

/-- All but the first of the files are outside of the project, and their paths are in normal form. -/
theorem Reached.cases_outside {start path : Path} (reached : project.Reached start path) :
    path = start ∨ (∃ other : Path, path = other.normalize) ∧ project.tree.isFile path ∧ project.holds path = false := by
  cases reached with
  | start => exact .inl rfl
  | exported _ given follows leads isFile outside =>
    exact .inr ⟨(Directive.read_spec _ _ _).2 _ leads, isFile, outside⟩

/-- Only a file that can be read leads anywhere. -/
theorem Reached.isFile_start {start path : Path} (reached : project.Reached start path) (other : path ≠ start) :
    project.tree.isFile start := by
  induction reached with
  | start => exact absurd rfl other
  | @exported file target contents reached given follows leads isFile outside ih =>
    by_cases first : file = start
    · rw [← first]
      exact FileTree.isFile_of_read given
    · exact ih first

/-- Files that are reached under one path lead to the same files, however the path is written. -/
private theorem outward_eq_of_same {start a b : Path} (reachedA : project.Reached start a)
    (reachedB : project.Reached start b) (same : a.same b) : project.outward a = project.outward b := by
  by_cases equal : a = b
  · rw [equal]
  have isFile : project.tree.isFile a ∧ project.tree.isFile b := by
    rcases reachedA.cases_outside with rfl | ⟨⟨other, rfl⟩, isFileA, -⟩
    · rcases reachedB.cases_outside with rfl | ⟨-, isFileB, -⟩
      · exact absurd rfl equal
      · exact ⟨reachedB.isFile_start (Ne.symm equal), isFileB⟩
    · rcases reachedB.cases_outside with rfl | ⟨⟨another, rfl⟩, -, -⟩
      · exact ⟨isFileA, reachedA.isFile_start equal⟩
      · exact absurd (Path.normalize_eq_of_same same) equal
  rw [outward, outward, FileTree.read_eq_of_same same isFile.1 isFile.2]
  cases project.tree.read b with
  | error cause => rfl
  | ok contents =>
    dsimp only
    rw [Directive.exportTargets_read_congr _ same]

/-- The components that a path read on behalf of a file can have. -/
def reachable (project : Project) (file : Path) : List (List Component) :=
  file.components :: project.tree.files.flatMap project.tree.spellings

theorem mem_reachable_of_outward (start : Path) {file path : Path} (member : path ∈ project.outward file) :
    path.components ∈ project.reachable start := by
  obtain ⟨contents, -, -, leads, isFile, -⟩ := mem_outward_iff.mp member
  obtain ⟨other, rfl⟩ := (Directive.read_spec project.layout file contents.toList).2 path leads
  obtain ⟨place, inFiles, spelled⟩ := FileTree.exists_mem_spellings isFile
  exact List.mem_cons_of_mem _ (List.mem_flatMap.mpr ⟨place, inFiles, spelled⟩)

theorem reached_of_mem_reach {start path : Path} (member : path ∈ project.reach start) :
    project.Reached start path := by
  obtain ⟨first, isStart, chain⟩ := reach_of_mem_closure member
  rw [List.mem_singleton.mp isStart] at chain
  exact reached_iff_chain.mpr chain

theorem exists_mem_reach {start path : Path} (reached : project.Reached start path) :
    ∃ met ∈ project.reach start, met.same path := by
  have chained {path : Path}
      (chain : ∃ first ∈ [start], Relation.ReflTransGen (fun a b => b ∈ project.outward a) first path) :
      project.Reached start path := by
    obtain ⟨first, isStart, chain⟩ := chain
    rw [List.mem_singleton.mp isStart] at chain
    exact reached_iff_chain.mpr chain
  obtain ⟨met, member, same⟩ := exists_mem_closure_of_reach
    (fun a b chainA chainB same => by
      rw [outward_eq_of_same (chained chainA) (chained chainB) (Path.same_iff.mpr same)])
    (fun _ _ => mem_reachable_of_outward start) List.mem_cons_self List.mem_cons_self
    (reached_iff_chain.mp reached)
  exact ⟨met, member, Path.same_iff.mpr same⟩

theorem pairwise_reach (project : Project) (start : Path) : (project.reach start).Pairwise fun a b => ¬ a.same b := by
  have keys := nodup_keys_closure Path.components project.outward (project.reachable start) [start]
  exact (List.pairwise_map.mp keys).imp fun apart same => apart (Path.same_iff.mp same)

end Project

/-! ### The walk -/

structure ExportWalk where
  /-- The paths to look at, the next one first. -/
  pending : List Path
  /-- The paths that were opened, in order. -/
  opened : List Path
  scan : Scan

namespace ExportWalk

def start (scan : Scan) (file : Path) : ExportWalk := ⟨[file], [], scan⟩

/-- One round: the next path is taken and, unless it was opened before, the file is opened and read. Where its exports
lead is looked at next, the last export first. -/
def next (project : Project) (walk : ExportWalk) : ExportWalk :=
  match walk.pending with
  | [] => walk
  | file :: rest =>
    if walk.opened.any (·.same file) then { walk with pending := rest }
    else
      let opened := walk.opened ++ [file]
      match project.tree.read file with
      | .error cause =>
        ⟨rest, opened, { walk.scan with warnings := walk.scan.warnings ++ [.unreadable file cause] }⟩
      | .ok contents =>
        let targets := (Directive.read project.layout file contents.toList).exportTargets
        let found := targets.filter fun target =>
          !project.holds target && !opened.any (·.same target) && project.tree.isFile target
        ⟨if project.settings.followExports then found.reverse ++ rest else rest, opened,
          { table := walk.scan.table.insertSource project.settings.functions project.layout file contents.toList
            warnings := walk.scan.warnings
            filesScanned := walk.scan.filesScanned + 1
            followed := if project.holds file then walk.scan.followed else walk.scan.followed ++ [file] }⟩

variable {project : Project} {file : Path} {rest opened : List Path} {scan : Scan}

private theorem next_of_opened (known : opened.any (·.same file)) :
    next project ⟨file :: rest, opened, scan⟩ = ⟨rest, opened, scan⟩ :=
  if_pos known

private theorem next_of_fresh (fresh : ¬ opened.any (·.same file)) :
    next project ⟨file :: rest, opened, scan⟩ =
      ⟨(project.outward file).filter (fun target => !(opened ++ [file]).any (·.same target)) ++ rest, opened ++ [file],
        project.scanFile scan file⟩ := by
  refine (if_neg fresh).trans ?_
  rw [Project.outward, Project.scanFile]
  cases project.tree.read file with
  | error cause => rfl
  | ok contents =>
    cases project.settings.followExports with
    | false => rfl
    | true =>
      have order : (fun target => !project.holds target && !(opened ++ [file]).any (·.same target) &&
          project.tree.isFile target) =
          fun target => !(opened ++ [file]).any (·.same target) &&
            (!project.holds target && project.tree.isFile target) := by
        funext target
        rw [← Bool.and_assoc, Bool.and_comm (!project.holds target)]
      simp only [if_true, order, List.filter_reverse, List.filter_filter]

private def unopened (known : List (List Component)) (opened : List Path) : List (List Component) :=
  known.filter fun parts => !opened.any (·.components == parts)

private theorem without_unopened (known : List (List Component)) (opened : List Path) (file : Path) :
    without (unopened known opened) file.components = unopened known (opened ++ [file]) := by
  rw [without, unopened, unopened, List.filter_filter]
  refine List.filter_congr fun parts _ => ?_
  simp only [List.any_append, List.any_cons, List.any_nil, Bool.or_false]
  grind

private theorem mem_unopened {known : List (List Component)} (opened : List Path) (within : file.components ∈ known) :
    file.components ∈ unopened known opened ↔ ¬ opened.any (·.same file) := by
  rw [unopened, List.mem_filter, Bool.not_eq_true', Bool.not_eq_true]
  exact and_iff_right within

/-- Whatever was opened already, the walk ends, and then it has opened and read what can be reached. -/
private theorem exists_ended {components : List (List Component)}
    (closed : ∀ file, ∀ path ∈ project.outward file, path.components ∈ components) (pending opened : List Path)
    (scan : Scan) (within : ∀ path ∈ pending, path.components ∈ components) :
    ∃ rounds, (next project)^[rounds] ⟨pending, opened, scan⟩ =
      ⟨[], opened ++ closure Path.components project.outward (unopened components opened) pending,
        (closure Path.components project.outward (unopened components opened) pending).foldl project.scanFile scan⟩ := by
  match pending with
  | [] => exact ⟨0, by rw [closure, List.append_nil]; rfl⟩
  | file :: rest =>
    obtain ⟨here, others⟩ := List.forall_mem_cons.mp within
    by_cases known : opened.any (·.same file)
    · obtain ⟨rounds, ended⟩ := exists_ended closed rest opened scan others
      refine ⟨rounds + 1, ?_⟩
      rw [Function.iterate_succ_apply, next_of_opened known, ended, closure,
        if_neg (fun fresh => (mem_unopened opened here).mp fresh known)]
    · have unentered : file.components ∈ unopened components opened := (mem_unopened opened here).mpr known
      let found := (project.outward file).filter fun target => !(opened ++ [file]).any (·.same target)
      have foundWithin : ∀ path ∈ found ++ rest, path.components ∈ components := by
        intro path member
        rcases List.mem_append.mp member with member | member
        · exact closed file path (List.mem_filter.mp member).1
        · exact others path member
      obtain ⟨rounds, ended⟩ := exists_ended closed (found ++ rest) (opened ++ [file]) (project.scanFile scan file)
        foundWithin
      -- The round leaves out what was opened already, which the closure passes over later.
      have passed : closure Path.components project.outward (unopened components (opened ++ [file])) (found ++ rest) =
          closure Path.components project.outward (unopened components (opened ++ [file]))
            (project.outward file ++ rest) := by
        refine closure_congr ?_
        rw [List.filter_append, List.filter_append, List.filter_filter]
        refine congrArg (· ++ _) (List.filter_congr fun path member => ?_)
        have open_iff := mem_unopened (opened ++ [file]) (closed file path member)
        by_cases fresh : path.components ∈ unopened components (opened ++ [file])
        · simp [fresh, open_iff.mp fresh]
        · simp [fresh]
      refine ⟨rounds + 1, ?_⟩
      rw [Function.iterate_succ_apply, next_of_fresh known, ended, passed, closure, if_pos unentered,
        without_unopened, List.append_assoc, List.singleton_append, List.foldl_cons]
termination_by ((unopened components opened).length, pending.length)
decreasing_by
  · exact Prod.Lex.right _ (by simp)
  · rw [← without_unopened]
    exact Prod.Lex.left _ _ (length_without_lt unentered)

/-- The walk from a file ends with what the file leads to. -/
theorem exists_ended_start (project : Project) (scan : Scan) (file : Path) :
    ∃ rounds, (next project)^[rounds] (start scan file) = ⟨[], project.reach file, project.scanFrom scan file⟩ := by
  have all : unopened (project.reachable file) [] = project.reachable file :=
    List.filter_eq_self.mpr fun _ _ => rfl
  have closed (node path : Path) (member : path ∈ project.outward node) : path.components ∈ project.reachable file :=
    Project.mem_reachable_of_outward file member
  have ended := exists_ended closed [file] [] scan (List.forall_mem_singleton.mpr List.mem_cons_self)
  rwa [all, List.nil_append] at ended

end ExportWalk

/-! ### What is found -/

namespace Project

def source? (project : Project) (file : Path) : Option (Path × List Char) :=
  match project.tree.read file with
  | .ok contents => some (file, contents.toList)
  | .error _ => none

def fault? (project : Project) (file : Path) : Option Warning :=
  match project.tree.read file with
  | .ok _ => none
  | .error cause => some (.unreadable file cause)

section
variable (project : Project) (files : List Path)

def sources : List (Path × List Char) := files.filterMap project.source?

def foundIn (source : Path × List Char) : Source.FileScan :=
  Source.scan project.settings.functions source.1 source.2

def directivesIn (source : Path × List Char) : FileDirectives := Directive.read project.layout source.1 source.2

/-- What reading some files one after another adds to what was known. -/
structure Adds (before after : Scan) : Prop where
  /-- The classes of the files that can be read; of two with one key the later one is kept. -/
  classes : after.table.classes = before.table.classes.addAll later
    ((project.sources files).flatMap fun source => (project.foundIn source).classes.map fun entity => (entity.key, entity))
  functions : after.table.functions = before.table.functions.addAll later
    ((project.sources files).flatMap fun source =>
      (project.foundIn source).functions.map fun entity => (entity.key, entity))
  exports : after.table.exports =
    before.table.exports ++ (project.sources files).flatMap fun source => (project.directivesIn source).exports
  directives : after.table.directives = before.table.directives.addAll later
    ((project.sources files).map fun source => (source.1, project.directivesIn source))
  /-- A warning for each of the others. -/
  warnings : after.warnings = before.warnings ++ files.filterMap project.fault?
  filesScanned : after.filesScanned = before.filesScanned + (project.sources files).length
  /-- Those that can be read and are not part of the project. -/
  followed : after.followed = before.followed ++ ((project.sources files).map (·.1)).filter (!project.holds ·)

end

theorem adds_scanFile (project : Project) (scan : Scan) (file : Path) :
    project.Adds [file] scan (project.scanFile scan file) := by
  unfold scanFile
  cases given : project.tree.read file with
  | error cause => constructor <;> simp [sources, source?, fault?, given]
  | ok contents =>
    have single : project.sources [file] = [(file, contents.toList)] := by simp [sources, source?, given]
    have named := (Directive.read_spec project.layout file contents.toList).1
    dsimp only
    rw [SymbolTable.insertSource_eq, named]
    constructor <;> cases held : project.holds file <;>
      simp [single, foundIn, directivesIn, fault?, given, held]

theorem sources_append (project : Project) (files others : List Path) :
    project.sources (files ++ others) = project.sources files ++ project.sources others :=
  List.filterMap_append

theorem Adds.append {project : Project} {files others : List Path} {before middle after : Scan}
    (first : project.Adds files before middle) (second : project.Adds others middle after) :
    project.Adds (files ++ others) before after where
  classes := by rw [second.classes, first.classes, sources_append, List.flatMap_append, SortedMap.addAll_append]
  functions := by
    rw [second.functions, first.functions, sources_append, List.flatMap_append, SortedMap.addAll_append]
  exports := by rw [second.exports, first.exports, sources_append, List.flatMap_append, List.append_assoc]
  directives := by
    rw [second.directives, first.directives, sources_append, List.map_append, SortedMap.addAll_append]
  warnings := by rw [second.warnings, first.warnings, List.filterMap_append, List.append_assoc]
  filesScanned := by
    rw [second.filesScanned, first.filesScanned, sources_append, List.length_append, Nat.add_assoc]
  followed := by
    rw [second.followed, first.followed, sources_append, List.map_append, List.filter_append, List.append_assoc]

theorem adds_foldl_scanFile (project : Project) (files : List Path) (scan : Scan) :
    project.Adds files scan (files.foldl project.scanFile scan) := by
  induction files generalizing scan with
  | nil => constructor <;> simp [sources]
  | cons file rest ih => exact (project.adds_scanFile scan file).append (ih _)

structure ReadsReached (project : Project) (start : Path) (before : Scan) (opened : List Path) (after : Scan) :
    Prop where
  /-- The loop over the pending paths comes to an end, and these are the files that it has opened. -/
  ended : ∃ rounds, (ExportWalk.next project)^[rounds] (.start before start) = ⟨[], opened, after⟩
  /-- Nothing else is opened than what the file leads to. -/
  only : ∀ path ∈ opened, project.Reached start path
  /-- All of that is opened. -/
  all : ∀ path, project.Reached start path → ∃ met ∈ opened, met.same path
  /-- No file is opened again. -/
  once : opened.Pairwise fun a b => ¬ a.same b
  adds : project.Adds opened before after

/-- Whatever the exports of the files are, cycles among them, following them from a file ends, with every file read
once that they lead to. -/
theorem scanFrom_readsReached (project : Project) (scan : Scan) (file : Path) :
    ∃ opened, project.ReadsReached file scan opened (project.scanFrom scan file) := by
  refine ⟨project.reach file, ?_⟩
  exact {
    ended := ExportWalk.exists_ended_start project scan file
    only := fun _ => reached_of_mem_reach
    all := fun _ => exists_mem_reach
    once := project.pairwise_reach file
    adds := project.adds_foldl_scanFile (project.reach file) scan }

end Project
end DeadCode
