import DeadCode.Package
import DeadCode.Proofs.FilePlaces
import DeadCode.Proofs.SortedPaths

/-!
The paths under which files are found. From a target they go down by names, so they are in normal form unless the
target goes up below the root. A file has one path in normal form that goes down from the root, and one that first goes
up from there, which leads no higher. Imports of the file lead to one of these two; a file that is found under another
path is listed again, and no import leads to that path.
-/
namespace DeadCode
open DeadCode.Text

namespace FileTree

/-- Every name of the tree can be written as a step of a path, and nothing lies below a file. -/
structure IsProper (tree : FileTree) : Prop where
  named : ∀ entry ∈ tree.entries, ∀ name ∈ entry.1, (Component.name name).IsStep
  here : ∀ name ∈ tree.here, (Component.name name).IsStep
  leaves : ∀ entry ∈ tree.entries, ∀ other ∈ tree.entries, entry.2 ≠ .directory → entry.1 <+: other.1 → other = entry

variable {tree : FileTree}

/-! ### Where a path leads -/

section
variable {path : Path} {place : Place} {node : Node} (absolute : path.isAbsolute)
  (found : tree.locate path = .ok (place, node))
include absolute found

/-- The normal form of an absolute path is that of the place it leads to, after a level up if the path goes above the
root an odd number of times. -/
theorem components_normalize_of_locate :
    path.normalize.components = .root :: (Way.risen path.way.up ++ place.map .name) := by
  rw [Path.components_normalize, Path.foldl_fold_components, place_of_locate found, Path.leadsFrom_eq]
  simp [Way.folded, Way.leadsFrom, Path.base, absolute]

/-- An absolute path that leads somewhere is in normal form exactly if it does not go up after its first step. -/
theorem same_normalize_iff : path.same path.normalize ↔ .parent ∉ path.components.drop 2 := by
  constructor
  · intro same
    rw [Path.same_iff.mp same, components_normalize_of_locate absolute found]
    rcases Nat.mod_two_eq_zero_or_one path.way.up with even | odd
    · simp [Way.risen, even, ← List.map_tail]
    · simp [Way.risen, odd]
  · intro late
    obtain ⟨steps, allSteps, rooted⟩ := Path.exists_steps_of_isAbsolute absolute
    rw [Path.same_iff, Path.components_normalize, rooted]
    cases steps with
    | nil => rfl
    | cons first rest =>
      rw [rooted, List.drop_succ_cons, List.drop_succ_cons, List.drop_zero] at late
      obtain ⟨step, others⟩ := List.forall_mem_cons.mp allSteps
      have allNames : ∀ part ∈ rest, ∃ text, part = .name text := by
        intro part member
        exact (others part member).eq_parent_or_name.resolve_left fun up => late (up ▸ member)
      -- from the root a level up stays, as a name does
      have kept : Path.fold [.root] first = [.root, first] := by
        rcases step.eq_parent_or_name with rfl | ⟨text, rfl⟩
        · rfl
        · rfl
      rw [List.foldl_cons, List.foldl_cons, Path.foldl_fold_of_names allNames]
      exact (congrArg (· ++ rest) kept).symm

/-- A path in normal form begins with a level up if it goes above the root an odd number of times. -/
theorem parent_mem_iff_of_normal (normal : path.same path.normalize) :
    .parent ∈ path.components ↔ path.way.up % 2 = 1 := by
  rw [Path.same_iff.mp normal, components_normalize_of_locate absolute found]
  simp [Way.risen, List.mem_replicate]

/-- Normal forms of paths to one file are alike exactly if both paths go above the root an odd number of times or
neither does. -/
theorem normalize_same_normalize_iff {other : Path} (absoluteToo : other.isAbsolute)
    (foundToo : tree.locate other = .ok (place, node)) :
    other.normalize.same path.normalize ↔ other.way.up % 2 = path.way.up % 2 := by
  rw [Path.same_iff, components_normalize_of_locate absolute found, components_normalize_of_locate absoluteToo foundToo,
    List.cons_inj_right, List.append_left_inj]
  constructor
  · intro same
    simpa [Way.risen] using congrArg List.length same
  · exact congrArg (List.replicate · Component.parent)

end

/-! ### Walks -/

private theorem follow_append {here place : Place} {steps more : List Component}
    (led : tree.follow here steps = .ok place) : tree.follow here (steps ++ more) = tree.follow place more := by
  induction steps generalizing here with
  | nil =>
    obtain rfl := Except.ok.inj led
    rfl
  | cons step rest ih =>
    simp only [List.cons_append, follow] at led ⊢
    split at led
    · cases led
    · cases led
    · exact ih led

/-- Joining names goes down by them. -/
private theorem components_foldl_join {names : List String} (allSteps : ∀ name ∈ names, (Component.name name).IsStep)
    (start : Path) :
    (names.foldl (fun path name => path.join ⟨name⟩) start).components = start.components ++ names.map .name := by
  induction names generalizing start with
  | nil => exact (List.append_nil _).symm
  | cons name rest ih =>
    obtain ⟨first, others⟩ := List.forall_mem_cons.mp allSteps
    rw [List.foldl_cons, ih others, Path.components_join_name first, List.append_assoc]
    rfl

private theorem endsIdle_foldl_join {names : List String} (allSteps : ∀ name ∈ names, (Component.name name).IsStep)
    (nonempty : names ≠ []) (start : Path) :
    (names.foldl (fun path name => path.join ⟨name⟩) start).endsIdle = false := by
  obtain ⟨before, last, rfl⟩ := List.eq_nil_or_concat names |>.resolve_left nonempty
  rw [List.concat_eq_append, List.foldl_append]
  exact Path.endsIdle_join_name (allSteps last (by simp)) _

section
variable (proper : tree.IsProper) {entry : Place × Node} (inTree : entry ∈ tree.entries)
include proper inTree

private theorem node?_of_file (isFile : entry.2 ≠ .directory) : tree.node? entry.1 = some entry.2 := by
  rw [node?]
  cases first : tree.entries.find? (·.1 == entry.1) with
  | none =>
    have missed := List.find?_eq_none.mp first entry inTree
    simp at missed
  | some other =>
    have here : other.1 = entry.1 := by simpa using List.find?_some first
    rw [proper.leaves entry inTree other (List.mem_of_find?_eq_some first) isFile (here ▸ List.prefix_refl _)]

private theorem node?_of_above {place : Place} (above : place <+: entry.1) (apart : place ≠ entry.1) :
    tree.node? place = some .directory := by
  rw [node?]
  cases first : tree.entries.find? (·.1 == place) with
  | none =>
    have some : tree.entries.any fun other => place.isPrefixOf other.1 :=
      List.any_eq_true.mpr ⟨entry, inTree, List.isPrefixOf_iff_prefix.mpr above⟩
    simp [some]
  | some other =>
    have here : other.1 = place := by simpa using List.find?_some first
    have member := List.mem_of_find?_eq_some first
    by_cases directory : other.2 = .directory
    · exact congrArg some directory
    · -- A file there would have this one below it.
      have same := proper.leaves other member entry inTree directory (here ▸ above)
      exact absurd (same ▸ here.symm) apart

private theorem follow_names {place : Place} {names : List String} (down : entry.1 = place ++ names) :
    tree.follow place (names.map .name) = .ok entry.1 := by
  induction names generalizing place with
  | nil =>
    rw [down, List.append_nil]
    rfl
  | cons name rest ih =>
    have above : tree.node? place = some .directory := by
      apply node?_of_above proper inTree
      · rw [down]
        exact List.prefix_append _ _
      · rw [down]
        exact fun same => absurd (List.self_eq_append_right.mp same) (List.cons_ne_nil _ _)
    rw [List.map_cons, follow, above]
    exact ih (by rw [down, Component.leadFrom, List.append_assoc, List.singleton_append])

end

private theorem locate_of_follow {path : Path} {place : Place} {content : Content}
    (led : tree.follow tree.here path.components = .ok place) (stands : tree.node? place = some (.file content))
    (ends : path.endsIdle = false) : tree.locate path = .ok (place, .file content) := by
  have nonempty : path.text.isEmpty = false := by
    by_contra empty
    rw [Path.endsIdle, String.isEmpty_iff.mp (Bool.of_not_eq_false empty)] at ends
    cases ends
  simp [locate, nonempty, led, stands, ends, bind, Except.bind]

/-- What a walk comes to is a file, named from the start on. -/
theorem exists_names_of_mem_walk (proper : tree.IsProper) {start path : Path} (walked : path ∈ tree.walk start) :
    tree.isFile path ∧ ∃ names : List String, path.components = start.components ++ names.map .name := by
  unfold walk at walked
  split at walked
  case h_1 => cases walked
  case h_2 found =>
    obtain rfl := List.mem_singleton.mp walked
    refine ⟨?_, [], (List.append_nil _).symm⟩
    rw [isFile, found]
  case h_3 place found =>
    obtain ⟨file, chosen, rfl⟩ := List.mem_map.mp walked
    obtain ⟨listed, below⟩ := List.mem_filter.mp chosen
    rw [Bool.and_eq_true, Bool.and_eq_true, List.isPrefixOf_iff_prefix, decide_eq_true_iff] at below
    obtain ⟨⟨⟨names, rfl⟩, longer⟩, -⟩ := below
    obtain ⟨content, inTree⟩ : ∃ content, (place ++ names, Node.file content) ∈ tree.entries := by
      obtain ⟨⟨other, node⟩, member, given⟩ := List.mem_filterMap.mp listed
      cases node with
      | directory => cases given
      | file content => exact ⟨content, Option.some.inj given ▸ member⟩
    have isFile : Node.file content ≠ .directory := by
      intro same
      cases same
    have allSteps : ∀ name ∈ names, (Component.name name).IsStep := fun name member =>
      proper.named _ inTree name (List.mem_append_right _ member)
    have nonempty : names ≠ [] := by
      rintro rfl
      simp at longer
    rw [List.drop_left]
    refine ⟨?_, names, components_foldl_join allSteps start⟩
    obtain ⟨led, -⟩ := follow_of_locate found
    have leads : tree.follow tree.here (names.foldl (fun path name => path.join ⟨name⟩) start).components =
        .ok (place ++ names) := by
      rw [components_foldl_join allSteps, follow_append led]
      exact follow_names proper inTree rfl
    rw [FileTree.isFile, locate_of_follow leads (node?_of_file proper inTree isFile)
      (endsIdle_foldl_join allSteps nonempty start)]

/-! ### Roots -/

private theorem isStep_of_follow {here place : Place} {steps : List Component}
    (named : ∀ name ∈ here, (Component.name name).IsStep)
    (allSteps : ∀ name, .name name ∈ steps → (Component.name name).IsStep)
    (led : tree.follow here steps = .ok place) : ∀ name ∈ place, (Component.name name).IsStep := by
  induction steps generalizing here with
  | nil => rwa [← Except.ok.inj led]
  | cons step rest ih =>
    refine ih (fun name inNext => ?_) (fun name member => allSteps name (List.mem_cons_of_mem _ member))
      (follow_of_cons led)
    cases step with
    | root => cases inNext
    | current => exact named name inNext
    | parent => exact named name ((List.dropLast_sublist _).subset inNext)
    | name text =>
      rcases List.mem_append.mp inNext with inHere | last
      · exact named name inHere
      · rw [List.mem_singleton.mp last]
        exact allSteps text List.mem_cons_self

/-- The path of a root goes down by names. -/
theorem components_of_checkRoot (proper : tree.IsProper) {root base : Path}
    (rooted : Settings.checkRoot tree root = .ok base) :
    ∃ place : Place, base.components = .root :: place.map .name := by
  unfold Settings.checkRoot at rooted
  split at rooted
  · cases rooted
  · cases rooted
  case h_3 place found =>
    obtain rfl := Except.ok.inj rooted
    refine ⟨place, Path.components_ofComponents ⟨place.map .name, fun part member => ?_, .inr rfl⟩⟩
    obtain ⟨name, inPlace, rfl⟩ := List.mem_map.mp member
    obtain ⟨led, -⟩ := follow_of_locate found
    refine isStep_of_follow proper.here (fun text inPath => ?_) led name inPlace
    obtain ⟨steps, allSteps, shape | shape | shape⟩ := root.components_cases <;> rw [shape] at inPath
    · exact allSteps _ inPath
    · exact allSteps _ ((List.mem_cons.mp inPath).resolve_left (by intro same; cases same))
    · exact allSteps _ ((List.mem_cons.mp inPath).resolve_left (by intro same; cases same))

end FileTree

/-- A normal form has the components of another path exactly if that is in normal form too. -/
private theorem Path.normalize_same_iff (path other : Path) :
    path.normalize.same other ↔ other.same other.normalize ∧ path.normalize.same other.normalize := by
  rw [same_iff, same_iff, same_iff]
  constructor
  · intro same
    have normal : other.components = other.normalize.components := by
      rw [components_normalize other, ← same, foldl_fold_normalize, components_normalize]
    exact ⟨normal, same.trans normal⟩
  · rintro ⟨normal, same⟩
    exact same.trans normal.symm

/-- The address of a file in an import stands for a path of the file in normal form. -/
private theorem PackageLayout.resolve?_of_relative (layout : PackageLayout) {source directory : Path} {uri : String}
    (inside : source.parent? = some directory) (relative : ':' ∉ uri.toList) :
    layout.resolve? uri source = some (directory.join ⟨uri⟩).normalize := by
  have noPackage : startsWith uri.toList "package:" = false := by
    by_contra named
    obtain ⟨rest, split⟩ := List.isPrefixOf_iff_prefix.mp (Bool.of_not_eq_false named)
    exact relative (split ▸ List.mem_append_left _ (by decide))
  rw [resolve?, noPackage, inside]
  simp [relative]

namespace Settings
variable {settings : Settings} {tree : FileTree} {root base : Path}

def starts (settings : Settings) (base : Path) : List Path :=
  if settings.targets.isEmpty then [base] else settings.targets.map base.join

def found (settings : Settings) (tree : FileTree) (base : Path) : List Path :=
  (settings.starts base).flatMap fun start => settings.filesBelow tree base start .dart

/-- What the files that are listed for a project have to do with those that are found. -/
structure Lists (settings : Settings) (tree : FileTree) (base : Path) (listed : List Path) : Prop where
  /-- Every path that is listed is found and leads to a file, and is in normal form exactly if it does not go up after
  its first step. -/
  found : ∀ path ∈ listed, path ∈ settings.found tree base ∧ tree.isFile path ∧
    (path.same path.normalize ↔ .parent ∉ path.components.drop 2)
  /-- All are in normal form exactly if nothing is found from a target that goes up below the root. -/
  normal : (∀ path ∈ listed, path.same path.normalize) ↔ ∀ target ∈ settings.targets,
    .parent ∈ (base.join target).components.drop 2 → settings.filesBelow tree base (base.join target) .dart = []
  /-- A file that is found is listed once, if the paths under which it is listed are in normal form and either all or
  none go up from the root. -/
  once : ∀ path ∈ settings.found tree base,
    (∀ other ∈ listed, tree.locate other = tree.locate path →
      other.same other.normalize ∧ (.parent ∈ other.components ↔ .parent ∈ path.components)) →
      ∃ only, only.same path ∧ listed.filter (fun other => tree.locate other = tree.locate path) = [only]
  /-- The address of a file in an import stands for the path under which it is listed exactly if that is in normal
  form, and goes up from the root if the address does so an odd number of times. -/
  imported : ∀ path ∈ listed, ∀ (layout : PackageLayout) {source directory : Path} {uri : String}, source.isAbsolute →
    source.parent? = some directory → ':' ∉ uri.toList → tree.locate (directory.join ⟨uri⟩) = tree.locate path →
      ∃ target, layout.resolve? uri source = some target ∧
        (target.same path ↔
          path.same path.normalize ∧ (.parent ∈ path.components ↔ (directory.join ⟨uri⟩).way.up % 2 = 1))

private theorem mem_starts {start : Path} (member : start ∈ settings.starts base) :
    start = base ∨ ∃ target ∈ settings.targets, start = base.join target := by
  unfold starts at member
  split at member
  · exact .inl (List.mem_singleton.mp member)
  · obtain ⟨target, inTargets, rfl⟩ := List.mem_map.mp member
    exact .inr ⟨target, inTargets, rfl⟩

private theorem mem_found_of_target {target path : Path} (member : target ∈ settings.targets)
    (below : path ∈ settings.filesBelow tree base (base.join target) .dart) : path ∈ settings.found tree base := by
  refine List.mem_flatMap.mpr ⟨base.join target, ?_, below⟩
  rw [starts, if_neg fun none => List.ne_nil_of_mem member (List.isEmpty_iff.mp none)]
  exact List.mem_map_of_mem member

/-- What is found from an absolute path is a file with an absolute path, which goes up where the start does. -/
private theorem of_mem_filesBelow (proper : tree.IsProper) {start path : Path} {type : FileType}
    (absolute : start.isAbsolute) (member : path ∈ settings.filesBelow tree base start type) :
    tree.isFile path ∧ path.isAbsolute ∧ (.parent ∈ path.components.drop 2 ↔ .parent ∈ start.components.drop 2) := by
  obtain ⟨isFile, names, down⟩ := FileTree.exists_names_of_mem_walk proper (List.mem_filter.mp member).1
  refine ⟨isFile, ?_, ?_⟩
  · obtain ⟨steps, -, rooted⟩ := Path.exists_steps_of_isAbsolute absolute
    rw [rooted] at down
    exact Path.isAbsolute_of_components down
  · rw [down, List.drop_append, List.mem_append]
    apply or_iff_left
    intro below
    simpa using List.mem_of_mem_drop below

section
variable (proper : tree.IsProper) {place : Place} (down : base.components = .root :: place.map .name)
include proper down

/-- A source that is found goes up below the root exactly if it is found from a target that does. -/
private theorem of_mem_found {path : Path} (member : path ∈ settings.found tree base) :
    tree.isFile path ∧ path.isAbsolute ∧ (.parent ∈ path.components.drop 2 ↔ ∃ target ∈ settings.targets,
      .parent ∈ (base.join target).components.drop 2 ∧
        path ∈ settings.filesBelow tree base (base.join target) .dart) := by
  have rooted := Path.isAbsolute_of_components down
  obtain ⟨start, isStart, below⟩ := List.mem_flatMap.mp member
  have absolute : start.isAbsolute := by
    rcases mem_starts isStart with rfl | ⟨target, -, rfl⟩
    · exact rooted
    · exact Path.isAbsolute_join rooted target
  obtain ⟨isFile, absolutePath, upward⟩ := of_mem_filesBelow proper absolute below
  refine ⟨isFile, absolutePath, ?_, ?_⟩
  · intro goesUp
    rw [upward] at goesUp
    rcases mem_starts isStart with rfl | ⟨target, inTargets, rfl⟩
    · simp [down, ← List.map_tail] at goesUp
    · exact ⟨target, inTargets, goesUp, below⟩
  · rintro ⟨target, -, goesUp, belowTarget⟩
    exact (of_mem_filesBelow proper (Path.isAbsolute_join rooted target) belowTarget).2.2.mpr goesUp

/-- Sources that are in order and in normal form come from targets that do not go up below the root. -/
private theorem normal_sortPaths_iff :
    (∀ path ∈ sortPaths (settings.found tree base), .parent ∉ path.components.drop 2) ↔
      ∀ target ∈ settings.targets, .parent ∈ (base.join target).components.drop 2 →
        settings.filesBelow tree base (base.join target) .dart = [] := by
  constructor
  · intro normal target inTargets goesUp
    apply List.eq_nil_iff_forall_not_mem.mpr
    intro path below
    have member := mem_found_of_target inTargets below
    obtain ⟨kept, listed, same⟩ := exists_same_of_mem member
    apply normal kept listed
    rw [Path.same_iff.mp same, (of_mem_found proper down member).2.2]
    exact ⟨target, inTargets, goesUp, below⟩
  · intro silent path listed goesUp
    obtain ⟨-, -, upward⟩ := of_mem_found proper down (mem_of_mem_sortPaths listed)
    obtain ⟨target, inTargets, targetGoesUp, below⟩ := upward.mp goesUp
    rw [silent target inTargets targetGoesUp] at below
    cases below

end

/-- A file whose paths are in normal form, and begin alike, is listed once. -/
private theorem filter_eq_singleton {listed : List Path} (ascending : listed.Pairwise fun a b => compare a b = .lt)
    (absolute : ∀ path ∈ listed, path.isAbsolute) {path : Path} (member : path ∈ listed)
    {place : Place} {node : Node} (found : tree.locate path = .ok (place, node))
    (normal : ∀ other ∈ listed, tree.locate other = tree.locate path →
      other.same other.normalize ∧ (.parent ∈ other.components ↔ .parent ∈ path.components)) :
    listed.filter (fun other => tree.locate other = tree.locate path) = [path] := by
  have nodup : listed.Nodup := ascending.imp fun less same => by simp [same] at less
  have alone : ∀ other ∈ listed.filter (fun other => tree.locate other = tree.locate path), other = path := by
    intro other kept
    obtain ⟨inListed, alike⟩ := List.mem_filter.mp kept
    have sameFile : tree.locate other = tree.locate path := of_decide_eq_true alike
    obtain ⟨normalOther, beginsAlike⟩ := normal other inListed sameFile
    have normalPath := (normal path member rfl).1
    rw [tree.parent_mem_iff_of_normal (absolute path member) found normalPath,
      tree.parent_mem_iff_of_normal (absolute other inListed) (sameFile.trans found) normalOther] at beginsAlike
    have sameForm := (tree.normalize_same_normalize_iff (absolute path member) found (absolute other inListed)
      (sameFile.trans found)).mpr (by omega)
    apply eq_of_same_of_ascending ascending inListed member
    rw [Path.same_iff, Path.same_iff.mp normalOther, Path.same_iff.mp normalPath, Path.same_iff.mp sameForm]
  have inside : path ∈ listed.filter (fun other => tree.locate other = tree.locate path) :=
    List.mem_filter.mpr ⟨member, decide_eq_true rfl⟩
  have repeated := List.eq_replicate_of_mem alone
  have few := repeated ▸ nodup.filter _
  rw [List.nodup_replicate] at few
  rw [repeated, Nat.le_antisymm few (List.length_pos_of_mem inside)]
  rfl

/-- The files of a project are listed under paths in normal form unless they are found from a target that goes up below
the root. If none is, and the targets do not go up from the root either, every file is listed once, and imports of it
that stay below the root lead to the path under which it is listed. -/
theorem findFiles_lists (settings : Settings) (proper : tree.IsProper) (rooted : checkRoot tree root = .ok base) :
    ∃ listed, settings.findFiles tree root = .ok listed ∧ settings.Lists tree base listed := by
  obtain ⟨place, down⟩ := tree.components_of_checkRoot proper rooted
  have located {path : Path} (listed : path ∈ sortPaths (settings.found tree base)) :
      path.isAbsolute ∧ tree.isFile path ∧ ∃ place content, tree.locate path = .ok (place, .file content) := by
    obtain ⟨isFile, absolute, -⟩ := of_mem_found proper down (mem_of_mem_sortPaths listed)
    exact ⟨absolute, isFile, tree.exists_locate_of_isFile isFile⟩
  have normalIff (path : Path) (listed : path ∈ sortPaths (settings.found tree base)) :
      path.same path.normalize ↔ .parent ∉ path.components.drop 2 := by
    obtain ⟨absolute, -, place, content, leads⟩ := located listed
    exact tree.same_normalize_iff absolute leads
  refine ⟨sortPaths (settings.found tree base), by rw [findFiles, rooted]; rfl, ?_, ?_, ?_, ?_⟩
  · intro path listed
    exact ⟨mem_of_mem_sortPaths listed, (located listed).2.1, normalIff path listed⟩
  · rw [forall₂_congr normalIff]
    exact normal_sortPaths_iff proper down
  · intro path member normal
    obtain ⟨kept, listed, same⟩ := exists_same_of_mem member
    obtain ⟨-, keptIsFile, place, content, leads⟩ := located listed
    rw [← tree.locate_eq_of_same same keptIsFile (of_mem_found proper down member).1, ← Path.same_iff.mp same] at normal
    rw [← tree.locate_eq_of_same same keptIsFile (of_mem_found proper down member).1]
    refine ⟨kept, same, filter_eq_singleton (pairwise_sortPaths _) (fun other inListed => ?_) listed leads normal⟩
    exact (located inListed).1
  · intro path listed layout source directory uri absoluteSource inside relative leads
    obtain ⟨absolute, -, place, content, leadsToo⟩ := located listed
    have absoluteImport := Path.isAbsolute_join (Path.isAbsolute_parent? absoluteSource inside) ⟨uri⟩
    refine ⟨_, layout.resolve?_of_relative inside relative, ?_⟩
    rw [Path.normalize_same_iff,
      tree.normalize_same_normalize_iff absolute leadsToo absoluteImport (leads.trans leadsToo)]
    apply and_congr_right
    intro normal
    rw [tree.parent_mem_iff_of_normal absolute leadsToo normal]
    omega

-- An address may go above the root, and then stands for another path than the one under which its file is found.
example (layout : PackageLayout) :
    layout.resolve? "../../app/b.dart" ⟨"/app/a.dart"⟩ = some ⟨"/../app/b.dart"⟩ := by
  rfl

/-- A project with a file that imports another one. -/
def importingSources : FileTree where
  entries := [
    (["proj", "lib", "a.dart"], .file (.text "class A \x7b\x7d")),
    (["proj", "lib", "b.dart"], .file (.text "import 'a.dart';"))]
  here := []

def targeting (targets : List Path) : Settings := { Settings.default with targets }

/-- Targets that overlap in other spellings list a file once. -/
theorem findFiles_lists_overlapping :
    ∃ listed, (targeting [⟨"lib"⟩, ⟨"./lib/"⟩, ⟨"lib//b.dart"⟩]).findFiles importingSources ⟨"/proj"⟩ = .ok listed ∧
      (∀ path ∈ listed, path.same path.normalize) ∧
      ∃ only, only.same ⟨"/proj/lib/b.dart"⟩ ∧ listed.filter (fun other =>
        importingSources.locate other = importingSources.locate ⟨"/proj/lib/b.dart"⟩) = [only] := by
  obtain ⟨listed, given, lists⟩ : ∃ listed, _ ∧ Lists _ importingSources ⟨"/proj"⟩ listed :=
    findFiles_lists (targeting [⟨"lib"⟩, ⟨"./lib/"⟩, ⟨"lib//b.dart"⟩]) ⟨by decide, by decide, by decide⟩
      (by decide : checkRoot importingSources ⟨"/proj"⟩ = .ok ⟨"/proj"⟩)
  have normal : ∀ path ∈ listed, path.same path.normalize := by
    apply lists.normal.mpr
    decide
  have below : ∀ path ∈ (targeting [⟨"lib"⟩, ⟨"./lib/"⟩, ⟨"lib//b.dart"⟩]).found importingSources ⟨"/proj"⟩,
      .parent ∉ path.components := by
    decide +kernel
  refine ⟨listed, given, normal, lists.once _ (by decide +kernel) fun other inListed _ => ⟨normal other inListed, ?_⟩⟩
  exact iff_of_false (below other (lists.found other inListed).1) (by decide)

/-- From a target that goes up and comes back, the files are listed again, under paths to which no import leads. -/
theorem file_listed_twice :
    (targeting [⟨"lib"⟩, ⟨"lib/../lib"⟩]).findFiles importingSources ⟨"/proj"⟩ =
        .ok [⟨"/proj/lib/../lib/a.dart"⟩, ⟨"/proj/lib/../lib/b.dart"⟩, ⟨"/proj/lib/a.dart"⟩, ⟨"/proj/lib/b.dart"⟩] ∧
      importingSources.locate ⟨"/proj/lib/../lib/a.dart"⟩ = importingSources.locate ⟨"/proj/lib/a.dart"⟩ ∧
      ∀ layout : PackageLayout, layout.resolve? "a.dart" ⟨"/proj/lib/../lib/b.dart"⟩ = some ⟨"/proj/lib/a.dart"⟩ := by
  have found : (targeting [⟨"lib"⟩, ⟨"lib/../lib"⟩]).found importingSources ⟨"/proj"⟩ =
      [⟨"/proj/lib/a.dart"⟩, ⟨"/proj/lib/b.dart"⟩, ⟨"/proj/lib/../lib/a.dart"⟩, ⟨"/proj/lib/../lib/b.dart"⟩] := by
    decide +kernel
  refine ⟨congrArg Except.ok ?_, by decide +kernel, fun layout => by rfl⟩
  refine (congrArg sortPaths found).trans (eq_of_ascending (pairwise_sortPaths _) (by decide +kernel) fun path => ?_)
  rw [mem_sortPaths (by decide +kernel)]
  grind

end Settings
end DeadCode
