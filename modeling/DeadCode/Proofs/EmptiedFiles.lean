import DeadCode.Pubspec
import DeadCode.Tree.Walk
import Mathlib.Data.List.Basic

/-!
A file that holds no text and an empty one take the same place in a tree. If source files of the first kind are made
empty, paths lead where they led, walks come to the same files and the packages are the same; only reading those files
gives something else.
-/
namespace DeadCode

namespace Node

def isMalformed : Node → Bool
  | .file (.malformed _) => true
  | _ => false

def emptied : Node → Node
  | .file (.malformed _) => .file (.text "")
  | node => node

theorem eq_of_isMalformed {node : Node} (malformed : node.isMalformed) : ∃ lines, node = .file (.malformed lines) := by
  unfold isMalformed at malformed
  split at malformed
  · exact ⟨_, rfl⟩
  · cases malformed

theorem emptied_eq_self {node : Node} (other : node.isMalformed = false) : node.emptied = node := by
  unfold emptied
  split
  · cases other
  · rfl

end Node

def Place.IsSource (place : Place) : Prop :=
  ∃ name, place.getLast? = some name ∧ FileType.of? ⟨name⟩ = some .dart

namespace FileTree

/-- The tree in which the chosen files that hold no text are empty. -/
def emptied (tree : FileTree) (chosen : Place → Bool) : FileTree :=
  { tree with
    entries := tree.entries.map fun entry => (entry.1, if chosen entry.1 then entry.2.emptied else entry.2) }

/-- A path leads to a chosen file that holds no text. -/
def isUnread (tree : FileTree) (chosen : Place → Bool) (path : Path) : Bool :=
  match tree.follow tree.here path.components with
  | .ok place => chosen place && (tree.node? place).any Node.isMalformed
  | .error _ => false

/-- Paths that lead to the same place lead to the same file. -/
theorem isUnread_congr (tree : FileTree) (chosen : Place → Bool) {a b : Path} (same : compare a b = .eq) :
    tree.isUnread chosen a = tree.isUnread chosen b := by
  rw [isUnread, isUnread, Path.same_iff.mp (Path.compare_eq_iff_same.mp same)]

variable (tree : FileTree) (chosen : Place → Bool)

/-! ### Finding places -/

theorem node?_emptied (place : Place) : (tree.emptied chosen).node? place =
    (tree.node? place).map fun node => if chosen place then node.emptied else node := by
  have below : (tree.emptied chosen).entries.any (fun entry => place.isPrefixOf entry.1) =
      tree.entries.any fun entry => place.isPrefixOf entry.1 := by
    rw [emptied, List.any_map]
    rfl
  have found : (tree.emptied chosen).entries.find? (·.1 == place) =
      (tree.entries.find? (·.1 == place)).map fun entry =>
        (entry.1, if chosen entry.1 then entry.2.emptied else entry.2) := by
    rw [emptied, List.find?_map]
    rfl
  rw [node?, node?, found, below]
  cases first : tree.entries.find? (·.1 == place) with
  | some entry =>
    obtain rfl : entry.1 = place := by simpa using List.find?_some first
    rfl
  | none =>
    simp only [Option.map_none]
    split
    · cases chosen place <;> rfl
    · rfl

theorem follow_emptied (here : Place) (steps : List Component) :
    (tree.emptied chosen).follow here steps = tree.follow here steps := by
  induction steps generalizing here with
  | nil => rfl
  | cons step rest ih =>
    simp only [follow, node?_emptied, ih]
    cases tree.node? here with
    | none => rfl
    | some node =>
      cases node with
      | file content => cases content <;> cases chosen here <;> rfl
      | directory => cases chosen here <;> rfl

theorem locate_emptied (path : Path) : (tree.emptied chosen).locate path =
    (tree.locate path).map fun found => (found.1, if chosen found.1 then found.2.emptied else found.2) := by
  have start : (tree.emptied chosen).here = tree.here := rfl
  simp only [locate, follow_emptied, node?_emptied, start, bind, Except.bind]
  split
  · rfl
  cases tree.follow tree.here path.components with
  | error cause => rfl
  | ok place =>
    cases stands : tree.node? place with
    | none => simp [stands, Except.map]
    | some node =>
      cases node with
      | file content =>
        cases content <;> cases picked : chosen place <;> cases path.endsIdle <;>
          simp [stands, picked, Except.map, Node.emptied]
      | directory => cases picked : chosen place <;> simp [stands, picked, Except.map, Node.emptied]

/-- A path leads nowhere, to a file or to a directory in both trees alike. -/
theorem locate_emptied_cases (path : Path) :
    (∃ cause, tree.locate path = .error cause ∧ (tree.emptied chosen).locate path = .error cause) ∨
      (∃ place content other, tree.locate path = .ok (place, .file content) ∧
        (tree.emptied chosen).locate path = .ok (place, .file other)) ∨
      ∃ place, tree.locate path = .ok (place, .directory) ∧
        (tree.emptied chosen).locate path = .ok (place, .directory) := by
  rw [locate_emptied]
  cases tree.locate path with
  | error cause => exact .inl ⟨cause, rfl, rfl⟩
  | ok found =>
    obtain ⟨place, node⟩ := found
    cases node with
    | file content =>
      refine .inr (.inl ⟨place, content, ?_⟩)
      cases content <;> cases picked : chosen place <;> simp [Except.map, Node.emptied, picked]
    | directory =>
      refine .inr (.inr ⟨place, rfl, ?_⟩)
      cases picked : chosen place <;> simp [Except.map, Node.emptied, picked]

theorem isFile_emptied (path : Path) : (tree.emptied chosen).isFile path = tree.isFile path := by
  rw [isFile, isFile]
  rcases tree.locate_emptied_cases chosen path with ⟨cause, before, after⟩ |
    ⟨place, content, other, before, after⟩ | ⟨place, before, after⟩ <;> rw [before, after]

theorem files_emptied : (tree.emptied chosen).files = tree.files := by
  rw [files, files, emptied, List.filterMap_map]
  refine List.filterMap_congr fun entry _ => ?_
  obtain ⟨place, node⟩ := entry
  cases node with
  | file content => cases content <;> cases picked : chosen place <;> simp [Node.emptied, picked]
  | directory => cases picked : chosen place <;> simp [Node.emptied, picked]

/-! ### Reading -/

/-- A path by which a file cannot be read before it is emptied, and can be read afterwards. -/
def isEmptied (path : Path) : Bool :=
  match tree.read path with
  | .error .malformed => tree.isUnread chosen path
  | _ => false

/-- What reading a path gives before and after: the same, or nothing instead of a fault. A path to a file without text
may still fail in the same way, since none that ends in a slash leads to a file. -/
inductive Reread (path : Path) : Prop where
  | kept (same : (tree.emptied chosen).read path = tree.read path) (left : tree.isEmptied chosen path = false)
      (apart : tree.isUnread chosen path = false ∨ ∃ cause, cause ≠ .malformed ∧ tree.read path = .error cause)
  | emptied (unread : tree.isUnread chosen path) (filled : tree.isEmptied chosen path)
      (before : tree.read path = .error .malformed) (after : (tree.emptied chosen).read path = .ok "")

variable {tree}

private theorem ne_malformed_of_follow {here : Place} {steps : List Component} {cause : ReadError}
    (failed : tree.follow here steps = .error cause) : cause ≠ .malformed := by
  rintro rfl
  fun_induction follow tree here steps <;> simp_all

/-- A path that leads nowhere does not fail for what a file holds. -/
private theorem ne_malformed_of_locate {path : Path} {cause : ReadError} (failed : tree.locate path = .error cause) :
    cause ≠ .malformed := by
  rintro rfl
  simp only [locate, bind, Except.bind] at failed
  split at failed
  · cases failed
  cases led : tree.follow tree.here path.components with
  | error cause =>
    rw [led] at failed
    exact ne_malformed_of_follow led (Except.error.inj failed)
  | ok place =>
    rw [led] at failed
    dsimp only at failed
    split at failed
    · cases failed
    · split at failed <;> cases failed
    · cases failed

theorem follow_of_locate {path : Path} {place : Place} {node : Node} (found : tree.locate path = .ok (place, node)) :
    tree.follow tree.here path.components = .ok place ∧ tree.node? place = some node := by
  simp only [locate, bind, Except.bind] at found
  split at found
  · cases found
  cases led : tree.follow tree.here path.components with
  | error cause =>
    rw [led] at found
    cases found
  | ok other =>
    rw [led] at found
    dsimp only at found
    split at found
    case h_1 => cases found
    case h_2 stands =>
      split at found
      · cases found
      · cases found
        exact ⟨rfl, stands⟩
    case h_3 stands =>
      cases found
      exact ⟨rfl, stands⟩

variable (tree)

theorem reread (path : Path) : tree.Reread chosen path := by
  cases found : tree.locate path with
  | error cause =>
    have other := ne_malformed_of_locate found
    have before : tree.read path = .error cause := by rw [read, found]; rfl
    have after : (tree.emptied chosen).read path = .error cause := by rw [read, locate_emptied, found]; rfl
    have left : tree.isEmptied chosen path = false := by
      rw [isEmptied, before]
      cases cause <;> first | rfl | exact absurd rfl other
    exact .kept (after.trans before.symm) left (.inr ⟨cause, other, before⟩)
  | ok located =>
    obtain ⟨place, node⟩ := located
    obtain ⟨led, stands⟩ := follow_of_locate found
    have unread : tree.isUnread chosen path = (chosen place && node.isMalformed) := by
      rw [isUnread, led]
      exact congrArg (chosen place && ·) (by rw [stands]; rfl)
    cases filled : chosen place && node.isMalformed with
    | true =>
      obtain ⟨picked, malformed⟩ := Bool.and_eq_true_iff.mp filled
      obtain ⟨lines, rfl⟩ := Node.eq_of_isMalformed malformed
      have before : tree.read path = .error .malformed := by rw [read, found]; rfl
      have after : (tree.emptied chosen).read path = .ok "" := by
        rw [read, locate_emptied, found]
        simp only [Except.map, picked, if_true, Node.emptied]
        rfl
      refine .emptied (unread.trans filled) ?_ before after
      rw [isEmptied, before]
      exact unread.trans filled
    | false =>
      have left : tree.isEmptied chosen path = false := by
        rw [isEmptied, unread, filled]
        split <;> rfl
      have stays : (if chosen place then node.emptied else node) = node := by
        split
        case isTrue picked => exact Node.emptied_eq_self (by simpa [picked] using filled)
        case isFalse => rfl
      refine .kept ?_ left (.inl (unread.trans filled))
      rw [read, read, locate_emptied, found, Except.map, stays]

/-! ### Walks -/

section
variable {chosen} (sources : ∀ place, chosen place → place.IsSource)
include sources

/-- The rules in files that are no sources stay as they are. -/
private theorem rulesIn_emptied (place : Place) (name : String) (other : FileType.of? ⟨name⟩ ≠ some .dart) :
    (tree.emptied chosen).rulesIn (place ++ [name]) = tree.rulesIn (place ++ [name]) := by
  have passed : chosen (place ++ [name]) = false := by
    rw [Bool.eq_false_iff]
    intro picked
    obtain ⟨last, ends, source⟩ := sources _ picked
    rw [List.getLast?_concat] at ends
    exact other (Option.some.inj ends ▸ source)
  simp [rulesIn, node?_emptied, passed]

theorem directoryRules_emptied (place : Place) :
    (tree.emptied chosen).directoryRules place = tree.directoryRules place := by
  have exclude := tree.rulesIn_emptied sources (place ++ [".git", "info"]) "exclude" (by decide)
  rw [List.append_assoc] at exclude
  simp only [directoryRules, node?_emptied, Option.isSome_map]
  congr 1
  · exact tree.rulesIn_emptied sources place ".ignore" (by decide)
  · exact tree.rulesIn_emptied sources place ".gitignore" (by decide)

theorem isPassedOver_emptied (place : Place) (isDirectory : Bool) :
    (tree.emptied chosen).isPassedOver place isDirectory = tree.isPassedOver place isDirectory := by
  have rules : (tree.emptied chosen).directoryRules = tree.directoryRules :=
    funext (tree.directoryRules_emptied sources)
  simp only [isPassedOver, ignoreVerdict, rules]

theorem walk_emptied (start : Path) : (tree.emptied chosen).walk start = tree.walk start := by
  have reached : (tree.emptied chosen).isReached = tree.isReached := by
    funext place below
    simp only [isReached, tree.isPassedOver_emptied sources]
  rw [walk, walk, files_emptied, reached]
  rcases tree.locate_emptied_cases chosen start with ⟨cause, before, after⟩ |
    ⟨place, content, other, before, after⟩ | ⟨place, before, after⟩ <;> rw [before, after]

end

/-! ### Packages -/

section
variable {tree : FileTree} {here place : Place}

theorem follow_of_cons {step : Component} {rest : List Component} (led : tree.follow here (step :: rest) = .ok place) :
    tree.follow (step.leadFrom here) rest = .ok place := by
  unfold follow at led
  split at led
  · cases led
  · cases led
  · exact led

/-- Directories on the way make no difference to where a path leads. -/
theorem eq_foldl_of_follow {steps : List Component} (led : tree.follow here steps = .ok place) :
    place = steps.foldl Component.leadFrom here := by
  induction steps generalizing here with
  | nil => exact (Except.ok.inj led).symm
  | cons step rest ih => exact ih (follow_of_cons led)

/-- A path that ends in a name leads to a place that ends in it. -/
private theorem getLast?_of_follow {steps : List Component} {name : String}
    (led : tree.follow here steps = .ok place) (ends : steps.getLast? = some (.name name)) :
    place.getLast? = some name := by
  obtain ⟨before, rfl⟩ := List.getLast?_eq_some_iff.mp ends
  rw [eq_foldl_of_follow led, List.foldl_append]
  exact List.getLast?_concat

end

private theorem getLast?_of_pubspec {path : Path} (named : FileType.of? path = some .pubspec) :
    path.components.getLast? = some (.name "pubspec.yaml") := by
  rw [FileType.of?] at named
  split at named
  case isTrue fits =>
    rw [beq_iff_eq, Path.fileName?] at fits
    split at fits
    · rename_i ends
      rw [ends, Option.some.inj fits]
    · cases fits
  case isFalse => split at named <;> cases named

section
variable {chosen} (sources : ∀ place, chosen place → place.IsSource)
include sources

theorem read_emptied_of_pubspec {path : Path} (named : FileType.of? path = some .pubspec) :
    (tree.emptied chosen).read path = tree.read path := by
  have apart : tree.isUnread chosen path = false := by
    rw [Bool.eq_false_iff, isUnread]
    intro unread
    split at unread
    case h_2 => cases unread
    case h_1 place led =>
      obtain ⟨name, ends, source⟩ := sources place (Bool.and_eq_true_iff.mp unread).1
      rw [getLast?_of_follow led (getLast?_of_pubspec named)] at ends
      rw [← Option.some.inj ends] at source
      exact absurd source (by decide)
  cases tree.reread chosen path with
  | kept same => exact same
  | emptied unread =>
    rw [apart] at unread
    cases unread

theorem packages_emptied {pubspecs : List Path} (named : ∀ path ∈ pubspecs, FileType.of? path = some .pubspec) :
    (tree.emptied chosen).packages pubspecs = tree.packages pubspecs := by
  refine List.foldl_ext _ _ _ fun packages path member => ?_
  rw [tree.read_emptied_of_pubspec sources (named path member)]

end

end FileTree

/-! ### Settings -/

namespace Settings
variable (tree : FileTree) {chosen : Place → Bool}

theorem checkRoot_emptied (root : Path) : checkRoot (tree.emptied chosen) root = checkRoot tree root := by
  rw [checkRoot, checkRoot]
  rcases tree.locate_emptied_cases chosen root with ⟨cause, before, after⟩ |
    ⟨place, content, other, before, after⟩ | ⟨place, before, after⟩ <;> rw [before, after]

variable (settings : Settings) (sources : ∀ place, chosen place → place.IsSource)
include sources

theorem findFiles_emptied (root : Path) :
    settings.findFiles (tree.emptied chosen) root = settings.findFiles tree root := by
  simp only [findFiles, checkRoot_emptied, filesBelow, tree.walk_emptied sources]

theorem findPubspecs_emptied (root : Path) :
    settings.findPubspecs (tree.emptied chosen) root = settings.findPubspecs tree root := by
  simp only [findPubspecs, filesBelow, tree.walk_emptied sources]

/-- The packages of a project are the same. -/
theorem layout_emptied (files : List Path) (root : Path) :
    settings.strategy.layout (tree.emptied chosen) files (settings.findPubspecs (tree.emptied chosen) root) =
      settings.strategy.layout tree files (settings.findPubspecs tree root) := by
  have named : ∀ path ∈ settings.findPubspecs tree root, FileType.of? path = some .pubspec := by
    intro path member
    rw [findPubspecs, List.mem_mergeSort, filesBelow, List.mem_filter, Bool.and_eq_true, beq_iff_eq] at member
    exact member.2.1
  rw [settings.findPubspecs_emptied tree sources]
  cases settings.strategy with
  | libSegment => rfl
  | pubspec => rw [PackageStrategy.layout, PackageStrategy.layout, tree.packages_emptied sources named]

end Settings
end DeadCode
