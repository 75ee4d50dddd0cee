import DeadCode.Proofs.EmptiedFiles
import DeadCode.Proofs.PathLocations

/-!
Finitely many paths in normal form lead to the files of a tree. Such a path begins at the root or where relative paths
do, goes up by one level at most, and then goes down by names; so it is known by the place it leads to and by how it
begins.
-/
namespace DeadCode
namespace FileTree
variable {tree : FileTree}

private theorem mem_files_of_node? {place : Place} {content : Content}
    (stands : tree.node? place = some (.file content)) : place ∈ tree.files := by
  rw [node?] at stands
  split at stands
  case h_1 found node first =>
    obtain rfl := Option.some.inj stands
    have here : found = place := by simpa using List.find?_some first
    exact List.mem_filterMap.mpr ⟨_, List.mem_of_find?_eq_some first, congrArg some here⟩
  case h_2 =>
    split at stands <;> cases stands

theorem exists_locate_of_isFile {path : Path} (isFile : tree.isFile path) :
    ∃ place content, tree.locate path = .ok (place, .file content) := by
  rw [FileTree.isFile] at isFile
  split at isFile
  · exact ⟨_, _, ‹_›⟩
  · cases isFile

theorem place_of_locate {path : Path} {place : Place} {node : Node} (found : tree.locate path = .ok (place, node)) :
    place = path.leadsFrom tree.here :=
  eq_foldl_of_follow (follow_of_locate found).1

/-- Every path in normal form that leads to a file is listed with its place. -/
theorem exists_mem_spellings {path : Path} (isFile : tree.isFile path.normalize) :
    ∃ place ∈ tree.files, path.normalize.components ∈ tree.spellings place := by
  obtain ⟨place, content, found⟩ := exists_locate_of_isFile isFile
  obtain ⟨led, stands⟩ := follow_of_locate found
  refine ⟨place, mem_files_of_node? stands, List.mem_filterMap.mpr ?_⟩
  rw [place_of_locate found, Path.leadsFrom_eq, Path.isAbsolute_normalize, Path.way_normalize,
    Path.components_normalize, Path.foldl_fold_components]
  -- whether it begins at the root, and whether it goes up, says which of the four kinds it is of
  simp only [Way.folded, Way.leadsFrom, Way.risen, Path.base]
  rcases Nat.mod_two_eq_zero_or_one path.way.up with even | odd
  · rw [even]
    cases path.isAbsolute with
    | true => exact ⟨([.root], []), by simp, by simp⟩
    | false => exact ⟨([], tree.here), by simp, by simp⟩
  · rw [odd]
    cases path.isAbsolute with
    | true => exact ⟨([.root, .parent], []), by simp, by simp [List.rdrop]⟩
    | false => exact ⟨([.parent], tree.here.dropLast), by simp, by simp [List.rdrop, List.dropLast_eq_take]⟩

/-- Paths with the same components that lead to files lead to the same file. -/
theorem locate_eq_of_same {a b : Path} (same : a.same b) (isFile : tree.isFile a) (isFileToo : tree.isFile b) :
    tree.locate a = tree.locate b := by
  obtain ⟨place, content, found⟩ := exists_locate_of_isFile isFile
  obtain ⟨other, contentToo, foundToo⟩ := exists_locate_of_isFile isFileToo
  obtain ⟨led, stands⟩ := follow_of_locate found
  obtain ⟨ledToo, standsToo⟩ := follow_of_locate foundToo
  rw [Path.same_iff.mp same, ledToo] at led
  obtain rfl := Except.ok.inj led
  rw [found, foundToo, Option.some.inj (stands.symm.trans standsToo)]

/-- A file can be read alike by all paths that lead to it. -/
theorem read_eq_of_same {a b : Path} (same : a.same b) (isFile : tree.isFile a) (isFileToo : tree.isFile b) :
    tree.read a = tree.read b := by
  rw [read, read, locate_eq_of_same same isFile isFileToo]

theorem isFile_of_read {path : Path} {contents : String} (given : tree.read path = .ok contents) :
    tree.isFile path := by
  rw [read] at given
  rw [isFile]
  cases found : tree.locate path with
  | error cause =>
    rw [found] at given
    cases given
  | ok place =>
    obtain ⟨place, node⟩ := place
    rw [found] at given
    cases node with
    | file content => rfl
    | directory => cases given

end FileTree
end DeadCode
