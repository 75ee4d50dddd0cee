import DeadCode.Proofs.Scanning

/-!
Merging tables in either order of brackets. What is found in the merged table comes from the last of the tables that
has it, so the brackets make no difference there. The exports are those of each table's files that no table before it
has; where a file is in two tables that are merged first, one of them decides, so its exports are the same in either
order only if the two tables agree on the file, and then the orders of the files differ at most.
-/
namespace DeadCode

theorem SortedMap.get?_addAll_of_later {κ ν : Type} [Ord κ] [Std.TransOrd κ] (map other : SortedMap κ ν) (key : κ) :
    (map.addAll later other.entries).get? key = (other.get? key).or (map.get? key) := by
  rw [get?_addAll_entries]
  cases map.get? key <;> cases other.get? key <;> rfl

namespace SymbolTable

section
variable {α : Type} (look : UriDirective → α)

/-- For every file that is in both tables the exports look the same. What one looks at may leave out how the paths in
an export are spelled. -/
def AgreesOnFiles (table other : SymbolTable) : Prop :=
  ∀ entry ∈ table.directives.entries, ∀ twin ∈ other.directives.entries,
    entry.1.same twin.1 → entry.2.exports.map look = twin.2.exports.map look

instance [DecidableEq α] (table other : SymbolTable) : Decidable (AgreesOnFiles look table other) :=
  inferInstanceAs (Decidable (∀ entry ∈ _, ∀ twin ∈ _, _ → _))

end

def newFiles (table : SymbolTable) (entries : List (Path × FileDirectives)) : List (Path × FileDirectives) :=
  entries.filter fun entry => !table.directives.contains entry.1

private theorem exports_foldl_mergeDirectives (table : SymbolTable) {entries : List (Path × FileDirectives)}
    (ordered : entries.Pairwise fun a b => compare a.1 b.1 = .lt) :
    (entries.foldl mergeDirectives table).exports =
      table.exports ++ (table.newFiles entries).flatMap (·.2.exports) := by
  induction entries generalizing table with
  | nil => simp [newFiles]
  | cons first rest ih =>
    obtain ⟨before, later⟩ := List.pairwise_cons.mp ordered
    -- the file that was just added is none of those that come after it
    have still : (table.mergeDirectives first).newFiles rest = table.newFiles rest := by
      refine List.filter_congr fun entry member => ?_
      have apart : compare entry.1 first.1 ≠ .eq := by simp [Std.OrientedCmp.gt_of_lt (before entry member)]
      rw [mergeDirectives, SortedMap.contains, SortedMap.insert, SortedMap.get?_alter, if_neg apart, SortedMap.contains]
    rw [List.foldl_cons, ih _ later, still, mergeDirectives, newFiles, newFiles, List.filter_cons]
    cases table.directives.contains first.1 with
    | true => rfl
    | false => simp

/-- Merging adds the exports of the files that are new; what the other table lists as its exports does not matter. -/
theorem exports_merge (table other : SymbolTable) : (table.merge other).exports =
    table.exports ++ (table.newFiles other.directives.entries).flatMap (·.2.exports) := by
  rw [merge, exports_foldl_mergeDirectives _ other.directives.ordered]
  rfl

/-- The files that are new to a merged table are new to both tables. -/
private theorem newFiles_merge (table other : SymbolTable) (entries : List (Path × FileDirectives)) :
    (table.merge other).newFiles entries = table.newFiles (other.newFiles entries) := by
  rw [newFiles, newFiles, newFiles, List.filter_filter]
  refine List.filter_congr fun entry _ => ?_
  rw [directives_merge, SortedMap.contains, SortedMap.get?_addAll_of_later, Option.isSome_or, Bool.not_or, Bool.and_comm]
  rfl

/-- A file with what one looks at in its exports. -/
private def view {α : Type} (look : UriDirective → α) : Path × FileDirectives → Path × List α :=
  Prod.map id fun directives => directives.exports.map look

private theorem map_view_newFiles {α : Type} (look : UriDirective → α) (table : SymbolTable)
    (entries : List (Path × FileDirectives)) :
    (table.newFiles entries).map (view look) =
      (entries.map (view look)).filter fun entry => !table.directives.contains entry.1 := by
  rw [List.filter_map]
  rfl

private theorem perm_map_view_merge {α : Type} {look : UriDirective → α} {table other : SymbolTable}
    (agrees : AgreesOnFiles look table other) :
    ((table.merge other).directives.entries.map (view look)).Perm
      ((table.directives.entries ++ table.newFiles other.directives.entries).map (view look)) := by
  rw [directives_merge]
  refine SortedMap.perm_entries_addAll _ (fun same => same.symm) ?_ fun entry member old found => ?_
  · exact other.directives.ordered.imp fun less => by simp [Std.OrientedCmp.gt_of_lt less]
  · obtain ⟨kept, inTable, equal, rfl⟩ := SortedMap.exists_mem_of_get? found
    exact agrees kept inTable entry member (Path.same_symm (Path.compare_eq_iff_same.mp equal))

private theorem map_exports_merge {α : Type} (look : UriDirective → α) (table other : SymbolTable) :
    (table.merge other).exports.map look = table.exports.map look ++
      ((table.newFiles other.directives.entries).map (view look)).flatMap (·.2) := by
  rw [exports_merge, List.map_append, List.map_flatMap, List.flatMap_map]
  rfl

/-- Merging is associative, apart from the order of the exports: in either order of brackets the classes, functions and
directives are the same, and under each key stands what the last table has that knows it. If the two tables that come
later agree on the files that are in both, the exports are the same up to order. -/
theorem merge_assoc_up_to_exports (a b c : SymbolTable) :
    let left := (a.merge b).merge c
    let right := a.merge (b.merge c)
    (left.classes = right.classes ∧ left.functions = right.functions ∧ left.directives = right.directives) ∧
    ((∀ key, left.classes.get? key = (c.classes.get? key).or ((b.classes.get? key).or (a.classes.get? key))) ∧
      (∀ key, left.functions.get? key =
        (c.functions.get? key).or ((b.functions.get? key).or (a.functions.get? key))) ∧
      ∀ file, left.directives.get? file =
        (c.directives.get? file).or ((b.directives.get? file).or (a.directives.get? file))) ∧
    ∀ {α : Type} (look : UriDirective → α), AgreesOnFiles look b c →
      (left.exports.map look).Perm (right.exports.map look) := by
  refine ⟨⟨?_, ?_, ?_⟩, ⟨fun key => ?_, fun key => ?_, fun file => ?_⟩, fun look agrees => ?_⟩
  · rw [classes_merge, classes_merge, classes_merge, classes_merge, SortedMap.addAll_gathered fun _ _ _ => rfl]
  · rw [functions_merge, functions_merge, functions_merge, functions_merge,
      SortedMap.addAll_gathered fun _ _ _ => rfl]
  · rw [directives_merge, directives_merge, directives_merge, directives_merge,
      SortedMap.addAll_gathered fun _ _ _ => rfl]
  · rw [classes_merge, classes_merge, SortedMap.get?_addAll_of_later, SortedMap.get?_addAll_of_later]
  · rw [functions_merge, functions_merge, SortedMap.get?_addAll_of_later, SortedMap.get?_addAll_of_later]
  · rw [directives_merge, directives_merge, SortedMap.get?_addAll_of_later, SortedMap.get?_addAll_of_later]
  · have gathered : ((a.newFiles (b.merge c).directives.entries).map (view look)).Perm
        ((a.newFiles b.directives.entries).map (view look) ++
          (a.newFiles (b.newFiles c.directives.entries)).map (view look)) := by
      rw [map_view_newFiles, map_view_newFiles, map_view_newFiles, ← List.filter_append, ← List.map_append]
      exact (perm_map_view_merge agrees).filter _
    rw [map_exports_merge, map_exports_merge, map_exports_merge, newFiles_merge, List.append_assoc,
      ← List.flatMap_append]
    exact (gathered.flatMap_right _).symm.append_left _

private def exporting (file uri : String) (table : SymbolTable) : SymbolTable :=
  table.insertDirectives
    { FileDirectives.empty ⟨file⟩ with exports := [⟨uri, none, none, [], [], true, ⟨file⟩⟩] }

/-- The exports of a shared file come before those of another one in one order and after them in the other. -/
theorem merge_assoc_up_to_exports_shared :
    let a := exporting "/b.dart" "x.dart" .empty
    let b := exporting "/d.dart" "z.dart" .empty
    let c := exporting "/d.dart" "z.dart" (exporting "/c.dart" "y.dart" .empty)
    AgreesOnFiles id b c ∧ ((a.merge b).merge c).exports ≠ (a.merge (b.merge c)).exports ∧
      ((a.merge b).merge c).exports.Perm (a.merge (b.merge c)).exports := by
  intro a b c
  have agrees : AgreesOnFiles id b c := by decide +kernel
  refine ⟨agrees, by decide +kernel, ?_⟩
  simpa only [List.map_id] using (merge_assoc_up_to_exports a b c).2.2 id agrees

end SymbolTable
end DeadCode
