import DeadCode.Proofs.Scanning
import DeadCode.Proofs.Visits

/-!
What is commented out is kept. A line gives at most one entity, and the key of one that is commented out has its
line in it, so such a key is like no other key of the file: in a table nothing takes the place of these entities,
and they take the place of nothing.
-/
namespace DeadCode

private def positionIf (commentedOut : Bool) (place : Nat × Nat) : Option (Nat × Nat) :=
  if commentedOut then some place else none

private theorem compare_ne_of_commentedOut {a b : SymbolKey} {hiddenA hiddenB : Bool} {placeA placeB : Nat × Nat}
    (positionA : a.position = positionIf hiddenA placeA) (positionB : b.position = positionIf hiddenB placeB)
    (apart : placeA.1 ≠ placeB.1) (hidden : hiddenA || hiddenB) : compare a b ≠ .eq := by
  intro equal
  obtain ⟨-, -, -, same⟩ := SymbolKey.compare_eq_iff.mp equal
  rw [positionA, positionB] at same
  cases hiddenA with
  | false =>
    rw [Bool.false_or] at hidden
    rw [hidden] at same
    cases same
  | true =>
    cases hiddenB with
    | false => cases same
    | true => exact apart (congrArg Prod.fst (Option.some.inj same))

/-! ### Adding entities under their keys -/

section
variable {α : Type} {key : α → SymbolKey} {commentedOut : α → Bool} {place : α → Nat × Nat}
  (positioned : ∀ entity, (key entity).position = positionIf (commentedOut entity) (place entity))
  {entities : List α}
include positioned

/-- Among entities on different lines, one that is commented out is found under its key. -/
private theorem get?_addAll_of_commentedOut (ordered : entities.Pairwise fun a b => (place a).1 < (place b).1)
    {entity : α} (member : entity ∈ entities) (hidden : commentedOut entity) (map : SortedMap SymbolKey α) :
    (map.addAll later (entities.map fun entity => (key entity, entity))).get? (key entity) = some entity := by
  have nodup : (entities.map fun entity => (place entity).1).Nodup :=
    List.pairwise_map.mpr (ordered.imp Nat.ne_of_lt)
  have alone (other : α) (inEntities : other ∈ entities) (equal : compare (key entity) (key other) = .eq) :
      other = entity := by
    by_contra different
    have apart : (place entity).1 ≠ (place other).1 := fun same =>
      different (List.inj_on_of_nodup_map nodup inEntities member same.symm)
    exact compare_ne_of_commentedOut (positioned entity) (positioned other) apart (by simp [hidden]) equal
  rw [SortedMap.get?_addAll_later]
  cases found : (entities.map fun entity => (key entity, entity)).reverse.find? fun entry =>
      compare (key entity) entry.1 == .eq with
  | none =>
    have missed := List.find?_eq_none.mp found (key entity, entity)
      (List.mem_reverse.mpr (List.mem_map_of_mem member))
    simp at missed
  | some entry =>
    obtain ⟨other, inEntities, rfl⟩ := List.mem_map.mp (List.mem_reverse.mp (List.mem_of_find?_eq_some found))
    rw [alone other inEntities (by simpa using List.find?_some found)]
    rfl

/-- What is found under the key of a live symbol is what the live ones among the entities leave there. -/
private theorem get?_addAll_of_live {live : SymbolKey} (isLive : live.position = none) (map : SortedMap SymbolKey α) :
    (map.addAll later (entities.map fun entity => (key entity, entity))).get? live =
      (map.addAll later ((entities.filter (!commentedOut ·)).map fun entity => (key entity, entity))).get? live := by
  have found (entities : List α) :
      ((entities.map fun entity => (key entity, entity)).reverse.find? fun entry => compare live entry.1 == .eq) =
        (entities.reverse.find? fun entity => compare live (key entity) == .eq).map fun entity =>
          (key entity, entity) := by
    rw [← List.map_reverse, List.find?_map]
    rfl
  have fits (entity : α) : decide (!commentedOut entity ∧ compare live (key entity) == .eq) =
      (compare live (key entity) == .eq) := by
    rw [Bool.eq_iff_iff, decide_eq_true_iff, and_iff_right_iff_imp, beq_iff_eq]
    intro equal
    have position := positioned entity
    obtain ⟨-, -, -, same⟩ := SymbolKey.compare_eq_iff.mp equal
    rw [← same, isLive] at position
    cases hidden : commentedOut entity with
    | false => rfl
    | true =>
      rw [hidden] at position
      cases position
  rw [SortedMap.get?_addAll_later, SortedMap.get?_addAll_later, found, found, ← List.filter_reverse, List.find?_filter]
  simp only [fits]

end

namespace Source

/-! ### The keys of a file -/

/-- The key of everything that was found, and whether it is commented out. -/
def FileScan.keys (found : FileScan) : List (SymbolKey × Bool) :=
  found.classes.map (fun entity => (entity.key, entity.commentedOut)) ++
    found.functions.map fun entity => (entity.key, entity.commentedOut)

/-- The key of a symbol that is commented out is like no other. -/
theorem FileScan.OnePerLine.keys_apart {found : FileScan} (one : found.OnePerLine) :
    found.keys.Pairwise fun a b => a.2 || b.2 → compare a.1 b.1 ≠ .eq := by
  refine List.pairwise_append.mpr
    ⟨List.pairwise_map.mpr ?_, List.pairwise_map.mpr ?_, fun a inClasses b inFunctions => ?_⟩
  · exact one.classes.imp fun less => compare_ne_of_commentedOut rfl rfl (Nat.ne_of_lt less)
  · exact one.functions.imp fun less => compare_ne_of_commentedOut rfl rfl (Nat.ne_of_lt less)
  · obtain ⟨declared, isDeclared, rfl⟩ := List.mem_map.mp inClasses
    obtain ⟨defined, isDefined, rfl⟩ := List.mem_map.mp inFunctions
    exact compare_ne_of_commentedOut rfl rfl (one.apart declared isDeclared defined isDefined)

/-- A file gives at most one entity on each line, each at a site. The keys of those that are commented out are
like no others: when a table takes in the file it keeps every one of them, and under the key of a live symbol
stands what the live ones alone leave there. -/
theorem insertSource_keeps_commentedOut (withFunctions : Bool) (file : Path) (contents : List Char) :
    let found := scan withFunctions file contents
    found.OnePerLine ∧ (found.keys.Pairwise fun a b => a.2 || b.2 → compare a.1 b.1 ≠ .eq) ∧
      ∀ (table : SymbolTable) (layout : PackageLayout),
        let after := table.insertSource withFunctions layout file contents
        (∀ entity ∈ found.classes, entity.commentedOut → after.classes.get? entity.key = some entity) ∧
        (∀ entity ∈ found.functions, entity.commentedOut → after.functions.get? entity.key = some entity) ∧
        ∀ key : SymbolKey, key.position = none →
          after.classes.get? key =
            ((found.classes.filter (!·.commentedOut)).foldl .insertClass table).classes.get? key ∧
          after.functions.get? key =
            ((found.functions.filter (!·.commentedOut)).foldl .insertFunction table).functions.get? key := by
  intro found
  have one : found.OnePerLine := onePerLine_scan withFunctions file contents
  have classPosition (entity : ClassEntity) :
      entity.key.position = positionIf entity.commentedOut (entity.line, entity.offset) := rfl
  have functionPosition (entity : FunctionEntity) :
      entity.key.position = positionIf entity.commentedOut (entity.line, entity.offset) := rfl
  refine ⟨one, one.keys_apart, fun table layout => ?_⟩
  simp only [SymbolTable.insertSource_eq, SymbolTable.foldl_insertClass, SymbolTable.foldl_insertFunction]
  refine ⟨fun entity member hidden => ?_, fun entity member hidden => ?_, fun key isLive => ⟨?_, ?_⟩⟩
  · exact get?_addAll_of_commentedOut classPosition one.classes member hidden table.classes
  · exact get?_addAll_of_commentedOut functionPosition one.functions member hidden table.functions
  · exact get?_addAll_of_live classPosition isLive table.classes
  · exact get?_addAll_of_live functionPosition isLive table.functions

example :
    let after := SymbolTable.empty.insertSource true (.libSegment (.ofFiles [])) ⟨"a.dart"⟩
      "class Bar \x7b\x7d\n// class Bar \x7b\x7d".toList
    after.classes.values.map (fun entity => (entity.line, entity.commentedOut)) = [(1, false), (2, true)] := by
  decide +kernel

end Source
end DeadCode
