import DeadCode.Tree.Walk
import Mathlib.Data.List.Pairwise
import Mathlib.Data.List.Sort

/-!
Paths in order. They are in strict order, since equal ones are listed once, so the list is known by its members.
-/
namespace DeadCode

/-- Strict order leaves no choice. -/
theorem eq_of_ascending {paths others : List Path} (ascending : paths.Pairwise fun a b => compare a b = .lt)
    (ascendingToo : others.Pairwise fun a b => compare a b = .lt) (members : ∀ path, path ∈ paths ↔ path ∈ others) :
    paths = others := by
  have : Std.Antisymm fun a b : Path => compare a b = .lt :=
    ⟨fun _ _ less more => absurd more (by simp [Std.OrientedCmp.gt_of_lt less])⟩
  have : Std.Irrefl fun a b : Path => compare a b = .lt := ⟨fun _ less => by simp at less⟩
  exact ascending.eq_of_mem_iff ascendingToo members

/-- In strict order no path has two spellings. -/
theorem eq_of_same_of_ascending {paths : List Path} (ascending : paths.Pairwise fun a b => compare a b = .lt)
    {a b : Path} (inPaths : a ∈ paths) (inPathsToo : b ∈ paths) (same : a.same b) : a = b := by
  have symmetric : Std.Symm fun a b : Path => compare a b ≠ .eq :=
    ⟨fun _ _ apart equal => apart (Std.OrientedCmp.eq_symm equal)⟩
  have apart : paths.Pairwise fun a b => compare a b ≠ .eq := ascending.imp fun less equal => by
    rw [less] at equal
    cases equal
  by_contra different
  exact apart.forall inPaths inPathsToo different (Path.compare_eq_iff_same.mpr same)

theorem pairwise_mergeSort_isLE {κ : Type} (cmp : κ → κ → Ordering) [Std.TransCmp cmp] (items : List κ) :
    (items.mergeSort fun a b => (cmp a b).isLE).Pairwise fun a b => (cmp a b).isLE := by
  refine List.pairwise_mergeSort (fun _ _ _ => Std.TransCmp.isLE_trans) (fun a b => ?_) items
  rw [Bool.or_eq_true]
  cases order : cmp a b with
  | lt => exact .inl rfl
  | eq => exact .inl rfl
  | gt => exact .inr (by rw [Std.OrientedCmp.gt_iff_lt.mp order]; rfl)

private theorem pairwise_foldr_consPath {paths : List Path} (sorted : paths.Pairwise fun a b => (compare a b).isLE) :
    (paths.foldr consPath []).Pairwise (fun a b => compare a b = .lt) ∧
      ∀ path ∈ paths.foldr consPath [], path ∈ paths := by
  induction sorted with
  | nil => exact ⟨.nil, fun _ => id⟩
  | @cons first paths before _ ih =>
    rw [List.foldr_cons]
    generalize paths.foldr consPath [] = kept at ih
    obtain ⟨ascending, inside⟩ := ih
    cases kept with
    | nil =>
      refine ⟨List.pairwise_singleton _ _, fun path member => ?_⟩
      exact List.mem_cons.mpr (.inl (List.mem_singleton.mp member))
    | cons next rest =>
      obtain ⟨nextBefore, restAscending⟩ := List.pairwise_cons.mp ascending
      obtain ⟨nextInside, restInside⟩ := List.forall_mem_cons.mp inside
      have firstBefore (path : Path) (inRest : path ∈ rest) : compare first path = .lt :=
        Std.TransCmp.lt_of_isLE_of_lt (before next nextInside) (nextBefore path inRest)
      rw [consPath]
      split
      case isTrue =>
        refine ⟨.cons firstBefore restAscending, List.forall_mem_cons.mpr ⟨List.mem_cons_self, ?_⟩⟩
        exact fun path inRest => List.mem_cons_of_mem _ (restInside path inRest)
      case isFalse apart =>
        have less : compare first next = .lt :=
          (Ordering.isLE_iff_eq_lt_or_eq_eq.mp (before next nextInside)).resolve_right
            (mt Path.compare_eq_iff_same.mp apart)
        refine ⟨.cons (List.forall_mem_cons.mpr ⟨less, firstBefore⟩) ascending,
          List.forall_mem_cons.mpr ⟨List.mem_cons_self, ?_⟩⟩
        exact fun path member => List.mem_cons_of_mem _ (inside path member)

theorem pairwise_sortPaths (paths : List Path) : (sortPaths paths).Pairwise fun a b => compare a b = .lt :=
  (pairwise_foldr_consPath (pairwise_mergeSort_isLE compare paths)).1

private theorem exists_same_of_mem_foldr {paths : List Path} {path : Path} (member : path ∈ paths) :
    ∃ kept ∈ paths.foldr consPath [], kept.same path := by
  induction paths with
  | nil => cases member
  | cons first rest ih =>
    rw [List.foldr_cons]
    rcases List.mem_cons.mp member with rfl | inRest
    · refine ⟨path, ?_, Path.same_refl _⟩
      unfold consPath
      split
      · exact List.mem_cons_self
      · split <;> exact List.mem_cons_self
    · obtain ⟨kept, listed, same⟩ := ih inRest
      generalize rest.foldr consPath [] = others at listed
      cases others with
      | nil => cases listed
      | cons next others =>
        rw [consPath]
        split
        case isFalse => exact ⟨kept, List.mem_cons_of_mem _ listed, same⟩
        case isTrue replaced =>
          rcases List.mem_cons.mp listed with rfl | later
          · refine ⟨first, List.mem_cons_self, Path.same_iff.mpr ?_⟩
            exact (Path.same_iff.mp replaced).trans (Path.same_iff.mp same)
          · exact ⟨kept, List.mem_cons_of_mem _ later, same⟩

theorem mem_of_mem_sortPaths {paths : List Path} {path : Path} (listed : path ∈ sortPaths paths) : path ∈ paths := by
  have sorted := pairwise_mergeSort_isLE compare paths
  exact List.mem_mergeSort.mp ((pairwise_foldr_consPath sorted).2 path listed)

theorem exists_same_of_mem {paths : List Path} {path : Path} (member : path ∈ paths) :
    ∃ kept ∈ sortPaths paths, kept.same path :=
  exists_same_of_mem_foldr (List.mem_mergeSort.mpr member)

/-- Putting paths in order keeps them, if no two of them are one path in different spellings. -/
theorem mem_sortPaths {paths : List Path} (spelled : ∀ a ∈ paths, ∀ b ∈ paths, a.same b → a = b) {path : Path} :
    path ∈ sortPaths paths ↔ path ∈ paths := by
  constructor
  · exact mem_of_mem_sortPaths
  · intro member
    obtain ⟨kept, listed, same⟩ := exists_same_of_mem member
    rwa [← spelled kept (mem_of_mem_sortPaths listed) path member same]

/-- Paths that are all different are put in strict order. -/
theorem pairwise_mergeSort_paths {paths : List Path} (apart : paths.Pairwise fun a b => compare a b ≠ .eq) :
    (paths.mergeSort fun a b => (compare a b).isLE).Pairwise fun a b => compare a b = .lt := by
  have sorted := pairwise_mergeSort_isLE compare paths
  have different : (paths.mergeSort fun a b => (compare a b).isLE).Pairwise fun a b => compare a b ≠ .eq :=
    (List.mergeSort_perm paths _).symm.pairwise apart fun less equal => less (Std.OrientedCmp.eq_symm equal)
  exact sorted.imp₂ (fun a b le ne => (Ordering.isLE_iff_eq_lt_or_eq_eq.mp le).resolve_right ne) different

end DeadCode
