import DeadCode.Closure
import Mathlib.Logic.Relation

/-!
The walk along a successor function enters nothing but what can be reached, and up to the keys it
enters all of it, provided that the keys of all successors may be entered.
-/
namespace DeadCode
variable {α κ : Type} [DecidableEq κ] {key : α → κ} {next : α → List α}

/-- A property that holds of the pending nodes and passes on to successors holds of all that is met. -/
theorem closure_invariant (holds : α → Prop)
    (passes : ∀ node, holds node → ∀ after ∈ next node, holds after)
    {unseen : List κ} {pending : List α} (start : ∀ node ∈ pending, holds node) :
    ∀ node ∈ closure key next unseen pending, holds node := by
  fun_induction closure key next unseen pending with
  | case1 => simp
  | case2 unseen node rest _ ih =>
    obtain ⟨first, others⟩ := List.forall_mem_cons.mp start
    refine List.forall_mem_cons.mpr ⟨first, ih fun after member => ?_⟩
    rcases List.mem_append.mp member with member | member
    · exact passes node first after member
    · exact others after member
  | case3 unseen node rest _ ih => exact ih (List.forall_mem_cons.mp start).2

theorem reach_of_mem_closure {unseen : List κ} {pending : List α} {node : α}
    (member : node ∈ closure key next unseen pending) :
    ∃ first ∈ pending, Relation.ReflTransGen (fun a b => b ∈ next a) first node := by
  refine closure_invariant (fun node =>
    ∃ first ∈ pending, Relation.ReflTransGen (fun a b => b ∈ next a) first node) ?_ ?_ node member
  · rintro node ⟨first, present, chain⟩ after step
    exact ⟨first, present, chain.tail step⟩
  · exact fun node present => ⟨node, present, .refl⟩

private theorem key_mem_of_mem_closure {unseen : List κ} {pending : List α} {node : α}
    (member : node ∈ closure key next unseen pending) : key node ∈ unseen := by
  fun_induction closure key next unseen pending with
  | case1 => cases member
  | case2 unseen first rest fresh ih =>
    rcases List.mem_cons.mp member with rfl | member
    · exact fresh
    · exact (List.mem_filter.mp (ih member)).1
  | case3 unseen first rest _ ih => exact ih member

/-- However the nodes lead to each other, no key is entered twice. -/
theorem nodup_keys_closure (key : α → κ) (next : α → List α) (unseen : List κ) (pending : List α) :
    ((closure key next unseen pending).map key).Nodup := by
  fun_induction closure key next unseen pending with
  | case1 => exact List.nodup_nil
  | case2 unseen first rest fresh ih =>
    refine List.nodup_cons.mpr ⟨fun again => ?_, ih⟩
    obtain ⟨node, member, same⟩ := List.mem_map.mp again
    have unentered := (List.mem_filter.mp (key_mem_of_mem_closure member)).2
    exact of_decide_eq_true unentered same
  | case3 unseen first rest _ ih => exact ih

/-- What is pending, and what comes after a node that was met, is met under its key if that key may be
entered. -/
private theorem closure_covers (key : α → κ) (next : α → List α) (unseen : List κ) (pending : List α) :
    (∀ node ∈ pending, key node ∈ unseen → ∃ met ∈ closure key next unseen pending, key met = key node) ∧
    ∀ node ∈ closure key next unseen pending, ∀ after ∈ next node, key after ∈ unseen →
      ∃ met ∈ closure key next unseen pending, key met = key after := by
  fun_induction closure key next unseen pending with
  | case1 => simp
  | case2 unseen node rest _ ih =>
    obtain ⟨waiting, closed⟩ := ih
    -- a key that may still be entered is that of the node, or may be entered afterwards
    have met (other : α) (fresh : key other ∈ unseen)
        (later : key other ∈ without unseen (key node) → ∃ met ∈ closure key next
          (without unseen (key node)) (next node ++ rest), key met = key other) :
        ∃ met ∈ node :: closure key next (without unseen (key node)) (next node ++ rest),
          key met = key other := by
      by_cases same : key other = key node
      · exact ⟨node, List.mem_cons_self, same.symm⟩
      · obtain ⟨met, member, equal⟩ := later (List.mem_filter.mpr ⟨fresh, by simpa using same⟩)
        exact ⟨met, List.mem_cons_of_mem _ member, equal⟩
    constructor
    · intro other member fresh
      rcases List.mem_cons.mp member with rfl | member
      · exact ⟨other, List.mem_cons_self, rfl⟩
      · exact met other fresh (waiting other (List.mem_append_right _ member))
    · intro before member after step fresh
      rcases List.mem_cons.mp member with rfl | member
      · exact met after fresh (waiting after (List.mem_append_left _ step))
      · exact met after fresh (closed before member after step)
  | case3 unseen node rest absent ih =>
    refine ⟨fun other member fresh => ?_, ih.2⟩
    rcases List.mem_cons.mp member with rfl | member
    · exact absurd fresh absent
    · exact ih.1 other member fresh

/-- Everything that can be reached from a pending node is met under its key. Nodes of one key that can be reached
have successors of the same keys, so that it does not matter which of them was entered. -/
theorem exists_mem_closure_of_reach {unseen : List κ} {pending : List α}
    (respects : ∀ a b, (∃ first ∈ pending, Relation.ReflTransGen (fun a b => b ∈ next a) first a) →
      (∃ first ∈ pending, Relation.ReflTransGen (fun a b => b ∈ next a) first b) →
        key a = key b → (next a).map key = (next b).map key)
    (open_next : ∀ node, ∀ after ∈ next node, key after ∈ unseen) {first node : α}
    (present : first ∈ pending) (fresh : key first ∈ unseen)
    (chain : Relation.ReflTransGen (fun a b => b ∈ next a) first node) :
    ∃ met ∈ closure key next unseen pending, key met = key node := by
  obtain ⟨waiting, closed⟩ := closure_covers key next unseen pending
  induction chain with
  | refl => exact waiting first present fresh
  | @tail before after reached step ih =>
    obtain ⟨met, member, equal⟩ := ih
    have known : key after ∈ (next met).map key := by
      rw [respects met before (reach_of_mem_closure member) ⟨first, present, reached⟩ equal]
      exact List.mem_map_of_mem step
    obtain ⟨twin, twinStep, twinKey⟩ := List.mem_map.mp known
    obtain ⟨found, foundMember, foundKey⟩ := closed met member twin twinStep (open_next met twin twinStep)
    exact ⟨found, foundMember, foundKey.trans twinKey⟩

theorem exists_mem_closure {unseen : List κ} {pending : List α}
    (respects : ∀ a b, key a = key b → (next a).map key = (next b).map key)
    (open_next : ∀ node, ∀ after ∈ next node, key after ∈ unseen) {first node : α}
    (present : first ∈ pending) (fresh : key first ∈ unseen)
    (chain : Relation.ReflTransGen (fun a b => b ∈ next a) first node) :
    ∃ met ∈ closure key next unseen pending, key met = key node :=
  exists_mem_closure_of_reach (fun a b _ _ => respects a b) open_next present fresh chain

/-- Pending nodes whose keys may not be entered any more make no difference. -/
theorem closure_congr {unseen : List κ} {pending others : List α}
    (same : pending.filter (key · ∈ unseen) = others.filter (key · ∈ unseen)) :
    closure key next unseen pending = closure key next unseen others := by
  induction size : unseen.length using Nat.strongRecOn generalizing unseen pending others with
  | ind size ih =>
    subst size
    -- The walk goes on from the first node that may be entered; afterwards fewer keys are left.
    let enter (left : List α) : List α := left.head?.elim [] fun node =>
      node :: closure key next (without unseen (key node)) (next node ++ left.tail)
    have normal (pending : List α) : closure key next unseen pending = enter (pending.filter (key · ∈ unseen)) := by
      induction pending with
      | nil => rw [closure]; rfl
      | cons node rest later =>
        by_cases fresh : key node ∈ unseen
        · rw [List.filter_cons_of_pos (by simpa using fresh), closure, if_pos fresh]
          refine congrArg (node :: ·) (ih _ (length_without_lt fresh) ?_ rfl)
          rw [List.filter_append, List.filter_append, List.tail_cons, List.filter_filter]
          refine congrArg _ (List.filter_congr fun other _ => ?_)
          simp only [without, List.mem_filter]
          grind
        · rw [List.filter_cons_of_neg (by simpa using fresh), closure, if_neg fresh, later]
    rw [normal pending, normal others, same]

end DeadCode
