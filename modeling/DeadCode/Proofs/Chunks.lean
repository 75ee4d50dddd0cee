import DeadCode.Project
import Mathlib.Data.List.Basic

/-!
Work that is divided among workers comes to the same as work done in one go: the chunks are the list in
its order, their outcomes come back in that order, and what is put together chunk by chunk can be put
together item by item.
-/
namespace DeadCode
variable {α β σ : Type}

theorem flatten_chunksOf {size : Nat} (positive : 0 < size) (bound : Nat) (items : List α)
    (enough : items.length ≤ bound) : (chunksOf size bound items).flatten = items := by
  induction bound generalizing items with
  | zero => rw [List.length_eq_zero_iff.mp (Nat.le_zero.mp enough), chunksOf, List.flatten_nil]
  | succ bound ih =>
    rw [chunksOf]
    split
    case isTrue empty => rw [List.isEmpty_iff.mp empty, List.flatten_nil]
    case isFalse nonempty =>
      have shorter : (items.drop size).length ≤ bound := by
        rw [List.length_drop]
        omega
      rw [List.flatten_cons, ih _ shorter, List.take_append_drop]

theorem flatten_partition (items : List α) (parts : Nat) : (partition items parts).flatten = items := by
  cases items with
  | nil => rfl
  | cons first rest =>
    refine flatten_chunksOf (Nat.div_pos ?_ (by omega)) _ _ (Nat.le_refl _)
    rw [List.length_cons]
    omega

theorem mem_messages_iff {task : Nat → List α → Outcome β} {chunks : List (List α)} {message : Nat × Outcome β} :
    message ∈ messages task chunks ↔
      ∃ chunk, chunks[message.1]? = some chunk ∧ message.2 = task message.1 chunk := by
  obtain ⟨index, outcome⟩ := message
  simp only [messages, List.mem_map, Prod.exists, List.mem_zipIdx_iff_getElem?, Prod.mk.injEq]
  grind

private theorem pairwise_messages (task : Nat → List α → Outcome β) (chunks : List (List α)) :
    (messages task chunks).Pairwise fun a b => a.1 ≤ b.1 := by
  have indices : (chunks.zipIdx.map (·.2)).Pairwise (· < ·) := by
    rw [List.zipIdx_map_snd]
    exact List.pairwise_lt_range'
  exact List.pairwise_map.mpr ((List.pairwise_map.mp indices).imp Nat.le_of_lt)

/-- Outcomes that come in in any order are put back into that of their chunks: no two have the same number. -/
theorem inChunkOrder_of_perm {task : Nat → List α → Outcome β} {chunks : List (List α)}
    {arrived : List (Nat × Outcome β)} (delivered : arrived.Perm (messages task chunks)) :
    inChunkOrder arrived = runInOrder task chunks := by
  have permuted := (List.mergeSort_perm arrived fun a b => a.1 ≤ b.1).trans delivered
  have sorted : (arrived.mergeSort fun a b => a.1 ≤ b.1).Pairwise fun a b => a.1 ≤ b.1 := by
    refine (List.pairwise_mergeSort (fun a b c first second => ?_) (fun a b => ?_) arrived).imp of_decide_eq_true
    · exact decide_eq_true (Nat.le_trans (of_decide_eq_true first) (of_decide_eq_true second))
    · simpa using Nat.le_total a.1 b.1
  have whole : (arrived.mergeSort fun a b => a.1 ≤ b.1) = messages task chunks := by
    refine permuted.eq_of_pairwise (fun a b arrivedA sentB below above => ?_) sorted (pairwise_messages task chunks)
    have same : a.1 = b.1 := Nat.le_antisymm below above
    obtain ⟨chunk, here, outcome⟩ := mem_messages_iff.mp (permuted.mem_iff.mp arrivedA)
    obtain ⟨chunkToo, hereToo, outcomeToo⟩ := mem_messages_iff.mp sentB
    rw [same, hereToo] at here
    obtain rfl := Option.some.inj here
    exact Prod.ext same (by rw [outcome, outcomeToo, same])
  rw [inChunkOrder, whole, messages, List.map_map]
  rfl

/-- Where workers can be started, nothing shows whether there were any. -/
theorem runPartitioned_eq_runInOrder {machine : Machine} (started : machine.poolFailure = none) (workers : Nat)
    (task : Nat → List α → Outcome β) (chunks : List (List α)) :
    runPartitioned machine id workers task chunks = (runInOrder task chunks, none) := by
  rw [runPartitioned]
  split
  · rfl
  · rw [started]
    exact congrArg (·, none) (inChunkOrder_of_perm (.refl _))

private theorem runInOrder_ok (task : List α → β) (chunks : List (List α)) :
    runInOrder (fun _ chunk => .ok (task chunk)) chunks = chunks.map fun chunk => .ok (task chunk) := by
  calc runInOrder (fun _ chunk => .ok (task chunk)) chunks
      = (chunks.zipIdx.map (·.1)).map fun chunk => .ok (task chunk) := by rw [List.map_map]; rfl
    _ = chunks.map fun chunk => .ok (task chunk) := by rw [List.zipIdx_map_fst]

theorem distribute_eq {machine : Machine} (started : machine.poolFailure = none) (settings : ParallelSettings)
    (task : List Path → β) (files : List Path) :
    settings.distribute machine task files =
      ((partition files (settings.workersFor machine files.length)).map fun chunk => .ok (task chunk), []) := by
  rw [ParallelSettings.distribute, runPartitioned_eq_runInOrder started]
  exact congrArg (·, []) (runInOrder_ok task _)

/-- The outcomes are those of the chunks also where no workers can be started. -/
theorem fst_distribute (machine : Machine) (settings : ParallelSettings) (task : List Path → β) (files : List Path) :
    (settings.distribute machine task files).1 =
      (partition files (settings.workersFor machine files.length)).map fun chunk => .ok (task chunk) := by
  cases failure : machine.poolFailure with
  | none => rw [distribute_eq failure]
  | some reason =>
    rw [← runInOrder_ok]
    simp only [ParallelSettings.distribute, runPartitioned, failure]
    split <;> rfl

theorem tag_of_mem_distribute {machine : Machine} {settings : ParallelSettings} {task : List Path → β}
    {files : List Path} {warning : Warning} (warned : warning ∈ (settings.distribute machine task files).2) :
    warning.tag = "pool" := by
  obtain ⟨reason, -, rfl⟩ := List.mem_map.mp warned
  rfl

/-- What is put together from the outcomes of chunks is put together from their values. -/
theorem foldl_absorb {absorb : σ → Outcome β × Nat → σ} {add : σ → β → σ}
    (absorbed : ∀ whole part index, absorb whole (.ok part, index) = add whole part) (whole : σ)
    (task : List α → β) (chunks : List (List α)) (first : Nat) :
    ((chunks.map fun chunk => (.ok (task chunk) : Outcome β)).zipIdx first).foldl absorb whole =
      chunks.foldl (fun whole chunk => add whole (task chunk)) whole := by
  induction chunks generalizing whole first with
  | nil => rfl
  | cons chunk rest ih => rw [List.map_cons, List.zipIdx_cons, List.foldl_cons, absorbed, ih, List.foldl_cons]

theorem foldl_congr_view {τ : Type} {view : σ → τ} {work : σ → α → σ}
    (same : ∀ a b item, view a = view b → view (work a item) = view (work b item)) {a b : σ}
    (start : view a = view b) (items : List α) : view (items.foldl work a) = view (items.foldl work b) := by
  induction items generalizing a b with
  | nil => exact start
  | cons item rest ih => exact ih (same a b item start)

/-- If, as far as one can see, adding what was made of a chunk is working through the chunk, then adding
what was made of all chunks is working through all items. -/
theorem foldl_chunks {τ : Type} (view : σ → τ) {add : σ → β → σ} {task : List α → β} {work : σ → α → σ}
    (worked : ∀ whole chunk, view (add whole (task chunk)) = view (chunk.foldl work whole))
    (same : ∀ a b item, view a = view b → view (work a item) = view (work b item)) (whole : σ)
    (chunks : List (List α)) :
    view (chunks.foldl (fun whole chunk => add whole (task chunk)) whole) =
      view (chunks.flatten.foldl work whole) := by
  induction chunks generalizing whole with
  | nil => rfl
  | cons chunk rest ih =>
    rw [List.foldl_cons, ih, List.flatten_cons, List.foldl_append]
    exact foldl_congr_view same (worked whole chunk) rest.flatten

end DeadCode
