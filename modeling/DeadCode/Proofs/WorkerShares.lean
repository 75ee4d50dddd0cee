import DeadCode.Proofs.Chunks
import Mathlib.Algebra.Order.Floor.Div

/-!
How much work a worker gets. No more workers are planned than have files to work on, and a list is cut into no more
chunks than it should be, although the size of a chunk is rounded up. Where several workers are planned there are several
chunks for them, so whether a machine that has no workers says so depends on the number of files only.
-/
namespace DeadCode
variable {α : Type}

/-! ### Rounding up -/

/-- What is not nothing has a part. -/
private theorem ceilDiv_max_pos {whole : Nat} (some : 0 < whole) (parts : Nat) : 0 < whole ⌈/⌉ max parts 1 := by
  by_contra none
  have covered := (ceilDiv_le_iff_le_mul (Nat.le_max_right parts 1)).mp (Nat.le_of_not_lt none)
  omega

/-- Each but the last of the parts that a division is rounded up to is a full one. -/
private theorem pred_mul_lt_of_le_ceilDiv {count share whole : Nat} (positive : 0 < share) (some : 1 ≤ count)
    (most : count ≤ whole ⌈/⌉ share) : (count - 1) * share < whole := by
  by_contra enough
  have covered : whole ⌈/⌉ share ≤ count - 1 := by
    rw [ceilDiv_le_iff_le_mul positive, Nat.mul_comm]
    exact Nat.le_of_not_lt enough
  omega

/-! ### Workers -/

structure ParallelSettings.IsPlan (settings : ParallelSettings) (requested files workers : Nat) : Prop where
  some : 1 ≤ workers
  asked : workers ≤ max requested 1
  busy : workers = 1 ∨ (workers - 1) * max settings.minFilesPerWorker 1 < files
  /-- Few files have one worker. Otherwise there are as many as are asked for and get their share of the files. -/
  count : workers = if files = 0 ∨ files < settings.sequentialThreshold then 1
    else min (max requested 1) (files ⌈/⌉ max settings.minFilesPerWorker 1)
  divisor : 0 < max settings.minFilesPerWorker 1

namespace ParallelSettings
variable (settings : ParallelSettings)

theorem planWorkers_eq (requested files : Nat) : settings.planWorkers requested files =
    if files = 0 ∨ files < settings.sequentialThreshold then 1
    else min (max requested 1) (files ⌈/⌉ max settings.minFilesPerWorker 1) := by
  rw [planWorkers]
  simp only [Bool.or_eq_true, decide_eq_true_eq]
  rfl

theorem isPlan_planWorkers (requested files : Nat) :
    settings.IsPlan requested files (settings.planWorkers requested files) := by
  have asked : 1 ≤ max requested 1 := Nat.le_max_right _ _
  have divisor : 0 < max settings.minFilesPerWorker 1 := Nat.le_max_right _ _
  have count := settings.planWorkers_eq requested files
  by_cases few : files = 0 ∨ files < settings.sequentialThreshold
  · have one := count.trans (if_pos few)
    exact ⟨one.ge, one ▸ asked, .inl one, count, divisor⟩
  · have least := count.trans (if_neg few)
    have started := ceilDiv_max_pos (by omega : 0 < files) settings.minFilesPerWorker
    have some : 1 ≤ settings.planWorkers requested files := least ▸ le_min asked started
    have busy := pred_mul_lt_of_le_ceilDiv divisor some (least ▸ min_le_right _ _)
    exact ⟨some, least ▸ min_le_left _ _, .inr busy, count, divisor⟩

/-- For more files no fewer workers are planned. -/
private theorem planWorkers_mono (requested : Nat) {files others : Nat} (fewer : files ≤ others) :
    settings.planWorkers requested files ≤ settings.planWorkers requested others := by
  rw [planWorkers_eq settings requested files]
  split
  case isTrue => exact (settings.isPlan_planWorkers requested others).some
  case isFalse many =>
    have divisor : 0 < max settings.minFilesPerWorker 1 := Nat.le_max_right _ _
    have covered := (ceilDiv_le_iff_le_mul divisor).mp (Nat.le_refl (others ⌈/⌉ max settings.minFilesPerWorker 1))
    rw [planWorkers_eq, if_neg (by omega)]
    exact min_le_min_left _ ((ceilDiv_le_iff_le_mul divisor).mpr (fewer.trans covered))

end ParallelSettings

/-! ### Chunks -/

/-- The chunks are the stretches of a list, one after the other. -/
theorem getElem?_chunksOf {size : Nat} (positive : 0 < size) {bound : Nat} {items : List α}
    (enough : items.length ≤ bound) (i : Nat) :
    (chunksOf size bound items)[i]? =
      if i * size < items.length then some ((items.drop (i * size)).take size) else none := by
  induction bound generalizing items i with
  | zero => simp [chunksOf, Nat.le_zero.mp enough]
  | succ bound ih =>
    rw [chunksOf]
    split
    case isTrue empty => simp [List.isEmpty_iff.mp empty]
    case isFalse nonempty =>
      have some : 0 < items.length := by simpa [List.length_pos_iff] using nonempty
      cases i with
      | zero => simp [some]
      | succ i =>
        have shorter : (items.drop size).length ≤ bound := by
          rw [List.length_drop]
          omega
        have further : (i + 1) * size = size + i * size := by rw [Nat.add_mul, Nat.one_mul, Nat.add_comm]
        have left : i * size < (items.drop size).length ↔ size + i * size < items.length := by
          rw [List.length_drop]
          omega
        rw [List.getElem?_cons_succ, ih shorter, List.drop_drop, further]
        simp only [left]

theorem getElem?_partition (items : List α) (parts i : Nat) :
    (partition items parts)[i]? =
      if i * (items.length ⌈/⌉ max parts 1) < items.length then
        some ((items.drop (i * (items.length ⌈/⌉ max parts 1))).take (items.length ⌈/⌉ max parts 1))
      else none := by
  cases items with
  | nil => simp [partition, chunksOf]
  | cons first rest => exact getElem?_chunksOf (ceilDiv_max_pos (by simp) parts) (Nat.le_refl _) i

/-- A list cut into at most a number of contiguous chunks of equal size, of which the last one may be smaller. -/
structure IsEvenCut (items : List α) (parts : Nat) (chunks : List (List α)) : Prop where
  whole : chunks.flatten = items
  few : chunks.length ≤ max parts 1
  nonempty : ∀ chunk ∈ chunks, chunk ≠ []
  full : ∀ chunk ∈ chunks.dropLast, chunk.length = items.length ⌈/⌉ max parts 1
  last : ∀ chunk ∈ chunks.getLast?, chunk.length ≤ items.length ⌈/⌉ max parts 1
  /-- Nothing is divided by zero, and no list is cut into chunks of size zero. -/
  divisors : 0 < max parts 1 ∧ (items ≠ [] → 0 < items.length ⌈/⌉ max parts 1)

section
variable {items chunk : List α} {parts i : Nat} (here : (partition items parts)[i]? = some chunk)
include here

private theorem mul_lt_of_getElem?_partition : i * (items.length ⌈/⌉ max parts 1) < items.length := by
  rw [getElem?_partition] at here
  by_contra outside
  rw [if_neg outside] at here
  cases here

private theorem length_of_getElem?_partition :
    chunk.length = min (items.length ⌈/⌉ max parts 1) (items.length - i * (items.length ⌈/⌉ max parts 1)) := by
  have inside := mul_lt_of_getElem?_partition here
  rw [getElem?_partition, if_pos inside] at here
  rw [← Option.some.inj here, List.length_take, List.length_drop]

end

theorem isEvenCut_partition (items : List α) (parts : Nat) : IsEvenCut items parts (partition items parts) := by
  have divisor : 0 < max parts 1 := Nat.le_max_right _ _
  refine ⟨flatten_partition items parts, ?_, ?_, ?_, ?_, divisor, fun some => ?_⟩
  · -- so many chunks of this size hold all items, and one more would begin after the last of them
    by_contra more
    have covered : items.length ≤ max parts 1 * (items.length ⌈/⌉ max parts 1) :=
      (ceilDiv_le_iff_le_mul divisor).mp (Nat.le_refl _)
    have inside := mul_lt_of_getElem?_partition (List.getElem?_eq_getElem (Nat.lt_of_not_le more))
    omega
  · intro chunk member
    obtain ⟨i, here⟩ := List.mem_iff_getElem?.mp member
    have inside := mul_lt_of_getElem?_partition here
    have some : 0 < items.length := by omega
    have size_pos := ceilDiv_max_pos some parts
    have length := length_of_getElem?_partition here
    apply List.ne_nil_of_length_pos
    omega
  · intro chunk member
    obtain ⟨i, here⟩ := List.mem_iff_getElem?.mp member
    rw [List.getElem?_dropLast] at here
    split at here
    case isFalse => cases here
    case isTrue notLast =>
      have next : (partition items parts)[i + 1]? = _ := List.getElem?_eq_getElem (Nat.add_lt_of_lt_sub notLast)
      have inside := mul_lt_of_getElem?_partition next
      have length := length_of_getElem?_partition here
      rw [Nat.add_mul, Nat.one_mul] at inside
      omega
  · intro chunk member
    obtain ⟨i, here⟩ := List.mem_iff_getElem?.mp (List.mem_of_getLast? member)
    rw [length_of_getElem?_partition here]
    exact Nat.min_le_left _ _
  · exact ceilDiv_max_pos (List.length_pos_iff.mpr some) parts

/-! ### Machines without workers -/

private theorem one_lt_length_partition {items : List α} {parts : Nat} (several : 1 < parts)
    (some : 1 < items.length) : 1 < (partition items parts).length := by
  have size : items.length ⌈/⌉ max parts 1 ≤ items.length - 1 := by
    rw [ceilDiv_le_iff_le_mul (Nat.le_max_right parts 1)]
    calc items.length ≤ 2 * (items.length - 1) := by omega
      _ ≤ max parts 1 * (items.length - 1) := Nat.mul_le_mul_right _ (le_max_of_le_left several)
  by_contra single
  have outside := List.getElem?_eq_none (Nat.le_of_not_lt single)
  rw [getElem?_partition, if_pos (by omega)] at outside
  cases outside

/-- Says why there are no workers for some files, if several were planned and none can be started. -/
def ParallelSettings.refusals (settings : ParallelSettings) (machine : Machine) (files : Nat) : List Warning :=
  if settings.workersFor machine files ≤ 1 then [] else machine.poolFailure.toList.map .noWorkers

theorem snd_distribute {β : Type} (machine : Machine) (settings : ParallelSettings) (task : List Path → β)
    (files : List Path) :
    (settings.distribute machine task files).2 = settings.refusals machine files.length := by
  simp only [ParallelSettings.distribute, runPartitioned, ParallelSettings.refusals]
  by_cases alone : settings.workersFor machine files.length ≤ 1
  · simp [alone]
  · have plan := settings.isPlan_planWorkers (settings.effectiveJobs machine) files.length
    have several : 1 < settings.workersFor machine files.length := Nat.lt_of_not_le alone
    have some : 1 < files.length := by
      have busy := plan.busy.resolve_left several.ne'
      have share := Nat.mul_le_mul (Nat.le_sub_one_of_lt several) plan.divisor
      exact Nat.lt_of_le_of_lt share busy
    have chunks := one_lt_length_partition several some
    simp only [alone, Nat.not_le_of_lt chunks, decide_false, Bool.or_self, Bool.false_eq_true, if_false]
    cases machine.poolFailure <;> rfl

namespace ParallelSettings
variable {settings : ParallelSettings} {machine : Machine}

theorem tag_of_mem_refusals {files : Nat} {warning : Warning} (refused : warning ∈ settings.refusals machine files) :
    warning.tag = "pool" := by
  unfold refusals at refused
  split at refused
  · cases refused
  · obtain ⟨reason, -, rfl⟩ := List.mem_map.mp refused
    rfl

theorem refusals_of_started (started : machine.poolFailure = none) (files : Nat) :
    settings.refusals machine files = [] := by
  rw [refusals, started]
  split <;> rfl

theorem refusals_of_alone {files : Nat} (alone : settings.workersFor machine files = 1) :
    settings.refusals machine files = [] :=
  if_pos alone.le

theorem refusals_of_several {files : Nat} (several : settings.workersFor machine files ≠ 1) {reason : String}
    (failure : machine.poolFailure = some reason) : settings.refusals machine files = [.noWorkers reason] := by
  have some := (settings.isPlan_planWorkers (settings.effectiveJobs machine) files).some
  rw [refusals, if_neg (fun few => several (Nat.le_antisymm few some)), failure]
  rfl

/-- More files may be refused where fewer are worked on by themselves, but not the other way round. -/
theorem refusals_of_le {files others : Nat} (fewer : files ≤ others)
    (alike : settings.workersFor machine files = 1 → settings.workersFor machine others = 1) :
    settings.refusals machine others = settings.refusals machine files := by
  have more : settings.workersFor machine files ≤ settings.workersFor machine others :=
    settings.planWorkers_mono (settings.effectiveJobs machine) fewer
  have some := (settings.isPlan_planWorkers (settings.effectiveJobs machine) files).some
  by_cases alone : settings.workersFor machine files = 1
  · rw [refusals_of_alone alone, refusals_of_alone (alike alone)]
  · have several : 1 < settings.workersFor machine files := Nat.lt_of_le_of_ne some (Ne.symm alone)
    rw [refusals, refusals, if_neg (Nat.not_le_of_lt several), if_neg (Nat.not_le_of_lt (several.trans_le more))]

end ParallelSettings

/-- The workers that are planned for a list are asked for and have something to do, and the list is cut into chunks of
equal size that are no more than there should be. -/
theorem planWorkers_and_partition (settings : ParallelSettings) (requested parts : Nat) (items : List α) :
    settings.IsPlan requested items.length (settings.planWorkers requested items.length) ∧
      IsEvenCut items parts (partition items parts) :=
  ⟨settings.isPlan_planWorkers requested items.length, isEvenCut_partition items parts⟩

-- Five items make no four chunks of equal size, and two make no eight.
example : partition [1, 2, 3, 4, 5] 4 = [[1, 2], [3, 4], [5]] ∧ partition [1, 2] 8 = [[1], [2]] := by decide

end DeadCode
