import DeadCode.Proofs.Chunks
import Mathlib.Logic.Relation

/-!
A pool of workers that report over a channel. The workers take up chunks in any order, several at a time, and their
reports come in in any order. Whatever happened, the outcomes are those of working on the chunks one after another, and
a task that breaks off shows in the outcome of its own chunk only.
-/
namespace DeadCode
variable {α β : Type}

/-- The pool at some moment. A chunk goes with its number. -/
structure Pool (α β : Type) where
  /-- The chunks that no worker has taken up. -/
  waiting : List (List α × Nat)
  running : List (List α × Nat)
  /-- The reports that were sent and have not come in. -/
  inFlight : List (Nat × Outcome β)
  /-- The reports that have come in, in that order. -/
  arrived : List (Nat × Outcome β)

namespace Pool

def start (chunks : List (List α)) : Pool α β := ⟨chunks.zipIdx, [], [], []⟩

def report (task : Nat → List α → Outcome β) (job : List α × Nat) : Nat × Outcome β := (job.2, task job.2 job.1)

/-- What can happen next: an idle worker takes up any chunk that waits, any worker is done and reports, or any report
comes in. -/
inductive Step (workers : Nat) (task : Nat → List α → Outcome β) : Pool α β → Pool α β → Prop where
  | takeUp (before after : List (List α × Nat)) (job : List α × Nat) {running : List (List α × Nat)}
      {inFlight arrived : List (Nat × Outcome β)} (idle : running.length < workers) :
      Step workers task ⟨before ++ job :: after, running, inFlight, arrived⟩
        ⟨before ++ after, job :: running, inFlight, arrived⟩
  | send (before after : List (List α × Nat)) (job : List α × Nat) {waiting : List (List α × Nat)}
      {inFlight arrived : List (Nat × Outcome β)} :
      Step workers task ⟨waiting, before ++ job :: after, inFlight, arrived⟩
        ⟨waiting, before ++ after, report task job :: inFlight, arrived⟩
  | receive (before after : List (Nat × Outcome β)) (message : Nat × Outcome β)
      {waiting running : List (List α × Nat)} {arrived : List (Nat × Outcome β)} :
      Step workers task ⟨waiting, running, before ++ message :: after, arrived⟩
        ⟨waiting, running, before ++ after, arrived ++ [message]⟩

/-- The pool runs from its start until nothing is left to do, and these reports have come in. -/
def Delivers (workers : Nat) (task : Nat → List α → Outcome β) (chunks : List (List α))
    (arrived : List (Nat × Outcome β)) : Prop :=
  Relation.ReflTransGen (Step workers task) (start chunks) ⟨[], [], [], arrived⟩

variable {workers : Nat} {task : Nat → List α → Outcome β} {chunks : List (List α)}

def due (task : Nat → List α → Outcome β) (pool : Pool α β) : List (Nat × Outcome β) :=
  pool.arrived ++ (pool.inFlight ++ (pool.running ++ pool.waiting).map (report task))

private theorem perm_moved {γ : Type} (x : γ) (left right front back : List γ) (same : left ++ right = front ++ back) :
    (left ++ x :: right).Perm (front ++ x :: back) :=
  List.perm_middle.trans (same ▸ List.perm_middle.symm)

/-- A step loses no report and makes up none. -/
theorem Step.perm_due {a b : Pool α β} (step : Step workers task a b) : (a.due task).Perm (b.due task) := by
  -- A report moves towards the front of the list, past what has not come as far.
  cases step with
  | @takeUp before after job running inFlight arrived =>
    have moved := perm_moved (report task job) (arrived ++ (inFlight ++ (running ++ before).map (report task)))
      (after.map (report task)) (arrived ++ inFlight) ((running ++ (before ++ after)).map (report task)) (by simp)
    simpa [due] using moved
  | @send before after job waiting inFlight arrived =>
    have moved := perm_moved (report task job) (arrived ++ (inFlight ++ before.map (report task)))
      ((after ++ waiting).map (report task)) arrived
      (inFlight ++ (before ++ (after ++ waiting)).map (report task)) (by simp)
    simpa [due] using moved
  | @receive before after message waiting running arrived =>
    have moved := perm_moved message (arrived ++ before) (after ++ (running ++ waiting).map (report task)) arrived
      (before ++ (after ++ (running ++ waiting).map (report task))) (by simp)
    simpa [due] using moved

theorem perm_due_of_run {a b : Pool α β} (run : Relation.ReflTransGen (Step workers task) a b) :
    (a.due task).Perm (b.due task) := by
  induction run with
  | refl => exact .refl _
  | tail _ step ih => exact ih.trans step.perm_due

/-- One worker is enough to get everything sent. -/
private theorem run_send (positive : 0 < workers) (waiting : List (List α × Nat)) (inFlight : List (Nat × Outcome β)) :
    Relation.ReflTransGen (Step workers task) ⟨waiting, [], inFlight, []⟩
      ⟨[], [], (waiting.map (report task)).reverse ++ inFlight, []⟩ := by
  induction waiting generalizing inFlight with
  | nil => exact .refl
  | cons job waiting ih =>
    rw [List.map_cons, List.reverse_cons, List.append_assoc]
    refine .head (.takeUp [] waiting job positive) (.head (.send [] [] job) ?_)
    exact ih (report task job :: inFlight)

/-- What is in flight can come in in any order. -/
private theorem run_receive {inFlight order : List (Nat × Outcome β)} (permuted : order.Perm inFlight)
    (arrived : List (Nat × Outcome β)) :
    Relation.ReflTransGen (Step workers task) ⟨[], [], inFlight, arrived⟩ ⟨[], [], [], arrived ++ order⟩ := by
  induction order generalizing inFlight arrived with
  | nil =>
    obtain rfl := permuted.nil_eq
    rw [List.append_nil]
  | cons message order ih =>
    obtain ⟨before, after, rfl⟩ := List.append_of_mem (permuted.mem_iff.mp List.mem_cons_self)
    refine .head (.receive before after message) ?_
    have rest := ih (permuted.trans List.perm_middle).cons_inv (arrived ++ [message])
    rwa [List.append_assoc, List.singleton_append] at rest

/-- The reports come in each once, and any order of them can happen. -/
theorem delivers_iff_perm (positive : 0 < workers) {arrived : List (Nat × Outcome β)} :
    Delivers workers task chunks arrived ↔ arrived.Perm (messages task chunks) := by
  constructor
  · intro run
    have kept := perm_due_of_run run
    simp only [due, start, List.nil_append, List.map_nil, List.append_nil] at kept
    exact kept.symm
  · intro permuted
    refine (run_send positive chunks.zipIdx []).trans ?_
    refine run_receive ?_ []
    rw [List.append_nil]
    exact permuted.trans (List.reverse_perm _).symm

end Pool

/-- Where the reports come in in an order that the pool can bring about, the outcomes are those of working on the chunks
one after another. -/
private theorem outcomes_of_delivers {machine : Machine} {workers : Nat}
    {arrival : List (Nat × Outcome β) → List (Nat × Outcome β)} {task : Nat → List α → Outcome β}
    {chunks : List (List α)}
    (delivered : 1 < workers → Pool.Delivers workers task chunks (arrival (messages task chunks))) :
    (runPartitioned machine arrival workers task chunks).1 = runInOrder task chunks := by
  rw [runPartitioned]
  split
  case isTrue => rfl
  case isFalse many =>
    have several : 1 < workers := by
      simp only [Bool.or_eq_true, decide_eq_true_eq] at many
      omega
    cases machine.poolFailure with
    | some reason => rfl
    | none => exact inChunkOrder_of_perm ((Pool.delivers_iff_perm (Nat.zero_lt_of_lt several)).mp (delivered several))

private theorem getElem?_runInOrder (task : Nat → List α → Outcome β) (chunks : List (List α)) (index : Nat) :
    (runInOrder task chunks)[index]? = chunks[index]?.map (task index) := by
  simp [runInOrder, List.getElem?_map, List.getElem?_zipIdx, Function.comp_def]

/-- Whatever the order in which the pool's reports come in, the outcomes are those of working on the chunks one after
another: one for each chunk, in their order, the value of the task where it gives one and its message where it breaks
off. -/
theorem runPartitioned_of_delivers {machine : Machine} {workers : Nat}
    {arrival : List (Nat × Outcome β) → List (Nat × Outcome β)} {task : Nat → List α → Except Panic β}
    {chunks : List (List α)}
    (delivered : 1 < workers → Pool.Delivers workers (guarded task) chunks (arrival (messages (guarded task) chunks))) :
    let outcomes := (runPartitioned machine arrival workers (guarded task) chunks).1
    outcomes = runInOrder (guarded task) chunks ∧ outcomes.length = chunks.length ∧
      ∀ index chunk, chunks[index]? = some chunk →
        (∀ value, task index chunk = .ok value → outcomes[index]? = some (.ok value)) ∧
        ∀ panic, task index chunk = .error panic → outcomes[index]? = some (.error panic.message) := by
  intro outcomes
  have whole : outcomes = runInOrder (guarded task) chunks := outcomes_of_delivers delivered
  refine ⟨whole, by simp [whole, runInOrder], fun index chunk here => ?_⟩
  rw [whole, getElem?_runInOrder, here]
  constructor
  · intro value returned
    simp [guarded, returned, Except.mapError]
  · intro panic broken
    simp [guarded, broken, Except.mapError]

/-- Adds up a chunk, and breaks off where a number is negative. -/
private def sumNonneg (_ : Nat) (chunk : List Int) : Except Panic Int :=
  if chunk.any (· < 0) then .error (.text "negative") else .ok (chunk.foldl (· + ·) 0)

/-- Two workers on three chunks, the second of which breaks off, with the last report first. -/
theorem runPartitioned_of_delivers_reversed :
    Pool.Delivers 2 (guarded sumNonneg) [[1, 2], [3, -4], [5]]
        (messages (guarded sumNonneg) [[1, 2], [3, -4], [5]]).reverse ∧
      (runPartitioned ⟨2, none⟩ List.reverse 2 (guarded sumNonneg) [[1, 2], [3, -4], [5]]).1 =
        [.ok 3, .error "negative", .ok 5] := by
  have delivered : Pool.Delivers 2 (guarded sumNonneg) [[1, 2], [3, -4], [5]]
      (messages (guarded sumNonneg) [[1, 2], [3, -4], [5]]).reverse :=
    (Pool.delivers_iff_perm (by decide)).mpr (List.reverse_perm _)
  exact ⟨delivered, (runPartitioned_of_delivers fun _ => delivered).1.trans rfl⟩

end DeadCode
