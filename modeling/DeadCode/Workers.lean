import DeadCode.Settings.Basic

/-!
Dividing work among workers. A list is cut into contiguous chunks, each chunk is worked on by itself,
and the outcomes are put back into the order of the chunks. A chunk that fails leaves the others
alone.
-/
namespace DeadCode

structure Machine where
  cores : Nat
  /-- Why no workers can be started, if that is so. -/
  poolFailure : Option String
deriving DecidableEq, Repr

namespace ParallelSettings

/-- The workers asked for, at least one and no more than there are cores. -/
def effectiveJobs (settings : ParallelSettings) (machine : Machine) : Nat :=
  let cores := max machine.cores 1
  min (max (settings.jobs.getD cores) 1) cores

def planWorkers (settings : ParallelSettings) (requested files : Nat) : Nat :=
  if files = 0 || files < settings.sequentialThreshold then 1
  else
    let share := max settings.minFilesPerWorker 1
    min (max requested 1) ((files + share - 1) / share)

end ParallelSettings

/-- Chunks of a given size, the last one possibly smaller, at most a given number. -/
def chunksOf {α : Type} (size : Nat) : Nat → List α → List (List α)
  | 0, _ => []
  | bound + 1, items =>
    if items.isEmpty then [] else items.take size :: chunksOf size bound (items.drop size)

/-- Cuts a list into at most a given number of contiguous chunks of equal size, the last one possibly
smaller. -/
def partition {α : Type} (items : List α) (parts : Nat) : List (List α) :=
  let parts := max parts 1
  chunksOf ((items.length + parts - 1) / parts) items.length items

/-- What became of a chunk: a value, or the message it failed with. -/
abbrev Outcome (β : Type) := Except String β

/-- What a task breaks off with: a text, or something without one. -/
inductive Panic where
  | text (message : String)
  | other
deriving DecidableEq, Repr

def Panic.message : Panic → String
  | text message => message
  | other => "worker panicked"

/-- A task that may break off, made into one that then gives a message as its outcome. -/
def guarded {α β : Type} (task : Nat → List α → Except Panic β) (index : Nat) (chunk : List α) : Outcome β :=
  (task index chunk).mapError Panic.message

def runInOrder {α β : Type} (task : Nat → List α → Outcome β) (chunks : List (List α)) :
    List (Outcome β) :=
  chunks.zipIdx.map fun (chunk, index) => task index chunk

/-- The outcomes of the chunks, each with the number of its chunk. -/
def messages {α β : Type} (task : Nat → List α → Outcome β) (chunks : List (List α)) :
    List (Nat × Outcome β) :=
  chunks.zipIdx.map fun (chunk, index) => (index, task index chunk)

/-- Puts outcomes into the order of their chunks. -/
def inChunkOrder {β : Type} (arrived : List (Nat × Outcome β)) : List (Outcome β) :=
  (arrived.mergeSort fun a b => a.1 ≤ b.1).map (·.2)

/-- Works on the chunks with several workers. The outcomes come in in any order, which `arrival`
stands for. Where workers cannot be started the chunks are worked on one after another, and the reason
is given. -/
def runPartitioned {α β : Type} (machine : Machine)
    (arrival : List (Nat × Outcome β) → List (Nat × Outcome β)) (workers : Nat)
    (task : Nat → List α → Outcome β) (chunks : List (List α)) :
    List (Outcome β) × Option String :=
  if workers ≤ 1 || chunks.length ≤ 1 then (runInOrder task chunks, none)
  else
    match machine.poolFailure with
    | some reason => (runInOrder task chunks, some reason)
    | none => (inChunkOrder (arrival (messages task chunks)), none)

end DeadCode
