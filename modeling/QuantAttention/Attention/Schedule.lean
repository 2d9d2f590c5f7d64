import QuantAttention.Operator.Dims

/-!
Schedules of a call. A call has two phases. In the first, every batch and head has a task that
packs its keys and values; in the second, every batch and block of sixteen queries has a task that
attends. Within a phase the tasks may run on any workers in any order; a schedule fixes one.
-/

namespace QuantAttention

/-- Queries of one task. -/
def blockRows : Nat := 16

/-- The packing of the keys and values of one head. -/
structure HeadTask where
  batch : Nat
  head : Nat
  deriving DecidableEq, Repr

/-- Attention for up to sixteen consecutive queries of one batch. -/
structure RowTask where
  batch : Nat
  block : Nat
  deriving DecidableEq, Repr

/-- A task with the worker that runs it. -/
structure Assigned (task : Type) where
  worker : Nat
  task : task
  deriving DecidableEq, Repr

/-- The tasks of both phases, in the order in which they run. -/
structure Schedule where
  heads : List (Assigned HeadTask)
  rows : List (Assigned RowTask)
  deriving DecidableEq, Repr

namespace Schedule

/-- Every task of the first phase, batch by batch. -/
def headTasks (d : Dims) : List HeadTask :=
  (List.range d.batchSize).flatMap fun batch =>
    (List.range d.headNum).map fun head => { batch, head }

def blockCount (d : Dims) : Nat := (d.seqQ + blockRows - 1) / blockRows

def rowTasks (d : Dims) : List RowTask :=
  (List.range d.batchSize).flatMap fun batch =>
    (List.range (blockCount d)).map fun block => { batch, block }

theorem mem_headTasks {d : Dims} {task : HeadTask} :
    task ∈ headTasks d ↔ task.batch < d.batchSize ∧ task.head < d.headNum := by
  simp only [headTasks, List.mem_flatMap, List.mem_map, List.mem_range]
  constructor
  · rintro ⟨batch, hBatch, head, hHead, rfl⟩
    exact ⟨hBatch, hHead⟩
  · rintro ⟨hBatch, hHead⟩
    exact ⟨task.batch, hBatch, task.head, hHead, rfl⟩

theorem mem_rowTasks {d : Dims} {task : RowTask} :
    task ∈ rowTasks d ↔ task.batch < d.batchSize ∧ task.block < blockCount d := by
  simp only [rowTasks, List.mem_flatMap, List.mem_map, List.mem_range]
  constructor
  · rintro ⟨batch, hBatch, block, hBlock, rfl⟩
    exact ⟨hBatch, hBlock⟩
  · rintro ⟨hBatch, hBlock⟩
    exact ⟨task.batch, hBatch, task.block, hBlock, rfl⟩

/-- All tasks on the first worker, batch by batch. -/
def inOrder (d : Dims) : Schedule :=
  { heads := (headTasks d).map fun task => { worker := 0, task }
    rows := (rowTasks d).map fun task => { worker := 0, task } }

/-- Every task is run once, by a worker that exists. -/
structure Valid (s : Schedule) (d : Dims) (threads : Nat) : Prop where
  heads_perm : (s.heads.map (·.task)).Perm (headTasks d)
  rows_perm : (s.rows.map (·.task)).Perm (rowTasks d)
  heads_worker : ∀ a ∈ s.heads, a.worker < threads
  rows_worker : ∀ a ∈ s.rows, a.worker < threads

theorem valid_inOrder (d : Dims) {threads : Nat} (h : 0 < threads) :
    (inOrder d).Valid d threads where
  heads_perm := by simp [inOrder, List.map_map, Function.comp_def]
  rows_perm := by simp [inOrder, List.map_map, Function.comp_def]
  heads_worker := by
    intro a ha
    obtain ⟨task, -, rfl⟩ := List.mem_map.1 ha
    exact h
  rows_worker := by
    intro a ha
    obtain ⟨task, -, rfl⟩ := List.mem_map.1 ha
    exact h

end Schedule

end QuantAttention
