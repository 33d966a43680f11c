import LayeredStore.Error

/-!
# The background worker

One worker runs the tasks of a store, one at a time and in the order in which they were
submitted. A `Worker` is its mailbox and its record: the jobs that wait, the results of those
that ran, and the oldest failure that nobody has asked for yet. Submitting a task gives a
`Ticket`, under which its result can be looked up.

When the worker gets to the next job is not decided here. `Worker.step` runs one job on the state
that the tasks share, and `Worker.drain` runs all that wait.
-/

namespace LayeredStore

/-- The report of a failed task. -/
structure Failure where
  task : String
  message : String
deriving DecidableEq, Repr

/-- A failure as an error. -/
def Failure.toError (f : Failure) : StoreError := .background f.task f.message

/-- A claim to the result of a task. -/
structure Ticket where
  task : String
  /-- The tasks of a worker are counted from one. -/
  runId : Nat
deriving DecidableEq, Repr

/-- A task that waits, with the ticket that was given out for it. -/
structure Job (τ : Type) where
  ticket : Ticket
  work : τ

/-- How a task ends. -/
inductive Outcome where
  | finished (result : Except StoreError Unit)
  /-- The task takes the worker down with it. -/
  | crashed

/-- A worker for tasks of type `τ`. -/
structure Worker (τ : Type) where
  /-- The jobs that wait, oldest first. -/
  queue : List (Job τ) := []
  /-- The number of tickets drawn. -/
  issued : Nat := 0
  /-- Whether the mailbox takes jobs. -/
  accepting : Bool := true
  /-- Whether a task took the worker down. -/
  crashed : Bool := false
  /-- Whether the end of the worker was waited for. -/
  joined : Bool := false
  /-- The oldest failure that was not reported. -/
  failure : Option Failure := none
  /-- The results of the tasks that ran, newest first. -/
  results : List (Nat × Except StoreError Unit) := []

namespace Worker

variable {τ σ : Type}

/-- A worker that has nothing to do. -/
def start : Worker τ := {}

/-- Puts a task behind all that wait. A worker that is gone refuses it, and the ticket that was
drawn for it is lost. -/
def submit (w : Worker τ) (task : String) (work : τ) : Except StoreError Ticket × Worker τ :=
  if !w.accepting then (.error .closed, w)
  else
    let ticket : Ticket := ⟨task, w.issued + 1⟩
    let w := { w with issued := w.issued + 1 }
    if w.crashed then (.error .closed, w)
    else (.ok ticket, { w with queue := w.queue ++ [⟨ticket, work⟩] })

/-- The record with the end of a job added. -/
def record (w : Worker τ) (ticket : Ticket) : Outcome → Worker τ
  | .crashed => { w with queue := [], crashed := true }
  | .finished result =>
    let failure := match result with
      | .ok () => w.failure
      | .error e => some (w.failure.getD ⟨ticket.task, e.message⟩)
    { w with failure, results := (ticket.runId, result) :: w.results }

/-- Runs the job that has waited longest. -/
def step (execute : Ticket → τ → σ → Outcome × σ) (w : Worker τ) (s : σ) : Worker τ × σ :=
  match w.queue with
  | [] => (w, s)
  | job :: queue =>
    let (outcome, s) := execute job.ticket job.work s
    (({ w with queue }).record job.ticket outcome, s)

theorem length_queue_step {execute : Ticket → τ → σ → Outcome × σ} {w : Worker τ} {s : σ}
    {job : Job τ} {queue : List (Job τ)} (h : w.queue = job :: queue) :
    (w.step execute s).1.queue.length < w.queue.length := by
  simp only [step, h]
  cases (execute job.ticket job.work s).1 <;> simp [record]

/-- Runs all jobs that wait. -/
def drain (execute : Ticket → τ → σ → Outcome × σ) (w : Worker τ) (s : σ) : Worker τ × σ :=
  match _h : w.queue with
  | [] => (w, s)
  | _ :: _ =>
    let next := w.step execute s
    drain execute next.1 next.2
termination_by w.queue.length
decreasing_by exact length_queue_step _h

/-- The result of a task that is not waiting any more. -/
def result (w : Worker τ) (ticket : Ticket) : Except StoreError Unit :=
  (w.results.lookup ticket.runId).getD (.error (.abandoned ticket.task))

/-- The oldest failure that was not reported, which is thereby reported. -/
def takeFailure (w : Worker τ) : Option Failure × Worker τ :=
  (w.failure, { w with failure := none })

/-- Takes no more jobs. Those that wait still run. -/
def stopAccepting (w : Worker τ) : Worker τ := { w with accepting := false }

/-- Sees a worker off whose jobs have all run. The first one to do so learns of a crash. -/
def join (w : Worker τ) : Except StoreError Unit × Worker τ :=
  (if w.crashed && !w.joined then .error (.invalidState "Background worker panicked") else .ok (),
    { w with joined := true })

/-- Takes no more jobs, runs all that wait and sees the worker off. -/
def shutdown (execute : Ticket → τ → σ → Outcome × σ) (w : Worker τ) (s : σ) :
    Except StoreError Unit × Worker τ × σ :=
  let (w, s) := w.stopAccepting.drain execute s
  let (outcome, w) := w.join
  (outcome, w, s)

end Worker

end LayeredStore
