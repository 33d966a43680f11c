import Mathlib.Data.List.Basic
import LayeredStore.Worker

/-!
# The mailbox of the worker

The worker is a thread of its own. It takes a job, runs it, notes its failure and only then
answers the one who holds the ticket, and between any two of these moves other threads hand in
tasks, ask for failures or wait for the worker's end. An `Exchange` is a worker in the middle of
this, with what went into the mailbox and what came of it. Its moves are the functions of the
worker; in a row they are `Worker.step` (`moves_eq_step`).

* `sound_run` : after any moves of the clients and of the thread, in any order, the tasks that
  ended, the one in hand and those that wait are those that were accepted, in that order.
-/

namespace LayeredStore

variable {τ σ : Type}

/-! ## Two parts of the record -/

namespace Worker

/-- The record with the failure of a job added, unless there is an older one. -/
def note (w : Worker τ) (ticket : Ticket) : Except StoreError Unit → Worker τ
  | .ok () => w
  | .error e => { w with failure := some (w.failure.getD ⟨ticket.task, e.message⟩) }

/-- The record with the result of a job added. -/
def answer (w : Worker τ) (ticket : Ticket) (result : Except StoreError Unit) : Worker τ :=
  { w with results := (ticket.runId, result) :: w.results }

theorem record_finished (w : Worker τ) (ticket : Ticket) (result : Except StoreError Unit) :
    w.record ticket (.finished result) = (w.note ticket result).answer ticket result := by
  cases result with
  | ok => rfl
  | error e => rfl

variable (w : Worker τ) (ticket : Ticket) (result : Except StoreError Unit)

/-- A failure that is noted changes nothing but the slot. -/
theorem note_eq : w.note ticket result = { w with failure := (w.note ticket result).failure } := by
  cases result with
  | ok => rfl
  | error e => rfl

theorem result_answer (other : Ticket) : (w.answer ticket result).result other =
    if other.runId = ticket.runId then result else w.result other := by
  rw [Worker.result, answer, List.lookup_cons]
  by_cases hsame : other.runId = ticket.runId
  · have hkey : (other.runId == ticket.runId) = true := beq_iff_eq.mpr hsame
    simp only [if_pos hsame, hkey, Option.getD_some]
  · have hkey : (other.runId == ticket.runId) = false := beq_eq_false_iff_ne.mpr hsame
    simp only [if_neg hsame, hkey]
    rfl

/-- A task that is refused may still have drawn a number. -/
theorem submit_of_refused (task : String) (work : τ)
    (hrefused : w.accepting = false ∨ w.crashed = true) : ∃ issued,
      w.submit task work = (.error .closed, { w with issued }) ∧
        (w.crashed = false → issued = w.issued) := by
  by_cases haccepting : w.accepting = true
  · have hdown : w.crashed = true := hrefused.resolve_left (by simp [haccepting])
    exact ⟨w.issued + 1, by simp [submit, haccepting, hdown], by simp [hdown]⟩
  · exact ⟨w.issued, by rw [submit, if_pos (by simp [haccepting])], fun _ => rfl⟩

/-- A task is taken, or it is refused. -/
theorem submit_cases (task : String) (work : τ) :
    (w.accepting = true ∧ w.crashed = false ∧ w.submit task work =
      (.ok ⟨task, w.issued + 1⟩, { w with
        issued := w.issued + 1
        queue := w.queue ++ [⟨⟨task, w.issued + 1⟩, work⟩] })) ∨
    ∃ issued, w.submit task work = (.error .closed, { w with issued }) ∧
      (w.crashed = false → issued = w.issued) := by
  by_cases hrefused : w.accepting = false ∨ w.crashed = true
  · exact .inr (w.submit_of_refused task work hrefused)
  · have htaken : w.accepting = true ∧ w.crashed = false := by simpa using hrefused
    refine .inl ⟨htaken.1, htaken.2, ?_⟩
    simp [submit, htaken.1, htaken.2]

/-- What the first one learns who sees the worker off. -/
def parting (w : Worker τ) : Except StoreError Unit :=
  if w.crashed then .error (.invalidState "Background worker panicked") else .ok ()

theorem join_eq : w.join =
    (if w.joined then .ok () else w.parting, { w with joined := true }) := by
  rw [join, parting]
  cases w.crashed <;> cases w.joined <;> rfl

end Worker

namespace Outcome

/-- What the ticket of a job is good for that ended in some way. -/
def answer (ticket : Ticket) : Outcome → Except StoreError Unit
  | finished result => result
  | crashed => .error (.abandoned ticket.task)

/-- The failure that the end of a job is. -/
def failure? (ticket : Ticket) : Outcome → Option Failure
  | finished (.error e) => some ⟨ticket.task, e.message⟩
  | finished (.ok ()) | crashed => none

end Outcome

/-! ## The moves -/

/-- What the thread of a worker is about. -/
inductive Exchange.Stage (τ : Type) where
  | idle
  /-- It has taken a job. -/
  | busy (job : Job τ)
  /-- It has run the job and noted its failure. -/
  | answering (job : Job τ) (result : Except StoreError Unit)
  /-- The job takes it down. -/
  | dying (job : Job τ)
  | gone

namespace Exchange.Stage

/-- The job whose end is still to come. -/
def job? : Stage τ → Option (Job τ)
  | busy job | answering job _ => some job
  | idle | dying _ | gone => none

/-- The job that ran and was not answered, with its end. -/
def ran? : Stage τ → Option (Job τ × Outcome)
  | answering job result => some (job, .finished result)
  | idle | busy _ | dying _ | gone => none

/-- The number of moves that were made for the job in hand. -/
def moves : Stage τ → Nat
  | busy _ => 1
  | answering _ _ => 2
  | idle | dying _ | gone => 0

end Exchange.Stage

/-- A worker, the state that its tasks share with the clients, and what has passed between them. -/
structure Exchange (τ σ : Type) where
  worker : Worker τ
  shared : σ
  stage : Exchange.Stage τ := .idle
  /-- Whether a client waits for the end of the worker. -/
  leaving : Bool := false
  /-- The jobs that the mailbox took, oldest first. -/
  accepted : List (Job τ) := []
  /-- The jobs that were answered, and one that took the worker down, oldest first. -/
  ended : List (Job τ × Outcome) := []
  /-- The failures since the last report, oldest first. -/
  unheard : List Failure := []
  /-- The answers to those who asked for failures, oldest first, each with the failures that there
  had been since the answer before. -/
  reports : List (List Failure × Option Failure) := []
  /-- The number of clients that did not have to wait because another one did. -/
  excused : Nat := 0
  /-- The answers to those who shut the worker down, oldest first. -/
  dismissals : List (Except StoreError Unit) := []

/-- What can happen next. -/
inductive Exchange.Move (τ σ : Type) where
  | submit (task : String) (work : τ)
  | takeFailure
  /-- A client takes the mailbox away. The first one begins to wait for the end of the worker, all
  others are let go at once. -/
  | shutdown
  /-- The client that waits looks whether the thread is gone. -/
  | join
  /-- A client changes what it shares with the tasks. -/
  | meanwhile (change : σ → σ)
  /-- The thread makes its next move. -/
  | work

namespace Exchange

variable {execute : Ticket → τ → σ → Outcome × σ} {x : Exchange τ σ}

/-- A worker that has nothing to do. -/
def start (shared : σ) : Exchange τ σ := { worker := .start, shared }

/-- The next move of the thread. It is gone once the mailbox was taken away and no job waits. -/
def work (execute : Ticket → τ → σ → Outcome × σ) (x : Exchange τ σ) : Exchange τ σ :=
  match x.stage with
  | .idle =>
    match x.worker.queue with
    | job :: queue => { x with worker := { x.worker with queue }, stage := .busy job }
    | [] => if x.worker.accepting then x else { x with stage := .gone }
  | .busy job =>
    match execute job.ticket job.work x.shared with
    | (.finished result, shared) =>
      { x with
        worker := x.worker.note job.ticket result
        shared
        stage := .answering job result
        unheard := x.unheard ++ (Outcome.failure? job.ticket (.finished result)).toList }
    | (.crashed, shared) =>
      { x with shared, stage := .dying job, ended := x.ended ++ [(job, .crashed)] }
  | .answering job result =>
    { x with
      worker := x.worker.answer job.ticket result
      stage := .idle
      ended := x.ended ++ [(job, .finished result)] }
  | .dying job => { x with worker := x.worker.record job.ticket .crashed, stage := .gone }
  | .gone => x

/-- What a move leads to. -/
def step (execute : Ticket → τ → σ → Outcome × σ) (x : Exchange τ σ) : Move τ σ → Exchange τ σ
  | .submit task work =>
    match x.worker.submit task work with
    | (.ok ticket, worker) => { x with worker, accepted := x.accepted ++ [⟨ticket, work⟩] }
    | (.error _, worker) => { x with worker }
  | .takeFailure =>
    let (failure, worker) := x.worker.takeFailure
    { x with worker, unheard := [], reports := x.reports ++ [(x.unheard, failure)] }
  | .shutdown =>
    { x with
      worker := x.worker.stopAccepting
      leaving := !x.worker.joined
      excused := if x.leaving then x.excused + 1 else x.excused
      dismissals := if x.leaving || x.worker.joined then x.dismissals ++ [.ok ()] else x.dismissals }
  | .join =>
    match x.stage, x.leaving with
    | .gone, true =>
      let (outcome, worker) := x.worker.join
      { x with worker, leaving := false, dismissals := x.dismissals ++ [outcome] }
    | _, _ => x
  | .meanwhile change => { x with shared := change x.shared }
  | .work => x.work execute

/-- What some moves lead to. -/
def run (execute : Ticket → τ → σ → Outcome × σ) (x : Exchange τ σ) (moves : List (Move τ σ)) :
    Exchange τ σ := moves.foldl (step execute) x

/-- The jobs that ran, in the order in which they did, each with its end. -/
def executed (x : Exchange τ σ) : List (Job τ × Outcome) := x.ended ++ x.stage.ran?.toList

/-- The jobs whose end is still to come, the one in hand first. -/
def waiting (x : Exchange τ σ) : List (Job τ) := x.stage.job?.toList ++ x.worker.queue

theorem run_append (x : Exchange τ σ) (moves more : List (Move τ σ)) :
    x.run execute (moves ++ more) = (x.run execute moves).run execute more :=
  List.foldl_append

/-- Three moves of the thread for a job that does not take it down. -/
theorem moves_of_finished {job : Job τ} {queue : List (Job τ)} {result : Except StoreError Unit}
    {shared : σ} (hidle : x.stage = .idle) (hqueue : x.worker.queue = job :: queue)
    (hexecute : execute job.ticket job.work x.shared = (.finished result, shared)) :
    x.run execute [.work, .work, .work] = { x with
      worker := ({ x.worker with queue }).record job.ticket (.finished result)
      shared
      stage := .idle
      ended := x.ended ++ [(job, .finished result)]
      unheard := x.unheard ++ (Outcome.failure? job.ticket (.finished result)).toList } := by
  simp only [run, List.foldl_cons, List.foldl_nil, step, work, hidle, hqueue, hexecute,
    Worker.record_finished]

/-- With nobody looking on, three moves of the thread are a step of the worker. -/
theorem moves_eq_step {job : Job τ} {queue : List (Job τ)} (hidle : x.stage = .idle)
    (hqueue : x.worker.queue = job :: queue) :
    ((x.run execute [.work, .work, .work]).worker, (x.run execute [.work, .work, .work]).shared) =
      x.worker.step execute x.shared := by
  cases hexecute : execute job.ticket job.work x.shared with
  | mk outcome shared =>
    cases outcome with
    | finished result =>
      rw [moves_of_finished hidle hqueue hexecute, Worker.step, hqueue]
      simp only [hexecute]
    | crashed =>
      simp only [run, List.foldl_cons, List.foldl_nil, step, work, hidle, hqueue, hexecute,
        Worker.step]

/-- A worker without jobs is shut down: the thread goes, and whoever waits for that is let go. -/
theorem moves_of_shutdown (hstage : x.stage = .idle ∨ x.stage = .gone)
    (hqueue : x.worker.queue = []) : ∃ leaving excused dismissals,
    x.run execute [.shutdown, .work, .join] = { x with
      worker := x.worker.stopAccepting.join.2
      stage := .gone
      leaving
      excused
      dismissals } := by
  have hgone : x.run execute [.shutdown, .work] =
      { x.step execute .shutdown with stage := .gone } := by
    rcases hstage with hidle | hgone
    · simp only [run, List.foldl_cons, List.foldl_nil, step, work, hidle, hqueue,
        Worker.stopAccepting, Bool.false_eq_true, if_false]
    · simp only [run, List.foldl_cons, List.foldl_nil, step, work, hgone]
  rw [show [Move.shutdown, .work, .join] = [Move.shutdown, .work] ++ [.join] from rfl, run_append,
    hgone, run, List.foldl_cons, List.foldl_nil, step, step]
  cases hjoined : x.worker.joined with
  | false => exact ⟨_, _, _, rfl⟩
  | true =>
    have hsame : x.worker.stopAccepting = x.worker.stopAccepting.join.2 := by
      rw [Worker.join_eq, Worker.stopAccepting, hjoined]
    exact ⟨_, _, _, by rw [← hsame]; rfl⟩

/-! ## What the moves keep -/

/-- What the mailbox took and what became of it fit together. -/
structure Sound (execute : Ticket → τ → σ → Outcome × σ) (x : Exchange τ σ) : Prop where
  counted : x.accepted.map (·.ticket.runId) = List.range' 1 x.accepted.length
  issued : x.worker.crashed = false → x.worker.issued = x.accepted.length
  /-- Jobs are lost behind one that took the worker down, and only there. -/
  order : ∃ lost, x.accepted = x.ended.map Prod.fst ++ x.waiting ++ lost ∧
    (x.worker.crashed = false → lost = [])
  ran : ∀ r ∈ x.executed, ∃ s, (execute r.1.ticket r.1.work s).1 = r.2
  own : ∀ r ∈ x.ended, x.worker.result r.1.ticket = r.2.answer r.1.ticket
  unanswered : ∀ ticket : Ticket, x.ended.length < ticket.runId →
    x.worker.result ticket = .error (.abandoned ticket.task)
  left : x.stage = .gone → x.worker.queue = [] ∧
    (x.worker.crashed = false → x.worker.accepting = false)
  fallen : x.worker.crashed = true → x.stage = .gone
  crash : (∃ job, (job, .crashed) ∈ x.ended) ↔
    (∃ job, x.stage = .dying job) ∨ x.worker.crashed = true
  leaving : x.leaving = true → x.worker.accepting = false ∧ x.worker.joined = false
  joined : x.worker.joined = true → x.stage = .gone ∧ x.worker.accepting = false
  /-- Nobody is excused unless another one waits or has waited. -/
  excused : x.worker.joined = false → x.leaving = false → x.excused = 0
  undismissed : x.worker.joined = false → x.dismissals = List.replicate x.excused (.ok ())
  dismissed : x.worker.joined = true → ∃ n, x.dismissals =
    List.replicate x.excused (.ok ()) ++ x.worker.parting :: List.replicate n (.ok ())

namespace Sound

theorem start (shared : σ) : Sound execute (start shared : Exchange τ σ) where
  counted := rfl
  issued _ := rfl
  order := ⟨[], rfl, fun _ => rfl⟩
  ran _ hr := nomatch hr
  own _ hr := nomatch hr
  unanswered _ _ := rfl
  left h := nomatch h
  fallen h := nomatch h
  crash := ⟨fun ⟨_, h⟩ => (nomatch h), fun h => h.elim (fun ⟨_, h⟩ => (nomatch h)) fun h => (nomatch h)⟩
  leaving h := nomatch h
  joined h := nomatch h
  excused _ _ := rfl
  undismissed _ := rfl
  dismissed h := nomatch h

/-- The jobs of a worker that is not down. -/
theorem accepted_eq (h : Sound execute x) (hup : x.worker.crashed = false) :
    x.accepted = x.ended.map Prod.fst ++ x.waiting := by
  obtain ⟨lost, heq, hnone⟩ := h.order
  rw [heq, hnone hup, List.append_nil]

/-- A thread that is not gone is not down. -/
theorem crashed_eq_false (h : Sound execute x) (hstage : x.stage ≠ .gone) :
    x.worker.crashed = false := by
  cases hcrashed : x.worker.crashed with
  | false => rfl
  | true => exact absurd (h.fallen hcrashed) hstage

/-- The number of the job in hand, or of the next one. -/
theorem runId_waiting (h : Sound execute x) :
    x.waiting.map (·.ticket.runId) = List.range' (x.ended.length + 1) x.waiting.length := by
  obtain ⟨lost, heq, -⟩ := h.order
  have hids := h.counted
  rw [heq] at hids
  simp only [List.map_append, List.length_append, List.length_map, List.append_assoc] at hids
  rw [← List.range'_append_1, ← List.range'_append_1] at hids
  have hrest := (List.append_inj hids (by simp)).2
  have hwaiting := (List.append_inj hrest (by simp)).1
  rw [hwaiting, Nat.add_comm 1]

theorem runId_inHand (h : Sound execute x) {job : Job τ} (hjob : x.stage.job? = some job) :
    job.ticket.runId = x.ended.length + 1 := by
  have hids := h.runId_waiting
  rw [waiting, hjob, Option.toList_some, List.singleton_append, List.map_cons, List.length_cons,
    List.range'_succ] at hids
  exact (List.cons.inj hids).1

theorem runId_ended (h : Sound execute x) :
    x.ended.map (·.1.ticket.runId) = List.range' 1 x.ended.length := by
  obtain ⟨lost, heq, -⟩ := h.order
  have hids := h.counted
  rw [heq] at hids
  simp only [List.map_append, List.length_append, List.length_map, List.append_assoc,
    List.map_map] at hids
  rw [← List.range'_append_1] at hids
  exact (List.append_inj hids (by simp)).1

theorem runId_le_of_mem_ended (h : Sound execute x) {r : Job τ × Outcome} (hr : r ∈ x.ended) :
    r.1.ticket.runId ≤ x.ended.length := by
  have hid : r.1.ticket.runId ∈ x.ended.map (·.1.ticket.runId) := List.mem_map.mpr ⟨r, hr, rfl⟩
  rw [h.runId_ended, List.mem_range'_1] at hid
  omega

/-- Nobody is let go before the thread is gone. -/
theorem not_joined (h : Sound execute x) (hstage : x.stage ≠ .gone) : ¬ x.worker.joined = true :=
  fun hjoined => hstage (h.joined hjoined).1

theorem not_leaving (h : Sound execute x) (hjoined : x.worker.joined = true) :
    x.leaving = false := by
  by_contra hleaving
  have hfirst := (h.leaving (by simpa using hleaving)).2
  rw [hjoined] at hfirst
  cases hfirst

/-- All jobs that ended left the thread up, as long as it makes moves for jobs. -/
theorem survived (h : Sound execute x) (hgone : x.stage ≠ .gone)
    (hdying : ∀ job, x.stage ≠ .dying job) : ¬ ∃ job, (job, .crashed) ∈ x.ended := by
  rw [h.crash, h.crashed_eq_false hgone]
  rintro (⟨job, hjob⟩ | hdown)
  · exact hdying job hjob
  · cases hdown

theorem submit (h : Sound execute x) (task : String) (work : τ) :
    Sound execute (x.step execute (.submit task work)) := by
  rw [Exchange.step]
  rcases x.worker.submit_cases task work with
    ⟨haccepting, hup, hsubmit⟩ | ⟨issued, hsubmit, hissued⟩
  · have hstage : x.stage ≠ .gone := fun hgone => by
      rw [(h.left hgone).2 hup] at haccepting
      cases haccepting
    rw [hsubmit]
    exact { h with
      counted := by
        rw [List.map_append, h.counted, List.length_append, List.length_singleton,
          List.range'_1_concat, h.issued hup, Nat.add_comm 1]
        rfl
      issued := fun _ => by
        rw [List.length_append, List.length_singleton]
        exact congrArg (· + 1) (h.issued hup)
      order := by
        refine ⟨[], ?_, fun _ => rfl⟩
        rw [h.accepted_eq hup]
        simp [waiting]
      left := fun hgone => absurd hgone hstage
      joined := fun hjoined => absurd hjoined (h.not_joined hstage) }
  · rw [hsubmit]
    exact { h with issued := fun hup => (hissued hup).trans (h.issued hup) }

theorem takeFailure (h : Sound execute x) : Sound execute (x.step execute .takeFailure) :=
  { h with ran := h.ran }

theorem shutdown (h : Sound execute x) : Sound execute (x.step execute .shutdown) :=
  { h with
    left := fun hgone => ⟨(h.left hgone).1, fun _ => rfl⟩
    leaving := fun hleaving => ⟨rfl, by simpa [Exchange.step, Worker.stopAccepting] using hleaving⟩
    joined := fun hlast => ⟨(h.joined hlast).1, rfl⟩
    excused := fun hfirst hleaving => by
      have hlast : x.worker.joined = true := by simpa [Exchange.step] using hleaving
      cases hfirst.symm.trans hlast
    undismissed := fun hfirst => by
      have hfirst : x.worker.joined = false := hfirst
      cases hleaving : x.leaving with
      | true =>
        simp only [Exchange.step, hleaving, Bool.true_or, if_true]
        rw [h.undismissed hfirst, List.replicate_succ']
      | false =>
        simp only [Exchange.step, hleaving, hfirst, Bool.or_self, Bool.false_eq_true, if_false]
        exact h.undismissed hfirst
    dismissed := fun hlast => by
      have hlast : x.worker.joined = true := hlast
      obtain ⟨n, heq⟩ := h.dismissed hlast
      refine ⟨n + 1, ?_⟩
      simp only [Exchange.step, h.not_leaving hlast, hlast, Bool.or_true, Bool.false_eq_true, if_true,
        if_false]
      rw [heq, List.replicate_succ', List.append_assoc, List.cons_append]
      rfl }

theorem join (h : Sound execute x) : Sound execute (x.step execute .join) := by
  rw [Exchange.step]
  split
  · next hgone hleaving =>
    obtain ⟨hclosed, hfirst⟩ := h.leaving hleaving
    rw [Worker.join_eq, hfirst]
    exact { h with
      leaving := fun hleft => nomatch hleft
      joined := fun _ => ⟨hgone, hclosed⟩
      excused := fun hnot => nomatch hnot
      undismissed := fun hnot => nomatch hnot
      dismissed := fun _ => ⟨0, by rw [h.undismissed hfirst]; rfl⟩ }
  · exact h

theorem meanwhile (h : Sound execute x) (change : σ → σ) :
    Sound execute (x.step execute (.meanwhile change)) :=
  { h with ran := h.ran }

/-- The thread takes the next job, or goes. -/
theorem work_idle (h : Sound execute x) (hidle : x.stage = .idle) :
    Sound execute (x.work execute) := by
  have hup : x.worker.crashed = false := h.crashed_eq_false (by simp [hidle])
  have hnotJoined := h.not_joined (by simp [hidle])
  have hcrash := h.survived (by simp [hidle]) (by simp [hidle])
  have hran : ∀ r ∈ x.ended, ∃ s, (execute r.1.ticket r.1.work s).1 = r.2 := fun r hr =>
    h.ran r (List.mem_append_left _ hr)
  rw [work, hidle]
  dsimp only
  split
  · next job queue hqueue =>
    exact { h with
      order := by
        refine ⟨[], ?_, fun _ => rfl⟩
        rw [h.accepted_eq hup]
        simp [waiting, hidle, hqueue, Stage.job?]
      ran := fun r hr => hran r (by simpa [executed, Stage.ran?] using hr)
      left := fun hgone => nomatch hgone
      fallen := fun hdown => absurd (hdown.symm.trans hup) (by simp)
      crash := by simpa [hup] using hcrash
      joined := fun hjoined => absurd hjoined hnotJoined }
  · next hqueue =>
    split
    · exact h
    · next hclosed =>
      have hclosed : x.worker.accepting = false := by simpa using hclosed
      exact { h with
        order := by
          refine ⟨[], ?_, fun _ => rfl⟩
          rw [h.accepted_eq hup]
          simp [waiting, hidle, hqueue, Stage.job?]
        ran := fun r hr => hran r (by simpa [executed, Stage.ran?] using hr)
        left := fun _ => ⟨hqueue, fun _ => hclosed⟩
        fallen := fun _ => rfl
        crash := by simpa [hup] using hcrash
        joined := fun _ => ⟨rfl, hclosed⟩ }

/-- The thread runs the job that it has taken. -/
theorem work_busy (h : Sound execute x) {job : Job τ} (hbusy : x.stage = .busy job) :
    Sound execute (x.work execute) := by
  have hup : x.worker.crashed = false := h.crashed_eq_false (by simp [hbusy])
  have hnotJoined := h.not_joined (by simp [hbusy])
  have hcrash := h.survived (by simp [hbusy]) (by simp [hbusy])
  -- the number of the job in hand is the next one, so no answer was given for it
  have hid : job.ticket.runId = x.ended.length + 1 := h.runId_inHand (by rw [hbusy]; rfl)
  have hran : ∀ s outcome shared, execute job.ticket job.work s = (outcome, shared) →
      ∀ r ∈ x.ended ++ [(job, outcome)], ∃ s, (execute r.1.ticket r.1.work s).1 = r.2 := by
    intro s outcome shared hexecute r hr
    rcases List.mem_append.mp hr with hr | hr
    · exact h.ran r (List.mem_append_left _ hr)
    · rw [List.mem_singleton.mp hr]
      exact ⟨s, by rw [hexecute]⟩
  rw [work, hbusy]
  dsimp only
  split
  · next result shared hexecute =>
    rw [Worker.note_eq]
    exact { h with
      order := by
        refine ⟨[], ?_, fun _ => rfl⟩
        rw [h.accepted_eq hup]
        simp [waiting, hbusy, Stage.job?]
      ran := hran _ _ _ hexecute
      left := fun hgone => nomatch hgone
      fallen := fun hdown => absurd (hdown.symm.trans hup) (by simp)
      crash := by simpa [hup] using hcrash
      joined := fun hjoined => absurd hjoined hnotJoined }
  · next shared hexecute =>
    exact { h with
      order := by
        refine ⟨[], ?_, fun _ => rfl⟩
        rw [h.accepted_eq hup]
        simp [waiting, hbusy, Stage.job?]
      ran := by simpa [executed, Stage.ran?] using hran _ _ _ hexecute
      own := by
        intro r hr
        rcases List.mem_append.mp hr with hr | hr
        · exact h.own r hr
        · rw [List.mem_singleton.mp hr]
          exact h.unanswered job.ticket (by omega)
      unanswered := fun ticket hlt => by
        rw [List.length_append] at hlt
        exact h.unanswered ticket (by omega)
      left := fun hgone => nomatch hgone
      fallen := fun hdown => absurd (hdown.symm.trans hup) (by simp)
      crash := ⟨fun _ => .inl ⟨job, rfl⟩, fun _ => ⟨job, by simp⟩⟩
      joined := fun hjoined => absurd hjoined hnotJoined }

/-- The thread answers the one who holds the ticket of the job that it ran. -/
theorem work_answering (h : Sound execute x) {job : Job τ} {result : Except StoreError Unit}
    (hanswering : x.stage = .answering job result) : Sound execute (x.work execute) := by
  have hup : x.worker.crashed = false := h.crashed_eq_false (by simp [hanswering])
  have hnotJoined := h.not_joined (by simp [hanswering])
  have hcrash := h.survived (by simp [hanswering]) (by simp [hanswering])
  have hid : job.ticket.runId = x.ended.length + 1 := h.runId_inHand (by rw [hanswering]; rfl)
  rw [work, hanswering]
  exact { h with
    order := by
      refine ⟨[], ?_, fun _ => rfl⟩
      rw [h.accepted_eq hup]
      simp [waiting, hanswering, Stage.job?, Worker.answer]
    ran := by simpa [executed, hanswering, Stage.ran?] using h.ran
    own := by
      intro r hr
      rw [Worker.result_answer]
      rcases List.mem_append.mp hr with hr | hr
      · have hle := h.runId_le_of_mem_ended hr
        rw [if_neg (by omega)]
        exact h.own r hr
      · rw [List.mem_singleton.mp hr, if_pos rfl]
        rfl
    unanswered := fun ticket hlt => by
      rw [List.length_append, List.length_singleton] at hlt
      rw [Worker.result_answer, if_neg (by omega)]
      exact h.unanswered ticket (by omega)
    left := fun hgone => nomatch hgone
    fallen := fun hdown => absurd (hdown.symm.trans hup) (by simp)
    crash := by simpa [hup, Worker.answer] using hcrash
    joined := fun hjoined => absurd hjoined hnotJoined }

/-- The job takes the thread down, and what waits is lost. -/
theorem work_dying (h : Sound execute x) {job : Job τ} (hdying : x.stage = .dying job) :
    Sound execute (x.work execute) := by
  have hup : x.worker.crashed = false := h.crashed_eq_false (by simp [hdying])
  have hnotJoined := h.not_joined (by simp [hdying])
  rw [work, hdying]
  exact { h with
    issued := fun hup => nomatch hup
    -- all that waited is lost
    order := by
      refine ⟨x.worker.queue, ?_, fun hup => nomatch hup⟩
      rw [h.accepted_eq hup]
      simp [waiting, hdying, Stage.job?, Worker.record]
    ran := by simpa [executed, hdying, Stage.ran?] using h.ran
    left := fun _ => ⟨rfl, fun hup => nomatch hup⟩
    fallen := fun _ => rfl
    crash := ⟨fun _ => .inr rfl, fun _ => h.crash.mpr (.inl ⟨job, hdying⟩)⟩
    joined := fun hjoined => absurd hjoined hnotJoined
    dismissed := fun hjoined => absurd hjoined hnotJoined }

theorem work (h : Sound execute x) : Sound execute (x.work execute) := by
  cases hstage : x.stage with
  | idle => exact h.work_idle hstage
  | busy job => exact h.work_busy hstage
  | answering job result => exact h.work_answering hstage
  | dying job => exact h.work_dying hstage
  | gone =>
    rw [Exchange.work, hstage]
    exact h

theorem step (h : Sound execute x) (move : Move τ σ) : Sound execute (x.step execute move) := by
  cases move with
  | submit task work => exact h.submit task work
  | takeFailure => exact h.takeFailure
  | shutdown => exact h.shutdown
  | join => exact h.join
  | meanwhile change => exact h.meanwhile change
  | work => exact h.work

theorem run (h : Sound execute x) (moves : List (Move τ σ)) :
    Sound execute (x.run execute moves) := by
  induction moves generalizing x with
  | nil => exact h
  | cons move moves ih => exact ih (h.step move)

end Sound

theorem sound_run (shared : σ) (moves : List (Move τ σ)) :
    Sound execute ((start shared : Exchange τ σ).run execute moves) :=
  (Sound.start shared).run moves

end Exchange

end LayeredStore
