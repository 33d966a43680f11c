import LayeredStore.Proofs.Histories

/-!
# Background work succeeds

On a disk where no file operation fails, no task of the worker fails either: every entry that was
accepted can be written to a run, what is written ascends, the generation that a compaction merges
is live when it is merged, and each run that was written can be opened again. That is what
`Layers.HeldBy` provides for, whatever the order of the tasks.

* `Worker.Flawless` : a worker all of whose results are successes, and which has a result or a
  waiting job for every ticket that it gave out.
* `background_work_succeeds` : in every state of every history the worker is flawless, and the
  tasks that wait would succeed if they were run now.
-/

namespace LayeredStore

open Disk

variable {d origin : Disk} {dir place : Path} {l : Layers} {s : Session} {config : Config}

/-! ## A worker without failures -/

namespace Worker

variable {w : Worker Task} {shared : Core × Disk}

/-- A worker none of whose tasks has failed, and which has lost none of them. -/
structure Flawless (w : Worker Task) : Prop where
  running : w.crashed = false
  unfailed : w.failure = none
  succeeded : ∀ r ∈ w.results, r.2 = .ok ()
  settled : ∀ id, 0 < id → id ≤ w.issued →
    (∃ job ∈ w.queue, job.ticket.runId = id) ∨ (id, .ok ()) ∈ w.results

theorem flawless_start : (Worker.start : Worker Task).Flawless where
  running := rfl
  unfailed := rfl
  succeeded _ hr := nomatch hr
  settled _ hpos hle := absurd hle (Nat.not_le_of_gt hpos)

theorem Flawless.submit (h : w.Flawless) (name : String) (task : Task) :
    (w.submit name task).2.Flawless := by
  rw [Worker.submit]
  split
  · exact h
  · simp only [h.running, Bool.false_eq_true, if_false]
    refine { h with running := rfl, settled := fun id hpos hle => ?_ }
    by_cases hnew : id = w.issued + 1
    · exact .inl ⟨⟨⟨name, w.issued + 1⟩, task⟩, by simp, hnew.symm⟩
    · have hold : id ≤ w.issued := by
        have hle' : id ≤ w.issued + 1 := hle
        omega
      refine (h.settled id hpos hold).imp (fun hwaits => ?_) fun hdone => hdone
      obtain ⟨job, hjob, hid⟩ := hwaits
      exact ⟨job, List.mem_append_left _ hjob, hid⟩

theorem Flawless.step (h : w.Flawless)
    (hok : ∀ {task tasks}, w.tasks = task :: tasks → task.result shared = .ok ()) :
    (w.step Task.execute shared).1.Flawless := by
  cases hqueue : w.queue with
  | nil =>
    rw [step_of_idle (by rw [tasks, hqueue]; rfl)]
    exact h
  | cons job queue =>
    have hresult : job.work.result shared = .ok () :=
      @hok _ (queue.map Job.work) (by rw [Worker.tasks, hqueue]; rfl)
    have hstep : (w.step Task.execute shared).1 =
        ({ w with queue }).record job.ticket (.finished (job.work.result shared)) := by
      rw [Worker.step, hqueue]
      rfl
    rw [hstep, hresult]
    refine { h with succeeded := fun r hr => ?_, settled := fun id hpos hle => ?_ }
    · rcases List.mem_cons.mp hr with rfl | hr
      · rfl
      · exact h.succeeded r hr
    · rcases h.settled id hpos hle with ⟨other, hother, hid⟩ | hdone
      · rw [hqueue] at hother
        rcases List.mem_cons.mp hother with rfl | hother
        · exact .inr (hid ▸ List.mem_cons_self)
        · exact .inl ⟨other, hother, hid⟩
      · exact .inr (List.mem_cons_of_mem _ hdone)

theorem Flawless.drain (h : w.Flawless) (hok : Task.Succeed w.tasks shared) :
    (w.drain Task.execute shared).1.Flawless := by
  generalize htasks : w.tasks = tasks at hok
  induction tasks generalizing w shared with
  | nil =>
    rw [drain.eq_def]
    split
    · exact h
    · next hcons => simp [Worker.tasks, hcons] at htasks
  | cons task tasks ih =>
    obtain ⟨w₁, hstep, htasks₁, -⟩ := w.step_eq shared htasks
    have hfirst : (w.step Task.execute shared).1.Flawless := h.step fun heq => by
      rw [htasks] at heq
      cases heq
      exact hok.1
    rw [drain.eq_def]
    split
    · next hnil => simp [Worker.tasks, hnil] at htasks
    · simp only [hstep] at hfirst ⊢
      exact ih hfirst htasks₁ hok.2

theorem Flawless.takeFailure (h : w.Flawless) : ({ w with failure := none }).Flawless :=
  { h with unfailed := rfl }

/-- A worker that is seen off does what waits. -/
theorem Flawless.shutdown (h : w.Flawless) (hok : Task.Succeed w.tasks shared) :
    (w.shutdown Task.execute shared).2.1.Flawless := by
  have haccepted : w.stopAccepting.Flawless := { h with }
  have hdrained := haccepted.drain hok
  exact { hdrained with }

/-- A ticket is good for a success, once its task does not wait any more. -/
theorem Flawless.result_eq (h : w.Flawless) {ticket : Ticket} (hpos : 0 < ticket.runId)
    (hle : ticket.runId ≤ w.issued) (hdone : ∀ job ∈ w.queue, job.ticket.runId ≠ ticket.runId) :
    w.result ticket = .ok () := by
  rcases h.settled ticket.runId hpos hle with ⟨job, hjob, hid⟩ | hmem
  · exact absurd hid (hdone job hjob)
  · rw [result]
    cases hlookup : w.results.lookup ticket.runId with
    | none =>
      rw [List.lookup_eq_none_iff] at hlookup
      simpa using hlookup _ hmem
    | some r =>
      obtain ⟨front, back, heq, -⟩ := List.lookup_eq_some_iff.mp hlookup
      exact h.succeeded (ticket.runId, r) (heq ▸ by simp)

end Worker

/-! ## The worker of a session -/

namespace Store

variable {store : Store}

theorem stable_flawless : Stable fun s _ => s.worker.Flawless :=
  stable_of_worker id fun task hs => hs.submit task.name task

theorem flawless_waitForBackground (hflawless : store.worker.Flawless) (hbusy : store.Busy)
    (hok : Task.Succeed store.worker.tasks (store.core, d)) :
    (waitForBackground store d).1.2.worker.Flawless := by
  obtain ⟨ticket, worker, hsubmit, hqueued⟩ := submit_eq hbusy .barrier d
  have hsubmitted : worker.Flawless := by
    have hkept := stable_flawless.submit .barrier store d hflawless
    rw [hsubmit] at hkept
    exact hkept
  rw [waitForBackground, StateProgram.bind_of_ok hsubmit]
  refine hsubmitted.drain ?_
  rw [hqueued.tasks, Task.succeed_barrier]
  exact hok

end Store

namespace Layers

/-- The worker stays flawless, whatever happens, if no operation fails. -/
theorem Describes.flawless (h : l.Describes origin s dir place) (hfaultless : origin.Faultless)
    {event : Event} (hwithin : s.StaysWithin event) (hflawless : s.store.worker.Flawless) :
    (s.step event).store.worker.Flawless := by
  have hfaultless' := hfaultless.evolves h.since
  have hkept {α : Type} {x : StoreM α} (hx : StateProgram.Keeps (fun s _ => s.worker.Flawless) x) :
      (s.after x).store.worker.Flawless := hx s.store s.disk hflawless
  have hwait (hworks : s.WorksWithin) :
      (s.step .waitForBackground).store.worker.Flawless := by
    by_cases hclosed : l.closed = true
    · rw [h.step_waitForBackground_of_closed hclosed]
      exact hflawless
    · refine Store.flawless_waitForBackground hflawless (h.busy (by simpa using hclosed)) ?_
      exact ((h.held.effects h.sane hfaultless'.truthful h.awaits
        fun n _ => hworks (n + 1)).resolve_right fun hfail => hfail.2 hfaultless').1
  cases event with
  | upsert e =>
    show (s.upsert e).store.worker.Flawless
    rw [Session.store_upsert]
    exact hkept (Store.stable_flawless.upsert fun _ hs => hs)
  | flush => exact hkept (Store.stable_flawless.scheduleFlush.map _)
  | compact => exact hkept (Store.stable_flawless.scheduleCompaction.map _)
  | scheduleFlush => exact hkept Store.stable_flawless.scheduleFlush
  | scheduleCompaction => exact hkept Store.stable_flawless.scheduleCompaction
  | waitForBackground => exact hwait hwithin
  | status =>
    rw [Session.step_status]
    exact hflawless.takeFailure
  | close =>
    by_cases hclosed : s.store.closed = true
    · rw [Session.step_close_of_closed hclosed]
      exact hflawless
    · have hopen : s.store.closed = false := by simpa using hclosed
      obtain ⟨hclosing, hlast⟩ := (h.closing hfaultless.truthful hopen hwithin).resolve_right
        fun hfail => hfail.2 hfaultless
      have hfaultless₂ := hfaultless.evolves hclosing.since
      rw [Session.step_close hopen]
      refine Worker.Flawless.takeFailure (Worker.Flawless.shutdown ?_ ?_)
      · exact Store.stable_flawless.scheduleFlush _ _ (hwait (hwithin.1 hopen))
      · exact ((hclosing.held.effects hclosing.sane hfaultless₂.truthful hclosing.awaits
          hlast).resolve_right fun hfail => hfail.2 hfaultless₂).1
  | runNext =>
    refine hflawless.step fun {task tasks} htasks => ?_
    have hwithin' : (s.step .runNext).Within := hwithin
    obtain ⟨worker, hdone, -⟩ := Store.runNext_eq s.store s.disk htasks
    rw [Session.Within, Session.step, hdone] at hwithin'
    exact ((h.held.effect h.sane hfaultless'.truthful (htasks ▸ h.awaits)
      hwithin').resolve_right fun hfail => hfail.2 hfaultless').1
  | reopen process config =>
    rw [Session.step, Session.reopened]
    split
    · cases hopen : Store.openIn process config s.disk with
      | mk r disk =>
        cases r with
        | ok store =>
          obtain ⟨g, lock, rfl⟩ := Store.of_openIn hopen
          exact Worker.flawless_start
        | error e => exact hflawless
    · exact hflawless

theorem Describes.flawless_run (h : l.Describes origin s dir place) (hfaultless : origin.Faultless)
    {events : List Event} (hfits : s.Fits dir events) (hflawless : s.store.worker.Flawless) :
    (s.run events).store.worker.Flawless := by
  induction events generalizing l s with
  | nil => exact hflawless
  | cons event events ih =>
    obtain ⟨hsuits, hwithin, hrest⟩ := hfits
    exact ih (h.step hfaultless hsuits hwithin) hrest (h.flawless hfaultless hwithin hflawless)

theorem Awaits.tasks_eq_nil {c : Core} {tasks : List Task} (h : l.Awaits c tasks)
    (hnil : l.queue = []) : tasks = [] := by
  have hdoes := h.does
  rw [hnil] at hdoes
  exact List.forall₂_nil_right_iff.mp hdoes

end Layers

/-- In every state of every history of a folder that had no runs, no task has failed: a task whose
ticket was given out still waits or has ended well, and those that wait would all end well if the
worker were now given the time, after which none waits. -/
theorem background_work_succeeds {events : List Event} (hstarts : s.StartsIn config d)
    (hfits : s.Fits config.dir events) :
    (∀ r ∈ (s.run events).store.worker.results, r.2 = .ok ()) ∧
      (∀ ticket : Ticket, 0 < ticket.runId → ticket.runId ≤ (s.run events).store.worker.issued →
        (∃ job ∈ (s.run events).store.worker.queue, job.ticket.runId = ticket.runId) ∨
          (s.run events).store.worker.result ticket = .ok ()) ∧
      ((s.run events).WorksWithin →
        Task.Succeed (s.run events).store.worker.tasks
            ((s.run events).store.core, (s.run events).disk) ∧
          ((s.run events).step .waitForBackground).store.worker.tasks = []) := by
  obtain ⟨place, hdescribes⟩ := hstarts.describes hfits
  have hflawless : (s.run events).store.worker.Flawless := by
    obtain ⟨process, hopen⟩ := hstarts.opened
    obtain ⟨hstore, hwrites⟩ := Session.openIn_eq_some hopen
    obtain ⟨g, lock, hstore⟩ := Store.of_openIn hstore
    have hnone : s.Fits config.dir [] := trivial
    obtain ⟨place, hinitial⟩ := hstarts.describes hnone
    exact hinitial.flawless_run hstarts.faultless hfits (hstore ▸ Worker.flawless_start)
  have hfaultless := hstarts.faultless.evolves hdescribes.since
  refine ⟨hflawless.succeeded, fun ticket hpos hle => ?_, fun hworks => ⟨?_, ?_⟩⟩
  · by_cases hwaits : ∃ job ∈ (s.run events).store.worker.queue, job.ticket.runId = ticket.runId
    · exact .inl hwaits
    · exact .inr (hflawless.result_eq hpos hle fun job hjob hid => hwaits ⟨job, hjob, hid⟩)
  · exact ((hdescribes.held.effects hdescribes.sane hfaultless.truthful hdescribes.awaits
      fun n _ => hworks (n + 1)).resolve_right fun hfail => hfail.2 hfaultless).1
  · have hwaited := (hdescribes.waitForBackground hstarts.faultless.truthful hworks).resolve_right
      fun hfail => hfail.2 hstarts.faultless
    exact hwaited.awaits.tasks_eq_nil (Layers.queue_workAll _)

/-- One flush is done; a compaction waits, and behind it the flush of the next buffer. -/
theorem busyHistory_background_work_succeeds :
    ((newSession.run (busyHistory.take 7)).store.worker.tasks = [.compaction 1, .flush 1] ∧
      (newSession.run (busyHistory.take 7)).store.worker.issued = 3) ∧
    (∀ r ∈ (newSession.run (busyHistory.take 7)).store.worker.results, r.2 = .ok ()) ∧
    Task.Succeed [.compaction 1, .flush 1] ((newSession.run (busyHistory.take 7)).store.core,
      (newSession.run (busyHistory.take 7)).disk) := by
  obtain ⟨htasks, hissued, hfits, hworks⟩ :
      (newSession.run (busyHistory.take 7)).store.worker.tasks = [.compaction 1, .flush 1] ∧
      (newSession.run (busyHistory.take 7)).store.worker.issued = 3 ∧
      newSession.Fits smallConfig.dir (busyHistory.take 7) ∧
      (newSession.run (busyHistory.take 7)).WorksWithin := by
    decide +kernel
  obtain ⟨hresults, -, hsucceed⟩ := background_work_succeeds newSession_startsIn hfits
  rw [htasks] at hsucceed
  -- a projection in place of `And.left` would have the tasks run
  exact ⟨⟨htasks, hissued⟩, hresults, And.left (hsucceed hworks)⟩

end LayeredStore
