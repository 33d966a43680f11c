import LayeredStore.Proofs.Closing

/-!
# At most one flush and one compaction

A store keeps book of its background work with two flags and the slot of the buffer that is being
flushed. The queue of the worker is not asked; it has to agree with them, whatever becomes of the
tasks. `Core.SingleFlight` says how, given the tasks that were done so far and how each of them
ended, and `single_flight` that it holds in every state of a store, under any plan of faults.

`Session.journal` lists the tasks that are done during some events. It is what the worker keeps
results of (`SingleFlight.results_run`).
-/

namespace LayeredStore

open Disk StateProgram

variable {d : Disk} {c c' : Core} {s : Session} {tasks : List Task}
  {done : List (Task × Except StoreError Unit)}

/-! ## What was done -/

namespace Task

/-- Some tasks, done one after the other, each with how it ends. -/
def outcomes : List Task → Core × Disk → List (Task × Except StoreError Unit)
  | [], _ => []
  | task :: tasks, s => (task, task.result s) :: outcomes tasks (task.effect s)

/-- Whether a task is a flush. -/
def isFlush : Task → Bool
  | flush _ => true
  | compaction _ | barrier => false

/-- Whether a task is a compaction. -/
def isCompaction : Task → Bool
  | compaction _ => true
  | flush _ | barrier => false

end Task

namespace Session

/-- The tasks that are done during an event. -/
def performed (s : Session) : Event → List (Task × Except StoreError Unit)
  | .runNext => Task.outcomes (s.store.worker.tasks.take 1) (s.store.core, s.disk)
  | .waitForBackground =>
    if s.store.worker.accepting then
      Task.outcomes (s.store.worker.tasks ++ [.barrier]) (s.store.core, s.disk)
    else []
  | .close =>
    if s.store.closed then []
    else Task.outcomes (s.store.worker.tasks ++ [.barrier]) (s.store.core, s.disk) ++
      Task.outcomes s.closing.store.worker.tasks (s.closing.store.core, s.closing.disk)
  | _ => []

/-- The tasks that are done during some events, oldest first. -/
def journal : Session → List Event → List (Task × Except StoreError Unit)
  | _, [] => []
  | s, event :: events => s.performed event ++ (s.step event).journal events

end Session

/-! ## Bookkeeping -/

namespace Core

/-- The flags and the slot of a core agree with the tasks that wait and those that were done. -/
structure SingleFlight (c : Core) (tasks : List Task) (done : List (Task × Except StoreError Unit)) :
    Prop where
  /-- The flag of a flush is set if and only if there is a buffer to flush. -/
  flagged : c.flushInFlight = c.flushing.isSome
  /-- Without such a buffer no flush waits. -/
  idle : c.flushing = none → tasks.filter Task.isFlush = []
  /-- The flush of that buffer is the only one that waits, or it has failed. -/
  flight : ∀ id, c.flushing = some id → tasks.filter Task.isFlush = [.flush id] ∨
    tasks.filter Task.isFlush = [] ∧ ∃ e, (Task.flush id, .error e) ∈ done
  /-- One compaction waits if the flag of a compaction is set, and none otherwise. -/
  pending : tasks.countP Task.isCompaction = if c.compactionPending then 1 else 0
  thawed : c.active.frozen = false
  bounded : c.active.bytes ≤ c.config.flushThreshold

theorem singleFlight_ofGeneration (config : Config) (g : Generation) :
    (ofGeneration config g).SingleFlight [] [] where
  flagged := rfl
  idle _ := rfl
  flight _ h := nomatch h
  pending := rfl
  thawed := rfl
  bounded := Nat.zero_le _

/-- A barrier does not count. -/
theorem SingleFlight.barrier (h : c.SingleFlight tasks done) :
    c.SingleFlight (tasks ++ [.barrier]) done where
  flagged := h.flagged
  idle hnone := by
    rw [List.filter_append, h.idle hnone]
    rfl
  flight id hid := by
    rw [List.filter_append]
    simpa [Task.isFlush] using h.flight id hid
  pending := by
    rw [List.countP_append, h.pending]
    rfl
  thawed := h.thawed
  bounded := h.bounded

/-- What a task that is no flush makes of the core, but for the flag of a compaction. -/
theorem SingleFlight.retained {task : Task} {core : Core} (h : c.SingleFlight (task :: tasks) done)
    (htask : task.isFlush = false) (hretains : c.Retains core)
    (hpending : tasks.countP Task.isCompaction = if core.compactionPending then 1 else 0)
    (result : Except StoreError Unit) : core.SingleFlight tasks (done ++ [(task, result)]) := by
  have hfilter : (task :: tasks).filter Task.isFlush = tasks.filter Task.isFlush :=
    List.filter_cons_of_neg (by simp [htask])
  exact {
    flagged := by rw [hretains.flagged, hretains.flushing, h.flagged]
    idle := fun hnone => hfilter ▸ h.idle (hretains.flushing ▸ hnone)
    flight := fun id hid => by
      rw [← hfilter]
      refine (h.flight id (hretains.flushing ▸ hid)).imp_right fun hfailed => ⟨hfailed.1, ?_⟩
      exact hfailed.2.imp fun e hmem => List.mem_append_left _ hmem
    pending := hpending
    thawed := by rw [hretains.active, h.thawed]
    bounded := by
      rw [hretains.active, hretains.config]
      exact h.bounded }

/-- A task ends with its flag cleared, but for a flush that fails, which is entered as failed. -/
theorem SingleFlight.effect {task : Task} (h : c.SingleFlight (task :: tasks) done) (d : Disk) :
    (task.effect (c, d)).1.SingleFlight tasks (done ++ [(task, task.result (c, d))]) := by
  cases task with
  | flush id =>
    have hcount : tasks.countP Task.isCompaction = if c.compactionPending then 1 else 0 := by
      rw [← h.pending]
      exact (List.countP_cons_of_neg (by simp [Task.isCompaction])).symm
    have hfilter : (Task.flush id :: tasks).filter Task.isFlush =
        .flush id :: tasks.filter Task.isFlush := List.filter_cons_of_pos rfl
    -- the flush of the queue is that of the slot, and there is no other one
    have hflight : c.flushing = some id ∧ tasks.filter Task.isFlush = [] := by
      cases hflushing : c.flushing with
      | none => simpa [hfilter] using h.idle hflushing
      | some other =>
        rcases h.flight other hflushing with hsame | ⟨hnone, -⟩
        · rw [hfilter] at hsame
          simp_all
        · simp [hfilter] at hnone
    rw [Task.effect, Task.result, Task.run_flush]
    rcases flushBuffer_cases id c d with ⟨g, hdone⟩ | ⟨e, hfailed⟩
    · rw [hdone]
      exact {
        flagged := rfl
        idle := fun _ => hflight.2
        flight := fun _ hid => by cases hid
        pending := hcount
        thawed := h.thawed
        bounded := h.bounded }
    · rw [hfailed]
      exact { h with
        idle := fun _ => hflight.2
        flight := fun other hother => by
          obtain rfl : id = other := Option.some.inj (hflight.1.symm.trans hother)
          exact .inr ⟨hflight.2, .persistence e, by simp [Except.mapError]⟩
        pending := hcount }
  | compaction planned =>
    obtain ⟨core, hretains, hcore⟩ := retains_compaction planned c d
    have hcleared : c.Retains core.clearCompaction := { hretains with }
    rw [hcore]
    refine h.retained rfl hcleared ?_ _
    have hpending := h.pending
    rw [List.countP_cons_of_pos (by rfl)] at hpending
    split at hpending
    · exact Nat.succ.inj hpending
    · cases hpending
  | barrier =>
    refine h.retained rfl (.refl c) ?_ _
    rw [← h.pending]
    exact (List.countP_cons_of_neg (by simp [Task.isCompaction])).symm

/-- All tasks are done, one after the other. -/
theorem SingleFlight.effects (h : c.SingleFlight tasks done) (d : Disk) :
    (Task.effects tasks (c, d)).1.SingleFlight [] (done ++ Task.outcomes tasks (c, d)) := by
  induction tasks generalizing c d done with
  | nil =>
    rw [Task.outcomes, List.append_nil]
    exact h
  | cons task tasks ih =>
    rw [Task.outcomes, List.append_cons]
    exact ih (h.effect d) _

/-- Sealing the active buffer, however full it has become, hands its flush to the worker. -/
theorem SingleFlight.sealed (h : c.SingleFlight tasks done) (hflushing : c.flushing = none)
    (active frozen : Buffer) : SingleFlight
      { sealedWith { c with active } frozen with flushInFlight := true }
      (tasks ++ [.flush c.activeId]) done where
  flagged := rfl
  idle hnone := nomatch hnone
  flight id hid := by
    obtain rfl : c.activeId = id := Option.some.inj hid
    rw [List.filter_append, h.idle hflushing]
    exact .inl rfl
  pending := by
    rw [List.countP_append, h.pending]
    rfl
  thawed := rfl
  bounded := Nat.zero_le _

/-- An entry was written that leaves the active buffer below its size. -/
theorem SingleFlight.written (h : c.SingleFlight tasks done) {active : Buffer}
    (hthawed : active.frozen = false) (hbytes : active.bytes ≤ c.config.flushThreshold) :
    SingleFlight { c with active } tasks done :=
  { h with thawed := hthawed, bounded := hbytes }

/-- A compaction was asked for, and it waits. -/
theorem SingleFlight.planned (h : c.SingleFlight tasks done) (hpending : c.compactionPending = false)
    (generation : Nat) : SingleFlight { c with compactionPending := true }
      (tasks ++ [.compaction generation]) done where
  flagged := h.flagged
  idle hnone := by
    rw [List.filter_append, h.idle hnone]
    rfl
  flight id hid := by
    rw [List.filter_append]
    simpa [Task.isFlush] using h.flight id hid
  pending := by
    rw [List.countP_append, h.pending, hpending]
    rfl
  thawed := h.thawed
  bounded := h.bounded

theorem SingleFlight.clear_of_none (h : c.SingleFlight tasks done) (hnone : c.flushing = none) :
    c.flushInFlight = false := by
  rw [h.flagged, hnone]
  rfl

end Core

/-! ## The operations -/

namespace Store

variable {store : Store} {e : Entry}

/-- The flags and the slot of a store agree with its worker and with what was done. -/
def SingleFlight (done : List (Task × Except StoreError Unit)) (s : Store) : Prop :=
  s.core.SingleFlight s.worker.tasks done

theorem SingleFlight.startFlush (h : store.SingleFlight done) (hbusy : store.Busy) (d : Disk) :
    (startFlush store d).1.2.SingleFlight done := by
  by_cases hnot : (store.core.active.isEmpty || store.core.flushing.isSome) = true
  · rw [startFlush_of_not hnot]
    exact h
  · rw [Bool.or_eq_true, not_or, Bool.not_eq_true, Bool.not_eq_true, Option.isSome_eq_false_iff,
      Option.isNone_iff_eq_none] at hnot
    obtain ⟨ticket, worker, hstart, hqueued⟩ :=
      startFlush_eq hbusy hnot.1 hnot.2 h.thawed (h.clear_of_none hnot.2) d
    rw [hstart, SingleFlight, hqueued.tasks]
    exact h.sealed hnot.2 store.core.active _

theorem SingleFlight.scheduleFlush (h : store.SingleFlight done)
    (hbusy : store.closed = false → store.Busy) (d : Disk) :
    (scheduleFlush store d).1.2.SingleFlight done := by
  by_cases hclosed : store.closed = true
  · rw [Store.scheduleFlush, bind_of_error (ensureOpen_of_closed hclosed d)]
    exact h
  · rw [Bool.not_eq_true] at hclosed
    rw [Store.scheduleFlush, bind_of_ok (ensureOpen_eq hclosed d)]
    exact h.startFlush (hbusy hclosed) d

theorem SingleFlight.scheduleCompaction (h : store.SingleFlight done)
    (hbusy : store.closed = false → store.Busy) (d : Disk) :
    (scheduleCompaction store d).1.2.SingleFlight done := by
  by_cases hclosed : store.closed = true
  · rw [Store.scheduleCompaction, bind_of_error (ensureOpen_of_closed hclosed d)]
    exact h
  rw [Bool.not_eq_true] at hclosed
  by_cases hnot : store.core.generation.runs.length ≤ 1 ∧ store.core.active.isEmpty = true
  · rw [scheduleCompaction_of_not hclosed hnot]
    exact h
  by_cases hpending : store.core.compactionPending = true
  · rw [scheduleCompaction_of_pending hclosed hnot hpending]
    exact h
  · rw [Bool.not_eq_true] at hpending
    obtain ⟨ticket, worker, hdone, hqueued⟩ :=
      scheduleCompaction_eq (hbusy hclosed) hclosed hnot hpending d
    rw [hdone, SingleFlight, hqueued.tasks]
    exact h.planned hpending _

/-- A write that fills the active buffer seals it at once, so that it never stays too large. -/
theorem SingleFlight.upsert (h : store.SingleFlight done)
    (hbusy : store.closed = false → store.Busy) (d : Disk) :
    (upsert e store d).1.2.SingleFlight done := by
  obtain ⟨outcome, hupsert, hcases⟩ := upsert_outcome h.flagged h.thawed hbusy e d
  rw [hupsert]
  cases hcases with
  | closed | unstorable | overload => exact h
  | written _ _ _ _ hthawed hroom => exact h.written hthawed hroom
  | sealed _ _ _ _ _ _ hnone hqueued =>
    rw [SingleFlight, hqueued.tasks]
    exact h.sealed hnone _ _

/-- Handing over tasks neither stops the worker nor closes the store. -/
theorem stable_running (accepting closed : Bool) : Stable fun s _ =>
    s.worker.accepting = accepting ∧ s.worker.crashed = false ∧ s.closed = closed := by
  refine stable_of_worker id fun {s d} task hs => ?_
  obtain ⟨haccepting, hrunning, hclosed⟩ := hs
  cases accepting with
  | true =>
    obtain ⟨ticket, worker, hsubmit, hqueued⟩ :=
      Worker.submit_eq haccepting hrunning task.name task
    rw [hsubmit]
    exact ⟨hqueued.accepting.trans haccepting, hqueued.crashed.trans hrunning, hclosed⟩
  | false =>
    have hrefused : s.worker.submit task.name task = (.error .closed, s.worker) := by
      rw [Worker.submit, haccepting]
      rfl
    rw [hrefused]
    exact ⟨haccepting, hrunning, hclosed⟩

end Store

/-! ## Sessions -/

namespace Session

/-- A session whose store keeps book of its background work. -/
structure SingleFlight (done : List (Task × Except StoreError Unit)) (s : Session) : Prop where
  books : s.store.SingleFlight done
  accepting : s.store.worker.accepting = !s.store.closed
  running : s.store.worker.crashed = false

theorem SingleFlight.busy (h : s.SingleFlight done) (hopen : s.store.closed = false) :
    s.store.Busy := ⟨by rw [h.accepting, hopen]; rfl, h.running⟩

/-- An operation that does not wait for the worker. -/
theorem SingleFlight.after {α : Type} {x : StoreM α} (h : s.SingleFlight done)
    (hkeeps : ∀ accepting closed, Keeps (fun store _ => store.worker.accepting = accepting ∧
      store.worker.crashed = false ∧ store.closed = closed) x)
    (hbooks : (x s.store s.disk).1.2.SingleFlight done) : (s.after x).SingleFlight done := by
  obtain ⟨haccepting, hrunning, hclosed⟩ :=
    hkeeps _ _ s.store s.disk ⟨h.accepting, h.running, rfl⟩
  exact ⟨hbooks, haccepting.trans (congrArg not hclosed).symm, hrunning⟩

theorem SingleFlight.scheduleFlush (h : s.SingleFlight done) :
    (s.after Store.scheduleFlush).SingleFlight done :=
  h.after (fun a b => (Store.stable_running a b).scheduleFlush)
    (h.books.scheduleFlush h.busy s.disk)

theorem SingleFlight.scheduleCompaction (h : s.SingleFlight done) :
    (s.after Store.scheduleCompaction).SingleFlight done :=
  h.after (fun a b => (Store.stable_running a b).scheduleCompaction)
    (h.books.scheduleCompaction h.busy s.disk)

theorem SingleFlight.waitForBackground (h : s.SingleFlight done)
    (hopen : s.store.closed = false) : (s.step .waitForBackground).SingleFlight
      (done ++ Task.outcomes (s.store.worker.tasks ++ [.barrier]) (s.store.core, s.disk)) := by
  obtain ⟨result, worker, hdrained, -, hdone⟩ :=
    Store.waitForBackground_eq (h.busy hopen) s.disk
  rw [step, Session.after, hdone]
  refine ⟨?_, hdrained.accepting.trans h.accepting, hdrained.crashed.trans h.running⟩
  have hbooks := (Core.SingleFlight.barrier h.books).effects s.disk
  rw [Task.effects_barrier] at hbooks
  rw [Store.SingleFlight, hdrained.tasks]
  exact hbooks

theorem SingleFlight.step (h : s.SingleFlight done) {event : Event} (hkeeps : event.KeepsStore) :
    (s.step event).SingleFlight (done ++ s.performed event) := by
  have hsame {s' : Session} (h' : s'.SingleFlight done) : s'.SingleFlight (done ++ []) := by
    rwa [List.append_nil]
  cases event with
  | upsert e =>
    refine hsame ?_
    have hafter : (s.after (Store.upsert e)).SingleFlight done :=
      h.after (fun a b => (Store.stable_running a b).upsert fun _ hs => hs)
        (h.books.upsert h.busy s.disk)
    show (s.upsert e).SingleFlight done
    rw [upsert]
    split
    · exact { hafter with }
    · exact hafter
  | flush =>
    rw [Session.step, Store.flush, Layers.after_discard]
    exact hsame h.scheduleFlush
  | compact =>
    rw [Session.step, Store.compact, Layers.after_discard]
    exact hsame h.scheduleCompaction
  | scheduleFlush => exact hsame h.scheduleFlush
  | scheduleCompaction => exact hsame h.scheduleCompaction
  | waitForBackground =>
    rw [performed]
    split
    · next hopen =>
      rw [h.accepting, Bool.not_eq_true'] at hopen
      exact h.waitForBackground hopen
    · next hclosed =>
      rw [Bool.not_eq_true] at hclosed
      rw [step_waitForBackground_of_closed hclosed]
      exact hsame h
  | status =>
    rw [step_status]
    exact hsame ⟨h.books, h.accepting, h.running⟩
  | close =>
    rw [performed]
    split
    · next hclosed =>
      rw [step_close_of_closed hclosed]
      exact hsame h
    · next hopen =>
      rw [Bool.not_eq_true] at hopen
      have hwaited := h.waitForBackground hopen
      have hclosing := hwaited.scheduleFlush
      obtain ⟨htasks, haccepting, hcrashed, -⟩ := s.closing.dismissed_spec
      rw [step_close hopen, ← List.append_assoc]
      refine ⟨?_, haccepting, hcrashed.trans hclosing.running⟩
      show Core.SingleFlight _ s.closing.dismissed.tasks _
      rw [htasks]
      exact Core.SingleFlight.effects hclosing.books _
  | runNext =>
    rw [performed]
    cases htasks : s.store.worker.tasks with
    | nil =>
      rw [step_runNext_of_idle htasks]
      exact hsame h
    | cons task tasks =>
      obtain ⟨worker, hdone, htasks', haccepting, hcrashed, -⟩ :=
        Store.runNext_eq s.store s.disk htasks
      have hbooks : s.store.core.SingleFlight (task :: tasks) done := htasks ▸ h.books
      rw [Session.step, hdone]
      refine ⟨?_, haccepting.trans h.accepting, hcrashed.trans h.running⟩
      rw [Store.SingleFlight, htasks']
      exact hbooks.effect s.disk
  | reopen process config => cases hkeeps

theorem SingleFlight.run (h : s.SingleFlight done) {events : List Event}
    (hkeeps : ∀ event ∈ events, event.KeepsStore) :
    (s.run events).SingleFlight (done ++ s.journal events) := by
  induction events generalizing s done with
  | nil =>
    rw [journal, List.append_nil]
    exact h
  | cons event events ih =>
    rw [journal, ← List.append_assoc]
    exact ih (h.step (hkeeps event List.mem_cons_self)) fun event hmem =>
      hkeeps event (List.mem_cons_of_mem _ hmem)

/-! ## The journal -/

/-- The results that the worker keeps, newest first. -/
def results (s : Session) : List (Except StoreError Unit) :=
  s.store.worker.results.map Prod.snd

theorem results_after {α : Type} {x : StoreM α} (s : Session)
    (hkeeps : ∀ results, Keeps (fun store _ => store.worker.results = results) x) :
    (s.after x).results = s.results :=
  congrArg (List.map Prod.snd) (hkeeps _ s.store s.disk rfl)

end Session

namespace Worker

theorem results_submit (w : Worker Task) (name : String) (task : Task) :
    (w.submit name task).2.results = w.results := by
  rw [submit]
  split
  · rfl
  · dsimp only
    split <;> rfl

theorem results_step (w : Worker Task) (shared : Core × Disk) {task : Task} {tasks : List Task}
    (h : w.tasks = task :: tasks) : (w.step Task.execute shared).1.results.map Prod.snd =
      task.result shared :: w.results.map Prod.snd := by
  obtain ⟨job, queue, hqueue, rfl, rfl⟩ := List.map_eq_cons_iff.mp h
  rw [step, hqueue]
  rfl

theorem results_drain (w : Worker Task) (shared : Core × Disk) :
    (w.drain Task.execute shared).1.results.map Prod.snd =
      ((Task.outcomes w.tasks shared).map Prod.snd).reverse ++ w.results.map Prod.snd := by
  generalize htasks : w.tasks = tasks
  induction tasks generalizing w shared with
  | nil =>
    rw [drain.eq_def]
    split
    · rfl
    · next hcons => simp [Worker.tasks, hcons] at htasks
  | cons task tasks ih =>
    obtain ⟨w₁, hstep, htasks₁, -⟩ := w.step_eq shared htasks
    have hresults := w.results_step shared htasks
    rw [drain.eq_def]
    split
    · next hnil => simp [Worker.tasks, hnil] at htasks
    · rw [hstep] at hresults
      simp only [hstep, ih w₁ _ htasks₁, hresults, Task.outcomes, List.map_cons, List.reverse_cons,
        List.append_assoc, List.singleton_append]

end Worker

namespace Store

theorem stable_results (results : List (Nat × Except StoreError Unit)) :
    Stable fun s _ => s.worker.results = results :=
  stable_of_worker id fun task hs => (Worker.results_submit _ _ task).trans hs

end Store

namespace Session

theorem SingleFlight.results_waitForBackground (h : s.SingleFlight done)
    (hopen : s.store.closed = false) : (s.step .waitForBackground).results =
      ((Task.outcomes (s.store.worker.tasks ++ [.barrier]) (s.store.core, s.disk)).map
        Prod.snd).reverse ++ s.results := by
  obtain ⟨ticket, worker, hsubmit, hqueued⟩ := Store.submit_eq (h.busy hopen) .barrier s.disk
  have hsame : worker.results.map Prod.snd = s.results := by
    have hkept := (Store.stable_results _).submit .barrier s.store s.disk rfl
    rw [hsubmit] at hkept
    exact congrArg (List.map Prod.snd) hkept
  rw [Session.step, Session.after, Store.waitForBackground, bind_of_ok hsubmit, ← hqueued.tasks,
    ← hsame]
  exact worker.results_drain _

/-- The worker keeps the results of what an event has it do. -/
theorem SingleFlight.results_step (h : s.SingleFlight done) {event : Event}
    (hkeeps : event.KeepsStore) :
    (s.step event).results = ((s.performed event).map Prod.snd).reverse ++ s.results := by
  cases event with
  | upsert e =>
    show (s.upsert e).store.worker.results.map Prod.snd = _
    rw [store_upsert]
    exact s.results_after fun _ => (Store.stable_results _).upsert fun _ hs => hs
  | flush => exact s.results_after fun _ => (Store.stable_results _).scheduleFlush.map _
  | compact => exact s.results_after fun _ => (Store.stable_results _).scheduleCompaction.map _
  | scheduleFlush => exact s.results_after fun _ => (Store.stable_results _).scheduleFlush
  | scheduleCompaction =>
    exact s.results_after fun _ => (Store.stable_results _).scheduleCompaction
  | waitForBackground =>
    rw [performed]
    split
    · next hopen =>
      rw [h.accepting, Bool.not_eq_true'] at hopen
      exact h.results_waitForBackground hopen
    · next hclosed =>
      rw [Bool.not_eq_true] at hclosed
      rw [step_waitForBackground_of_closed hclosed]
      rfl
  | status =>
    rw [step_status]
    rfl
  | close =>
    rw [performed]
    split
    · next hclosed =>
      rw [step_close_of_closed hclosed]
      rfl
    · next hopen =>
      rw [Bool.not_eq_true] at hopen
      have hclosing : s.closing.results = (s.step .waitForBackground).results :=
        (s.step .waitForBackground).results_after fun _ => (Store.stable_results _).scheduleFlush
      have hdrained := s.closing.store.worker.stopAccepting.results_drain
        (s.closing.store.core, s.closing.disk)
      rw [step_close hopen, List.map_append, List.reverse_append, List.append_assoc,
        ← h.results_waitForBackground hopen, ← hclosing]
      exact hdrained
  | runNext =>
    rw [performed]
    cases htasks : s.store.worker.tasks with
    | nil =>
      rw [step_runNext_of_idle htasks]
      rfl
    | cons task tasks => exact s.store.worker.results_step _ htasks
  | reopen process config => cases hkeeps

end Session

end LayeredStore
