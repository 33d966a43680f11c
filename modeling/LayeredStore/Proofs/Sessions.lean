import LayeredStore.Proofs.HeldLayers

/-!
# Sessions

A `Session` is a store together with the disk that it is on. `Session.step` lets happen to it what
an event says, by the operations of the store themselves, and keeps the writes that were accepted.

* `Task.effects` : what some tasks do, one after the other; a worker that drains its queue does
  just that, and keeps a failure if not all of them succeed (`Worker.drain_eq`).
* `HeldBy.effects` : tasks that succeed do to the core and the disk what they do to the layers, and
  if one does not, a fault struck.
-/

namespace LayeredStore

open Disk Generation

/-! ## Tasks -/

/-- The core and the disk after a task. -/
def Task.effect (task : Task) (s : Core × Disk) : Core × Disk :=
  ((task.run s.1 s.2).1.2, (task.run s.1 s.2).2)

/-- How a task ends. -/
def Task.result (task : Task) (s : Core × Disk) : Except StoreError Unit := (task.run s.1 s.2).1.1

/-- The core and the disk after some tasks. -/
def Task.effects (tasks : List Task) (s : Core × Disk) : Core × Disk :=
  tasks.foldl (fun s task => task.effect s) s

/-- All of some tasks succeed, one after the other. -/
def Task.Succeed : List Task → Core × Disk → Prop
  | [], _ => True
  | task :: tasks, s => task.result s = .ok () ∧ Succeed tasks (task.effect s)

/-- The tasks that wait in a store. -/
def Worker.tasks (w : Worker Task) : List Task := w.queue.map Job.work

theorem Task.effects_barrier (tasks : List Task) (s : Core × Disk) :
    Task.effects (tasks ++ [.barrier]) s = Task.effects tasks s := by
  rw [Task.effects, List.foldl_append]
  rfl

theorem Task.succeed_barrier (tasks : List Task) (s : Core × Disk) :
    Task.Succeed (tasks ++ [.barrier]) s ↔ Task.Succeed tasks s := by
  induction tasks generalizing s with
  | nil => exact ⟨fun _ => trivial, fun _ => ⟨rfl, trivial⟩⟩
  | cons task tasks ih => exact and_congr_right fun _ => ih _

/-- A worker that goes on after its queue has run out. -/
structure Worker.Drained (w w' : Worker Task) : Prop where
  tasks : w'.tasks = []
  accepting : w'.accepting = w.accepting
  crashed : w'.crashed = w.crashed

/-- A worker does its first task. -/
theorem Worker.step_eq (w : Worker Task) (s : Core × Disk) {task : Task} {tasks : List Task}
    (h : w.tasks = task :: tasks) :
    ∃ w', w.step Task.execute s = (w', task.effect s) ∧ w'.tasks = tasks ∧
      w'.accepting = w.accepting ∧ w'.crashed = w.crashed ∧
      (w'.failure = none ↔ w.failure = none ∧ task.result s = .ok ()) := by
  obtain ⟨job, queue, hqueue, rfl, rfl⟩ := List.map_eq_cons_iff.mp h
  rw [step, hqueue]
  refine ⟨_, rfl, rfl, rfl, rfl, ?_⟩
  show (record _ job.ticket (.finished (job.work.result s))).failure = none ↔ _
  cases job.work.result s with
  | ok => simp [record]
  | error e => simp [record]

theorem Worker.step_of_idle {w : Worker Task} (h : w.tasks = []) (s : Core × Disk) :
    w.step Task.execute s = (w, s) := by
  rw [step, List.map_eq_nil_iff.mp h]

theorem Worker.drain_eq (w : Worker Task) (s : Core × Disk) :
    ∃ w', w.drain Task.execute s = (w', Task.effects w.tasks s) ∧ w.Drained w' ∧
      (w'.failure = none ↔ w.failure = none ∧ Task.Succeed w.tasks s) := by
  generalize htasks : w.tasks = tasks
  induction tasks generalizing w s with
  | nil =>
    refine ⟨w, ?_, ⟨htasks, rfl, rfl⟩, by simp [Task.Succeed]⟩
    rw [drain.eq_def]
    split
    · rfl
    · next hcons => simp [Worker.tasks, hcons] at htasks
  | cons task tasks ih =>
    obtain ⟨w₁, hstep, htasks₁, haccepting, hcrashed, hfailure⟩ := w.step_eq s htasks
    obtain ⟨w', hdrain, hdrained, hfailure'⟩ := ih w₁ (task.effect s) htasks₁
    refine ⟨w', ?_, ⟨hdrained.tasks, hdrained.accepting.trans haccepting,
      hdrained.crashed.trans hcrashed⟩, ?_⟩
    · rw [drain.eq_def]
      split
      · next hnil => simp [Worker.tasks, hnil] at htasks
      · simp only [hstep, hdrain]
        rfl
    · rw [hfailure', hfailure, Task.Succeed, and_assoc]

/-! ## Tasks and layers -/

theorem Task.run_flush (id : Nat) (c : Core) (d : Disk) : (Task.flush id).run c d =
    (((Core.flushBuffer id c d).1.1.mapError .persistence, (Core.flushBuffer id c d).1.2),
      (Core.flushBuffer id c d).2) := rfl

theorem Task.run_compaction {c : Core} {planned : Nat} (hplanned : c.isLive planned = true)
    (d : Disk) : (Task.compaction planned).run c d =
      (((Core.compactRuns c d).1.1.mapError .compaction,
        (Core.compactRuns c d).1.2.clearCompaction), (Core.compactRuns c d).2) := by
  rw [Task.run]
  simp only [hplanned, if_true]
  generalize Core.compactRuns c d = result
  rfl

/-- A task is to a core what a chore is to layers. -/
inductive Task.Does (c : Core) : Task → Chore → Prop
  | flush {id : Nat} (h : c.flushing = some id) : Does c (.flush id) .flush
  | compaction {planned : Nat} (h : planned < c.generations.size) :
      Does c (.compaction planned) (.compaction (c.isLive planned))

/-- Tasks that wait are not touched by a change of the core that leaves alone what they refer to. -/
theorem Task.Does.congr {c c' : Core} {tasks : List Task} {queue : List Chore}
    (h : List.Forall₂ (Does c) tasks queue)
    (hflushing : Chore.flush ∈ queue → c'.flushing = c.flushing)
    (hlive : (∃ chore ∈ queue, chore.isCompaction = true) → ∀ {planned : Nat},
      planned < c.generations.size →
        planned < c'.generations.size ∧ c'.isLive planned = c.isLive planned) :
    List.Forall₂ (Does c') tasks queue := by
  induction h with
  | nil => exact .nil
  | cons hfirst _ ih =>
    refine .cons ?_ (ih (fun hmem => hflushing (List.mem_cons_of_mem _ hmem)) ?_)
    · cases hfirst with
      | flush hid => exact .flush ((hflushing List.mem_cons_self).trans hid)
      | compaction hlt =>
        obtain ⟨hlt', hsame⟩ := hlive ⟨_, List.mem_cons_self, rfl⟩ hlt
        rw [← hsame]
        exact .compaction hlt'
    · rintro ⟨chore, hmem, hchore⟩
      exact hlive ⟨chore, List.mem_cons_of_mem _ hmem, hchore⟩

theorem Core.isLive_current (c : Core) : c.isLive c.current = c.generation.live := by
  rw [isLive, Array.getElem?_eq_getElem c.current_lt]
  rfl

namespace Layers

variable {l : Layers} {c : Core} {d : Disk} {place : Path} {tasks : List Task}

/-- Some tasks are those that wait in the layers. -/
structure Awaits (l : Layers) (c : Core) (tasks : List Task) : Prop where
  does : List.Forall₂ (Task.Does c) tasks l.queue
  pending : c.compactionPending = l.queue.any Chore.isCompaction

theorem Awaits.queue_eq_nil (h : l.Awaits c []) : l.queue = [] :=
  List.forall₂_nil_left_iff.mp h.does

theorem Awaits.queue_eq_cons {task : Task} (h : l.Awaits c (task :: tasks)) :
    ∃ chore queue, l.queue = chore :: queue := by
  obtain ⟨chore, queue, -, -, hqueue⟩ := List.forall₂_cons_left_iff.mp h.does
  exact ⟨chore, queue, hqueue⟩

/-- The layers do not depend on their queue. -/
theorem HeldBy.requeue (h : l.HeldBy c d place) (queue : List Chore) :
    ({ l with queue } : Layers).HeldBy c d place where
  toStoredIn := { h.toStoredIn with left := h.left }
  toBufferedBy := { h.toBufferedBy with bytes := h.bytes }
  toReadBy := { h.toReadBy with live := h.live }

theorem HeldBy.clearCompaction (h : l.HeldBy c d place) : l.HeldBy c.clearCompaction d place where
  toStoredIn := h.toStoredIn
  toBufferedBy := { h.toBufferedBy with flushing := h.flushing }
  toReadBy := { h.toReadBy with live := h.live }

theorem isLive_install (c : Core) (g : Generation) {planned : Nat}
    (h : planned < c.generations.size) : (c.install g).isLive planned = c.isLive planned := by
  rw [Core.isLive, Core.isLive, Core.install, Array.getElem?_push, if_neg (Nat.ne_of_lt h)]

theorem size_install (c : Core) (g : Generation) :
    (c.install g).generations.size = c.generations.size + 1 := Array.size_push _

/-- After a flush, the tasks that still wait are compactions. -/
theorem Awaits.flushed {queue : List Chore} (hdoes : List.Forall₂ (Task.Does c) tasks queue)
    (hnone : Chore.flush ∉ queue) (g : Generation) :
    List.Forall₂ (Task.Does (c.publishFlush g)) tasks queue := by
  refine Task.Does.congr hdoes (fun hmem => absurd hmem hnone) fun _ {planned} hlt => ⟨?_, ?_⟩
  · show planned < (c.install g).generations.size
    rw [size_install]
    exact Nat.lt_succ_of_lt hlt
  · exact isLive_install c g hlt

/-- After a compaction, the task that still waits is a flush. -/
theorem Awaits.compacted {queue : List Chore} {c' : Core}
    (hdoes : List.Forall₂ (Task.Does c) tasks queue)
    (hnone : ∀ chore ∈ queue, chore.isCompaction = false) (hflushing : c'.flushing = c.flushing) :
    List.Forall₂ (Task.Does c') tasks queue := by
  refine Task.Does.congr hdoes (fun _ => hflushing) ?_
  rintro ⟨chore, hmem, hchore⟩
  rw [hnone chore hmem] at hchore
  cases hchore

/-- A task that succeeds does to the core and the disk what it does to the layers. If it does not
succeed, a fault struck. -/
theorem HeldBy.effect (h : l.HeldBy c d place) (hsane : l.Sane) (htruthful : d.Truthful)
    {task : Task} (hawaits : l.Awaits c (task :: tasks))
    (hwithin : (task.effect (c, d)).1.Within (task.effect (c, d)).2) :
    task.result (c, d) = .ok () ∧ (l.work.HeldBy (task.effect (c, d)).1 (task.effect (c, d)).2 place ∧
        l.work.Awaits (task.effect (c, d)).1 tasks ∧ Works place d (task.effect (c, d)).2 ∧
        (task.effect (c, d)).1.config = c.config) ∨
      task.result (c, d) ≠ .ok () ∧ ¬ d.Faultless := by
  obtain ⟨hdoes, hpending⟩ := hawaits
  generalize hqueue : l.queue = chores at hdoes hpending
  cases hdoes with
  | @cons _ _ _ queue hfirst hrest =>
    rw [work_of_cons hqueue]
    cases hfirst with
    | @flush id hid =>
      obtain ⟨⟨log, hlog⟩, hnone⟩ := hsane.flushing_of_cons hqueue
      rcases h.flushBuffer hsane hlog hid hwithin with
        ⟨g, d', hdone, hheld, hworks⟩ | ⟨⟨e, herror⟩, hfaulty⟩
      · rw [Task.effect, Task.result, Task.run_flush, hdone]
        exact .inl ⟨rfl, hheld.requeue _, ⟨Awaits.flushed hrest hnone g, hpending⟩, hworks, rfl⟩
      · refine .inr ⟨?_, hfaulty⟩
        rw [Task.result, Task.run_flush, herror]
        exact nofun
    | @compaction planned _ =>
      have hnone := hsane.notMem_of_cons hqueue
      have hidle : false = queue.any Chore.isCompaction :=
        (List.any_eq_false.mpr fun chore hmem => by simp [hnone chore hmem]).symm
      by_cases hplanned : c.isLive planned = true
      · have hlive := hsane.live_of_planned (by rw [hqueue, hplanned]; exact List.mem_cons_self)
        have hrun := Task.run_compaction hplanned d
        rw [Task.effect, hrun] at hwithin
        rw [Task.effect, Task.result, hrun]
        rcases h.compactRuns hsane htruthful hlive ⟨hwithin.ids, hwithin.lengths⟩ with
          ⟨c', d', hdone, hc', hheld, hworks⟩ | ⟨⟨e, herror⟩, hfaulty⟩
        · rw [hdone, hplanned]
          obtain ⟨hflushing, hconfig⟩ : c'.flushing = c.flushing ∧ c'.config = c.config := by
            rcases hc' with rfl | ⟨next, rfl⟩ <;> exact ⟨rfl, rfl⟩
          exact .inl ⟨rfl, (hheld.requeue _).clearCompaction,
            ⟨Awaits.compacted hrest hnone hflushing, hidle⟩, hworks, hconfig⟩
        · rw [herror]
          exact .inr ⟨nofun, hfaulty⟩
      · -- a compaction that was planned for a generation that was given up does nothing
        have hrun : (Task.compaction planned).run c d = ((.ok (), c.clearCompaction), d) := by
          rw [Task.run]
          simp only [if_neg hplanned]
        rw [Task.effect, Task.result, hrun, (Bool.not_eq_true _).mp hplanned]
        exact .inl ⟨rfl, (h.requeue _).clearCompaction,
          ⟨Awaits.compacted hrest hnone rfl, hidle⟩, Works.refl place d, rfl⟩

/-- The tasks that wait, all done. -/
theorem HeldBy.effects (h : l.HeldBy c d place) (hsane : l.Sane) (htruthful : d.Truthful)
    (hawaits : l.Awaits c tasks)
    (hwithin : ∀ n, n < tasks.length → (Task.effects (tasks.take (n + 1)) (c, d)).1.Within
      (Task.effects (tasks.take (n + 1)) (c, d)).2) :
    Task.Succeed tasks (c, d) ∧
        (l.workAll.HeldBy (Task.effects tasks (c, d)).1 (Task.effects tasks (c, d)).2 place ∧
          l.workAll.Awaits (Task.effects tasks (c, d)).1 [] ∧
          Works place d (Task.effects tasks (c, d)).2 ∧
          (Task.effects tasks (c, d)).1.config = c.config) ∨
      ¬ Task.Succeed tasks (c, d) ∧ ¬ d.Faultless := by
  -- each task is done to the layers that the one before it has left
  induction tasks generalizing l c d with
  | nil =>
    rw [workAll_of_nil hawaits.queue_eq_nil]
    exact .inl ⟨trivial, h, hawaits, Works.refl place d, rfl⟩
  | cons task tasks ih =>
    rcases h.effect hsane htruthful hawaits (hwithin 0 (Nat.zero_lt_succ _)) with
      ⟨hok, hheld, hawaits', hworks, hconfig⟩ | ⟨hnot, hfaulty⟩
    swap
    · exact .inr ⟨fun hok => hnot hok.1, hfaulty⟩
    rcases ih hheld hsane.work (htruthful.evolves hworks.toEvolves) hawaits'
        (fun n hn => hwithin (n + 1) (Nat.succ_lt_succ hn)) with
      ⟨hok', hheld', hawaits'', hworks', hconfig'⟩ | ⟨hnot, hfaulty⟩
    swap
    · exact .inr ⟨fun hok => hnot hok.2,
        fun hfaultless => hfaulty (hfaultless.evolves hworks.toEvolves)⟩
    obtain ⟨chore, queue, hqueue⟩ := hawaits.queue_eq_cons
    rw [workAll_of_cons hqueue]
    exact .inl ⟨⟨hok, hok'⟩, hheld', hawaits'', hworks.trans hworks', hconfig'.trans hconfig⟩

end Layers

/-! ## Sessions -/

/-- A store with the disk that it is on, and the writes that it accepted, newest first. -/
structure Session where
  store : Store
  disk : Disk
  writes : List Write

namespace Session

/-- The session after an operation of the store. -/
def after {α : Type} (s : Session) (operation : StoreM α) : Session :=
  { s with store := (operation s.store s.disk).1.2, disk := (operation s.store s.disk).2 }

/-- The session after an attempt to write an entry. -/
def upsert (s : Session) (e : Entry) : Session :=
  match (Store.upsert e s.store s.disk).1.1 with
  | .ok () => { s.after (Store.upsert e) with writes := ⟨e, s.writes.length⟩ :: s.writes }
  | .error _ => s.after (Store.upsert e)

theorem store_upsert (s : Session) (e : Entry) :
    (s.upsert e).store = (Store.upsert e s.store s.disk).1.2 := by
  rw [upsert]
  split <;> rfl

theorem disk_upsert (s : Session) (e : Entry) :
    (s.upsert e).disk = (Store.upsert e s.store s.disk).2 := by
  rw [upsert]
  split <;> rfl

/-- The session after a process has tried to open the folder of the closed store. -/
def reopened (s : Session) (process : Nat) (config : Config) : Session :=
  if s.store.closed then
    match Store.openIn process config s.disk with
    | (.ok store, disk) => { s with store, disk }
    | (.error _, disk) => { s with disk }
  else s

/-- The session after an event. -/
def step (s : Session) : Event → Session
  | .upsert e => s.upsert e
  | .flush => s.after Store.flush
  | .compact => s.after Store.compact
  | .scheduleFlush => s.after Store.scheduleFlush
  | .scheduleCompaction => s.after Store.scheduleCompaction
  | .waitForBackground => s.after Store.waitForBackground
  | .status => s.after Store.status
  | .close => s.after Store.close
  | .runNext =>
    { s with store := (Store.runNext s.store s.disk).1.2, disk := (Store.runNext s.store s.disk).2 }
  | .reopen process config => s.reopened process config

/-- The session after some events. -/
def run (s : Session) (events : List Event) : Session := events.foldl step s

/-- The layers of the store and the disk stay below the limits. -/
def Within (s : Session) : Prop := s.store.core.Within s.disk

/-- The store stays below the limits while its worker does the tasks that wait. -/
def WorksWithin (s : Session) : Prop :=
  ∀ n, (Task.effects (s.store.worker.tasks.take n) (s.store.core, s.disk)).1.Within
    (Task.effects (s.store.worker.tasks.take n) (s.store.core, s.disk)).2

theorem worksWithin_iff {s : Session} : s.WorksWithin ↔ ∀ n ≤ s.store.worker.tasks.length,
    (Task.effects (s.store.worker.tasks.take n) (s.store.core, s.disk)).1.Within
      (Task.effects (s.store.worker.tasks.take n) (s.store.core, s.disk)).2 := by
  refine ⟨fun h n _ => h n, fun h n => ?_⟩
  rcases Nat.le_total n s.store.worker.tasks.length with hle | hle
  · exact h n hle
  · have := h _ (Nat.le_refl _)
    rwa [List.take_length, ← List.take_of_length_le hle] at this

instance (s : Session) : Decidable s.Within := inferInstanceAs (Decidable (s.store.core.Within _))

instance (s : Session) : Decidable s.WorksWithin := decidable_of_iff' _ worksWithin_iff

/-- The session stays below the limits during an event. -/
def StaysWithin (s : Session) (event : Event) : Prop :=
  match event with
  | .waitForBackground => s.WorksWithin
  | .close => (s.store.closed = false → s.WorksWithin) ∧ (s.step .close).Within
  | event => (s.step event).Within

instance (s : Session) : (event : Event) → Decidable (s.StaysWithin event)
  | .waitForBackground => inferInstanceAs (Decidable s.WorksWithin)
  | .close => inferInstanceAs (Decidable (_ ∧ _))
  | .upsert _ | .flush | .compact | .scheduleFlush | .scheduleCompaction | .status | .runNext
  | .reopen _ _ => inferInstanceAs (Decidable (Session.Within _))

end Session

/-- An event opens no other folder than that of the session, and with a block size for which the
offsets in a block fit. -/
def Event.Suits (dir : Path) : Event → Prop
  | .reopen _ config => config.dir = dir ∧ config.blockSize ≤ UInt32.size
  | _ => True

instance (dir : Path) : (event : Event) → Decidable (event.Suits dir)
  | .reopen _ _ => inferInstanceAs (Decidable (_ ∧ _))
  | .upsert _ | .flush | .compact | .scheduleFlush | .scheduleCompaction | .waitForBackground
  | .status | .close | .runNext => .isTrue trivial

/-- An event opens no other store. -/
def Event.KeepsStore : Event → Prop
  | .reopen _ _ => False
  | _ => True

instance : (event : Event) → Decidable event.KeepsStore
  | .reopen _ _ => .isFalse id
  | .upsert _ | .flush | .compact | .scheduleFlush | .scheduleCompaction | .waitForBackground
  | .status | .close | .runNext => .isTrue trivial

/-- Some events stay in one folder and below the limits. -/
def Session.Fits (dir : Path) : Session → List Event → Prop
  | _, [] => True
  | s, event :: events =>
    event.Suits dir ∧ s.StaysWithin event ∧ (s.step event).Fits dir events

instance Session.decidableFits (dir : Path) :
    (s : Session) → (events : List Event) → Decidable (s.Fits dir events)
  | _, [] => .isTrue trivial
  | s, event :: events =>
    have := decidableFits dir (s.step event) events
    inferInstanceAs (Decidable (_ ∧ _ ∧ _))

end LayeredStore
