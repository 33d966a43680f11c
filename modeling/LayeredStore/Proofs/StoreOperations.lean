import LayeredStore.Proofs.Sessions
import LayeredStore.Proofs.StoreInvariants

/-!
# The operations of a store

What each operation of an open store does to the core and to the worker. None of them touches the
disk, but for those that wait for the worker.

* `Store.triggerFlush_eq`, `Store.startFlush_eq` : sealing and queueing the flush.
* `Store.upsert_outcome` : writing. `Store.WriteOutcome` lists what may come of it.
* `Store.waitForBackground_eq` : letting the worker do what waits.
* `Core.flushBuffer_cases`, `Core.retains_compaction` : what a task leaves alone in the core.
* `Session.close_eq` : closing an open store is to wait, to start a flush, and to see the worker off.
* `Store.Discreet` : programs that leave the failure of the worker alone, in any state. Only a
  status report and closing take it away, and they report it (`Store.close_reports`).
-/

namespace LayeredStore

open StateProgram

variable {s : Store} {d : Disk} {c : Core}

/-! ## Sealing -/

/-- Freezing changes nothing else of a buffer, and happens once. -/
theorem Buffer.of_freeze {b frozen : Buffer} (h : b.freeze = .ok frozen) :
    b.frozen = false ∧ frozen = { b with frozen := true } := by
  rw [freeze] at h
  split at h
  · cases h
  · next hthawed =>
    cases h
    exact ⟨by simpa using hthawed, rfl⟩

namespace Core

/-- The core with the active buffer sealed. -/
def sealedWith (c : Core) (frozen : Buffer) : Core :=
  { c with
    active := .empty
    sealedBuffers := c.sealedBuffers.push frozen
    flushing := some c.activeId }

theorem activeId_lt_sealedWith (c : Core) (frozen : Buffer) :
    c.activeId < (c.sealedWith frozen).activeId := by
  show c.sealedBuffers.size < (c.sealedBuffers.push frozen).size
  rw [Array.size_push]
  exact Nat.lt_succ_self _

/-- The sealed buffer keeps its number. -/
theorem buffers_sealedWith (c : Core) (frozen : Buffer) :
    (c.sealedWith frozen).buffers c.activeId = frozen := by
  rw [buffers, if_neg (Nat.ne_of_lt (activeId_lt_sealedWith c frozen))]
  simp [sealedWith, activeId]

/-- The buffers that were sealed before keep their numbers too. -/
theorem buffers_sealedWith_of_lt (c : Core) (frozen : Buffer) {id : Nat} (hid : id < c.activeId) :
    (c.sealedWith frozen).buffers id = c.buffers id := by
  have hne : id ≠ (c.sealedWith frozen).activeId :=
    Nat.ne_of_lt (Nat.lt_trans hid (activeId_lt_sealedWith c frozen))
  rw [buffers, buffers, if_neg hne, if_neg (Nat.ne_of_lt hid)]
  show (c.sealedBuffers.push frozen).getD id .empty = _
  rw [Array.getD_eq_getD_getElem?, Array.getElem?_push,
    if_neg (show ¬ id = c.sealedBuffers.size from Nat.ne_of_lt hid), ← Array.getD_eq_getD_getElem?]

theorem sealActive_eq (hactive : c.active.isEmpty = false) (hflushing : c.flushing = none)
    (hthawed : c.active.frozen = false) :
    c.sealActive = .ok (some c.activeId, c.sealedWith { c.active with frozen := true }) := by
  rw [sealActive, hactive, hflushing, Buffer.freeze, hthawed]
  rfl

/-- An empty buffer is not sealed, and another one is frozen first. -/
theorem of_sealActive {buffer : Option Nat} {c' : Core} (h : c.sealActive = .ok (buffer, c')) :
    buffer = none ∧ c' = c ∨
      ∃ frozen, c.active.freeze = .ok frozen ∧ buffer = some c.activeId ∧ c' = c.sealedWith frozen := by
  rw [sealActive] at h
  split at h
  · cases h
    exact .inl ⟨rfl, rfl⟩
  split at h
  · cases h
  cases hfreeze : c.active.freeze with
  | error cause =>
    rw [hfreeze] at h
    cases h
  | ok frozen =>
    rw [hfreeze] at h
    cases h
    exact .inr ⟨frozen, rfl, rfl, rfl⟩

/-- A buffer that takes writes is refused only while another one waits. -/
theorem of_sealActive_eq_error (hthawed : c.active.frozen = false) {cause : StoreError}
    (h : c.sealActive = .error cause) :
    cause = .invalidState "Cannot seal while another buffer is being flushed" := by
  rw [sealActive] at h
  split at h
  · cases h
  split at h
  · cases h
    rfl
  · rw [Buffer.freeze, hthawed] at h
    cases h

end Core

namespace Worker

/-- A worker with one more task to do. -/
structure Queued (w w' : Worker Task) (task : Task) : Prop where
  tasks : w'.tasks = w.tasks ++ [task]
  accepting : w'.accepting = w.accepting
  crashed : w'.crashed = w.crashed

theorem submit_eq {w : Worker Task} (haccepting : w.accepting = true) (hcrashed : w.crashed = false)
    (name : String) (task : Task) :
    ∃ ticket w', w.submit name task = (.ok ticket, w') ∧ w.Queued w' task := by
  rw [submit, haccepting, hcrashed]
  refine ⟨_, _, rfl, ?_, haccepting.symm, hcrashed.symm⟩
  simp [tasks]

end Worker

namespace Store

/-- A store that still hands tasks to its worker. -/
structure Busy (s : Store) : Prop where
  accepting : s.worker.accepting = true
  running : s.worker.crashed = false

theorem submit_eq (hbusy : s.Busy) (task : Task) (d : Disk) :
    ∃ ticket worker, submit task s d = ((.ok ticket, { s with worker }), d) ∧
      s.worker.Queued worker task := by
  obtain ⟨ticket, worker, hsubmit, hqueued⟩ :=
    Worker.submit_eq hbusy.accepting hbusy.running task.name task
  refine ⟨ticket, worker, ?_, hqueued⟩
  rw [submit, hsubmit]

theorem triggerFlush_eq (hbusy : s.Busy) (hactive : s.core.active.isEmpty = false)
    (hflushing : s.core.flushing = none) (hthawed : s.core.active.frozen = false) (d : Disk) :
    ∃ ticket worker, triggerFlush s d = ((.ok ticket,
        { s with core := s.core.sealedWith { s.core.active with frozen := true }, worker }), d) ∧
      s.worker.Queued worker (.flush s.core.activeId) := by
  obtain ⟨ticket, worker, hsubmit, hqueued⟩ := submit_eq
    (s := { s with core := s.core.sealedWith { s.core.active with frozen := true } })
    ⟨hbusy.accepting, hbusy.running⟩ (.flush s.core.activeId) d
  refine ⟨some ticket, worker, ?_, hqueued⟩
  rw [triggerFlush, getThe_bind, Core.sealActive_eq hactive hflushing hthawed]
  show (modifyCore _ >>= fun _ => _) s d = _
  rw [modifyCore, modify_bind]
  exact map_of_ok hsubmit

theorem startFlush_of_not (h : (s.core.active.isEmpty || s.core.flushing.isSome) = true) (d : Disk) :
    startFlush s d = ((.ok none, s), d) := by
  rw [startFlush, getThe_bind, if_pos h]
  rfl

theorem startFlush_eq (hbusy : s.Busy) (hactive : s.core.active.isEmpty = false)
    (hflushing : s.core.flushing = none) (hthawed : s.core.active.frozen = false)
    (hflag : s.core.flushInFlight = false) (d : Disk) :
    ∃ ticket worker, startFlush s d = ((.ok ticket, { s with
        core := { s.core.sealedWith { s.core.active with frozen := true } with flushInFlight := true }
        worker }), d) ∧ s.worker.Queued worker (.flush s.core.activeId) := by
  obtain ⟨ticket, worker, htrigger, hqueued⟩ := triggerFlush_eq
    (s := { s with core := { s.core with flushInFlight := true } })
    ⟨hbusy.accepting, hbusy.running⟩ hactive hflushing hthawed d
  refine ⟨ticket, worker, ?_, hqueued⟩
  rw [startFlush, getThe_bind, if_neg (by simp [hactive, hflushing]), Core.markFlush, hflag]
  show (modifyCore _ >>= fun _ => _) s d = _
  rw [modifyCore, modify_bind]
  exact htrigger

/-! ## The operations -/

theorem ensureOpen_eq (hopen : s.closed = false) (d : Disk) : ensureOpen s d = ((.ok (), s), d) := by
  rw [ensureOpen, getThe_bind, hopen]
  rfl

theorem ensureOpen_of_closed (hclosed : s.closed = true) (d : Disk) :
    ensureOpen s d = ((.error .closed, s), d) := by
  rw [ensureOpen, getThe_bind, hclosed]
  rfl

theorem scheduleCompaction_of_not (hopen : s.closed = false)
    (h : s.core.generation.runs.length ≤ 1 ∧ s.core.active.isEmpty = true) (d : Disk) :
    scheduleCompaction s d = ((.ok none, s), d) := by
  rw [scheduleCompaction, bind_of_ok (ensureOpen_eq hopen d), getThe_bind, if_pos (by simpa using h)]
  rfl

theorem scheduleCompaction_of_pending (hopen : s.closed = false)
    (h : ¬ (s.core.generation.runs.length ≤ 1 ∧ s.core.active.isEmpty = true))
    (hpending : s.core.compactionPending = true) (d : Disk) :
    scheduleCompaction s d = ((.ok none, s), d) := by
  rw [scheduleCompaction, bind_of_ok (ensureOpen_eq hopen d), getThe_bind,
    if_neg (by simpa using h), Core.markCompaction, hpending]
  have hsame : ({ s.core with compactionPending := true } : Core) = s.core := by
    rw [← hpending]
  simp only [hsame]
  rfl

theorem scheduleCompaction_eq (hbusy : s.Busy) (hopen : s.closed = false)
    (h : ¬ (s.core.generation.runs.length ≤ 1 ∧ s.core.active.isEmpty = true))
    (hpending : s.core.compactionPending = false) (d : Disk) :
    ∃ ticket worker, scheduleCompaction s d = ((.ok ticket, { s with
        core := { s.core with compactionPending := true }
        worker }), d) ∧ s.worker.Queued worker (.compaction s.core.current) := by
  obtain ⟨ticket, worker, hsubmit, hqueued⟩ := submit_eq
    (s := { s with core := { s.core with compactionPending := true } })
    ⟨hbusy.accepting, hbusy.running⟩ (.compaction s.core.current) d
  refine ⟨some ticket, worker, ?_, hqueued⟩
  rw [scheduleCompaction, bind_of_ok (ensureOpen_eq hopen d), getThe_bind,
    if_neg (by simpa using h), Core.markCompaction, hpending]
  show (modifyCore _ >>= fun _ => _) s d = _
  rw [modifyCore, modify_bind]
  exact tryCatch_of_ok (map_of_ok hsubmit)

end Store

/-! ## Writing -/

theorem Buffer.put_eq {b : Buffer} (hthawed : b.frozen = false) (e : Entry) :
    ∃ b', b.put e = .ok b' ∧ b'.entries = insertEntry e b.entries ∧ b'.bytes = b.bytes + e.size ∧
      b'.frozen = false := by
  rw [put, hthawed]
  exact ⟨_, rfl, EntryTree.toList_insert b.ascending, rfl, rfl⟩

/-- What a write makes of a buffer, which is not frozen. -/
theorem Buffer.of_put {b b' : Buffer} {e : Entry} (h : b.put e = .ok b') :
    b.frozen = false ∧ b'.entries = insertEntry e b.entries ∧ b'.frozen = false := by
  have hthawed : b.frozen = false := by
    rw [← Bool.not_eq_true]
    intro hfrozen
    rw [put, if_pos hfrozen] at h
    cases h
  obtain ⟨other, hput, hentries, -, hfrozen⟩ := put_eq hthawed e
  obtain rfl : other = b' := Except.ok.inj (hput.symm.trans h)
  exact ⟨hthawed, hentries, hfrozen⟩

theorem insertEntry_ne_nil (e : Entry) (entries : List Entry) : insertEntry e entries ≠ [] := by
  cases entries with
  | nil => simp [insertEntry]
  | cons x rest =>
    rw [insertEntry]
    split <;> simp

namespace Core

/-- Whether an entry would fill the active buffer while the one before it still waits. -/
def overloads (c : Core) (e : Entry) : Bool :=
  c.config.flushThreshold < c.active.bytes + e.size && c.flushInFlight && c.flushing.isSome

theorem upsert_of_error {e : Entry} {cause : StoreError} (h : e.check = .error cause) :
    c.upsert e = .error cause := by
  rw [upsert, h]
  rfl

theorem upsert_of_overload {e : Entry} (hcheck : e.check = .ok ()) (h : c.overloads e = true) :
    c.upsert e = .error .overload := by
  rw [overloads] at h
  rw [upsert, hcheck]
  show (if _ then _ else _) = _
  rw [if_pos h]
  rfl

theorem upsert_eq {e : Entry} (hcheck : e.check = .ok ()) (h : c.overloads e = false)
    {active : Buffer} (hput : c.active.put e = .ok active) :
    c.upsert e = .ok (if c.config.flushThreshold < active.bytes then
      ({ c with active } : Core).markFlush else (false, { c with active })) := by
  rw [overloads] at h
  rw [upsert, hcheck]
  show (if _ then _ else _) = _
  rw [h, if_neg (by simp), hput]
  show (if c.config.flushThreshold < active.bytes then _ else _) = _
  split <;> rfl

/-- An entry that was accepted is in the active buffer, and the flag of a flush may be set. -/
theorem of_upsert {e : Entry} {due : Bool} {c' : Core} (h : c.upsert e = .ok (due, c')) :
    ∃ active flushInFlight, c.active.put e = .ok active ∧ c' = { c with active, flushInFlight } := by
  cases hcheck : e.check with
  | error cause =>
    rw [upsert_of_error hcheck] at h
    cases h
  | ok =>
    by_cases hover : c.overloads e = true
    · rw [upsert_of_overload hcheck hover] at h
      cases h
    rw [Bool.not_eq_true] at hover
    cases hput : c.active.put e with
    | error cause =>
      rw [overloads] at hover
      rw [upsert, hcheck] at h
      change (if _ then _ else _) = _ at h
      rw [if_neg (Bool.not_eq_true _ ▸ hover), hput] at h
      cases h
    | ok active =>
      rw [upsert_eq hcheck hover hput] at h
      split at h
      · cases h
        exact ⟨active, true, rfl, rfl⟩
      · cases h
        exact ⟨active, c.flushInFlight, rfl, rfl⟩

end Core

namespace Store

variable {e : Entry}

theorem upsert_of_closed (hclosed : s.closed = true) (d : Disk) :
    upsert e s d = ((.error .closed, s), d) := by
  rw [upsert, bind_of_error (ensureOpen_of_closed hclosed d)]

theorem upsert_of_error (hopen : s.closed = false) {cause : StoreError}
    (h : s.core.upsert e = .error cause) (d : Disk) :
    upsert e s d = ((.error cause, s), d) := by
  rw [upsert, bind_of_ok (ensureOpen_eq hopen d), getThe_bind, h]
  rfl

theorem upsert_of_quiet (hopen : s.closed = false) {core : Core}
    (h : s.core.upsert e = .ok (false, core)) (d : Disk) :
    upsert e s d = ((.ok (), { s with core }), d) := by
  rw [upsert, bind_of_ok (ensureOpen_eq hopen d), getThe_bind, h]
  rfl

theorem upsert_of_due (hopen : s.closed = false) {core : Core} {ticket : Option Ticket}
    {s' : Store} (h : s.core.upsert e = .ok (true, core))
    (htrigger : triggerFlush { s with core } d = ((.ok ticket, s'), d)) :
    upsert e s d = ((.ok (), s'), d) := by
  rw [upsert, bind_of_ok (ensureOpen_eq hopen d), getThe_bind, h]
  exact discard_of_ok htrigger

/-- An entry would fill the active buffer while the one before it still waits. -/
def Overloaded (s : Store) (e : Entry) : Prop :=
  s.core.flushing.isSome = true ∧ s.core.config.flushThreshold < s.core.active.bytes + e.size

/-- What comes of a write of an entry to a store: the answer, and the store after it. -/
inductive WriteOutcome (e : Entry) (s : Store) : Except StoreError Unit × Store → Prop where
  | closed (h : s.closed = true) : WriteOutcome e s (.error .closed, s)
  | unstorable {cause : StoreError} (hopen : s.closed = false) (h : e.check = .error cause) :
    WriteOutcome e s (.error cause, s)
  | overload (hopen : s.closed = false) (hcheck : e.check = .ok ()) (hover : s.Overloaded e) :
    WriteOutcome e s (.error .overload, s)
  /-- The active buffer has room left. -/
  | written {active : Buffer} (hopen : s.closed = false) (hcheck : e.check = .ok ())
    (hentries : active.entries = insertEntry e s.core.active.entries)
    (hbytes : active.bytes = s.core.active.bytes + e.size) (hthawed : active.frozen = false)
    (hroom : active.bytes ≤ s.core.config.flushThreshold) :
    WriteOutcome e s (.ok (), { s with core := { s.core with active } })
  /-- The active buffer has become too large, so that it is sealed and its flush waits. -/
  | sealed {active : Buffer} {worker : Worker Task} (hopen : s.closed = false)
    (hcheck : e.check = .ok ()) (hentries : active.entries = insertEntry e s.core.active.entries)
    (hbytes : active.bytes = s.core.active.bytes + e.size) (hthawed : active.frozen = false)
    (hfull : s.core.config.flushThreshold < active.bytes) (hnone : s.core.flushing = none)
    (hqueued : s.worker.Queued worker (.flush s.core.activeId)) :
    WriteOutcome e s (.ok (), { s with
      core := { ({ s.core with active } : Core).sealedWith { active with frozen := true } with
        flushInFlight := true }
      worker })

/-- A write to a store that keeps book of its flush and hands tasks to its worker while it is open. It
does not get to the disk, and what was accepted can always be sealed. -/
theorem upsert_outcome (hflagged : s.core.flushInFlight = s.core.flushing.isSome)
    (hthawed : s.core.active.frozen = false) (hbusy : s.closed = false → s.Busy) (e : Entry)
    (d : Disk) : ∃ outcome, upsert e s d = (outcome, d) ∧ s.WriteOutcome e outcome := by
  by_cases hclosed : s.closed = true
  · exact ⟨_, upsert_of_closed hclosed d, .closed hclosed⟩
  rw [Bool.not_eq_true] at hclosed
  cases hcheck : e.check with
  | error cause =>
    exact ⟨_, upsert_of_error hclosed (Core.upsert_of_error hcheck) d, .unstorable hclosed hcheck⟩
  | ok =>
    by_cases hover : s.core.overloads e = true
    · refine ⟨_, upsert_of_error hclosed (Core.upsert_of_overload hcheck hover) d, ?_⟩
      rw [Core.overloads, hflagged, Bool.and_assoc, Bool.and_self, Bool.and_eq_true,
        decide_eq_true_eq] at hover
      exact .overload hclosed hcheck hover.symm
    rw [Bool.not_eq_true] at hover
    obtain ⟨active, hput, hentries, hbytes, hthawed'⟩ := Buffer.put_eq hthawed e
    have hupsert := Core.upsert_eq hcheck hover hput
    by_cases hdue : s.core.config.flushThreshold < active.bytes
    · have hfull : s.core.config.flushThreshold < s.core.active.bytes + e.size := hbytes ▸ hdue
      -- a buffer that still waits would have had the write refused
      have hnone : s.core.flushing = none := by
        rw [Core.overloads, hflagged] at hover
        simpa [hfull] using hover
      have hmark : ({ s.core with active } : Core).markFlush =
          (true, { s.core with active, flushInFlight := true }) := by
        have hclear : s.core.flushInFlight = false := by
          rw [hflagged, hnone]
          rfl
        rw [Core.markFlush, hclear]
        rfl
      have hactive : active.isEmpty = false := by
        rw [← Bool.not_eq_true, ← Buffer.entries_eq_nil_iff, hentries]
        exact insertEntry_ne_nil e _
      have hstill := hbusy hclosed
      obtain ⟨ticket, worker, htrigger, hqueued⟩ := triggerFlush_eq
        (s := { s with core := { s.core with active, flushInFlight := true } })
        ⟨hstill.accepting, hstill.running⟩ hactive hnone hthawed' d
      rw [if_pos hdue, hmark] at hupsert
      exact ⟨_, upsert_of_due hclosed hupsert htrigger,
        .sealed hclosed hcheck hentries hbytes hthawed' hdue hnone hqueued⟩
    · rw [if_neg hdue] at hupsert
      exact ⟨_, upsert_of_quiet hclosed hupsert d,
        .written hclosed hcheck hentries hbytes hthawed' (Nat.le_of_not_lt hdue)⟩

namespace WriteOutcome

variable {answer : Except StoreError Unit} {after : Store}

/-- The answer tells for which reason an entry was refused, if it was. -/
theorem answer_iff (h : s.WriteOutcome e (answer, after)) :
    (answer = .error .closed ↔ s.closed = true) ∧
      ((∃ text, answer = .error (.invalidOperation text)) ↔ s.closed = false ∧ ¬ e.Storable) ∧
      (answer = .error .overload ↔ s.closed = false ∧ e.Storable ∧ s.Overloaded e) ∧
      (answer = .ok () ↔ s.closed = false ∧ e.Storable ∧ ¬ s.Overloaded e) := by
  cases h with
  | closed hclosed => simp [hclosed]
  | unstorable hopen hcheck =>
    obtain ⟨hnot, text, rfl⟩ := Entry.of_check_eq_error hcheck
    simp [hopen, hnot]
  | overload hopen hcheck hover =>
    have hstorable := Entry.check_eq_ok_iff.mp hcheck
    simp [hopen, hstorable, hover]
  | written hopen hcheck hentries hbytes hthawed hroom =>
    have hstorable := Entry.check_eq_ok_iff.mp hcheck
    have hroom' : ¬ s.core.config.flushThreshold < s.core.active.bytes + e.size :=
      Nat.not_lt.mpr (hbytes ▸ hroom)
    simp [hopen, hstorable, Overloaded, hroom']
  | sealed hopen hcheck hentries hbytes hthawed hfull hnone =>
    have hstorable := Entry.check_eq_ok_iff.mp hcheck
    simp [hopen, hstorable, Overloaded, hnone]

/-- A write that is refused changes nothing. -/
theorem unchanged (h : s.WriteOutcome e (answer, after)) (hrefused : answer ≠ .ok ()) :
    after = s := by
  cases h with
  | closed | unstorable | overload => rfl
  | written | sealed => exact absurd rfl hrefused

end WriteOutcome

/-! ## The failure that nobody has asked for -/

/-- A program leaves the failure of the worker alone, and an open store open. -/
def Discreet {α : Type} (x : StoreM α) : Prop :=
  ∀ s d, (x s d).1.2.worker.failure = s.worker.failure ∧ (x s d).1.2.closed = s.closed

theorem Discreet.of_keeps {α : Type} {x : StoreM α} (h : ∀ failure closed,
    Keeps (fun s _ => s.worker.failure = failure ∧ s.closed = closed) x) : Discreet x :=
  fun s d => h _ _ s d ⟨rfl, rfl⟩

theorem Discreet.map {α β : Type} {x : StoreM α} (h : Discreet x) (g : α → β) :
    Discreet (g <$> x) :=
  .of_keeps fun _ _ => Keeps.map (fun s d hs => ⟨(h s d).1.trans hs.1, (h s d).2.trans hs.2⟩) g

/-- Handing over a task reports nothing, and whatever becomes of the core is not looked at. -/
theorem stable_discreet (failure : Option Failure) (closed : Bool) :
    Stable fun s _ => s.worker.failure = failure ∧ s.closed = closed := by
  refine stable_of_worker id fun {s d} task hs => ⟨?_, hs.2⟩
  rw [← hs.1, Worker.submit]
  split
  · rfl
  · dsimp only
    split <;> rfl

theorem discreet_submit (task : Task) : Discreet (submit task) :=
  .of_keeps fun _ _ => (stable_discreet _ _).submit task

theorem discreet_scheduleFlush : Discreet scheduleFlush :=
  .of_keeps fun _ _ => (stable_discreet _ _).scheduleFlush

theorem discreet_scheduleCompaction : Discreet scheduleCompaction :=
  .of_keeps fun _ _ => (stable_discreet _ _).scheduleCompaction

theorem discreet_upsert (e : Entry) : Discreet (upsert e) :=
  .of_keeps fun _ _ => (stable_discreet _ _).upsert fun _ hs => hs

/-! ## Waiting for the worker -/

/-- The worker of a store does the first task that waits. -/
theorem runNext_eq (s : Store) (d : Disk) {task : Task} {tasks : List Task}
    (h : s.worker.tasks = task :: tasks) : ∃ worker,
    runNext s d = (((), { s with core := (task.effect (s.core, d)).1, worker }),
      (task.effect (s.core, d)).2) ∧
    worker.tasks = tasks ∧ worker.accepting = s.worker.accepting ∧
    worker.crashed = s.worker.crashed ∧
    (worker.failure = none ↔ s.worker.failure = none ∧ task.result (s.core, d) = .ok ()) := by
  obtain ⟨worker, hstep, hworker⟩ := s.worker.step_eq (s.core, d) h
  refine ⟨worker, ?_, hworker⟩
  rw [runNext, hstep]

theorem runNext_of_idle (h : s.worker.tasks = []) (d : Disk) : runNext s d = (((), s), d) := by
  rw [runNext, Worker.step_of_idle h]

theorem runAll_eq (s : Store) (d : Disk) : ∃ worker, s.worker.Drained worker ∧
    (worker.failure = none ↔
      s.worker.failure = none ∧ Task.Succeed s.worker.tasks (s.core, d)) ∧
    runAll s d = (((), { s with
      core := (Task.effects s.worker.tasks (s.core, d)).1
      worker }), (Task.effects s.worker.tasks (s.core, d)).2) := by
  obtain ⟨worker, hdrain, hdrained, hfailure⟩ := s.worker.drain_eq (s.core, d)
  refine ⟨worker, hdrained, hfailure, ?_⟩
  rw [runAll, hdrain]

theorem waitForBackground_eq (hbusy : s.Busy) (d : Disk) : ∃ result worker,
    s.worker.Drained worker ∧
    (worker.failure = none ↔
      s.worker.failure = none ∧ Task.Succeed s.worker.tasks (s.core, d)) ∧
    waitForBackground s d = ((result, { s with
      core := (Task.effects s.worker.tasks (s.core, d)).1
      worker }), (Task.effects s.worker.tasks (s.core, d)).2) := by
  obtain ⟨ticket, worker₁, hsubmit, hqueued⟩ := submit_eq hbusy .barrier d
  obtain ⟨worker, hdrained, hfailure, hrun⟩ := runAll_eq { s with worker := worker₁ } d
  have heffects : Task.effects worker₁.tasks (s.core, d) =
      Task.effects s.worker.tasks (s.core, d) := by
    rw [hqueued.tasks, Task.effects_barrier]
  have hsame : worker₁.failure = s.worker.failure := by
    have hdiscreet := (discreet_submit .barrier s d).1
    rw [hsubmit] at hdiscreet
    exact hdiscreet
  refine ⟨worker.result ticket, worker, ⟨hdrained.tasks, hdrained.accepting.trans hqueued.accepting,
    hdrained.crashed.trans hqueued.crashed⟩, ?_, ?_⟩
  · rw [hfailure, hsame, hqueued.tasks, Task.succeed_barrier]
  · rw [waitForBackground, bind_of_ok hsubmit, await, lift_bind, hrun]
    simp only [heffects]
    rfl

theorem waitForBackground_of_closed (h : s.worker.accepting = false) (d : Disk) :
    waitForBackground s d = ((.error .closed, s), d) := by
  have hsubmit : submit .barrier s d = ((.error .closed, s), d) := by
    rw [submit, Worker.submit, h]
    rfl
  rw [waitForBackground, bind_of_error hsubmit]

/-- A failure that nobody has asked for stays while the worker goes on. -/
theorem waitForBackground_keeps (s : Store) (d : Disk) :
    ((waitForBackground s d).1.2.worker.failure = none → s.worker.failure = none) ∧
      (waitForBackground s d).1.2.closed = s.closed := by
  have hsubmit := discreet_submit .barrier s d
  cases hresult : submit .barrier s d with
  | mk answer d' =>
    obtain ⟨r, s'⟩ := answer
    rw [hresult] at hsubmit
    obtain ⟨hsame, hclosed⟩ : s'.worker.failure = s.worker.failure ∧ s'.closed = s.closed := hsubmit
    cases r with
    | error e =>
      rw [waitForBackground, bind_of_error hresult]
      exact ⟨fun hnone => hsame.symm.trans hnone, hclosed⟩
    | ok ticket =>
      obtain ⟨worker, -, hfailure, hrun⟩ := runAll_eq s' d'
      rw [waitForBackground, bind_of_ok hresult, await, lift_bind, hrun]
      exact ⟨fun hnone => hsame.symm.trans (hfailure.mp hnone).1, hclosed⟩

theorem attempt_eq {α : Type} {x : StoreM α} {r : Except StoreError α} {s' : Store} {d' : Disk}
    (h : x s d = ((r, s'), d')) : attempt x s d = ((.ok r, s'), d') := by
  rw [attempt, h]

/-- A worker that is seen off has done all that waited. -/
theorem shutdown_eq (s : Store) (d : Disk) : shutdown s d =
    (((s.worker.shutdown Task.execute (s.core, d)).1, { s with
      core := (Task.effects s.worker.tasks (s.core, d)).1
      worker := (s.worker.shutdown Task.execute (s.core, d)).2.1 }),
      (Task.effects s.worker.tasks (s.core, d)).2) := by
  obtain ⟨worker, hdrain, -⟩ := s.worker.stopAccepting.drain_eq (s.core, d)
  rw [shutdown, Worker.shutdown, hdrain]
  rfl

/-- What a store does with its lock when it is closed. -/
def unlocked (s : Store) (d : Disk) : Disk :=
  match s.lock with
  | none => d
  | some lock => (lock.release d).2

theorem unlock_eq (s : Store) (d : Disk) :
    unlock s d = (((), { s with lock := none }), s.unlocked d) := by
  rw [unlock, unlocked]
  cases h : s.lock with
  | none =>
    show (((), s), d) = (((), { s with lock := none }), d)
    rw [← h]
  | some lock => rfl

theorem takeFailure_eq (s : Store) (d : Disk) : takeFailure s d = ((s.worker.failure,
    { s with worker := { s.worker with failure := none } }), d) := rfl

/-- A status report takes the failure away. -/
theorem status_eq (s : Store) (d : Disk) : ∃ result,
    (result = .ok () ↔ s.worker.failure = none) ∧ status s d = ((result,
      { s with worker := { s.worker with failure := none } }), d) := by
  rw [status, lift_bind, takeFailure_eq]
  cases s.worker.failure with
  | none => exact ⟨.ok (), ⟨fun _ => rfl, fun _ => rfl⟩, rfl⟩
  | some failure => exact ⟨.error failure.toError, ⟨nofun, nofun⟩, rfl⟩

/-- The last part of closing reports failures, and changes nothing. -/
theorem report_eq (drained : Except StoreError Unit) (flushed : Except StoreError (Option Ticket))
    (stopped : Except StoreError Unit) (failure : Option Failure) (s : Store) (d : Disk) :
    ∃ result, (result = .ok () → failure = none) ∧ (do
      ofExcept drained
      discard <| ofExcept flushed
      ofExcept stopped
      if let some failure := failure then throw failure.toError : StoreM Unit) s d =
        ((result, s), d) := by
  cases drained with
  | error e => exact ⟨.error e, nofun, rfl⟩
  | ok =>
    cases flushed with
    | error e => exact ⟨.error e, nofun, rfl⟩
    | ok =>
      cases stopped with
      | error e => exact ⟨.error e, nofun, rfl⟩
      | ok =>
        cases failure with
        | none => exact ⟨.ok (), fun _ => rfl, rfl⟩
        | some failure => exact ⟨.error failure.toError, nofun, rfl⟩

theorem close_of_closed (hclosed : s.closed = true) (d : Disk) :
    close s d = ((.ok (), s), d) := by
  rw [close, getThe_bind, hclosed]
  rfl

/-- Closing is waiting, flushing the active buffer and seeing the worker off, whatever comes of
each of them. What came of them is reported in the end. -/
theorem close_steps (hopen : s.closed = false) {drained stopped : Except StoreError Unit}
    {flushed : Except StoreError (Option Ticket)} {s₁ s₂ s₃ : Store} {d₁ d₂ d₃ : Disk}
    (hwait : waitForBackground { s with closed := true } d = ((drained, s₁), d₁))
    (hstart : startFlush s₁ d₁ = ((flushed, s₂), d₂))
    (hshutdown : shutdown s₂ d₂ = ((stopped, s₃), d₃)) : close s d = (do
      ofExcept drained
      discard <| ofExcept flushed
      ofExcept stopped
      if let some failure := s₃.worker.failure then throw failure.toError : StoreM Unit)
        { s₃ with worker := { s₃.worker with failure := none }, lock := none }
        (s₃.unlocked d₃) := by
  have hclose : close s d = (do
      let drained ← attempt waitForBackground
      let flushed ← attempt startFlush
      let stopped ← attempt shutdown
      let failure ← takeFailure
      unlock
      ofExcept drained
      discard <| ofExcept flushed
      ofExcept stopped
      if let some failure := failure then throw failure.toError : StoreM Unit)
        { s with closed := true } d := by
    rw [close, getThe_bind, hopen]
    rfl
  rw [hclose, bind_of_ok (attempt_eq hwait), bind_of_ok (attempt_eq hstart),
    bind_of_ok (attempt_eq hshutdown), lift_bind, takeFailure_eq, lift_bind, unlock_eq]
  rfl

/-- Closing succeeds only if no failure is left at the end. -/
theorem close_of_open (hopen : s.closed = false) {drained stopped : Except StoreError Unit}
    {flushed : Except StoreError (Option Ticket)} {s₁ s₂ s₃ : Store} {d₁ d₂ d₃ : Disk}
    (hwait : waitForBackground { s with closed := true } d = ((drained, s₁), d₁))
    (hstart : startFlush s₁ d₁ = ((flushed, s₂), d₂))
    (hshutdown : shutdown s₂ d₂ = ((stopped, s₃), d₃)) :
    ∃ result, (result = .ok () → s₃.worker.failure = none) ∧ close s d = ((result, { s₃ with
      worker := { s₃.worker with failure := none }
      lock := none }), s₃.unlocked d₃) := by
  rw [close_steps hopen hwait hstart hshutdown]
  exact report_eq drained flushed stopped s₃.worker.failure _ _

end Store

/-! ## What tasks leave alone -/

namespace Core

/-- The buffers and the flush under way are what they were. -/
structure Retains (c c' : Core) : Prop where
  config : c'.config = c.config
  active : c'.active = c.active
  sealedBuffers : c'.sealedBuffers = c.sealedBuffers
  flushing : c'.flushing = c.flushing
  flagged : c'.flushInFlight = c.flushInFlight

theorem Retains.refl (c : Core) : c.Retains c := ⟨rfl, rfl, rfl, rfl, rfl⟩

theorem keeps_onDisk {α : Type} {P : Core → Prop} (x : DiskM StoreError α) :
    Keeps (fun c _ => P c) (onDisk x) := fun _ _ hc => hc

theorem keeps_retire (c : Core) (generation : Nat) :
    Keeps (fun c' _ => c.Retains c') (retire generation) := by
  intro c' d hc
  unfold retire
  rw [get_bind]
  cases c'.generations[generation]? with
  | none => exact hc
  | some g =>
    refine (keeps_onDisk (P := c.Retains) (liftM g.retire)).bind (fun answer => ?_) c' d hc
    exact Keeps.bind (fun _ _ hc => { hc with }) fun _ => keeps_onDisk _

/-- A compaction leaves the buffers alone, however it ends. -/
theorem retains_compactRuns (c : Core) (d : Disk) : c.Retains (compactRuns c d).1.2 := by
  have hload : Keeps (fun c' _ => c.Retains c') (do
      let next ← onDisk (Generation.load c.config)
      modify (publishCompaction · next) : CoreM Unit) :=
    (keeps_onDisk _).bind fun _ _ _ hc => { hc with }
  unfold compactRuns
  rw [get_bind]
  split
  · exact .refl c
  · refine (keeps_onDisk (P := c.Retains) _).bind (fun merged => ?_) c d (.refl c)
    refine (keeps_retire c c.current).bind fun _ => ?_
    cases merged with
    | none => exact hload
    | some id => exact (keeps_onDisk _).bind fun _ => hload

/-- A compaction clears its flag and leaves the buffers alone, however it ends. -/
theorem retains_compaction (planned : Nat) (c : Core) (d : Disk) :
    ∃ c', c.Retains c' ∧ ((Task.compaction planned).effect (c, d)).1 = c'.clearCompaction := by
  by_cases hplanned : c.isLive planned = true
  · refine ⟨_, retains_compactRuns c d, ?_⟩
    rw [Task.effect, Task.run_compaction hplanned]
  · refine ⟨c, .refl c, ?_⟩
    rw [Task.effect, Task.run]
    simp only [if_neg hplanned]

/-- A flush ends with its run being read, or it leaves the core as it was. -/
theorem flushBuffer_cases (id : Nat) (c : Core) (d : Disk) :
    (∃ g, (flushBuffer id c d).1 = (.ok (), c.publishFlush g)) ∨
      ∃ e, (flushBuffer id c d).1 = (.error e, c) := by
  have houtcome := flushBuffer_outcome id c d
  generalize flushBuffer id c d = result at houtcome ⊢
  cases houtcome with
  | unwritten | unread => exact .inr ⟨_, rfl⟩
  | done => exact .inl ⟨_, rfl⟩

end Core

/-! ## Closing as a series of events -/

namespace Store

/-- An answer with the store marked as closed. -/
def marked {α : Type} (r : (Except StoreError α × Store) × Disk) :
    (Except StoreError α × Store) × Disk := ((r.1.1, { r.1.2 with closed := true }), r.2)

/-- A program does not ask whether the store is closed. -/
def Heedless {α : Type} (x : StoreM α) : Prop :=
  ∀ s d, x { s with closed := true } d = marked (x s d)

theorem Heedless.bind {α β : Type} {x : StoreM α} {f : α → StoreM β} (hx : Heedless x)
    (hf : ∀ a, Heedless (f a)) : Heedless (x >>= f) := by
  intro s d
  have hfirst := hx s d
  cases hresult : x s d with
  | mk answer d' =>
    obtain ⟨r, s'⟩ := answer
    rw [hresult] at hfirst
    cases r with
    | ok a =>
      rw [bind_of_ok hfirst, bind_of_ok hresult]
      exact hf a s' d'
    | error e =>
      rw [bind_of_error hfirst, bind_of_error hresult]
      rfl

theorem heedless_submit (task : Task) : Heedless (submit task) := fun _ _ => rfl

theorem heedless_waitForBackground : Heedless waitForBackground :=
  (heedless_submit .barrier).bind fun _ =>
    Heedless.bind (x := (liftM runAll : StoreM Unit)) (fun _ _ => rfl) fun _ _ _ => rfl

theorem heedless_triggerFlush : Heedless triggerFlush := by
  intro s d
  rw [triggerFlush, getThe_bind, getThe_bind]
  dsimp only
  cases s.core.sealActive with
  | error e => rfl
  | ok answer =>
    obtain ⟨buffer, core⟩ := answer
    cases buffer with
    | none => rfl
    | some buffer =>
      exact (heedless_submit (.flush buffer)).bind (fun _ _ _ => rfl) { s with core } d

theorem heedless_startFlush : Heedless startFlush := by
  intro s d
  rw [startFlush, getThe_bind, getThe_bind]
  dsimp only
  split
  · rfl
  · rw [modifyCore, modify_bind, modify_bind]
    split
    · exact heedless_triggerFlush { s with core := s.core.markFlush.2 } d
    · rfl

end Store

namespace Session

variable {s : Session}

/-- The session that is being closed, when it comes to seeing the worker off. -/
def closing (s : Session) : Session := (s.step .waitForBackground).step .scheduleFlush

/-- The core and the disk when all that waits is done. -/
def settled (s : Session) : Core × Disk :=
  Task.effects s.store.worker.tasks (s.store.core, s.disk)

/-- The worker when it was seen off. -/
def dismissed (s : Session) : Worker Task :=
  (s.store.worker.shutdown Task.execute (s.store.core, s.disk)).2.1

theorem dismissed_spec (s : Session) : s.dismissed.tasks = [] ∧ s.dismissed.accepting = false ∧
    s.dismissed.crashed = s.store.worker.crashed ∧
    (s.dismissed.failure = none ↔ s.store.worker.failure = none ∧
      Task.Succeed s.store.worker.tasks (s.store.core, s.disk)) := by
  obtain ⟨worker, hdrain, hdrained, hfailure⟩ :=
    s.store.worker.stopAccepting.drain_eq (s.store.core, s.disk)
  rw [dismissed, Worker.shutdown, hdrain]
  exact ⟨hdrained.tasks, hdrained.accepting, hdrained.crashed, hfailure⟩

/-- Closing an open store is to wait, to flush the active buffer, and to see the worker off. It
succeeds only if no failure is left at the end. -/
theorem close_eq (hopen : s.store.closed = false) : ∃ result,
    (result = .ok () → s.closing.dismissed.failure = none) ∧
    Store.close s.store s.disk = ((result, { s.closing.store with
      core := s.closing.settled.1
      worker := { s.closing.dismissed with failure := none }
      lock := none
      closed := true }), s.closing.store.unlocked s.closing.settled.2) := by
  cases hwait : Store.waitForBackground s.store s.disk with
  | mk waited d₁ =>
    obtain ⟨drained, s₁⟩ := waited
    have hopen₁ : s₁.closed = false := by
      have hkeeps := (Store.waitForBackground_keeps s.store s.disk).2
      rw [hwait, hopen] at hkeeps
      exact hkeeps
    cases hstart : Store.startFlush s₁ d₁ with
    | mk started d₂ =>
      obtain ⟨flushed, s₂⟩ := started
      have hclosing : s.closing = ⟨s₂, d₂, s.writes⟩ := by
        have hstep : s.step .waitForBackground = ⟨s₁, d₁, s.writes⟩ := by rw [step, after, hwait]
        rw [closing, hstep, step, after, Store.scheduleFlush,
          bind_of_ok (Store.ensureOpen_eq hopen₁ d₁), hstart]
      have hwait' := Store.heedless_waitForBackground s.store s.disk
      have hstart' := Store.heedless_startFlush s₁ d₁
      rw [hwait] at hwait'
      rw [hstart] at hstart'
      rw [hclosing]
      exact Store.close_of_open hopen hwait' hstart' (Store.shutdown_eq { s₂ with closed := true } d₂)

theorem step_close (hopen : s.store.closed = false) : s.step .close = { s with
    store := { s.closing.store with
      core := s.closing.settled.1
      worker := { s.closing.dismissed with failure := none }
      lock := none
      closed := true }
    disk := s.closing.store.unlocked s.closing.settled.2 } := by
  obtain ⟨result, -, hclose⟩ := close_eq hopen
  rw [step, after, hclose]

/-- A status report only takes the failure away. -/
theorem step_status (s : Session) : s.step .status = { s with
    store := { s.store with worker := { s.store.worker with failure := none } } } := by
  obtain ⟨result, -, hdone⟩ := Store.status_eq s.store s.disk
  rw [step, after, hdone]

/-! A store stays as it is where nobody is to be waited for, nothing is to be done, or it is closed
already. -/

theorem step_waitForBackground_of_closed (h : s.store.worker.accepting = false) :
    s.step .waitForBackground = s := by
  rw [step, after, Store.waitForBackground_of_closed h]

theorem step_runNext_of_idle (h : s.store.worker.tasks = []) : s.step .runNext = s := by
  rw [step, Store.runNext_of_idle h]

theorem step_close_of_closed (h : s.store.closed = true) : s.step .close = s := by
  rw [step, after, Store.close_of_closed h]

/-- Closing an open store succeeds only if there is no failure once nothing waits any more. -/
theorem failure_of_close (hopen : s.store.closed = false)
    (hok : (Store.close s.store s.disk).1.1 = .ok ()) :
    (s.step .waitForBackground).store.worker.failure = none ∧
      Task.Succeed s.closing.store.worker.tasks (s.closing.store.core, s.closing.disk) := by
  obtain ⟨result, hresult, hclose⟩ := close_eq hopen
  rw [hclose] at hok
  obtain ⟨hnone, hsucceed⟩ := s.closing.dismissed_spec.2.2.2.mp (hresult hok)
  exact ⟨(Store.discreet_scheduleFlush _ _).1.symm.trans hnone, hsucceed⟩

end Session

/-- Closing an open store reports a failure that nobody has asked for. -/
theorem Store.close_reports (hopen : s.closed = false) (hok : (close s d).1.1 = .ok ()) :
    s.worker.failure = none :=
  (waitForBackground_keeps s d).1 (Session.failure_of_close (s := ⟨s, d, []⟩) hopen hok).1

end LayeredStore
