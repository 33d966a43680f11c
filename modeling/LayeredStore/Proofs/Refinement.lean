import LayeredStore.Proofs.StoreOperations

/-!
# The store refines its layers

`Layers.Describes` ties a session to the layers of a specification: the core and the disk hold
them, the tasks that wait are those of their queue, and the lock of the folder is held for as long
as the store is open. Every operation keeps that if the store stays below its limits. Where the
worker has something to do, a fault may strike instead, and then the failure of the worker or the
result of the operation tells (`Describes.runNext`, `Describes.waitForBackground`,
`Describes.close`).
-/

namespace LayeredStore

open Disk Generation StateProgram

variable {d d' start : Disk} {dir place : Path} {l : Layers} {c : Core} {s : Session}
  {tasks : List Task}

/-- The file of the folder's lock is there, and it is locked if and only if a lock is held. -/
def LockedBy (d : Disk) (place : Path) (lock : Option Lock) : Prop :=
  ∃ file, d.node? (place ++ [Store.lockName]) = some (.file file) ∧
    (d.file file).holder = lock.map Lock.token ∧ ∀ held, lock = some held → held.file = file

theorem not_isRunPlace_lock (place : Path) : ¬ IsRunPlace place (place ++ [Store.lockName]) :=
  not_isRunPlace (by decide)

theorem LockedBy.works {lock : Option Lock} (h : LockedBy d place lock) (hworks : Works place d d') :
    LockedBy d' place lock := by
  obtain ⟨file, hnode, hholder, hheld⟩ := h
  have hfile := hworks.files (not_isRunPlace_lock place) hnode
  exact ⟨file, by rw [hworks.others (not_isRunPlace_lock place), hnode], by rw [hfile, hholder], hheld⟩

namespace Layers

/-- A session, whose disk has come from that of some earlier moment, is in the state that the layers
describe. -/
structure Describes (l : Layers) (start : Disk) (s : Session) (dir place : Path) : Prop where
  held : l.HeldBy s.store.core s.disk place
  sane : l.Sane
  since : start.Evolves s.disk
  awaits : l.Awaits s.store.core s.store.worker.tasks
  writes : s.writes = l.writes
  closed : s.store.closed = l.closed
  accepting : s.store.worker.accepting = !l.closed
  running : s.store.worker.crashed = false
  locked : LockedBy s.disk place s.store.lock
  holds : s.store.lock.isSome = !l.closed
  dir_eq : s.store.core.config.dir = dir
  lockable : dir.Admits Store.lockName

theorem Describes.busy (h : l.Describes start s dir place) (hopen : l.closed = false) : s.store.Busy :=
  ⟨by rw [h.accepting, hopen]; rfl, h.running⟩

/-- A change of the core, the worker and the disk that the layers make too. -/
theorem Describes.moved (h : l.Describes start s dir place) {m : Layers} {core : Core}
    {worker : Worker Task} {disk : Disk} {writes : List Write} (hheld : m.HeldBy core disk place)
    (hsane : m.Sane) (hawaits : m.Awaits core worker.tasks) (hworks : Works place s.disk disk)
    (hwrites : writes = m.writes) (hclosed : m.closed = l.closed)
    (hconfig : core.config = s.store.core.config)
    (haccepting : worker.accepting = s.store.worker.accepting)
    (hcrashed : worker.crashed = s.store.worker.crashed) :
    m.Describes start ⟨{ s.store with core, worker }, disk, writes⟩ dir place where
  held := hheld
  sane := hsane
  since := h.since.trans hworks.toEvolves
  awaits := hawaits
  writes := hwrites
  closed := h.closed.trans hclosed.symm
  accepting := by
    rw [hclosed]
    exact haccepting.trans h.accepting
  running := hcrashed.trans h.running
  locked := h.locked.works hworks
  holds := by
    rw [hclosed]
    exact h.holds
  dir_eq := (congrArg Config.dir hconfig).trans h.dir_eq
  lockable := h.lockable

/-! ## Sealing -/

theorem sealed_of_any (hany : l.active ≠ []) (hnone : l.flushing = none) : l.sealed =
    { l with active := [], flushing := some l.active, queue := l.queue ++ [.flush] } := by
  rw [sealed, if_neg (by simp [hany, hnone])]

theorem sealed_of_not (h : l.active = [] ∨ l.flushing.isSome = true) : l.sealed = l := by
  rw [sealed, if_pos h]

theorem writes_sealed (l : Layers) : l.sealed.writes = l.writes := by
  rw [sealed]
  split <;> rfl

theorem closed_sealed (l : Layers) : l.sealed.closed = l.closed := by
  rw [sealed]
  split <;> rfl

theorem BufferedBy.sealed (h : l.BufferedBy c) (hany : l.active ≠ []) (hnone : l.flushing = none) :
    l.sealed.BufferedBy
      { c.sealedWith { c.active with frozen := true } with flushInFlight := true } := by
  rw [sealed_of_any hany hnone]
  refine ⟨h.threshold, rfl, rfl, rfl, .some ⟨c.activeId_lt_sealedWith _, ?_⟩, rfl⟩
  show (Core.buffers (c.sealedWith { c.active with frozen := true }) c.activeId).entries = _
  rw [c.buffers_sealedWith, ← h.active]
  rfl

/-- The flush of a sealed buffer waits behind what waited before. -/
theorem Awaits.sealed (h : l.Awaits c tasks) (hsane : l.Sane) (hany : l.active ≠ [])
    (hnone : l.flushing = none) {c' : Core} {id : Nat} (hgenerations : c'.generations = c.generations)
    (hpending : c'.compactionPending = c.compactionPending) (hflushing : c'.flushing = some id) :
    l.sealed.Awaits c' (tasks ++ [.flush id]) := by
  have hcount : Chore.flush ∉ l.queue := by
    have hflushes := hsane.flushes
    rw [hnone] at hflushes
    exact List.count_eq_zero.mp hflushes
  rw [sealed_of_any hany hnone]
  refine ⟨List.rel_append ?_ (.cons (.flush hflushing) .nil), ?_⟩
  · refine Task.Does.congr h.does (fun hmem => absurd hmem hcount) fun _ {planned} hlt => ⟨?_, ?_⟩
    · rwa [hgenerations]
    · rw [Core.isLive, Core.isLive, hgenerations]
  · rw [hpending, h.pending]
    simp [Chore.isCompaction]

theorem HeldBy.sealed (h : l.HeldBy c d place) (hany : l.active ≠ []) (hnone : l.flushing = none) :
    l.sealed.HeldBy { c.sealedWith { c.active with frozen := true } with flushInFlight := true }
      d place where
  toStoredIn := by
    rw [sealed_of_any hany hnone]
    exact { h.toStoredIn with left := h.left }
  toBufferedBy := h.toBufferedBy.sealed hany hnone
  toReadBy := by
    rw [sealed_of_any hany hnone]
    exact { h.toReadBy with live := h.live }

/-- Starting a flush seals the active layer, if that is possible. -/
theorem HeldBy.startFlush {store : Store} (h : l.HeldBy store.core d place) (hsane : l.Sane)
    (hawaits : l.Awaits store.core store.worker.tasks) (hbusy : store.Busy) :
    ∃ ticket core worker,
      Store.startFlush store d = ((.ok ticket, { store with core, worker }), d) ∧
      l.sealed.HeldBy core d place ∧ l.sealed.Awaits core worker.tasks ∧
      core.config = store.core.config ∧ worker.accepting = store.worker.accepting ∧
      worker.crashed = store.worker.crashed := by
  by_cases hnot : l.active = [] ∨ l.flushing.isSome = true
  · have hidle : (store.core.active.isEmpty || store.core.flushing.isSome) = true := by
      rw [Bool.or_eq_true, h.isEmpty_active, h.isSome_flushing]
      exact hnot
    rw [sealed_of_not hnot]
    exact ⟨none, store.core, store.worker, Store.startFlush_of_not hidle d, h, hawaits, rfl, rfl, rfl⟩
  · rw [not_or] at hnot
    obtain ⟨hany, hsome⟩ := hnot
    have hnone : l.flushing = none := by simpa using hsome
    have hactive : store.core.active.isEmpty = false := by
      rw [← Bool.not_eq_true]
      exact fun hempty => hany (h.isEmpty_active.mp hempty)
    have hflushing : store.core.flushing = none := by
      have hsame := h.isSome_flushing
      rw [hnone] at hsame
      simpa using hsame
    have hflag : store.core.flushInFlight = false := by
      rw [h.inFlight, hnone]
      rfl
    obtain ⟨ticket, worker, hstart, hqueued⟩ :=
      Store.startFlush_eq hbusy hactive hflushing h.thawed hflag d
    refine ⟨ticket, _, worker, hstart, h.sealed hany hnone, ?_, rfl, hqueued.accepting,
      hqueued.crashed⟩
    rw [hqueued.tasks]
    exact hawaits.sealed hsane hany hnone rfl rfl rfl

theorem Describes.scheduleFlush (h : l.Describes start s dir place) :
    l.scheduleFlush.Describes start (s.after Store.scheduleFlush) dir place := by
  rw [Layers.scheduleFlush]
  by_cases hclosed : l.closed = true
  · have hrefused : Store.scheduleFlush s.store s.disk = ((.error .closed, s.store), s.disk) := by
      rw [Store.scheduleFlush,
        bind_of_error (Store.ensureOpen_of_closed (h.closed.trans hclosed) s.disk)]
    rw [if_pos hclosed, Session.after, hrefused]
    exact h
  · have hopen : l.closed = false := by simpa using hclosed
    obtain ⟨ticket, core, worker, hstart, hheld, hawaits, hconfig, haccepting, hrunning⟩ :=
      h.held.startFlush h.sane h.awaits (h.busy hopen)
    have hdone : Store.scheduleFlush s.store s.disk =
        ((.ok ticket, { s.store with core, worker }), s.disk) := by
      rw [Store.scheduleFlush, bind_of_ok (Store.ensureOpen_eq (h.closed.trans hopen) s.disk), hstart]
    rw [if_neg hclosed, Session.after, hdone]
    exact h.moved hheld (h.sane.sealed hopen) hawaits (Works.refl place s.disk)
      (h.writes.trans (writes_sealed l).symm) (closed_sealed l) hconfig haccepting hrunning

/-! ## Compactions -/

theorem HeldBy.markCompaction (h : l.HeldBy c d place) :
    l.HeldBy { c with compactionPending := true } d place where
  toStoredIn := h.toStoredIn
  toBufferedBy := { h.toBufferedBy with flushing := h.flushing }
  toReadBy := { h.toReadBy with live := h.live }

/-- The compaction of the generation that is read waits behind what waited before. -/
theorem Awaits.planned (h : l.Awaits c tasks) (hlive : c.generation.live = l.live) :
    ({ l with queue := l.queue ++ [.compaction l.live] } : Layers).Awaits
      { c with compactionPending := true } (tasks ++ [.compaction c.current]) := by
  have hdoes : List.Forall₂ (Task.Does { c with compactionPending := true }) tasks l.queue :=
    Task.Does.congr h.does (fun _ => rfl) fun _ _ hlt => ⟨hlt, rfl⟩
  have hlast : Task.Does { c with compactionPending := true } (.compaction c.current)
      (.compaction l.live) := by
    rw [← hlive, ← c.isLive_current]
    exact .compaction c.current_lt
  refine ⟨List.rel_append hdoes (.cons hlast .nil), ?_⟩
  simp [Chore.isCompaction]

theorem HeldBy.length_runs (h : l.HeldBy c d place) : c.generation.runs.length = l.runs.length := by
  have hlength := congrArg List.length h.ids_eq
  simpa using hlength

theorem Describes.scheduleCompaction (h : l.Describes start s dir place) :
    l.scheduleCompaction.Describes start (s.after Store.scheduleCompaction) dir place := by
  rw [Layers.scheduleCompaction]
  by_cases hclosed : l.closed = true
  · have hrefused : Store.scheduleCompaction s.store s.disk =
        ((.error .closed, s.store), s.disk) := by
      rw [Store.scheduleCompaction,
        bind_of_error (Store.ensureOpen_of_closed (h.closed.trans hclosed) s.disk)]
    rw [if_pos (.inl hclosed), Session.after, hrefused]
    exact h
  have hopen : l.closed = false := by simpa using hclosed
  have hopen' := h.closed.trans hopen
  have hlittle : s.store.core.generation.runs.length ≤ 1 ∧ s.store.core.active.isEmpty = true ↔
      l.runs.length ≤ 1 ∧ l.active = [] := by
    rw [h.held.length_runs, h.held.isEmpty_active]
  by_cases hnot : l.runs.length ≤ 1 ∧ l.active = []
  · rw [if_pos (.inr (.inl hnot)), Session.after,
      Store.scheduleCompaction_of_not hopen' (hlittle.mpr hnot)]
    exact h
  by_cases hpending : l.queue.any Chore.isCompaction = true
  · rw [if_pos (.inr (.inr hpending)), Session.after,
      Store.scheduleCompaction_of_pending hopen' (fun hlittle' => hnot (hlittle.mp hlittle'))
        (h.awaits.pending.trans hpending)]
    exact h
  · obtain ⟨ticket, worker, hdone, hqueued⟩ := Store.scheduleCompaction_eq (h.busy hopen) hopen'
      (fun hlittle' => hnot (hlittle.mp hlittle'))
      (h.awaits.pending.trans (by simpa using hpending)) s.disk
    have hsane : l.scheduleCompaction.Sane := h.sane.scheduleCompaction
    rw [Layers.scheduleCompaction, if_neg (by simp [hclosed, hnot, hpending])] at hsane
    rw [if_neg (by simp [hclosed, hnot, hpending]), Session.after, hdone]
    refine h.moved (h.held.markCompaction.requeue _) hsane ?_ (Works.refl place s.disk) h.writes rfl
      rfl hqueued.accepting hqueued.crashed
    rw [hqueued.tasks]
    exact h.awaits.planned h.held.live

/-! ## Writing -/

variable {e : Entry}

theorem accepts_iff : l.accepts e = true ↔ l.closed = false ∧ e.check = .ok () ∧
    ¬ (l.threshold < l.bytes + e.size ∧ l.flushing.isSome = true) := by
  rw [accepts]
  cases hcheck : e.check with
  | ok =>
    simp only [Except.toBool, Bool.and_true, Bool.and_eq_true, Bool.not_eq_true', ← Bool.not_eq_true,
      decide_eq_true_eq, true_and]
  | error cause => simp [Except.toBool]

theorem bytes_written (l : Layers) (e : Entry) : (l.written e).bytes = l.bytes + e.size := by
  rw [bytes, bytes, Nat.add_comm]
  exact List.sum_cons

/-- The buffers after an entry was put into the active one. -/
theorem BufferedBy.written (h : l.BufferedBy c) {active : Buffer}
    (hentries : active.entries = insertEntry e c.active.entries)
    (hbytes : active.bytes = c.active.bytes + e.size) (hthawed : active.frozen = false) :
    (l.written e).BufferedBy { c with active } where
  threshold := h.threshold
  active := by
    show active.entries = insertEntry e (Log.entries l.active)
    rw [hentries, h.active]
  bytes := by
    show active.bytes = (l.written e).bytes
    rw [bytes_written, hbytes, h.bytes]
  thawed := hthawed
  flushing := by
    show Option.Rel _ c.flushing l.flushing
    have hflushing := h.flushing
    revert hflushing
    cases c.flushing <;> cases l.flushing <;> intro hflushing
    · exact .none
    · cases hflushing
    · cases hflushing
    · next id log =>
      cases hflushing with
      | some hid =>
        refine .some ⟨hid.1, ?_⟩
        have hne : ¬ id = c.activeId := Nat.ne_of_lt hid.1
        have hsealed : Core.buffers { c with active } id = c.buffers id := by
          show (if id = c.activeId then active else _) = if id = c.activeId then c.active else _
          rw [if_neg hne, if_neg hne]
        exact (congrArg Buffer.entries hsealed).trans hid.2
  inFlight := h.inFlight

theorem ShownBy.written (h : l.ShownBy c d place) {active : Buffer}
    (hentries : active.entries = insertEntry e c.active.entries)
    (hbytes : active.bytes = c.active.bytes + e.size) (hthawed : active.frozen = false) :
    (l.written e).ShownBy { c with active } d place :=
  ⟨h.toBufferedBy.written hentries hbytes hthawed, { h.toReadBy with live := h.live }⟩

theorem HeldBy.written (h : l.HeldBy c d place) {active : Buffer}
    (hentries : active.entries = insertEntry e c.active.entries)
    (hbytes : active.bytes = c.active.bytes + e.size) (hthawed : active.frozen = false) :
    (l.written e).HeldBy { c with active } d place :=
  { h.toShownBy.written hentries hbytes hthawed with
    toStoredIn := { h.toStoredIn with left := h.left } }

theorem Awaits.written (h : l.Awaits c tasks) (e : Entry) (active : Buffer) :
    (l.written e).Awaits { c with active } tasks :=
  ⟨Task.Does.congr h.does (fun _ => rfl) fun _ _ hlt => ⟨hlt, rfl⟩, h.pending⟩

/-- The layers accept what the store accepts. -/
theorem Describes.upsert_outcome (h : l.Describes start s dir place) (e : Entry) :
    ∃ answer after, Store.upsert e s.store s.disk = ((answer, after), s.disk) ∧
      s.store.WriteOutcome e (answer, after) ∧ (answer = .ok () ↔ l.accepts e = true) := by
  have hflagged : s.store.core.flushInFlight = s.store.core.flushing.isSome :=
    h.held.inFlight.trans h.held.isSome_flushing.symm
  obtain ⟨⟨answer, after⟩, hupsert, houtcome⟩ := Store.upsert_outcome hflagged h.held.thawed
    (fun hopen => h.busy (h.closed.symm.trans hopen)) e s.disk
  refine ⟨answer, after, hupsert, houtcome, ?_⟩
  rw [houtcome.answer_iff.2.2.2, Layers.accepts_iff, Entry.check_eq_ok_iff, Store.Overloaded,
    h.closed, h.held.isSome_flushing, h.held.threshold, h.held.bytes]
  tauto

/-- A write that is not accepted changes nothing. -/
theorem Describes.upsert_of_not (h : l.Describes start s dir place) (hnot : ¬ l.accepts e = true) :
    s.upsert e = s := by
  obtain ⟨answer, after, hupsert, houtcome, haccepted⟩ := h.upsert_outcome e
  have hrefused : answer ≠ .ok () := mt haccepted.mp hnot
  obtain rfl := houtcome.unchanged hrefused
  rw [Session.upsert, Session.after, hupsert]
  cases answer with
  | ok => exact absurd rfl hrefused
  | error cause => rfl

theorem Describes.upsert (h : l.Describes start s dir place) (e : Entry) :
    (l.upsert e).Describes start (s.upsert e) dir place := by
  have hwrites : (⟨e, s.writes.length⟩ :: s.writes : List Write) = (l.written e).writes := by
    rw [h.writes]
    rfl
  by_cases haccepts : l.accepts e = true
  · obtain ⟨answer, after, hupsert, houtcome, haccepted⟩ := h.upsert_outcome e
    obtain rfl := haccepted.mpr haccepts
    have hsane := h.sane.written haccepts
    rw [Layers.upsert, if_pos haccepts, Session.upsert, Session.after, hupsert]
    cases houtcome with
    | @written active hopen hcheck hentries hbytes hthawed hroom =>
      have hheld := h.held.written hentries hbytes hthawed
      have hquiet : ¬ l.threshold < (l.written e).bytes :=
        Nat.not_lt.mpr (hheld.bytes ▸ h.held.threshold ▸ hroom)
      rw [if_neg hquiet]
      exact h.moved hheld hsane (h.awaits.written e active) (Works.refl place s.disk) hwrites rfl rfl
        rfl rfl
    | @sealed active worker hopen hcheck hentries hbytes hthawed hfull hnone hqueued =>
      have hheld := h.held.written hentries hbytes hthawed
      have hdue : l.threshold < (l.written e).bytes := hheld.bytes ▸ h.held.threshold ▸ hfull
      have hany : (l.written e).active ≠ [] := List.cons_ne_nil _ _
      have hnone' : (l.written e).flushing = none := by
        have hsame : s.store.core.flushing.isSome = (l.written e).flushing.isSome :=
          hheld.isSome_flushing
        rw [hnone] at hsame
        simpa using hsame.symm
      rw [if_pos hdue]
      refine h.moved (hheld.sealed hany hnone') (hsane.sealed (h.closed.symm.trans hopen)) ?_
        (Works.refl place s.disk) (hwrites.trans (writes_sealed _).symm) (closed_sealed _) rfl
        hqueued.accepting hqueued.crashed
      rw [hqueued.tasks]
      exact (h.awaits.written e active).sealed hsane hany hnone' rfl rfl rfl
  · rw [Layers.upsert, if_neg haccepts, h.upsert_of_not haccepts]
    exact h

/-! ## The worker -/

theorem Describes.status (h : l.Describes start s dir place) :
    l.Describes start (s.after Store.status) dir place := by
  show l.Describes start (s.step .status) dir place
  rw [Session.step_status]
  exact h.moved h.held h.sane h.awaits (Works.refl place s.disk) h.writes rfl rfl rfl rfl

/-- The worker does a task, or it has a failure to report. -/
theorem Describes.runNext (h : l.Describes start s dir place) (htruthful : start.Truthful)
    (hwithin : (s.step .runNext).Within) :
    l.work.Describes start (s.step .runNext) dir place ∨
      (s.step .runNext).store.worker.failure ≠ none ∧ ¬ start.Faultless := by
  cases htasks : s.store.worker.tasks with
  | nil =>
    have hnil : l.queue = [] := (htasks ▸ h.awaits).queue_eq_nil
    rw [work_of_nil hnil, Session.step_runNext_of_idle htasks]
    exact .inl h
  | cons task tasks =>
    obtain ⟨worker, hdone, rfl, haccepting, hcrashed, hfailure⟩ :=
      Store.runNext_eq s.store s.disk htasks
    rw [Session.Within, Session.step, hdone] at hwithin
    rw [Session.step, hdone]
    rcases h.held.effect h.sane (htruthful.evolves h.since) (htasks ▸ h.awaits) hwithin with
      ⟨-, hheld, hawaits, hworks, hconfig⟩ | ⟨hnot, hfaulty⟩
    · have hkeeps := keeps_work l
      exact .inl (h.moved hheld h.sane.work hawaits hworks (h.writes.trans hkeeps.writes.symm)
        hkeeps.closed hconfig haccepting hcrashed)
    · exact .inr ⟨fun hnone => hnot (hfailure.mp hnone).2,
        fun hfaultless => hfaulty (hfaultless.evolves h.since)⟩

theorem Describes.step_waitForBackground_of_closed (h : l.Describes start s dir place)
    (hclosed : l.closed = true) : s.step .waitForBackground = s :=
  Session.step_waitForBackground_of_closed (by rw [h.accepting, hclosed]; rfl)

/-- The worker does all tasks, or it has a failure to report. -/
theorem Describes.waitForBackground (h : l.Describes start s dir place)
    (htruthful : start.Truthful) (hwithin : s.WorksWithin) :
    l.workAll.Describes start (s.after Store.waitForBackground) dir place ∨
      (s.after Store.waitForBackground).store.worker.failure ≠ none ∧ ¬ start.Faultless := by
  by_cases hclosed : l.closed = true
  · left
    show l.workAll.Describes start (s.step .waitForBackground) dir place
    rw [workAll_of_nil (h.sane.idle_of_closed hclosed).1, h.step_waitForBackground_of_closed hclosed]
    exact h
  · obtain ⟨result, worker, hdrained, hfailure, hdone⟩ :=
      Store.waitForBackground_eq (h.busy (by simpa using hclosed)) s.disk
    rw [Session.after, hdone]
    rcases h.held.effects h.sane (htruthful.evolves h.since) h.awaits
        (fun n _ => hwithin (n + 1)) with ⟨-, hheld, hawaits, hworks, hconfig⟩ | ⟨hnot, hfaulty⟩
    · have hkeeps := keeps_workAll l
      exact .inl (h.moved hheld h.sane.workAll (hdrained.tasks ▸ hawaits) hworks
        (h.writes.trans hkeeps.writes.symm) hkeeps.closed hconfig hdrained.accepting
        hdrained.crashed)
    · exact .inr ⟨fun hnone => hnot (hfailure.mp hnone).2,
        fun hfaultless => hfaulty (hfaultless.evolves h.since)⟩

end Layers

/-! ## Closing -/

/-- Files may have changed hands, but not their contents. -/
structure Disk.Relocked (d d' : Disk) : Prop where
  nodes : d'.nodes = d.nodes
  size : d'.files.size = d.files.size
  contents : ∀ id, (d'.file id).content = (d.file id).content
  faults : d'.faults = d.faults
  clock : d'.clock = d.clock

theorem Disk.Relocked.node? (h : d.Relocked d') (q : Path) : d'.node? q = d.node? q := by
  rw [Disk.node?, Disk.node?, h.nodes]

theorem Disk.Relocked.evolves (h : d.Relocked d') : d.Evolves d' where
  faults := h.faults
  clock := Nat.le_of_eq h.clock.symm
  size := Nat.le_of_eq h.size.symm
  folders hfolder := (h.node? _).trans hfolder
  sound hsound := hsound.congr h.nodes (Nat.le_of_eq h.size.symm)

theorem relocked_release (lock : Lock) (d : Disk) : d.Relocked (lock.release d).2 where
  nodes := rfl
  size := Array.size_modify
  contents id := by
    show ((d.alter lock.file _).file id).content = (d.file id).content
    simp only [Disk.file, Disk.alter, Array.getD_eq_getD_getElem?, Array.getElem?_modify]
    split
    · cases d.files[id]? with
      | none => rfl
      | some f =>
        show File.content (if f.holder = some lock.token then { f with holder := none } else f) = _
        split <;> rfl
    · rfl
  faults := rfl
  clock := rfl

namespace Layers

theorem HeldBy.relocked (h : l.HeldBy c d place) (hlocks : d.Relocked d') :
    l.HeldBy c d' place where
  toStoredIn := {
    folder := h.folder.evolves hlocks.evolves
    sound := hlocks.evolves.sound h.sound
    tidy := fun hsome => by
      rw [hlocks.node?] at hsome
      exact h.tidy hsome
    unfinished := fun hid => by
      rw [hlocks.node?]
      exact h.unfinished hid
    holds := h.holds.congr (fun _ => hlocks.node? _) fun _ _ => hlocks.contents _
    left := h.left.congr (fun _ => hlocks.node? _) fun _ _ => hlocks.contents _ }
  toBufferedBy := h.toBufferedBy
  toReadBy := {
    h.toReadBy with
    shows := h.shows.imp fun _ _ hrun => hrun.congr hlocks.evolves.size (hlocks.contents _)
    stands := fun hlive => (h.stands hlive).imp fun _ _ hrun =>
      ⟨hrun.toShows.congr hlocks.evolves.size (hlocks.contents _), hrun.path_eq,
        (hlocks.node? _).trans hrun.node⟩ }

theorem LockedBy.unlocked {store : Store} (h : LockedBy d place store.lock) (hsound : d.Sound) :
    LockedBy (store.unlocked d) place none := by
  obtain ⟨file, hnode, hholder, hheld⟩ := h
  cases hlock : store.lock with
  | none =>
    rw [hlock] at hholder
    rw [Store.unlocked, hlock]
    exact ⟨file, hnode, hholder, fun _ hnone => by cases hnone⟩
  | some lock =>
    rw [hlock] at hholder hheld
    have hfile := hheld lock rfl
    rw [Store.unlocked, hlock]
    refine ⟨file, hnode, ?_, fun _ hnone => by cases hnone⟩
    show ((d.alter lock.file _).file file).holder = none
    rw [hfile, file_alter_self d (hsound.lt_size hnode), hholder]
    simp

theorem relocked_unlocked (store : Store) (d : Disk) : d.Relocked (store.unlocked d) := by
  rw [Store.unlocked]
  cases store.lock with
  | none => exact ⟨rfl, rfl, fun _ => rfl, rfl, rfl⟩
  | some lock => exact relocked_release lock d

theorem HeldBy.shut (h : l.HeldBy c d place) :
    ({ l with closed := true } : Layers).HeldBy c d place where
  toStoredIn := { h.toStoredIn with left := h.left }
  toBufferedBy := { h.toBufferedBy with bytes := h.bytes }
  toReadBy := { h.toReadBy with live := h.live }

theorem length_queue_sealed (h : l.queue = []) : l.sealed.queue.length ≤ 1 := by
  rw [sealed]
  split
  · rw [h]
    exact Nat.zero_le 1
  · show (l.queue ++ [Chore.flush]).length ≤ 1
    rw [h]
    exact Nat.le_refl 1

/-- When it comes to seeing the worker off, at most the flush of the active buffer waits. -/
theorem Describes.closing (h : l.Describes start s dir place) (htruthful : start.Truthful)
    (hopen : s.store.closed = false) (hwithin : s.StaysWithin .close) :
    (l.workAll.sealed.Describes start s.closing dir place ∧
      ∀ n, n < s.closing.store.worker.tasks.length →
        (Task.effects (s.closing.store.worker.tasks.take (n + 1))
          (s.closing.store.core, s.closing.disk)).1.Within
        (Task.effects (s.closing.store.worker.tasks.take (n + 1))
          (s.closing.store.core, s.closing.disk)).2) ∨
      (Store.close s.store s.disk).1.1 ≠ .ok () ∧ ¬ start.Faultless := by
  obtain ⟨hworks, hlast⟩ := hwithin
  rcases h.waitForBackground htruthful (hworks hopen) with hwaited | ⟨hfailed, hfaulty⟩
  swap
  · exact .inr ⟨fun hok => hfailed (Session.failure_of_close hopen hok).1, hfaulty⟩
  have hclosing : l.workAll.scheduleFlush.Describes start s.closing dir place :=
    hwaited.scheduleFlush
  have hopen' : ¬ l.workAll.closed = true := by
    rw [(keeps_workAll l).closed, ← h.closed, hopen]
    exact nofun
  rw [Layers.scheduleFlush, if_neg hopen'] at hclosing
  refine .inl ⟨hclosing, fun n hn => ?_⟩
  have hlength : s.closing.store.worker.tasks.length ≤ 1 := by
    rw [hclosing.awaits.does.length_eq]
    exact length_queue_sealed (queue_workAll l)
  rw [List.take_of_length_le (by omega)]
  rw [Session.Within, Session.step_close hopen] at hlast
  refine ⟨hlast.ids, fun file => ?_⟩
  rw [← (relocked_unlocked s.closing.store _).contents]
  exact hlast.lengths file

/-- The store is closed with everything done, or it says that something was not. -/
theorem Describes.close (h : l.Describes start s dir place) (htruthful : start.Truthful)
    (hwithin : s.StaysWithin .close) :
    l.shut.Describes start (s.after Store.close) dir place ∨
      (Store.close s.store s.disk).1.1 ≠ .ok () ∧ ¬ start.Faultless := by
  rw [Layers.shut]
  by_cases hclosed : l.closed = true
  · left
    show Layers.Describes _ start (s.step .close) dir place
    rw [if_pos hclosed, Session.step_close_of_closed (h.closed.trans hclosed)]
    exact h
  have hopen : s.store.closed = false := h.closed.trans (by simpa using hclosed)
  rcases h.closing htruthful hopen hwithin with ⟨hclosing, hlast⟩ | hfailed
  swap
  · exact .inr hfailed
  rcases hclosing.held.effects hclosing.sane (htruthful.evolves hclosing.since) hclosing.awaits
      hlast with ⟨-, hheld, hawaits, hworks, hconfig⟩ | ⟨hnot, hfaulty⟩
  swap
  · exact .inr ⟨fun hok => hnot (Session.failure_of_close hopen hok).2,
      fun hfaultless => hfaulty (hfaultless.evolves hclosing.since)⟩
  have hlocks := relocked_unlocked s.closing.store s.closing.settled.2
  obtain ⟨htasks, haccepting, hcrashed, -⟩ := s.closing.dismissed_spec
  have hsane := h.sane.shut
  rw [Layers.shut, if_neg hclosed] at hsane
  have hstep := Session.step_close hopen
  rw [Session.step] at hstep
  rw [if_neg hclosed, hstep]
  exact .inl {
    held := (hheld.relocked hlocks).shut
    sane := hsane
    since := (hclosing.since.trans hworks.toEvolves).trans hlocks.evolves
    awaits := by
      show Awaits _ _ s.closing.dismissed.tasks
      rw [htasks]
      exact ⟨hawaits.does, hawaits.pending⟩
    writes := by
      show s.writes = l.workAll.sealed.workAll.writes
      rw [(keeps_workAll _).writes]
      exact hclosing.writes
    closed := rfl
    accepting := haccepting
    running := hcrashed.trans hclosing.running
    locked := LockedBy.unlocked (hclosing.locked.works hworks) hheld.sound
    holds := rfl
    dir_eq := (congrArg Config.dir hconfig).trans hclosing.dir_eq
    lockable := h.lockable }

end Layers

end LayeredStore
