import LayeredStore.Config
import LayeredStore.Proofs.WriteLog
import Mathlib.Algebra.GroupWithZero.Nat
import Mathlib.Logic.Function.Iterate

/-!
# The layers of a store as logs

`Layers` is a store without files: its buffers and runs are logs of writes, and a background task
changes them at once. It does with the logs what a store does with buffers and run files, so that
what the order of writes, flushes and compactions does to the data can be told from the logs alone.

The runs that are read and those that the folder holds are kept apart. They are the same ones
while the generation is `live`; after a compaction that failed halfway they may differ, and a
merge may be `left` in the folder.

* `Layers.Sane` : what holds of the queue and of the numbers of the runs in every state.
* `Layers.Right` : both the layers that are read, and those that the next generation would be
  loaded from, read like the log of all writes. Every event keeps this (`Right.step`).
-/

namespace LayeredStore

/-- What can happen to a store: a call of one of its operations, or the worker doing a task. -/
inductive Event where
  | upsert (e : Entry)
  | flush
  | compact
  | scheduleFlush
  | scheduleCompaction
  | waitForBackground
  | status
  | close
  | runNext
  /-- A process opens the folder of the closed store. -/
  | reopen (process : Nat) (config : Config)

/-- A task that waits. -/
inductive Chore where
  | flush
  /-- A compaction, and whether the generation for which it was planned is live. -/
  | compaction (planned : Bool)
deriving DecidableEq, Repr

/-- Whether a task is a compaction. -/
def Chore.isCompaction : Chore → Bool
  | compaction _ => true
  | flush => false

/-- The layers of a store as logs of writes. -/
structure Layers where
  /-- The size past which the active layer is sealed. -/
  threshold : Nat
  /-- All writes that were accepted. -/
  writes : List Write
  active : List Write
  flushing : Option (List Write)
  /-- The runs that are read, by ascending number. -/
  runs : List (Nat × List Write)
  /-- The runs of the folder, by ascending number. -/
  stored : List (Nat × List Write)
  /-- A complete merge beside the runs of the folder. -/
  left : Option (Nat × List Write)
  /-- Whether the runs that are read are those of the folder. -/
  live : Bool
  /-- The tasks that wait. -/
  queue : List Chore
  closed : Bool

/-- The writes in some runs. -/
def runLog (runs : List (Nat × List Write)) : List Write := (runs.reverse.map Prod.snd).flatten

/-- The number of the next run. -/
def nextRun (runs : List (Nat × List Write)) : Nat :=
  ((runs.map Prod.fst).getLast?.map (· + 1)).getD 1

/-- The number of a merge. -/
def mergedRun (runs : List (Nat × List Write)) : Nat := (runs.map Prod.fst).getLast?.getD 1

namespace Layers

/-- The writes in the buffers. -/
def buffered (l : Layers) : List Write := l.active ++ l.flushing.getD []

/-- The writes in all layers that are read. -/
def all (l : Layers) : List Write := l.buffered ++ runLog l.runs

/-- The bytes of the writes in the active layer. -/
def bytes (l : Layers) : Nat := (l.active.map fun w => w.entry.size).sum

/-- The layers with the active one sealed and its flush queued, if that is possible. -/
def sealed (l : Layers) : Layers :=
  if l.active = [] ∨ l.flushing.isSome then l
  else { l with active := [], flushing := some l.active, queue := l.queue ++ [.flush] }

/-- Whether a write is accepted. -/
def accepts (l : Layers) (e : Entry) : Bool :=
  !l.closed && e.check.toBool && !(decide (l.threshold < l.bytes + e.size) && l.flushing.isSome)

/-- The layers with a write added to the active one. -/
def written (l : Layers) (e : Entry) : Layers :=
  { l with
    writes := ⟨e, l.writes.length⟩ :: l.writes
    active := ⟨e, l.writes.length⟩ :: l.active }

/-- The layers after an attempt to write an entry. -/
def upsert (l : Layers) (e : Entry) : Layers :=
  if l.accepts e then
    if l.threshold < (l.written e).bytes then (l.written e).sealed else l.written e
  else l

/-- The layers after a flush was asked for. -/
def scheduleFlush (l : Layers) : Layers := if l.closed then l else l.sealed

/-- The layers after a compaction was asked for. -/
def scheduleCompaction (l : Layers) : Layers :=
  if l.closed ∨ l.runs.length ≤ 1 ∧ l.active = [] ∨ l.queue.any Chore.isCompaction then l
  else { l with queue := l.queue ++ [.compaction l.live] }

/-- The layers after a flush. -/
def flushed (l : Layers) : Layers :=
  match l.flushing with
  | none => l
  | some log =>
    let stored := l.stored.filter (·.1 < nextRun l.runs) ++ [(nextRun l.runs, log)]
    { l with flushing := none, runs := stored, stored, live := true }

/-- The merge of all layers. -/
def merge (l : Layers) : List Write := Log.live l.all

/-- The runs after a compaction. -/
def mergedRuns (l : Layers) : List (Nat × List Write) :=
  if l.merge = [] then [] else [(mergedRun l.runs, l.merge)]

/-- The layers after a compaction. -/
def compacted (l : Layers) : Layers :=
  if l.runs = [] ∧ l.buffered = [] then l
  else
    { l with
      runs := l.mergedRuns
      stored := l.mergedRuns
      left := l.left.filter (·.1 ≠ mergedRun l.runs)
      live := true }

/-- The layers after a task. -/
def perform (l : Layers) : Chore → Layers
  | .flush => l.flushed
  | .compaction planned => if planned then l.compacted else l

/-- The layers after the task that waited longest. -/
def work (l : Layers) : Layers :=
  match l.queue with
  | [] => l
  | chore :: queue => { l.perform chore with queue }

/-- The layers after all tasks that wait. -/
def workAll (l : Layers) : Layers := work^[l.queue.length] l

/-- The layers of a store that is closed: everything is done, and the active layer is flushed. -/
def shut (l : Layers) : Layers :=
  if l.closed then l else { l.workAll.sealed.workAll with closed := true }

/-- The runs of the folder after a merge that was left there is put to use. -/
def settled (l : Layers) : List (Nat × List Write) :=
  match l.left with
  | none => l.stored
  | some merge => merge :: l.stored.filter (merge.1 < ·.1)

/-- The layers of a store that is opened where these layers were. -/
def opened (l : Layers) (threshold : Nat) : Layers :=
  { l with
    threshold
    active := []
    flushing := none
    runs := l.settled
    stored := l.settled
    left := none
    live := true
    queue := []
    closed := false }

/-- The layers after the folder of a closed store was opened again. -/
def reopened (l : Layers) (threshold : Nat) : Layers :=
  if l.closed then l.opened threshold else l

/-- The layers after an event. -/
def step (l : Layers) : Event → Layers
  | .upsert e => l.upsert e
  | .flush | .scheduleFlush => l.scheduleFlush
  | .compact | .scheduleCompaction => l.scheduleCompaction
  | .waitForBackground => l.workAll
  | .status => l
  | .close => l.shut
  | .runNext => l.work
  | .reopen _ config => l.reopened config.flushThreshold

/-- The layers of a store that was opened in a folder without runs. -/
def initial (threshold : Nat) : Layers where
  threshold := threshold
  writes := []
  active := []
  flushing := none
  runs := []
  stored := []
  left := none
  live := true
  queue := []
  closed := false

variable {l : Layers}

/-! ## Tasks one by one -/

theorem work_of_nil (h : l.queue = []) : l.work = l := by
  rw [work, h]

theorem work_of_cons {chore : Chore} {queue : List Chore} (h : l.queue = chore :: queue) :
    l.work = { l.perform chore with queue } := by
  rw [work, h]

theorem workAll_of_nil (h : l.queue = []) : l.workAll = l := by
  rw [workAll, h]
  rfl

theorem workAll_of_cons {chore : Chore} {queue : List Chore} (h : l.queue = chore :: queue) :
    l.workAll = l.work.workAll := by
  have hrest : l.work.queue = queue := by rw [work_of_cons h]
  rw [workAll, workAll, hrest, h, List.length_cons, Function.iterate_succ_apply]

/-- What every task keeps is kept by all of them together. -/
theorem workAll_induction {P : Layers → Prop} (hwork : ∀ l : Layers, P l → P l.work) (h : P l) :
    P l.workAll := by
  generalize hlength : l.queue.length = n
  induction n generalizing l with
  | zero =>
    rw [workAll_of_nil (List.length_eq_zero_iff.mp hlength)]
    exact h
  | succ n ih =>
    cases hqueue : l.queue with
    | nil => simp [hqueue] at hlength
    | cons chore queue =>
      rw [workAll_of_cons hqueue]
      refine ih (hwork l h) ?_
      rw [work_of_cons hqueue]
      simpa [hqueue] using hlength

@[simp] theorem queue_workAll (l : Layers) : l.workAll.queue = [] := by
  generalize hlength : l.queue.length = n
  induction n generalizing l with
  | zero =>
    have hnil := List.length_eq_zero_iff.mp hlength
    rw [workAll_of_nil hnil, hnil]
  | succ n ih =>
    cases hqueue : l.queue with
    | nil => simp [hqueue] at hlength
    | cons chore queue =>
      rw [workAll_of_cons hqueue]
      refine ih l.work ?_
      rw [work_of_cons hqueue]
      simpa [hqueue] using hlength

/-! ## The queue and the numbers of the runs -/

/-- The runs of a list ascend in their numbers. -/
def Numbers (runs : List (Nat × List Write)) : Prop := runs.Pairwise fun a b => a.1 < b.1

theorem Numbers.lt_nextRun {runs : List (Nat × List Write)} (h : Numbers runs)
    {r : Nat × List Write} (hr : r ∈ runs) : r.1 < nextRun runs := by
  rcases List.eq_nil_or_concat' runs with rfl | ⟨front, last, rfl⟩
  · cases hr
  · have hnext : nextRun (front ++ [last]) = last.1 + 1 := by simp [nextRun]
    rw [hnext]
    rcases List.mem_append.mp hr with hr | hr
    · obtain ⟨-, -, hlt⟩ := List.pairwise_append.mp h
      have := hlt r hr last (List.mem_singleton.mpr rfl)
      omega
    · rw [List.mem_singleton.mp hr]
      omega

theorem Numbers.added {runs : List (Nat × List Write)} (h : Numbers runs) (id : Nat)
    (log : List Write) : Numbers (runs.filter (·.1 < id) ++ [(id, log)]) := by
  rw [Numbers, List.pairwise_append]
  refine ⟨List.Pairwise.filter _ h, by simp, ?_⟩
  intro a ha b hb
  rw [List.mem_singleton.mp hb]
  simpa using (List.mem_filter.mp ha).2

theorem numbers_mergedRuns (l : Layers) : Numbers l.mergedRuns := by
  rw [mergedRuns]
  split <;> simp [Numbers]

/-- The writes that are anywhere in the layers. -/
def logged (l : Layers) : List Write :=
  l.all ++ runLog l.stored ++ (l.left.map Prod.snd).getD []

/-- What holds of the queue and of the runs in every state. -/
structure Sane (l : Layers) : Prop where
  flushes : l.queue.count .flush = if l.flushing.isSome then 1 else 0
  compactions : l.queue.countP Chore.isCompaction ≤ 1
  live_of_planned : Chore.compaction true ∈ l.queue → l.live = true
  stored_of_live : l.live = true → l.stored = l.runs
  runsAscend : Numbers l.runs
  storedAscend : Numbers l.stored
  beforeNext : (∀ r ∈ l.stored, r.1 < nextRun l.runs) ∨
    l.runs = [] ∧ ∀ r ∈ l.stored, r.1 = nextRun l.runs
  idle_of_closed : l.closed = true → l.queue = [] ∧ l.active = [] ∧ l.flushing = none
  storable : ∀ w ∈ l.logged, w.entry.Storable

theorem sane_initial (threshold : Nat) : (initial threshold).Sane where
  flushes := rfl
  compactions := Nat.zero_le 1
  live_of_planned h := by cases h
  stored_of_live _ := rfl
  runsAscend := .nil
  storedAscend := .nil
  beforeNext := .inl fun r hr => by cases hr
  idle_of_closed h := by cases h
  storable w hw := by cases hw

theorem mem_runLog {runs : List (Nat × List Write)} {w : Write} :
    w ∈ runLog runs ↔ ∃ r ∈ runs, w ∈ r.2 := by
  simp only [runLog, List.mem_flatten, List.mem_map, List.mem_reverse]
  constructor
  · rintro ⟨log, ⟨r, hr, rfl⟩, hw⟩
    exact ⟨r, hr, hw⟩
  · rintro ⟨r, hr, hw⟩
    exact ⟨r.2, ⟨r, hr, rfl⟩, hw⟩

theorem mem_logged {w : Write} : w ∈ l.logged ↔
    w ∈ l.active ∨ (∃ log, l.flushing = some log ∧ w ∈ log) ∨
    (∃ r ∈ l.runs, w ∈ r.2) ∨ (∃ r ∈ l.stored, w ∈ r.2) ∨ ∃ r, l.left = some r ∧ w ∈ r.2 := by
  rw [logged, all, buffered]
  simp only [List.mem_append, mem_runLog]
  cases l.flushing <;> cases l.left <;> simp [or_assoc]

theorem open_of_accepts {e : Entry} (h : l.accepts e = true) : l.closed = false := by
  simp only [accepts, Bool.and_eq_true, Bool.not_eq_true'] at h
  exact h.1.1

theorem storable_of_accepts {e : Entry} (h : l.accepts e = true) : e.Storable := by
  simp only [accepts, Bool.and_eq_true] at h
  rw [← Entry.check_eq_ok_iff]
  cases hcheck : e.check with
  | ok => rfl
  | error cause =>
    rw [hcheck] at h
    cases h.1.2

theorem Sane.written (h : l.Sane) {e : Entry} (haccepts : l.accepts e = true) :
    (l.written e).Sane := by
  have hidle (hclosed : l.closed = true) : False := by
    rw [open_of_accepts haccepts] at hclosed
    cases hclosed
  refine { h with idle_of_closed := fun hclosed => (hidle hclosed).elim, storable := ?_ }
  intro w hw
  rcases mem_logged.mp hw with hactive | hrest
  · rcases List.mem_cons.mp hactive with rfl | hactive
    · exact storable_of_accepts haccepts
    · exact h.storable w (mem_logged.mpr (.inl hactive))
  · exact h.storable w (mem_logged.mpr (.inr hrest))

theorem Sane.sealed (h : l.Sane) (hopen : l.closed = false) : l.sealed.Sane := by
  rw [Layers.sealed]
  split
  · exact h
  · next hnot =>
    rw [not_or] at hnot
    have hnone : l.flushing = none := by simpa using hnot.2
    have hcount := h.flushes
    rw [hnone] at hcount
    refine { h with
      flushes := by simpa [List.count_append] using hcount
      compactions := by simpa [List.countP_append, Chore.isCompaction] using h.compactions
      live_of_planned := by simpa using h.live_of_planned
      idle_of_closed := ?_
      storable := ?_ }
    · intro hclosed
      rw [hopen] at hclosed
      cases hclosed
    · intro w hw
      refine h.storable w (mem_logged.mpr ?_)
      rcases mem_logged.mp hw with hactive | ⟨log, hlog, hw⟩ | hrest
      · cases hactive
      · rw [← Option.some.inj hlog] at hw
        exact .inl hw
      · exact .inr (.inr hrest)

theorem Sane.upsert (h : l.Sane) (e : Entry) : (l.upsert e).Sane := by
  rw [Layers.upsert]
  split
  · next haccepts =>
    split
    · exact (h.written haccepts).sealed (show l.closed = false from open_of_accepts haccepts)
    · exact h.written haccepts
  · exact h

theorem Sane.scheduleFlush (h : l.Sane) : l.scheduleFlush.Sane := by
  rw [Layers.scheduleFlush]
  split
  · exact h
  · next hopen => exact h.sealed (by simpa using hopen)

theorem Sane.scheduleCompaction (h : l.Sane) : l.scheduleCompaction.Sane := by
  rw [Layers.scheduleCompaction]
  split
  · exact h
  · next hnot =>
    rw [not_or, not_or] at hnot
    obtain ⟨hopen, -, hnone⟩ := hnot
    have hzero : l.queue.countP Chore.isCompaction = 0 := by
      simpa [List.countP_eq_zero] using hnone
    refine { h with
      flushes := by simpa [List.count_append] using h.flushes
      compactions := by simp [List.countP_append, hzero, Chore.isCompaction]
      live_of_planned := ?_
      idle_of_closed := fun hclosed => absurd hclosed hopen
      storable := h.storable }
    intro hmem
    rcases List.mem_append.mp hmem with hmem | hmem
    · exact h.live_of_planned hmem
    · have heq : Chore.compaction true = Chore.compaction l.live := List.mem_singleton.mp hmem
      exact (Chore.compaction.inj heq).symm

/-- The first task is off the queue, and not done yet. -/
theorem Sane.open_of_cons (h : l.Sane) {chore : Chore} {queue : List Chore}
    (hqueue : l.queue = chore :: queue) : l.closed = false := by
  by_contra hclosed
  have hnil := (h.idle_of_closed (by simpa using hclosed)).1
  rw [hqueue] at hnil
  cases hnil

theorem Sane.flushing_of_cons (h : l.Sane) {queue : List Chore}
    (hqueue : l.queue = .flush :: queue) :
    (∃ log, l.flushing = some log) ∧ Chore.flush ∉ queue := by
  have hcount := h.flushes
  rw [hqueue, List.count_cons_self] at hcount
  cases hflushing : l.flushing with
  | none => simp [hflushing] at hcount
  | some log =>
    rw [hflushing] at hcount
    refine ⟨⟨log, rfl⟩, List.count_eq_zero.mp ?_⟩
    simpa using hcount

theorem Sane.notMem_of_cons (h : l.Sane) {planned : Bool} {queue : List Chore}
    (hqueue : l.queue = .compaction planned :: queue) :
    ∀ chore ∈ queue, chore.isCompaction = false := by
  have hcount := h.compactions
  rw [hqueue, List.countP_cons_of_pos (by rfl)] at hcount
  have hzero : queue.countP Chore.isCompaction = 0 := by omega
  simpa [List.countP_eq_zero] using hzero

theorem merge_subset (l : Layers) {w : Write} (hw : w ∈ l.merge) : w ∈ l.all :=
  (List.mem_filter.mp hw).1

theorem mem_mergedRuns {r : Nat × List Write} (hr : r ∈ l.mergedRuns) :
    r = (mergedRun l.runs, l.merge) := by
  rw [mergedRuns] at hr
  split at hr
  · cases hr
  · exact List.mem_singleton.mp hr

/-- A compaction that is done with leaves the queue. -/
theorem Sane.dropCompaction (h : l.Sane) {planned : Bool} {queue : List Chore}
    (hqueue : l.queue = .compaction planned :: queue) : ({ l with queue } : Layers).Sane := by
  have hflushes := h.flushes
  have hcompactions := h.compactions
  have hplanned := h.live_of_planned
  rw [hqueue] at hflushes hcompactions hplanned
  refine { h with
    flushes := ?_
    compactions := ?_
    live_of_planned := ?_
    idle_of_closed := ?_
    storable := h.storable }
  · rw [← hflushes, List.count_cons_of_ne (by simp)]
  · rw [List.countP_cons] at hcompactions
    exact Nat.le_trans (Nat.le_add_right _ _) hcompactions
  · exact fun hmem => hplanned (List.mem_cons_of_mem _ hmem)
  · intro hclosed
    rw [h.open_of_cons hqueue] at hclosed
    cases hclosed

/-- A flush that is done makes a run of the sealed writes and leaves the queue. -/
theorem Sane.afterFlush (h : l.Sane) {queue : List Chore} (hqueue : l.queue = .flush :: queue) :
    ({ l.flushed with queue } : Layers).Sane := by
  have hopen := h.open_of_cons hqueue
  have hcompactions := h.compactions
  rw [hqueue] at hcompactions
  obtain ⟨⟨log, hlog⟩, hnone⟩ := h.flushing_of_cons hqueue
  have hnumbers := h.storedAscend.added (nextRun l.runs) log
  simp only [flushed, hlog]
  exact {
    flushes := List.count_eq_zero.mpr hnone
    compactions := by simpa [Chore.isCompaction] using hcompactions
    live_of_planned := fun _ => rfl
    stored_of_live := fun _ => rfl
    runsAscend := hnumbers
    storedAscend := hnumbers
    beforeNext := .inl fun r hr => hnumbers.lt_nextRun hr
    idle_of_closed := fun hclosed => by
      rw [hopen] at hclosed
      cases hclosed
    storable := fun w hw => by
      -- what is stored now was stored before, or it was sealed
      have hstored (r : Nat × List Write) (hw : w ∈ r.2)
          (hr : r ∈ l.stored.filter (·.1 < nextRun l.runs) ++ [(nextRun l.runs, log)]) :
          w.entry.Storable := by
        refine h.storable w (mem_logged.mpr ?_)
        rcases List.mem_append.mp hr with hr | hr
        · exact .inr (.inr (.inr (.inl ⟨r, (List.mem_filter.mp hr).1, hw⟩)))
        · rw [List.mem_singleton.mp hr] at hw
          exact .inr (.inl ⟨log, hlog, hw⟩)
      rcases mem_logged.mp hw with hactive | ⟨_, hnone, -⟩ | ⟨r, hr, hw⟩ | ⟨r, hr, hw⟩ | hleft
      · exact h.storable w (mem_logged.mpr (.inl hactive))
      · cases hnone
      · exact hstored r hw hr
      · exact hstored r hw hr
      · exact h.storable w (mem_logged.mpr (.inr (.inr (.inr (.inr hleft))))) }

/-- A compaction that is done puts its merge in the place of the runs and leaves the queue. -/
theorem Sane.afterCompaction (h : l.Sane) {planned : Bool} {queue : List Chore}
    (hqueue : l.queue = .compaction planned :: queue) :
    ({ l.compacted with queue } : Layers).Sane := by
  have hopen := h.open_of_cons hqueue
  have hdropped := h.dropCompaction hqueue
  rw [compacted]
  split
  · exact hdropped
  · exact {
      flushes := hdropped.flushes
      compactions := hdropped.compactions
      live_of_planned := fun _ => rfl
      stored_of_live := fun _ => rfl
      runsAscend := numbers_mergedRuns l
      storedAscend := numbers_mergedRuns l
      beforeNext := .inl fun r hr => (numbers_mergedRuns l).lt_nextRun hr
      idle_of_closed := fun hclosed => by
        rw [hopen] at hclosed
        cases hclosed
      storable := fun w hw => by
        have hmerged (r : Nat × List Write) (hw : w ∈ r.2) (hr : r ∈ l.mergedRuns) :
            w.entry.Storable := by
          rw [mem_mergedRuns hr] at hw
          exact h.storable w
            (List.mem_append_left _ (List.mem_append_left _ (l.merge_subset hw)))
        rcases mem_logged.mp hw with hactive | hflushing | ⟨r, hr, hw⟩ | ⟨r, hr, hw⟩ |
          ⟨r, hleft, hw⟩
        · exact h.storable w (mem_logged.mpr (.inl hactive))
        · exact h.storable w (mem_logged.mpr (.inr (.inl hflushing)))
        · exact hmerged r hw hr
        · exact hmerged r hw hr
        · have hkept := (Option.filter_eq_some_iff.mp hleft).1
          exact h.storable w
            (mem_logged.mpr (.inr (.inr (.inr (.inr ⟨r, hkept, hw⟩))))) }

theorem Sane.work (h : l.Sane) : l.work.Sane := by
  cases hqueue : l.queue with
  | nil =>
    rw [work_of_nil hqueue]
    exact h
  | cons chore queue =>
    rw [work_of_cons hqueue]
    cases chore with
    | flush => exact h.afterFlush hqueue
    | compaction planned =>
      cases planned with
      | false => exact h.dropCompaction hqueue
      | true => exact h.afterCompaction hqueue

/-- What the worker never changes. -/
structure Keeps (l m : Layers) : Prop where
  threshold : m.threshold = l.threshold
  writes : m.writes = l.writes
  active : m.active = l.active
  closed : m.closed = l.closed

theorem Keeps.trans {m n : Layers} (h : l.Keeps m) (h' : m.Keeps n) : l.Keeps n where
  threshold := h'.threshold.trans h.threshold
  writes := h'.writes.trans h.writes
  active := h'.active.trans h.active
  closed := h'.closed.trans h.closed

theorem keeps_work (l : Layers) : l.Keeps l.work := by
  cases hqueue : l.queue with
  | nil =>
    rw [work_of_nil hqueue]
    exact ⟨rfl, rfl, rfl, rfl⟩
  | cons chore queue =>
    rw [work_of_cons hqueue]
    cases chore with
    | flush =>
      rw [perform, flushed]
      cases l.flushing <;> exact ⟨rfl, rfl, rfl, rfl⟩
    | compaction planned =>
      rw [perform]
      split
      · rw [compacted]
        split <;> exact ⟨rfl, rfl, rfl, rfl⟩
      · exact ⟨rfl, rfl, rfl, rfl⟩

theorem keeps_workAll (l : Layers) : l.Keeps l.workAll :=
  workAll_induction (P := l.Keeps) (fun m h => h.trans (keeps_work m)) ⟨rfl, rfl, rfl, rfl⟩

theorem Sane.workAll (h : l.Sane) : l.workAll.Sane := workAll_induction (fun _ => Sane.work) h

theorem Sane.flushing_of_idle (h : l.Sane) (hidle : l.queue = []) : l.flushing = none := by
  have hcount := h.flushes
  rw [hidle] at hcount
  cases hflushing : l.flushing with
  | none => rfl
  | some log => simp [hflushing] at hcount

theorem Sane.shut (h : l.Sane) : l.shut.Sane := by
  rw [Layers.shut]
  split
  · exact h
  · next hopen =>
    have hopen' : l.workAll.closed = false := by
      rw [(keeps_workAll l).closed]
      simpa using hopen
    -- the worker is done twice: before the active layer is sealed, and with its flush
    have hdone := (h.workAll.sealed hopen').workAll
    have hidle := queue_workAll l.workAll.sealed
    have hactive : l.workAll.sealed.workAll.active = [] := by
      rw [(keeps_workAll _).active, Layers.sealed]
      split
      · next hnot =>
        rw [h.workAll.flushing_of_idle (queue_workAll l)] at hnot
        simpa using hnot
      · rfl
    exact { hdone with
      idle_of_closed := fun _ => ⟨hidle, hactive, hdone.flushing_of_idle hidle⟩
      storable := hdone.storable }

theorem Numbers.settled (h : Numbers l.stored) : Numbers l.settled := by
  rw [Layers.settled]
  cases l.left with
  | none => exact h
  | some merge =>
    refine List.pairwise_cons.mpr ⟨?_, List.Pairwise.filter _ h⟩
    intro r hr
    simpa using (List.mem_filter.mp hr).2

theorem mem_settled {r : Nat × List Write} (hr : r ∈ l.settled) : l.left = some r ∨ r ∈ l.stored := by
  rw [settled] at hr
  cases hleft : l.left with
  | none =>
    rw [hleft] at hr
    exact .inr hr
  | some merge =>
    rw [hleft] at hr
    rcases List.mem_cons.mp hr with rfl | hr
    · exact .inl rfl
    · exact .inr (List.mem_filter.mp hr).1

theorem Sane.reopened (h : l.Sane) (threshold : Nat) : (l.reopened threshold).Sane := by
  rw [Layers.reopened]
  split
  · have hnumbers := h.storedAscend.settled
    exact {
      flushes := rfl
      compactions := Nat.zero_le 1
      live_of_planned := fun hmem => by cases hmem
      stored_of_live := fun _ => rfl
      runsAscend := hnumbers
      storedAscend := hnumbers
      beforeNext := .inl fun r hr => hnumbers.lt_nextRun hr
      idle_of_closed := fun hclosed => by cases hclosed
      storable := fun w hw => by
        have hsettled (r : Nat × List Write) (hw : w ∈ r.2) (hr : r ∈ l.settled) :
            w.entry.Storable := by
          refine h.storable w (mem_logged.mpr ?_)
          rcases mem_settled hr with hleft | hstored
          · exact .inr (.inr (.inr (.inr ⟨r, hleft, hw⟩)))
          · exact .inr (.inr (.inr (.inl ⟨r, hstored, hw⟩)))
        rcases mem_logged.mp hw with hactive | ⟨_, hnone, -⟩ | ⟨r, hr, hw⟩ | ⟨r, hr, hw⟩ |
          ⟨_, hnone, -⟩
        · cases hactive
        · cases hnone
        · exact hsettled r hw hr
        · exact hsettled r hw hr
        · cases hnone }
  · exact h

theorem Sane.step (h : l.Sane) (event : Event) : (l.step event).Sane := by
  cases event with
  | upsert e => exact h.upsert e
  | flush => exact h.scheduleFlush
  | compact => exact h.scheduleCompaction
  | scheduleFlush => exact h.scheduleFlush
  | scheduleCompaction => exact h.scheduleCompaction
  | waitForBackground => exact h.workAll
  | status => exact h
  | close => exact h.shut
  | runNext => exact h.work
  | reopen process config => exact h.reopened config.flushThreshold

/-! ## Reading the layers -/

/-- The layers that are read, and those of which the next generation would consist, read like the
log of all writes. -/
structure Right (l : Layers) : Prop where
  all : Log.ReadsLike l.all l.writes
  stored : Log.ReadsLike (l.buffered ++ runLog l.stored) l.writes

theorem right_initial (threshold : Nat) : (initial threshold).Right := ⟨fun _ => rfl, fun _ => rfl⟩

theorem runLog_append (front rest : List (Nat × List Write)) :
    runLog (front ++ rest) = runLog rest ++ runLog front := by
  simp [runLog]

theorem Right.written (h : l.Right) (e : Entry) : (l.written e).Right :=
  ⟨h.all.under [⟨e, l.writes.length⟩], h.stored.under [⟨e, l.writes.length⟩]⟩

theorem buffered_sealed (l : Layers) : l.sealed.buffered = l.buffered := by
  rw [sealed]
  split
  · rfl
  · next hnot =>
    rw [not_or] at hnot
    have hnone : l.flushing = none := by simpa using hnot.2
    simp [buffered, hnone]

theorem Right.sealed (h : l.Right) : l.sealed.Right := by
  have hsame : l.sealed.writes = l.writes ∧ l.sealed.runs = l.runs ∧ l.sealed.stored = l.stored := by
    rw [Layers.sealed]
    split <;> exact ⟨rfl, rfl, rfl⟩
  obtain ⟨hwrites, hruns, hstored⟩ := hsame
  refine ⟨?_, ?_⟩
  · rw [Layers.all, buffered_sealed, hruns, hwrites]
    exact h.all
  · rw [buffered_sealed, hstored, hwrites]
    exact h.stored

theorem runLog_mergedRuns (l : Layers) : runLog l.mergedRuns = l.merge := by
  rw [mergedRuns]
  split
  · next hnil => rw [hnil]; rfl
  · simp [runLog]

theorem Right.flushed (h : l.Right) (hsane : l.Sane) : l.flushed.Right := by
  rw [Layers.flushed]
  cases hflushing : l.flushing with
  | none => exact h
  | some log =>
    have hlog : runLog (l.stored.filter (·.1 < nextRun l.runs) ++ [(nextRun l.runs, log)]) =
        log ++ runLog (l.stored.filter (·.1 < nextRun l.runs)) := by
      rw [runLog_append]
      simp [runLog]
    have hreads : Log.ReadsLike (l.active ++ (log ++
        runLog (l.stored.filter (·.1 < nextRun l.runs)))) l.writes := by
      rw [← List.append_assoc]
      rcases hsane.beforeNext with hbefore | ⟨hruns, hat⟩
      · -- the new run comes after all that are stored
        have hkept : l.stored.filter (·.1 < nextRun l.runs) = l.stored :=
          List.filter_eq_self.mpr fun r hr => by simpa using hbefore r hr
        rw [hkept]
        simpa [buffered, hflushing] using h.stored
      · -- the stored run gives way to the new one, but it was not read either
        have hnothing : l.stored.filter (·.1 < nextRun l.runs) = [] :=
          List.filter_eq_nil_iff.mpr fun r hr => by simp [hat r hr]
        rw [hnothing]
        simpa [Layers.all, buffered, hflushing, hruns, runLog] using h.all
    rw [← hlog] at hreads
    exact ⟨by simpa [Layers.all, buffered] using hreads, by simpa [buffered] using hreads⟩

/-- The merge of all layers stands for the runs that it was made of. -/
theorem readsLike_merged (l : Layers) : Log.ReadsLike (l.buffered ++ runLog l.mergedRuns) l.all := by
  -- the buffers are in the merge already, and reading them first once more changes nothing
  rw [runLog_mergedRuns]
  exact ((Log.readsLike_live l.all).under l.buffered).trans
    (Log.readsLike_twice l.buffered (runLog l.runs))

theorem Right.compacted (h : l.Right) : l.compacted.Right := by
  rw [Layers.compacted]
  split
  · exact h
  · exact ⟨l.readsLike_merged.trans h.all, l.readsLike_merged.trans h.all⟩

theorem Right.work (h : l.Right) (hsane : l.Sane) : l.work.Right := by
  cases hqueue : l.queue with
  | nil =>
    rw [work_of_nil hqueue]
    exact h
  | cons chore queue =>
    rw [work_of_cons hqueue]
    suffices hdone : (l.perform chore).Right from ⟨hdone.all, hdone.stored⟩
    cases chore with
    | flush => exact h.flushed hsane
    | compaction planned =>
      cases planned with
      | false => exact h
      | true => exact h.compacted

theorem Right.workAll (h : l.Right) (hsane : l.Sane) : l.workAll.Right :=
  (workAll_induction (P := fun m => m.Sane ∧ m.Right)
    (fun _ hm => ⟨hm.1.work, hm.2.work hm.1⟩) ⟨hsane, h⟩).2

theorem Right.shut (h : l.Right) (hsane : l.Sane) : l.shut.Right := by
  rw [Layers.shut]
  split
  · exact h
  · next hopen =>
    have hopen' : l.workAll.closed = false := by
      rw [(keeps_workAll l).closed]
      simpa using hopen
    have hdone := (h.workAll hsane).sealed.workAll (hsane.workAll.sealed hopen')
    exact ⟨hdone.all, hdone.stored⟩

/-- Opening the folder again is right if no merge is left there. -/
theorem Right.reopened (h : l.Right) (hsane : l.Sane) (hleft : l.left = none) (threshold : Nat) :
    (l.reopened threshold).Right := by
  rw [Layers.reopened]
  split
  · next hclosed =>
    obtain ⟨-, hactive, hflushing⟩ := hsane.idle_of_closed hclosed
    have hreads : Log.ReadsLike (runLog l.settled) l.writes := by
      have hstored := h.stored
      rw [buffered, hactive, hflushing] at hstored
      rw [settled, hleft]
      exact hstored
    exact ⟨hreads, hreads⟩
  · exact h

theorem Right.step (h : l.Right) (hsane : l.Sane) (hleft : l.left = none) (event : Event) :
    (l.step event).Right := by
  have hscheduled : l.scheduleFlush.Right := by
    rw [scheduleFlush]
    split
    · exact h
    · exact h.sealed
  have hplanned : l.scheduleCompaction.Right := by
    rw [scheduleCompaction]
    split
    · exact h
    · exact ⟨h.all, h.stored⟩
  cases event with
  | upsert e =>
    show (l.upsert e).Right
    rw [upsert]
    split
    · split
      · exact (h.written e).sealed
      · exact h.written e
    · exact h
  | flush => exact hscheduled
  | compact => exact hplanned
  | scheduleFlush => exact hscheduled
  | scheduleCompaction => exact hplanned
  | waitForBackground => exact h.workAll hsane
  | status => exact h
  | close => exact h.shut hsane
  | runNext => exact h.work hsane
  | reopen process config => exact h.reopened hsane hleft config.flushThreshold

/-! ## Whole histories -/

/-- The layers after some events. -/
def run (l : Layers) (events : List Event) : Layers := events.foldl step l

theorem Sane.run (h : l.Sane) (events : List Event) : (l.run events).Sane := by
  induction events generalizing l with
  | nil => exact h
  | cons event events ih => exact ih (h.step event)

/-- What every change keeps that an event is put together from is kept by every event. -/
theorem step_induction {P : Layers → Prop}
    (hwritten : ∀ (l : Layers) (e : Entry), P l → P (l.written e))
    (hsealed : ∀ l : Layers, P l → P l.sealed)
    (hqueue : ∀ (l : Layers) (queue : List Chore), P l → P { l with queue })
    (hwork : ∀ l : Layers, P l → P l.work)
    (hclosed : ∀ l : Layers, P l → P { l with closed := true })
    (hopened : ∀ (l : Layers) (threshold : Nat), P l → P (l.opened threshold))
    (h : P l) (event : Event) : P (l.step event) := by
  have hall {m : Layers} (hm : P m) : P m.workAll := workAll_induction hwork hm
  have hscheduled : P l.scheduleFlush := by
    rw [scheduleFlush]
    split
    · exact h
    · exact hsealed l h
  have hplanned : P l.scheduleCompaction := by
    rw [scheduleCompaction]
    split
    · exact h
    · exact hqueue l _ h
  cases event with
  | upsert e =>
    show P (l.upsert e)
    rw [upsert]
    split
    · split
      · exact hsealed _ (hwritten l e h)
      · exact hwritten l e h
    · exact h
  | flush => exact hscheduled
  | compact => exact hplanned
  | scheduleFlush => exact hscheduled
  | scheduleCompaction => exact hplanned
  | waitForBackground => exact hall h
  | status => exact h
  | close =>
    show P l.shut
    rw [shut]
    split
    · exact h
    · exact hclosed _ (hall (hsealed _ (hall h)))
  | runNext => exact hwork l h
  | reopen process config =>
    show P (l.reopened config.flushThreshold)
    rw [reopened]
    split
    · exact hopened l _ h
    · exact h

theorem left_work (h : l.left = none) : l.work.left = none := by
  cases hqueue : l.queue with
  | nil =>
    rw [work_of_nil hqueue]
    exact h
  | cons chore queue =>
    rw [work_of_cons hqueue]
    cases chore with
    | flush =>
      show l.flushed.left = none
      rw [flushed]
      cases l.flushing <;> exact h
    | compaction planned =>
      cases planned with
      | false => exact h
      | true =>
        show l.compacted.left = none
        rw [compacted]
        split
        · exact h
        · show l.left.filter (·.1 ≠ mergedRun l.runs) = none
          rw [h]
          rfl

theorem left_sealed (l : Layers) : l.sealed.left = l.left := by
  rw [sealed]
  split <;> rfl

theorem left_step (h : l.left = none) (event : Event) : (l.step event).left = none :=
  step_induction (P := fun m => m.left = none) (fun _ _ hm => hm)
    (fun m hm => (left_sealed m).trans hm) (fun _ _ hm => hm) (fun _ => left_work) (fun _ hm => hm)
    (fun _ _ _ => rfl) h event

theorem left_run (h : l.left = none) (events : List Event) : (l.run events).left = none := by
  induction events generalizing l with
  | nil => exact h
  | cons event events ih => exact ih (left_step h event)

/-- Without a merge that was left in the folder, the layers are right whatever happens. -/
theorem Right.run (h : l.Right) (hsane : l.Sane) (hleft : l.left = none) (events : List Event) :
    (l.run events).Right := by
  induction events generalizing l with
  | nil => exact h
  | cons event events ih =>
    exact ih (h.step hsane hleft event) (hsane.step event) (left_step hleft event)

end Layers

end LayeredStore
