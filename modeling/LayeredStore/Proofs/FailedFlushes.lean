import LayeredStore.Proofs.FailedCompactions
import LayeredStore.Proofs.SingleFlight

/-!
# Flushes that fail

After a flush that failed, the sealed buffer waits for good: its flag stays set, so that no other
buffer is ever sealed. What is written goes to the active buffer for as long as there is room, and
both buffers are read before the runs (`failed_flush_hides_nothing`).

In the folder the flush may have left an unfinished file, or its run, of which the generation that is
read does not know. The next compaction merges the runs that are read and then loads this one too,
under a larger number than that of the merge. It hides nothing, as it has only what the sealed
buffer has, and that is read first.
-/

namespace LayeredStore

open Disk Generation StateProgram

variable {d d' start : Disk} {dir place : Path} {l : Layers} {strays : List (Nat × List Write)}
  {c c' : Core} {s : Session} {config : Config} {id : Nat} {b : Buffer}

/-! ## Runs that are not read -/

theorem mergedRun_le_nextRun (runs : List (Nat × List Write)) : mergedRun runs ≤ nextRun runs := by
  rw [mergedRun, nextRun]
  cases (runs.map Prod.fst).getLast? with
  | none => exact Nat.le_refl 1
  | some id => exact Nat.le_succ id

theorem runEntries_append (runs rest : List (Nat × List Write)) :
    runEntries (runs ++ rest) = runEntries runs ++ runEntries rest := List.map_append

theorem Disk.HasRunsOnly.startedWith {runs : List (Nat × List Entry)}
    (h : d.HasRunsOnly dir place runs) (plan : Nat → Option Fault) :
    (d.startedWith plan).HasRunsOnly dir place runs where
  folder := h.folder.startedWith plan
  sound := h.sound.startedWith plan
  tidy := h.tidy
  holds := h.holds.startedWith plan
  noMerge := h.noMerge
  notFolder := h.notFolder

/-- A generation that was given up is not merged. -/
theorem Core.compactRuns_of_retired (hlayers : c.hasLayers = true)
    (hretired : c.generation.live = false) (d : Disk) :
    compactRuns c d = ((.error .staleGeneration, c), d) := by
  rw [compactRuns_of_hasLayers hlayers]
  exact StateProgram.bind_of_error (onDisk_eq (writeMerged_of_retired hretired))

namespace Layers

/-- The folder has runs that are not read: none, or that of the sealed layer. -/
def Strays (l : Layers) (strays : List (Nat × List Write)) : Prop :=
  strays = [] ∨ ∃ log, l.flushing = some log ∧ strays = [(nextRun l.runs, log)]

/-- The runs of the folder after a compaction that did not read some of them. -/
def absorbing (l : Layers) (strays : List (Nat × List Write)) : List (Nat × List Write) :=
  l.mergedRuns ++ strays.filter fun r => decide (l.merge ≠ [] → mergedRun l.runs < r.1)

/-- The layers after such a compaction. -/
def absorbed (l : Layers) (strays : List (Nat × List Write)) : Layers :=
  { l with runs := l.absorbing strays, stored := l.absorbing strays, live := true }

theorem runEntries_absorbing (l : Layers) (strays : List (Nat × List Write)) :
    runEntries (l.absorbing strays) =
      (if Log.entries l.merge = [] then [] else [(mergedRun l.runs, Log.entries l.merge)]) ++
        (runEntries strays).filter fun r =>
          decide (Log.entries l.merge ≠ [] → mergedRun l.runs < r.1) := by
  rw [absorbing, runEntries_append, runEntries_mergedRuns]
  simp only [runEntries, List.filter_map, Function.comp_def, ne_eq, Log.entries_eq_nil_iff]

theorem Strays.mergedRun_le (h : l.Strays strays) {r : Nat × List Write} (hr : r ∈ strays) :
    mergedRun l.runs ≤ r.1 := by
  rcases h with rfl | ⟨log, -, rfl⟩
  · cases hr
  · rw [List.mem_singleton.mp hr]
    exact mergedRun_le_nextRun l.runs

/-- Strays have no writes that the sealed layer does not have. -/
theorem Strays.subset (h : l.Strays strays) {r : Nat × List Write} (hr : r ∈ strays) {w : Write}
    (hw : w ∈ r.2) : w ∈ l.all := by
  rcases h with rfl | ⟨log, hlog, rfl⟩
  · cases hr
  · rw [List.mem_singleton.mp hr] at hw
    refine List.mem_append_left _ (List.mem_append_right _ ?_)
    rwa [hlog]

theorem Strays.filter (h : l.Strays strays) (keep : Nat × List Write → Bool) :
    l.Strays (strays.filter keep) := by
  rcases h with rfl | ⟨log, hlog, rfl⟩
  · exact .inl rfl
  · by_cases hkeep : keep (nextRun l.runs, log) = true
    · exact .inr ⟨log, hlog, List.filter_eq_self.mpr (by simpa using hkeep)⟩
    · exact .inl (List.filter_eq_nil_iff.mpr (by simpa using hkeep))

/-- Under the sealed layer, strays are not seen. -/
theorem Strays.readsLike (h : l.Strays strays) (rest : List Write) :
    Log.ReadsLike (l.buffered ++ (runLog strays ++ rest)) (l.buffered ++ rest) := by
  rcases h with rfl | ⟨log, hlog, rfl⟩
  · exact fun _ => rfl
  · have hrun : runLog [(nextRun l.runs, log)] = log := by simp [runLog]
    rw [hrun, buffered, hlog, Option.getD_some, List.append_assoc, List.append_assoc]
    exact (Log.readsLike_twice log rest).under l.active

theorem Strays.numbers_absorbing (h : l.Strays strays) : Numbers (l.absorbing strays) := by
  have hstrays : Numbers strays := by
    rcases h with rfl | ⟨log, -, rfl⟩
    · exact .nil
    · exact List.pairwise_singleton _ _
  rw [absorbing, Numbers, List.pairwise_append]
  refine ⟨numbers_mergedRuns l, hstrays.filter _, fun r hr stray hstray => ?_⟩
  have hmerge : l.merge ≠ [] := by
    intro hnil
    rw [mergedRuns, if_pos hnil] at hr
    cases hr
  rw [mem_mergedRuns hr]
  exact of_decide_eq_true (List.mem_filter.mp hstray).2 hmerge

theorem Sane.absorbed (h : l.Sane) (hstrays : l.Strays strays) : (l.absorbed strays).Sane := by
  have hnumbers := hstrays.numbers_absorbing
  have hknown {r : Nat × List Write} (hr : r ∈ l.absorbing strays) {w : Write} (hw : w ∈ r.2) :
      w ∈ l.logged := by
    refine List.mem_append_left _ (List.mem_append_left _ ?_)
    rcases List.mem_append.mp hr with hr | hr
    · rw [mem_mergedRuns hr] at hw
      exact l.merge_subset hw
    · exact hstrays.subset (List.mem_filter.mp hr).1 hw
  exact {
    flushes := h.flushes
    compactions := h.compactions
    live_of_planned := fun _ => rfl
    stored_of_live := fun _ => rfl
    runsAscend := hnumbers
    storedAscend := hnumbers
    beforeNext := .inl fun _ hr => hnumbers.lt_nextRun hr
    idle_of_closed := h.idle_of_closed
    storable := fun w hw => by
      rcases mem_logged.mp hw with hactive | hflushing | ⟨r, hr, hw⟩ | ⟨r, hr, hw⟩ | hleft
      · exact h.storable w (mem_logged.mpr (.inl hactive))
      · exact h.storable w (mem_logged.mpr (.inr (.inl hflushing)))
      · exact h.storable w (hknown hr hw)
      · exact h.storable w (hknown hr hw)
      · exact h.storable w (mem_logged.mpr (.inr (.inr (.inr (.inr hleft))))) }

/-- The merge is read under the strays that are left, and reads like the runs that it was made of. -/
theorem Right.absorbed (h : l.Right) (hstrays : l.Strays strays) : (l.absorbed strays).Right := by
  have hreads : Log.ReadsLike (l.buffered ++ runLog (l.absorbing strays)) l.writes := by
    rw [absorbing, runLog_append]
    exact ((hstrays.filter _).readsLike _).trans (l.readsLike_merged.trans h.all)
  exact ⟨hreads, hreads⟩

/-! ## A store that goes on after its flush has failed -/

/-- A core and a disk have some layers, of which the sealed one waits for good. The folder has the
runs that are read, unless a compaction that failed has removed some, and there may be strays. -/
structure StalledBy (l : Layers) (strays : List (Nat × List Write)) (c : Core) (d : Disk)
    (place : Path) : Prop extends ShownBy l c d place where
  sane : l.Sane
  right : l.Right
  isOpen : l.closed = false
  waits : l.flushing.isSome = true
  stored : l.live = true → d.HasRunsOnly c.config.dir place (runEntries (l.runs ++ strays))
  stray : l.Strays strays

theorem StalledBy.among (h : l.StalledBy strays c d place) (hlive : l.live = true) :
    Among d place c.generation (runEntries l.runs) where
  live := h.live.trans hlive
  blockSize_le := h.blockSize_eq ▸ h.blockSize_le
  roomy := h.dir_eq ▸ h.roomy
  folder := h.dir_eq ▸ (h.stored hlive).folder
  sound := (h.stored hlive).sound
  stands := h.dir_eq ▸ h.stands hlive
  numbered := h.numbered h.sane
  notFolder := (h.stored hlive).holds.notFolder

theorem StalledBy.clearCompaction (h : l.StalledBy strays c d place) :
    l.StalledBy strays c.clearCompaction d place :=
  { h with flushing := h.flushing, live := h.live }

theorem StalledBy.startedWith (h : l.StalledBy strays c d place) (plan : Nat → Option Fault) :
    l.StalledBy strays c (d.startedWith plan) place :=
  { h.toShownBy.startedWith plan with
    sane := h.sane
    right := h.right
    isOpen := h.isOpen
    waits := h.waits
    stored := fun hlive => (h.stored hlive).startedWith plan
    stray := h.stray }

/-- A compaction that succeeds goes on with the runs that the folder then has. -/
theorem StalledBy.compactRuns (h : l.StalledBy strays c d place) (htruthful : d.Truthful)
    (hok : (Core.compactRuns c d).1.1 = .ok ())
    (hwithin : (Core.compactRuns c d).1.2.Within (Core.compactRuns c d).2) :
    ∃ m kept, StalledBy m kept (Core.compactRuns c d).1.2 (Core.compactRuns c d).2 place ∧
      m.writes = l.writes ∧ d.Evolves (Core.compactRuns c d).2 := by
  by_cases hany : l.runs = [] ∧ l.buffered = []
  · rw [h.toShownBy.compactRuns_of_nothing hany]
    exact ⟨l, strays, h, rfl, Evolves.refl d⟩
  -- a generation that was given up is not merged
  have hlive : l.live = true := by
    rw [← h.live, ← Bool.not_eq_false]
    intro hretired
    rw [Core.compactRuns_of_retired (h.hasLayers_iff.mpr hany) hretired] at hok
    cases hok
  have hfolder := h.stored hlive
  have hg := h.among hlive
  have hid := hg.mergedId_lt
  have hholds {d₁ : Disk} (hswapped : Swapped place c.generation (Log.entries l.merge) d d₁)
      (hsmall : ∀ file, (d₁.file file).content.length < positionLimit) :
      d₁.HoldsRuns place (runEntries (l.absorbing strays)) := by
    have hstored := hfolder.holds
    rw [runEntries_append] at hstored
    have hruns := hswapped.holdsRuns_strays hg hstored (fun r hr => ?_) htruthful.not_misled hsmall
    · rwa [mergedId_eq hg, ← runEntries_absorbing] at hruns
    · obtain ⟨log, hmem, -⟩ := mem_runEntries.mp hr
      rw [mergedId_eq hg]
      exact h.stray.mergedRun_le hmem
  obtain ⟨next, d₁, d', hdone, hswapped, hstill, hshown⟩ :=
    (h.toShownBy.compactRuns h.sane hg hfolder.tidy hany
      (by simp [mergedName, hfolder.noMerge hid]) hholds hwithin).resolve_right
      fun hfailed => by
        obtain ⟨e, herror⟩ := hfailed.1
        rw [hok] at herror
        cases herror
  rw [hdone] at hwithin ⊢
  have hidLt : ∀ run ∈ c.generation.runs, run.id < RunName.idLimit := fun run hrun => hg.id_lt hrun
  have hworks := (hswapped.works hg.sound hid hidLt).trans (hstill.works place)
  have hruns := (hholds hswapped fun file => by
    rw [← hstill.file]
    exact hwithin.lengths file).congr (fun _ => hstill.node? _) fun _ _ => by rw [hstill.file]
  refine ⟨l.absorbed strays, [], ?_, rfl, hworks.toEvolves⟩
  exact {
    toBufferedBy := { hshown.toBufferedBy with flushing := hshown.flushing }
    toReadBy := { hshown.toReadBy with live := hshown.live }
    sane := h.sane.absorbed h.stray
    right := h.right.absorbed h.stray
    isOpen := h.isOpen
    waits := h.waits
    stored := fun _ => by
      rw [List.append_nil]
      exact hfolder.withoutMerge hworks hruns ((hstill.node? _).trans hswapped.merge_gone)
        fun hlt hkind hne =>
          (hstill.node? _).trans (hswapped.node?_other hid hidLt hlt hkind hne)
    stray := .inl rfl }

/-- A task that succeeds, unless it is a flush. -/
theorem StalledBy.effect (h : l.StalledBy strays c d place) (htruthful : d.Truthful) {task : Task}
    (hflush : task.isFlush = false)
    (hok : task.isCompaction = true → task.result (c, d) = .ok ())
    (hwithin : (task.effect (c, d)).1.Within (task.effect (c, d)).2) :
    ∃ m kept, StalledBy m kept (task.effect (c, d)).1 (task.effect (c, d)).2 place ∧
      m.writes = l.writes ∧ d.Evolves (task.effect (c, d)).2 := by
  cases task with
  | flush => cases hflush
  | barrier => exact ⟨l, strays, h, rfl, Evolves.refl d⟩
  | compaction planned =>
    by_cases hplanned : c.isLive planned = true
    · have hrun := Task.run_compaction hplanned d
      have hresult := hok rfl
      rw [Task.result, hrun] at hresult
      rw [Task.effect, hrun] at hwithin ⊢
      have hdone : (Core.compactRuns c d).1.1 = .ok () := by
        cases hanswer : (Core.compactRuns c d).1.1 with
        | ok => rfl
        | error e =>
          rw [hanswer] at hresult
          cases hresult
      obtain ⟨m, kept, hm, hwrites, hevolves⟩ :=
        h.compactRuns htruthful hdone ⟨hwithin.ids, hwithin.lengths⟩
      exact ⟨m, kept, hm.clearCompaction, hwrites, hevolves⟩
    · have hrun : (Task.compaction planned).run c d = ((.ok (), c.clearCompaction), d) := by
        rw [Task.run]
        simp only [if_neg hplanned]
      rw [Task.effect, hrun]
      exact ⟨l, strays, h.clearCompaction, rfl, Evolves.refl d⟩

/-- Tasks of which the compactions succeed, and none is a flush. -/
theorem StalledBy.effects (h : l.StalledBy strays c d place) (htruthful : d.Truthful)
    {tasks : List Task} (hflush : ∀ task ∈ tasks, task.isFlush = false)
    (hok : ∀ done ∈ Task.outcomes tasks (c, d), done.1.isCompaction = true → done.2 = .ok ())
    (hwithin : ∀ n, n < tasks.length → (Task.effects (tasks.take (n + 1)) (c, d)).1.Within
      (Task.effects (tasks.take (n + 1)) (c, d)).2) :
    ∃ m kept, StalledBy m kept (Task.effects tasks (c, d)).1 (Task.effects tasks (c, d)).2 place ∧
      m.writes = l.writes ∧ d.Evolves (Task.effects tasks (c, d)).2 := by
  induction tasks generalizing l strays c d with
  | nil => exact ⟨l, strays, h, rfl, Evolves.refl d⟩
  | cons task tasks ih =>
    obtain ⟨m, kept, hm, hwrites, hevolves⟩ := h.effect htruthful (hflush task List.mem_cons_self)
      (hok _ List.mem_cons_self) (hwithin 0 (Nat.zero_lt_succ _))
    obtain ⟨m', kept', hm', hwrites', hevolves'⟩ := ih hm (htruthful.evolves hevolves)
      (fun task htask => hflush task (List.mem_cons_of_mem _ htask))
      (fun done hdone => hok done (List.mem_cons_of_mem _ hdone))
      fun n hn => hwithin (n + 1) (Nat.succ_lt_succ hn)
    exact ⟨m', kept', hm', hwrites'.trans hwrites, hevolves.trans hevolves'⟩

end Layers

namespace Core

/-- A sealed buffer is the one that still has to become a run, and the flag of its flush is set. -/
structure StuckWith (c : Core) (id : Nat) (b : Buffer) : Prop where
  flushing : c.flushing = some id
  flagged : c.flushInFlight = true
  buffer : c.buffers id = b

theorem StuckWith.retained (h : c.StuckWith id b) (hretains : c.Retains c') :
    c'.StuckWith id b where
  flushing := hretains.flushing.trans h.flushing
  flagged := hretains.flagged.trans h.flagged
  buffer := by
    rw [← h.buffer, buffers, buffers, activeId, activeId, hretains.active, hretains.sealedBuffers]

theorem StuckWith.effect (h : c.StuckWith id b) {task : Task} (hflush : task.isFlush = false)
    (d : Disk) : (task.effect (c, d)).1.StuckWith id b := by
  cases task with
  | flush => cases hflush
  | barrier => exact h
  | compaction planned =>
    obtain ⟨core, hretains, hcore⟩ := retains_compaction planned c d
    have hcleared : c.Retains core.clearCompaction := { hretains with }
    rw [hcore]
    exact h.retained hcleared

theorem StuckWith.effects (h : c.StuckWith id b) {tasks : List Task}
    (hflush : ∀ task ∈ tasks, task.isFlush = false) (d : Disk) :
    (Task.effects tasks (c, d)).1.StuckWith id b := by
  induction tasks generalizing c d with
  | nil => exact h
  | cons task tasks ih =>
    exact ih (h.effect (hflush task List.mem_cons_self) d)
      (fun task htask => hflush task (List.mem_cons_of_mem _ htask)) _

end Core

/-! ## Sessions -/

theorem Task.outcomes_append (tasks rest : List Task) (shared : Core × Disk) :
    Task.outcomes (tasks ++ rest) shared =
      Task.outcomes tasks shared ++ Task.outcomes rest (Task.effects tasks shared) := by
  induction tasks generalizing shared with
  | nil => rfl
  | cons task tasks ih => exact congrArg _ (ih (task.effect shared))

/-- What does not wait for the worker leaves the disk alone. -/
theorem Store.stable_disk (d : Disk) : Store.Stable fun _ d' => d' = d :=
  Store.stable_of_worker id fun _ hd => hd

namespace Session

/-- The session after the task that has waited longest, which faults strike as planned. -/
def afterTask (s : Session) (plan : Nat → Option Fault) : Session := (s.facing plan).step .runNext

/-- The sessions that are reached in a folder that had no runs, if no file operation fails other than
in a compaction that leaves no merge behind. -/
inductive Reached (config : Config) : Session → Prop
  | opened {d : Disk} {s : Session} (h : s.StartsIn config d) : Reached config s
  | run {s : Session} {events : List Event} (h : Reached config s)
      (fits : (s.facing noFaults).Fits config.dir events) :
      Reached config ((s.facing noFaults).run events)
  | failedCompaction {s : Session} {plan : Nat → Option Fault} {planned : Nat}
      (h : Reached config s) (truthful : (s.disk.startedWith plan).Truthful)
      (task : s.store.worker.tasks.head? = some (.compaction planned))
      (fails : (Task.compaction planned).result (s.store.core, s.disk.startedWith plan) ≠ .ok ())
      (within : (s.afterTask plan).Within)
      (noMerge : (s.afterTask plan).disk.HasNoMerge config.dir) :
      Reached config (s.afterTask plan)

/-- A session that was reached has some layers, and what is read of them is right. -/
theorem Reached.describes (h : s.Reached config) : ∃ (start : Disk) (place : Path) (l : Layers),
    l.Describes start s config.dir place ∧ l.Right ∧ l.left = none := by
  induction h with
  | @opened d s hstarts =>
    have hnone : s.Fits config.dir [] := trivial
    obtain ⟨place, l, hdescribes⟩ := hstarts.right hnone
    exact ⟨_, place, l, hdescribes⟩
  | run _ hfits ih =>
    obtain ⟨start, place, l, hdescribes, hright, hleft⟩ := ih
    exact ⟨_, place, _, (hdescribes.facing noFaults).run (faultless_startedWith _) hfits,
      hright.run hdescribes.sane hleft _, Layers.left_run hleft _⟩
  | failedCompaction _ htruthful htask hfails hwithin hnoMerge ih =>
    obtain ⟨start, place, l, hdescribes, hright, hleft⟩ := ih
    obtain ⟨m, -, hright', hleft', -, -, hdone⟩ :=
      (hdescribes.facing _).failCompaction htruthful hleft hright htask hfails hwithin
    exact ⟨_, place, m, hdone hnoMerge, hright', hleft'⟩

/-- A session in which the flush of a buffer has failed: the buffer waits for good, and no flush is
among the tasks that wait. -/
structure Stalled (s : Session) (id : Nat) (b : Buffer) (place : Path) : Prop where
  layers : ∃ (l : Layers) (strays : List (Nat × List Write)),
    l.StalledBy strays s.store.core s.disk place ∧ s.writes = l.writes
  stuck : s.store.core.StuckWith id b
  noFlush : ∀ task ∈ s.store.worker.tasks, task.isFlush = false
  isOpen : s.store.closed = false
  busy : s.store.Busy

theorem Stalled.readsLastWrites (h : s.Stalled id b place) : s.ReadsLastWrites := by
  obtain ⟨l, strays, hl, hwrites⟩ := h.layers
  exact hl.readsLastWrites hl.sane hl.right hwrites

theorem Stalled.facing (h : s.Stalled id b place) (plan : Nat → Option Fault) :
    (s.facing plan).Stalled id b place := by
  obtain ⟨l, strays, hl, hwrites⟩ := h.layers
  exact { h with layers := ⟨l, strays, hl.startedWith plan, hwrites⟩ }

/-! ### Operations of which none gets to the disk -/

theorem Stalled.upsert (h : s.Stalled id b place) (e : Entry) : (s.upsert e).Stalled id b place := by
  obtain ⟨l, strays, hl, hwrites⟩ := h.layers
  have hwaits : s.store.core.flushing.isSome = true := by
    rw [h.stuck.flushing]
    rfl
  obtain ⟨⟨answer, after⟩, hupsert, houtcome⟩ := Store.upsert_outcome
    (h.stuck.flagged.trans hwaits.symm) hl.thawed (fun _ => h.busy) e s.disk
  rw [Session.upsert, Session.after, hupsert]
  cases houtcome with
  | closed | unstorable | overload => exact h
  | @written active hopen hcheck hentries hbytes hthawed hroom =>
    have hroom' : ¬ l.threshold < l.bytes + e.size := by
      rw [← hl.threshold, ← hl.bytes, ← hbytes]
      exact Nat.not_lt.mpr hroom
    have haccepts : l.accepts e = true :=
      Layers.accepts_iff.mpr ⟨hl.isOpen, hcheck, fun hover => hroom' hover.1⟩
    refine ⟨⟨l.written e, strays, ?_, ?_⟩, ⟨h.stuck.flushing, h.stuck.flagged, ?_⟩, h.noFlush, h.isOpen,
      ⟨h.busy.accepting, h.busy.running⟩⟩
    · exact {
        hl.toShownBy.written hentries hbytes hthawed with
        sane := hl.sane.written haccepts
        right := hl.right.written e
        isOpen := hl.isOpen
        waits := hl.waits
        stored := hl.stored
        stray := hl.stray }
    · show _ :: s.writes = _
      rw [hwrites]
      rfl
    · have hne : ¬ id = s.store.core.activeId := Nat.ne_of_lt (hl.flushing_lt h.stuck.flushing)
      have hbuffer := h.stuck.buffer
      rw [Core.buffers, if_neg hne] at hbuffer
      show (if id = s.store.core.activeId then _ else _) = b
      rw [if_neg hne, hbuffer]
  | sealed hopen hcheck hentries hbytes hthawed hfull hnone =>
    -- a write that fills the active buffer is refused while the sealed one waits
    rw [h.stuck.flushing] at hnone
    cases hnone

/-- While a sealed buffer waits, no other one is sealed. -/
theorem Stalled.scheduleFlush_eq (h : s.Stalled id b place) : s.after Store.scheduleFlush = s := by
  have hidle : (s.store.core.active.isEmpty || s.store.core.flushing.isSome) = true := by
    rw [h.stuck.flushing]
    simp
  rw [Session.after, Store.scheduleFlush, bind_of_ok (Store.ensureOpen_eq h.isOpen s.disk),
    Store.startFlush_of_not hidle]

theorem Stalled.scheduleCompaction (h : s.Stalled id b place) :
    (s.after Store.scheduleCompaction).Stalled id b place := by
  by_cases hlittle : s.store.core.generation.runs.length ≤ 1 ∧ s.store.core.active.isEmpty = true
  · rw [Session.after, Store.scheduleCompaction_of_not h.isOpen hlittle]
    exact h
  by_cases hpending : s.store.core.compactionPending = true
  · rw [Session.after, Store.scheduleCompaction_of_pending h.isOpen hlittle hpending]
    exact h
  obtain ⟨ticket, worker, hdone, hqueued⟩ :=
    Store.scheduleCompaction_eq h.busy h.isOpen hlittle (by simpa using hpending) s.disk
  obtain ⟨l, strays, hl, hwrites⟩ := h.layers
  rw [Session.after, hdone]
  refine ⟨⟨l, strays, { hl with flushing := hl.flushing, live := hl.live }, hwrites⟩,
    ⟨h.stuck.flushing, h.stuck.flagged, h.stuck.buffer⟩, fun task htask => ?_, h.isOpen,
    ⟨hqueued.accepting.trans h.busy.accepting, hqueued.crashed.trans h.busy.running⟩⟩
  rw [hqueued.tasks] at htask
  rcases List.mem_append.mp htask with htask | htask
  · exact h.noFlush task htask
  · rw [List.mem_singleton.mp htask]
    rfl

/-! ### The worker -/

/-- The worker has done some of the tasks that waited, all of which succeed. -/
theorem Stalled.worked (h : s.Stalled id b place) (htruthful : s.disk.Truthful)
    (tasks : List Task) {rest : List Task} (htasks : s.store.worker.tasks = tasks ++ rest)
    (hok : ∀ done ∈ Task.outcomes tasks (s.store.core, s.disk),
      done.1.isCompaction = true → done.2 = .ok ())
    (hwithin : ∀ n, n < tasks.length →
      (Task.effects (tasks.take (n + 1)) (s.store.core, s.disk)).1.Within
        (Task.effects (tasks.take (n + 1)) (s.store.core, s.disk)).2)
    {worker : Worker Task} (hrest : worker.tasks = rest)
    (haccepting : worker.accepting = s.store.worker.accepting)
    (hcrashed : worker.crashed = s.store.worker.crashed) :
    Stalled { s with
        store := { s.store with core := (Task.effects tasks (s.store.core, s.disk)).1, worker }
        disk := (Task.effects tasks (s.store.core, s.disk)).2 } id b place ∧
      s.disk.Evolves (Task.effects tasks (s.store.core, s.disk)).2 := by
  have hflush : ∀ task ∈ tasks, task.isFlush = false := fun task htask =>
    h.noFlush task (htasks ▸ List.mem_append_left rest htask)
  obtain ⟨l, strays, hl, hwrites⟩ := h.layers
  obtain ⟨m, kept, hm, hsame, hevolves⟩ := hl.effects htruthful hflush hok hwithin
  refine ⟨⟨⟨m, kept, hm, hwrites.trans hsame.symm⟩, h.stuck.effects hflush s.disk,
    fun task htask => h.noFlush task ?_, h.isOpen,
    ⟨haccepting.trans h.busy.accepting, hcrashed.trans h.busy.running⟩⟩, hevolves⟩
  rw [htasks]
  exact List.mem_append_right tasks (hrest ▸ htask)

theorem Stalled.runNext (h : s.Stalled id b place) (htruthful : s.disk.Truthful)
    (hwithin : (s.step .runNext).Within)
    (hok : ∀ done ∈ s.performed .runNext, done.1.isCompaction = true → done.2 = .ok ()) :
    (s.step .runNext).Stalled id b place ∧ s.disk.Evolves (s.step .runNext).disk := by
  cases htasks : s.store.worker.tasks with
  | nil =>
    rw [Session.step_runNext_of_idle htasks]
    exact ⟨h, Evolves.refl s.disk⟩
  | cons task rest =>
    obtain ⟨worker, hdone, hrest, haccepting, hcrashed, -⟩ :=
      Store.runNext_eq s.store s.disk htasks
    rw [Session.performed, htasks] at hok
    rw [Session.Within, Session.step, hdone] at hwithin
    rw [Session.step, hdone]
    refine h.worked htruthful [task] htasks hok (fun n hn => ?_) hrest haccepting hcrashed
    obtain rfl : n = 0 := Nat.lt_one_iff.mp hn
    exact hwithin

theorem Stalled.waitForBackground (h : s.Stalled id b place) (htruthful : s.disk.Truthful)
    (hwithin : s.WorksWithin)
    (hok : ∀ done ∈ s.performed .waitForBackground,
      done.1.isCompaction = true → done.2 = .ok ()) :
    (s.step .waitForBackground).Stalled id b place ∧
      s.disk.Evolves (s.step .waitForBackground).disk := by
  obtain ⟨result, worker, hdrained, -, hdone⟩ := Store.waitForBackground_eq h.busy s.disk
  rw [Session.performed, if_pos h.busy.accepting, Task.outcomes_append] at hok
  rw [Session.step, Session.after, hdone]
  exact h.worked htruthful s.store.worker.tasks (List.append_nil _).symm
    (fun done hmem => hok done (List.mem_append_left _ hmem)) (fun n _ => hwithin (n + 1))
    hdrained.tasks hdrained.accepting hdrained.crashed

/-- A store whose flush has failed stays as it is, whatever happens to it, if its compactions
succeed. -/
theorem Stalled.step (h : s.Stalled id b place) (htruthful : s.disk.Truthful) {event : Event}
    (hkeeps : event.KeepsOpen) (hwithin : s.StaysWithin event)
    (hok : ∀ done ∈ s.performed event, done.1.isCompaction = true → done.2 = .ok ()) :
    (s.step event).Stalled id b place ∧ s.disk.Evolves (s.step event).disk := by
  have hidle := h.scheduleFlush_eq
  have hcompaction : (s.after Store.scheduleCompaction).Stalled id b place ∧
      s.disk.Evolves (s.after Store.scheduleCompaction).disk := by
    have hdisk : (s.after Store.scheduleCompaction).disk = s.disk :=
      (Store.stable_disk s.disk).scheduleCompaction s.store s.disk rfl
    refine ⟨h.scheduleCompaction, ?_⟩
    rw [hdisk]
    exact Evolves.refl s.disk
  cases event with
  | upsert e =>
    have hdisk : (s.step (.upsert e)).disk = s.disk := (Session.disk_upsert s e).trans
      ((Store.stable_disk s.disk).upsert (fun _ hs => hs) s.store s.disk rfl)
    refine ⟨h.upsert e, ?_⟩
    rw [hdisk]
    exact Evolves.refl s.disk
  | flush =>
    rw [Session.step, Store.flush, Layers.after_discard, hidle]
    exact ⟨h, Evolves.refl s.disk⟩
  | scheduleFlush =>
    rw [Session.step, hidle]
    exact ⟨h, Evolves.refl s.disk⟩
  | compact =>
    rw [Session.step, Store.compact, Layers.after_discard]
    exact hcompaction
  | scheduleCompaction => exact hcompaction
  | status =>
    rw [Session.step_status]
    exact ⟨⟨h.layers, h.stuck, h.noFlush, h.isOpen, ⟨h.busy.accepting, h.busy.running⟩⟩,
      Evolves.refl s.disk⟩
  | waitForBackground => exact h.waitForBackground htruthful hwithin hok
  | runNext => exact h.runNext htruthful hwithin hok
  | close => cases hkeeps
  | reopen process config => cases hkeeps

theorem Stalled.run (h : s.Stalled id b place) (htruthful : s.disk.Truthful) {events : List Event}
    (hkeeps : ∀ event ∈ events, event.KeepsOpen) (hfits : s.Fits dir events)
    (hok : ∀ done ∈ s.journal events, done.1.isCompaction = true → done.2 = .ok ()) :
    (s.run events).Stalled id b place := by
  induction events generalizing s with
  | nil => exact h
  | cons event events ih =>
    obtain ⟨-, hwithin, hrest⟩ := hfits
    obtain ⟨hstep, hevolves⟩ := h.step htruthful (hkeeps event List.mem_cons_self) hwithin
      fun done hdone => hok done (List.mem_append_left _ hdone)
    exact ih hstep (htruthful.evolves hevolves)
      (fun event hevent => hkeeps event (List.mem_cons_of_mem _ hevent)) hrest
      fun done hdone => hok done (List.mem_append_right _ hdone)

end Session

/-! ## The flush that fails -/

/-- Where an attempt to write a run beside others has failed, the run may have come to them. -/
theorem Disk.HasRunsOnly.attempted {runs : List (Nat × List Entry)} {entries : List Entry}
    (h : d.HasRunsOnly dir place runs) (hattempted : Attempted place id (entries.map .ok) d d')
    (hid : id < RunName.idLimit) (hlt : ∀ r ∈ runs, r.1 < id)
    (hsmall : ∀ file, (d'.file file).content.length < positionLimit) :
    d'.HasRunsOnly dir place runs ∨ d'.HasRunsOnly dir place (runs ++ [(id, entries)]) := by
  have hworks := hattempted.works h.sound hid
  have hrest {kept : List (Nat × List Entry)} (hruns : d'.HoldsRuns place kept)
      (hfree : d'.node? ((RunName.mk .unfinished id).placeIn place) ≠ some .folder) :
      d'.HasRunsOnly dir place kept := {
    folder := h.folder.evolves hworks.toEvolves
    sound := hworks.sound h.sound
    tidy := hworks.tidy h.tidy
    holds := hruns
    noMerge := fun {other} hother => by
      rw [hattempted.others (RunName.placeIn_ne_of_kind _ _ hother hid (by simp))
        (RunName.placeIn_ne_of_kind _ _ hother hid (by simp))]
      exact h.noMerge hother
    notFolder := fun {other} hother => by
      by_cases heq : other = id
      · rw [heq]
        exact hfree
      · rw [hattempted.others (RunName.placeIn_ne_of_id hother hid heq)
          (RunName.placeIn_ne_of_kind _ _ hother hid (by simp))]
        exact h.notFolder hother }
  cases hattempted with
  | unfinished hchanges hnotFolder =>
    have hne {other : Nat} (hother : other < RunName.idLimit) :
        (RunName.mk .finished other).placeIn place ≠ (RunName.mk .unfinished id).placeIn place :=
      RunName.placeIn_ne_of_kind _ _ hother hid (by simp)
    refine .inl (hrest (h.holds.congr (fun hother => hchanges.others (hne hother)) ?_) hnotFolder)
    intro other file hother hnode
    rw [hchanges.file_of_ne h.sound hnode (hne hother)]
  | added hitems hadded =>
    obtain rfl : entries = _ :=
      List.map_injective_iff.mpr (fun _ _ heq => Except.ok.inj heq) hitems
    have hruns := hadded.holdsRuns h.sound h.holds hid (fun r hr => Nat.le_of_lt (hlt r hr)) hsmall
    rw [List.filter_eq_self.mpr fun r hr => by simpa using hlt r hr] at hruns
    exact .inr (hrest hruns (by simp [hadded.source_gone]))

namespace Layers

/-- A flush that fails leaves the core as it was, and of its run what an attempt to write it may
leave. -/
theorem HeldBy.flushBuffer_failed (h : l.HeldBy c d place) (hsane : l.Sane) {log : List Write}
    (hlog : l.flushing = some log) (hid : c.flushing = some id) {e : StoreError}
    (herror : (Core.flushBuffer id c d).1.1 = .error e) :
    (Core.flushBuffer id c d).1.2 = c ∧
      Attempted place (nextRun l.runs) ((Log.entries log).map .ok) d (Core.flushBuffer id c d).2 := by
  have hstill := still_flushBuffer id c d
  refine ⟨?_, ?_⟩
  · rcases Core.flushBuffer_cases id c d with ⟨g, hdone⟩ | ⟨cause, hfailed⟩
    · rw [hdone] at herror
      cases herror
    · rw [hfailed]
  · rcases h.persist hsane hlog hid with ⟨d₁, hpersist, hadded⟩ | ⟨⟨cause, d₁, hpersist, hattempted⟩, -⟩
    -- the run was written, so that loading has failed
    · rw [hpersist] at hstill
      exact (Attempted.added rfl hadded).still hstill
    · rw [hpersist] at hstill
      exact hattempted.still hstill

/-- Layers whose run could not be written go on as they were, beside what is left of the attempt. -/
theorem HeldBy.stalledBy (h : l.HeldBy c d place) (hsane : l.Sane) (hright : l.Right)
    (hleft : l.left = none) (hopen : l.closed = false) {log : List Write}
    (hlog : l.flushing = some log)
    (hattempted : Attempted place (nextRun l.runs) ((Log.entries log).map .ok) d d')
    (hsmall : ∀ file, (d'.file file).content.length < positionLimit) :
    ∃ strays, l.StalledBy strays c d' place := by
  have hlt := h.nextRun_lt
  have hnext : ∀ r ∈ runEntries l.runs, r.1 < nextRun l.runs := fun r hr => by
    obtain ⟨log, hmem, -⟩ := mem_runEntries.mp hr
    exact hsane.runsAscend.lt_nextRun hmem
  have hshown : l.ShownBy c d' place := by
    refine h.toShownBy.beside (hattempted.works h.sound hlt).toEvolves (fun run hrun => ?_)
      fun r hr => ?_
    · obtain ⟨r, hshows⟩ := h.shows_of_mem hrun
      exact hattempted.file_eq (h.unfinished hlt) hshows.lt_size
    · have hid := Nat.lt_trans (hnext r hr) hlt
      exact hattempted.others (RunName.placeIn_ne_of_kind _ _ hid hlt (by simp))
        (RunName.placeIn_ne_of_id hid hlt (Nat.ne_of_lt (hnext r hr)))
  obtain ⟨strays, hstrays, hfolder⟩ : ∃ strays, l.Strays strays ∧ (l.live = true →
      d'.HasRunsOnly c.config.dir place (runEntries (l.runs ++ strays))) := by
    by_cases hlive : l.live = true
    · have hstored := h.hasRunsOnly hleft
      rw [hsane.stored_of_live hlive] at hstored
      rcases hstored.attempted hattempted hlt hnext hsmall with hsame | hadded
      · exact ⟨[], .inl rfl, fun _ => by rwa [List.append_nil]⟩
      · exact ⟨_, .inr ⟨log, hlog, rfl⟩, fun _ => by rwa [runEntries_append]⟩
    · exact ⟨[], .inl rfl, fun htrue => absurd htrue hlive⟩
  exact ⟨strays, {
    hshown with
    sane := hsane
    right := hright
    isOpen := hopen
    waits := by rw [hlog]; rfl
    stored := hfolder
    stray := hstrays }⟩

theorem noFlush_of_does {tasks : List Task} {chores : List Chore}
    (h : List.Forall₂ (Task.Does c) tasks chores) (hnone : Chore.flush ∉ chores) :
    ∀ task ∈ tasks, task.isFlush = false := by
  induction h with
  | nil => exact fun task htask => by cases htask
  | cons hdoes _ ih =>
    intro task htask
    rcases List.mem_cons.mp htask with rfl | htask
    · cases hdoes with
      | flush => exact absurd List.mem_cons_self hnone
      | compaction => rfl
    · exact ih (fun hmem => hnone (List.mem_cons_of_mem _ hmem)) task htask

/-- A session whose flush fails is stalled, whatever it was that failed. -/
theorem Describes.failFlush (h : l.Describes start s dir place) (hright : l.Right)
    (hleft : l.left = none)
    (htask : s.store.worker.tasks.head? = some (.flush id))
    (hfails : (Task.flush id).result (s.store.core, s.disk) ≠ .ok ())
    (hwithin : (s.step .runNext).Within) :
    (s.step .runNext).Stalled id (s.store.core.buffers id) place := by
  obtain ⟨tasks, htasks⟩ := List.head?_eq_some_iff.mp htask
  obtain ⟨worker, hdone, rfl, haccepting, hcrashed, -⟩ :=
    Store.runNext_eq s.store s.disk htasks
  obtain ⟨chore, queue, hfirst, hrest, hqueue⟩ :=
    List.forall₂_cons_left_iff.mp (htasks ▸ h.awaits.does)
  cases hfirst with
  | flush hid =>
    obtain ⟨⟨log, hlog⟩, hnone⟩ := h.sane.flushing_of_cons hqueue
    obtain ⟨e, herror⟩ : ∃ e, (Core.flushBuffer id s.store.core s.disk).1.1 = .error e := by
      cases hresult : (Core.flushBuffer id s.store.core s.disk).1.1 with
      | ok =>
        refine absurd ?_ hfails
        show (Core.flushBuffer id s.store.core s.disk).1.1.mapError StoreError.persistence = .ok ()
        rw [hresult]
        rfl
      | error e => exact ⟨e, rfl⟩
    obtain ⟨hcore, hattempted⟩ := h.held.flushBuffer_failed h.sane hlog hid herror
    have heffect : (Task.flush id).effect (s.store.core, s.disk) =
        (s.store.core, (Core.flushBuffer id s.store.core s.disk).2) := Prod.ext hcore rfl
    rw [Session.Within, Session.step, hdone, heffect] at hwithin
    rw [Session.step, hdone, heffect]
    generalize (Core.flushBuffer id s.store.core s.disk).2 = disk at hattempted hwithin
    have hopen := h.sane.open_of_cons hqueue
    obtain ⟨strays, hl⟩ :=
      h.held.stalledBy h.sane hright hleft hopen hlog hattempted hwithin.lengths
    exact {
      layers := ⟨l, strays, hl, h.writes⟩
      stuck := ⟨hid, by rw [h.held.inFlight, hlog]; rfl, rfl⟩
      noFlush := noFlush_of_does hrest hnone
      isOpen := h.closed.trans hopen
      busy := ⟨haccepting.trans (h.busy hopen).accepting, hcrashed.trans h.running⟩ }

end Layers

/-- A flush fails, wherever it is struck. Its buffer stays sealed and flagged, and the last writes are
read in every state that the open store reaches after that, if its compactions succeed. -/
theorem failed_flush_hides_nothing (hreached : s.Reached config) {plan faults : Nat → Option Fault}
    (htask : s.store.worker.tasks.head? = some (.flush id))
    (hfails : (Task.flush id).result (s.store.core, s.disk.startedWith plan) ≠ .ok ())
    (hwithin : (s.afterTask plan).Within)
    (htruthful : ((s.afterTask plan).disk.startedWith faults).Truthful) {later : List Event}
    (hkeeps : ∀ event ∈ later, event.KeepsOpen)
    (hlater : ((s.afterTask plan).facing faults).Fits config.dir later)
    (hsucceed : ∀ done ∈ ((s.afterTask plan).facing faults).journal later,
      done.1.isCompaction = true → done.2 = .ok ()) :
    (((s.afterTask plan).facing faults).run later).store.core.StuckWith id
        (s.store.core.buffers id) ∧
      (((s.afterTask plan).facing faults).run later).ReadsLastWrites := by
  obtain ⟨start, place, l, hdescribes, hright, hleft⟩ := hreached.describes
  have hstalled := (hdescribes.facing plan).failFlush hright hleft htask hfails hwithin
  have hafter := (hstalled.facing faults).run htruthful hkeeps hlater hsucceed
  exact ⟨hafter.stuck, hafter.readsLastWrites⟩

/-- A run, and the flush of another one. -/
def plannedFlush : List Event :=
  [.upsert (.put [1] [10]), .flush, .runNext, .upsert (.put [2] [20]), .flush]

/-- A compaction, under a write to a buffer that is never sealed. -/
def compactedBeside : List Event :=
  [.upsert (.put [2] [21]), .flush, .compact, .waitForBackground, .upsert (.put [1] [11])]

/-- A session that has a run and is to flush another one. -/
def flushingSession : Session := (newSession.facing noFaults).run plannedFlush

theorem flushingSession_reached : flushingSession.Reached smallConfig := by
  have hfits : (newSession.facing noFaults).Fits smallConfig.dir plannedFlush := by decide +kernel
  exact .run (.opened newSession_startsIn) hfits

/-- The flush has put its run into the folder, and could not load it. -/
def strandedRun : Session := (flushingSession.afterTask (strikesAt 3)).facing noFaults

/-- A compaction loads the stranded run beside its merge, which is of smaller number. -/
theorem strandedRun_hides_nothing :
    (strandedRun.run compactedBeside).store.core.generation.runs.map Run.id = [1, 2] ∧
      (strandedRun.run compactedBeside).store.core.StuckWith 1
        (flushingSession.store.core.buffers 1) ∧
      (strandedRun.run compactedBeside).ReadsLastWrites := by
  obtain ⟨htask, hfails, hwithin, hkeeps, hlater, hsucceed, hruns⟩ :
      flushingSession.store.worker.tasks.head? = some (.flush 1) ∧
      (Task.flush 1).result (flushingSession.store.core,
        flushingSession.disk.startedWith (strikesAt 3)) ≠ .ok () ∧
      (flushingSession.afterTask (strikesAt 3)).Within ∧
      (∀ event ∈ compactedBeside, event.KeepsOpen) ∧
      strandedRun.Fits smallConfig.dir compactedBeside ∧
      (∀ done ∈ strandedRun.journal compactedBeside,
        done.1.isCompaction = true → done.2 = .ok ()) ∧
      (strandedRun.run compactedBeside).store.core.generation.runs.map Run.id = [1, 2] := by
    decide +kernel
  refine ⟨hruns, ?_⟩
  rw [strandedRun] at hlater hsucceed ⊢
  exact failed_flush_hides_nothing flushingSession_reached htask hfails hwithin
    (faultless_startedWith _).truthful hkeeps hlater hsucceed

end LayeredStore
