import LayeredStore.Proofs.Crashes

/-!
# Which run is newer

Of two runs the one with the larger number is meant to be the newer one. That is so as long as no
compaction overtakes a flush: a compaction takes the active layer too, but leaves the sealed layer
to be flushed behind it, under a larger number than its own.

* `Layers.Ordered` : of two layers, the one that is read first has of no key an older write.
* `Layers.Calm` : no compaction is about to overtake a flush that has an older write of a key.
* `newer_runs_hold_newer_writes` : in a history that stays calm, runs with larger numbers hold
  newer writes.
* `overtaken_runs_hold_older_writes` : a history that does not.
-/

namespace LayeredStore

open Disk

namespace Log

/-- A log has of no key an older write than another log. -/
def Above (log other : List Write) : Prop :=
  ∀ key w v, newest? log key = some w → newest? other key = some v → v.number ≤ w.number

theorem above_nil (other : List Write) : Above [] other := fun _ _ _ h _ => nomatch h

end Log

namespace Layers

variable {l : Layers}

/-- Every layer has accepted writes only, and of two layers the newer one has of no key an older
write. -/
structure Ordered (l : Layers) : Prop where
  accepted : ∀ log ∈ l.logs, ∀ w ∈ log, w ∈ l.writes
  numbered : ∀ w ∈ l.writes, w.number < l.writes.length
  above : l.logs.Pairwise Log.Above
  live : l.live = true
  nothingLeft : l.left = none

/-- The active layer has a live write of a key of which the sealed layer has one too. -/
def Overtakes (l : Layers) : Prop :=
  ∃ log ∈ l.flushing, ∃ w ∈ Log.live l.active, (Log.newest? log w.entry.key).isSome

instance (l : Layers) : Decidable l.Overtakes :=
  inferInstanceAs (Decidable (∃ log ∈ l.flushing, _))

/-- The next task is no compaction that would overtake a flush. -/
def Calm (l : Layers) : Prop := l.queue.head? = some (.compaction true) → ¬ l.Overtakes

instance (l : Layers) : Decidable l.Calm := inferInstanceAs (Decidable (_ → _))

/-- The layers are calm before each of some events. -/
def StaysCalm : Layers → List Event → Prop
  | _, [] => True
  | l, event :: events => l.Calm ∧ (l.step event).StaysCalm events

instance decidableStaysCalm : (l : Layers) → (events : List Event) → Decidable (l.StaysCalm events)
  | _, [] => .isTrue trivial
  | l, event :: events =>
    have := decidableStaysCalm (l.step event) events
    inferInstanceAs (Decidable (_ ∧ _))

theorem ordered_initial (threshold : Nat) : (initial threshold).Ordered where
  accepted log hlog w hw := by
    obtain rfl : log = [] := by simpa [logs, initial] using hlog
    cases hw
  numbered w hw := by cases hw
  above := List.pairwise_singleton _ _
  live := rfl
  nothingLeft := rfl

/-! ## Writing and sealing -/

theorem Ordered.written (h : l.Ordered) (e : Entry) : (l.written e).Ordered where
  accepted log hlog w hw := by
    rcases List.mem_cons.mp hlog with rfl | hlog
    · rcases List.mem_cons.mp hw with rfl | hw
      · exact List.mem_cons_self
      · exact List.mem_cons_of_mem _ (h.accepted l.active List.mem_cons_self w hw)
    · exact List.mem_cons_of_mem _ (h.accepted log (List.mem_cons_of_mem _ hlog) w hw)
  numbered w hw := by
    show w.number < (_ :: l.writes).length
    rw [List.length_cons]
    rcases List.mem_cons.mp hw with rfl | hw
    · exact Nat.lt_succ_self _
    · exact Nat.lt_succ_of_lt (h.numbered w hw)
  above := by
    obtain ⟨hactive, hrest⟩ := List.pairwise_cons.mp h.above
    refine List.pairwise_cons.mpr ⟨fun log hlog key w v hw hv => ?_, hrest⟩
    have hw : Log.newest? (⟨e, l.writes.length⟩ :: l.active) key = some w := hw
    by_cases hkey : e.key = key
    · -- the number of the new write is larger than all others
      obtain rfl : ⟨e, l.writes.length⟩ = w := by simpa [Log.newest?, hkey] using hw
      exact Nat.le_of_lt (h.numbered v
        (h.accepted log (List.mem_cons_of_mem _ hlog) v (Log.mem_of_newest? hv)))
    · refine hactive log hlog key w v ?_ hv
      simpa [Log.newest?, hkey] using hw
  live := h.live
  nothingLeft := h.nothingLeft

/-- The layers do not depend on their queue, nor on whether the store is closed. -/
theorem Ordered.congr {m : Layers} (h : l.Ordered) (hlogs : m.logs = l.logs)
    (hwrites : m.writes = l.writes) (hlive : m.live = l.live) (hleft : m.left = l.left) :
    m.Ordered where
  accepted := by
    rw [hlogs, hwrites]
    exact h.accepted
  numbered := by
    rw [hwrites]
    exact h.numbered
  above := by
    rw [hlogs]
    exact h.above
  live := hlive.trans h.live
  nothingLeft := hleft.trans h.nothingLeft

theorem Ordered.sealed (h : l.Ordered) : l.sealed.Ordered := by
  by_cases hnot : l.active = [] ∨ l.flushing.isSome = true
  · rw [sealed_of_not hnot]
    exact h
  · rw [not_or] at hnot
    have hnone : l.flushing = none := by simpa using hnot.2
    have hlogs : l.logs = l.active :: l.runs.reverse.map Prod.snd := by rw [logs, hnone]; rfl
    rw [sealed_of_any hnot.1 hnone]
    refine ⟨fun log hlog w hw => ?_, h.numbered, ?_, h.live, h.nothingLeft⟩
    · rcases List.mem_cons.mp hlog with rfl | hlog
      · cases hw
      · exact h.accepted log (hlogs ▸ hlog) w hw
    · have habove := h.above
      rw [hlogs] at habove
      exact List.pairwise_cons.mpr ⟨fun log _ => Log.above_nil log, habove⟩

/-! ## The tasks -/

/-- A flush turns the sealed layer into the newest run, so that the order of the layers stays. -/
theorem Ordered.flushed (h : l.Ordered) (hsane : l.Sane) : l.flushed.Ordered := by
  cases hflushing : l.flushing with
  | none =>
    rw [Layers.flushed, hflushing]
    exact h
  | some log =>
    have hstored : l.stored.filter (·.1 < nextRun l.runs) = l.runs := by
      rw [hsane.stored_of_live h.live]
      exact List.filter_eq_self.mpr fun r hr => by simpa using hsane.runsAscend.lt_nextRun hr
    refine h.congr ?_ ?_ ?_ ?_
    · simp [logs, Layers.flushed, hflushing, hstored]
    all_goals simp [Layers.flushed, hflushing, h.live]

/-- The newest write of a key in a merge is the newest in all layers. -/
theorem newest?_merge {key : Bytes} {w : Write} (h : Log.newest? l.merge key = some w) :
    Log.newest? l.all key = some w ∧ w.entry.isTombstone = false := by
  rw [merge, Log.newest?_live] at h
  obtain ⟨hnewest, hlive⟩ := Option.filter_eq_some_iff.mp h
  exact ⟨hnewest, by simpa using hlive⟩

/-- The merge has of the keys of the active layer the writes that are newest there. -/
theorem above_active_merge (l : Layers) : Log.Above l.active l.merge := by
  intro key w v hw hv
  have hnewest := (newest?_merge hv).1
  rw [all, buffered, List.append_assoc, Log.newest?_append, hw] at hnewest
  exact Nat.le_of_eq (congrArg Write.number (Option.some.inj hnewest).symm)

/-- The same goes for the sealed layer, if the active one does not overtake it. -/
theorem above_sealed_merge (hcalm : ¬ l.Overtakes) {log : List Write}
    (hflushing : l.flushing = some log) : Log.Above log l.merge := by
  intro key w v hw hv
  obtain ⟨hnewest, hlive⟩ := newest?_merge hv
  rw [all, buffered, hflushing, Option.getD_some, List.append_assoc, Log.newest?_append] at hnewest
  cases hactive : Log.newest? l.active key with
  | none =>
    -- the merge has the write of the sealed layer itself
    rw [hactive, Log.newest?_append, hw] at hnewest
    exact Nat.le_of_eq (congrArg Write.number (Option.some.inj hnewest).symm)
  | some u =>
    rw [hactive] at hnewest
    obtain rfl : u = v := Option.some.inj hnewest
    obtain rfl := Log.key_of_newest? hactive
    refine absurd ⟨log, hflushing, u, ?_, by rw [hw]; rfl⟩ hcalm
    simp [Log.live, Log.mem_of_newest? hactive, hactive, hlive]

/-- A compaction merges what the buffers have with what is older. The buffers stay, and they are
newer than the merge if the active layer does not overtake the sealed one. -/
theorem Ordered.compacted (h : l.Ordered) (hcalm : ¬ l.Overtakes) : l.compacted.Ordered := by
  by_cases hany : l.runs = [] ∧ l.buffered = []
  · rw [Layers.compacted, if_pos hany]
    exact h
  have hlogs : l.compacted.logs =
      l.active :: (l.flushing.toList ++ l.mergedRuns.reverse.map Prod.snd) := by
    rw [compacted_of_any hany]
    rfl
  have hmerge {log : List Write} (hlog : log ∈ l.mergedRuns.reverse.map Prod.snd) : log = l.merge := by
    obtain ⟨r, hr, rfl⟩ := List.mem_map.mp hlog
    rw [mem_mergedRuns (List.mem_reverse.mp hr)]
  have hkept : ∀ log ∈ l.active :: l.flushing.toList, log ∈ l.logs := by
    rw [logs]
    intro log hlog
    rw [← List.cons_append]
    exact List.mem_append_left _ hlog
  have hone : (l.mergedRuns.reverse.map Prod.snd).Pairwise Log.Above := by
    rw [mergedRuns]
    split <;> simp
  have hsame : l.compacted.writes = l.writes ∧ l.compacted.live = true ∧ l.compacted.left = none := by
    rw [compacted_of_any hany, h.nothingLeft]
    exact ⟨rfl, rfl, rfl⟩
  refine ⟨fun log hlog w hw => ?_, hsame.1 ▸ h.numbered, ?_, hsame.2.1, hsame.2.2⟩
  · rw [hsame.1]
    rw [hlogs, ← List.cons_append] at hlog
    rcases List.mem_append.mp hlog with hlog | hlog
    · exact h.accepted log (hkept log hlog) w hw
    · rw [hmerge hlog] at hw
      have hall := l.merge_subset hw
      rw [← flatten_logs] at hall
      obtain ⟨log, hlog, hw⟩ := List.mem_flatten.mp hall
      exact h.accepted log hlog w hw
  · have hbuffers : (l.active :: l.flushing.toList).Pairwise Log.Above := by
      have habove := h.above
      rw [logs, ← List.cons_append] at habove
      exact (List.pairwise_append.mp habove).1
    rw [hlogs, ← List.cons_append]
    refine List.pairwise_append.mpr ⟨hbuffers, hone, fun log hlog merged hmerged => ?_⟩
    rw [hmerge hmerged]
    rcases List.mem_cons.mp hlog with rfl | hlog
    · exact l.above_active_merge
    · exact above_sealed_merge hcalm (by simpa using hlog)

theorem Ordered.work (h : l.Ordered) (hsane : l.Sane) (hcalm : l.Calm) : l.work.Ordered := by
  cases hqueue : l.queue with
  | nil =>
    rw [work_of_nil hqueue]
    exact h
  | cons chore queue =>
    rw [work_of_cons hqueue]
    suffices hdone : (l.perform chore).Ordered from hdone.congr rfl rfl rfl rfl
    cases chore with
    | flush => exact h.flushed hsane
    | compaction planned =>
      cases planned with
      | false => exact h
      | true => exact h.compacted (hcalm (by rw [hqueue]; rfl))

/-- There is at most one compaction, and behind a flush it overtakes nothing. -/
theorem Sane.calm_work (hsane : l.Sane) : l.work.Calm := by
  intro hhead
  cases hqueue : l.queue with
  | nil =>
    rw [work_of_nil hqueue, hqueue] at hhead
    cases hhead
  | cons chore queue =>
    rw [work_of_cons hqueue] at hhead ⊢
    cases chore with
    | flush =>
      obtain ⟨⟨log, hlog⟩, -⟩ := hsane.flushing_of_cons hqueue
      rintro ⟨sealed, hsealed, -⟩
      simp [perform, flushed, hlog] at hsealed
    | compaction planned =>
      have hother := hsane.notMem_of_cons hqueue _ (List.mem_of_mem_head? hhead)
      cases hother

theorem Ordered.workAll (h : l.Ordered) (hsane : l.Sane) (hcalm : l.Calm) : l.workAll.Ordered :=
  (workAll_induction (P := fun m => m.Sane ∧ m.Calm ∧ m.Ordered)
    (fun _ hm => ⟨hm.1.work, hm.1.calm_work, hm.2.2.work hm.1 hm.2.1⟩) ⟨hsane, hcalm, h⟩).2.2

/-! ## Whole histories -/

theorem Ordered.shut (h : l.Ordered) (hsane : l.Sane) (hcalm : l.Calm) : l.shut.Ordered := by
  rw [Layers.shut]
  split
  · exact h
  · next hopen =>
    have hopen' : l.workAll.closed = false := by
      rw [(keeps_workAll l).closed]
      simpa using hopen
    -- the last flush is the only task that waits
    have hcalm' : l.workAll.sealed.Calm := by
      intro hhead
      rw [Layers.sealed] at hhead
      split at hhead <;> simp [queue_workAll] at hhead
    exact ((h.workAll hsane hcalm).sealed.workAll (hsane.workAll.sealed hopen') hcalm').congr
      rfl rfl rfl rfl

theorem Ordered.reopened (h : l.Ordered) (hsane : l.Sane) (threshold : Nat) :
    (l.reopened threshold).Ordered := by
  rw [Layers.reopened]
  split
  · have hsettled : l.settled = l.runs := by
      rw [settled, h.nothingLeft]
      exact hsane.stored_of_live h.live
    have hlogs : (l.opened threshold).logs = [] :: l.runs.reverse.map Prod.snd := by
      rw [opened, hsettled]
      rfl
    have habove := h.above
    rw [logs, ← List.cons_append] at habove
    refine ⟨fun log hlog w hw => ?_, h.numbered, ?_, rfl, rfl⟩
    · rw [hlogs] at hlog
      rcases List.mem_cons.mp hlog with rfl | hlog
      · cases hw
      · exact h.accepted log (List.mem_cons_of_mem _ (List.mem_append_right _ hlog)) w hw
    · rw [hlogs]
      exact List.pairwise_cons.mpr
        ⟨fun log _ => Log.above_nil log, (List.pairwise_append.mp habove).2.1⟩
  · exact h

theorem Ordered.step (h : l.Ordered) (hsane : l.Sane) (hcalm : l.Calm) (event : Event) :
    (l.step event).Ordered := by
  have hscheduled : l.scheduleFlush.Ordered := by
    rw [scheduleFlush]
    split
    · exact h
    · exact h.sealed
  have hplanned : l.scheduleCompaction.Ordered := by
    rw [scheduleCompaction]
    split
    · exact h
    · exact h.congr rfl rfl rfl rfl
  cases event with
  | upsert e =>
    show (l.upsert e).Ordered
    rw [upsert]
    split
    · split
      · exact (h.written e).sealed
      · exact h.written e
    · exact h
  | flush => exact hscheduled
  | compact => exact hplanned
  | scheduleFlush => exact hscheduled
  | scheduleCompaction => exact hplanned
  | waitForBackground => exact h.workAll hsane hcalm
  | status => exact h
  | close => exact h.shut hsane hcalm
  | runNext => exact h.work hsane hcalm
  | reopen process config => exact h.reopened hsane config.flushThreshold

theorem Ordered.run (h : l.Ordered) (hsane : l.Sane) {events : List Event}
    (hcalm : l.StaysCalm events) : (l.run events).Ordered := by
  induction events generalizing l with
  | nil => exact h
  | cons event events ih => exact ih (h.step hsane hcalm.1 event) (hsane.step event) hcalm.2

end Layers

variable {d : Disk} {s : Session} {config : Config}

/-- In every state of a history that stays calm, the runs are logs of accepted writes, and of two
runs that have a key the one with the larger number has no older write of it. -/
theorem newer_runs_hold_newer_writes {events : List Event}
    (hstarts : s.StartsIn config d) (hfits : s.Fits config.dir events)
    (hcalm : (Layers.initial config.flushThreshold).StaysCalm events) :
    ∃ runs : List (Nat × List Write),
      List.Forall₂ (Run.Shows (s.run events).disk) (s.run events).store.core.generation.runs
        (runEntries runs) ∧
      (∀ r ∈ runs, ∀ w ∈ r.2, w ∈ (s.run events).writes) ∧
      runs.Pairwise fun r r' => r.1 < r'.1 ∧ Log.Above r'.2 r.2 := by
  obtain ⟨place, hdescribes⟩ := hstarts.describes hfits
  have hordered := (Layers.ordered_initial config.flushThreshold).run (Layers.sane_initial _) hcalm
  have habove := hordered.above
  rw [Layers.logs, ← List.cons_append] at habove
  have hruns := List.pairwise_reverse.mp
    (List.pairwise_map.mp (List.pairwise_append.mp habove).2.1)
  refine ⟨_, hdescribes.held.shows, fun r hr w hw => ?_, hdescribes.sane.runsAscend.and hruns⟩
  rw [hdescribes.writes]
  refine hordered.accepted r.2 (List.mem_cons_of_mem _ (List.mem_append_right _ ?_)) w hw
  exact List.mem_map_of_mem (List.mem_reverse.mpr hr)

/-- A compaction overtakes a flush that has no key of the active layer. -/
theorem busyHistory_newer_runs : ∃ runs : List (Nat × List Write),
    List.Forall₂ (Run.Shows (newSession.run (busyHistory.take 10)).disk)
      (newSession.run (busyHistory.take 10)).store.core.generation.runs (runEntries runs) ∧
    (∀ r ∈ runs, ∀ w ∈ r.2, w ∈ (newSession.run (busyHistory.take 10)).writes) ∧
    runs.Pairwise fun r r' => r.1 < r'.1 ∧ Log.Above r'.2 r.2 :=
  newer_runs_hold_newer_writes newSession_startsIn (by decide +kernel) (by decide +kernel)

/-- A write that is overwritten while its flush waits behind a compaction. -/
def overtakenFlush : List Event :=
  [.upsert (.put [1] [10]), .compact, .scheduleFlush, .upsert (.put [1] [11]), .runNext, .runNext]

/-- The entries of each run of a generation, by its number. -/
def Generation.runContents (g : Generation) (d : Disk) : List (Nat × List Item) :=
  g.runs.map fun run => (run.id, { g with runs := [run] }.contents d)

/-- The run with the larger number has the older write of the key. If the process stops there, the
older write is all that a process finds which opens the folder next. -/
theorem overtaken_runs_hold_older_writes :
    (newSession.run overtakenFlush).writes = [⟨.put [1] [11], 1⟩, ⟨.put [1] [10], 0⟩] ∧
      (newSession.run overtakenFlush).store.core.generation.runContents
          (newSession.run overtakenFlush).disk =
        [(1, [.ok (.put [1] [11])]), (2, [.ok (.put [1] [10])])] ∧
      (match Generation.openIn smallConfig (newSession.run overtakenFlush).disk with
        | (.ok g, d) => g.contents d
        | (.error _, _) => []) = [.ok (.put [1] [10])] := by
  decide +kernel

end LayeredStore
