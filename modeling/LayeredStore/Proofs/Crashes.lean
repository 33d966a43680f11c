import LayeredStore.Proofs.CrashSafety
import LayeredStore.Proofs.Histories

/-!
# What is found after a crash

A process stops in the middle of a compaction, others stop while they recover the folder, and one
opens it at last.

* `Core.recovers_from_crash` : if the merge has a live entry, what is found is what the runs held
  before the compaction, or what all layers held.
-/

namespace LayeredStore

open Disk Generation

variable {d d' : Disk} {dir place : Path} {runs : List (Nat × List Entry)} {c : Core}

/-- What a process finds that opens the folder after a compaction and some recoveries were struck as
planned, if it can open it. -/
def Core.foundAfter (c : Core) (d : Disk) (plan : Nat → Option Fault)
    (plans : List (Nat → Option Fault)) : Option (List Item) :=
  match Generation.openIn c.config
      (((c.crashed d plan).afterRecoveries c.config.dir plans).startedWith noFaults) with
  | (.ok g, d') => some (g.contents d')
  | (.error _, _) => none

theorem Core.foundAfter_eq (h : c.AtRest d place runs) {plan : Nat → Option Fault}
    {plans : List (Nat → Option Fault)} (hplans : ∀ plan ∈ plans, StopsForGood plan)
    {contents : List (Nat × List Entry)}
    (hrecoverable : Recoverable (c.crashed d plan) c.generation.dir place contents)
    (hnumbered : Numbered contents) :
    ∃ entries, c.foundAfter d plan plans = some (entries.map .ok) ∧
      IsLiveOverlay (contents.reverse.map Prod.snd) entries := by
  have hroomy : c.config.dir.Roomy := h.dir_eq ▸ h.roomy
  rw [← h.dir_eq] at hrecoverable
  obtain ⟨g, d', entries, hopen, hcontents, hlive⟩ :=
    Generation.openIn_contents hroomy (hrecoverable.afterRecoveries hroomy hplans) hnumbered
  refine ⟨entries, ?_, hlive⟩
  simp only [foundAfter, hopen, hcontents]

/-- While no merge is left in the folder, the core of a session has it for itself. -/
theorem Layers.Describes.atRest {l : Layers} {s : Session} {start : Disk}
    (h : l.Describes start s dir place)
    (hlive : l.live = true) (hleft : l.left = none) :
    s.store.core.AtRest s.disk place (runEntries l.runs) where
  toMirrors := h.held.mirrors h.sane hlive
  dir_eq := h.held.dir_eq.symm
  tidy := h.held.tidy
  noMerge := h.held.noMerge hleft
  notFolder hid := by
    rw [h.held.unfinished hid]
    simp

/-- How a compaction ends that is struck as planned. The merge was not written, and the runs were
not touched, or it was, and they give way to it. -/
theorem Core.crashed_spec (h : c.AtRest d place runs) (hlayers : c.hasLayers = true)
    (plan : Nat → Option Fault) :
    ∃ merged, IsLiveOverlay (c.layers runs) merged ∧
      ((∃ e, c.mergeWritten d plan = false ∧
          c.generation.writeMerged c.buffers c.activeId c.flushing (d.startedWith plan) =
            (.error e, c.crashed d plan) ∧
          MergeOutcome (d.startedWith plan) c.generation.dir place c.generation.mergedId merged
            (.error e, c.crashed d plan)) ∨
        c.mergeWritten d plan = true ∧
          ∃ result, SwapOutcome place c (d.startedWith plan) merged (result, c.crashed d plan)) := by
  have hg := (h.startedWith plan).toMirrors
  obtain ⟨merged, hasc, hmem, houtcome⟩ := writeMerged_spec c.buffers c.activeId c.flushing hg.roomy
    hg.folder hg.sound hg.live hg.blockSize_le hg.mergedId_lt
    (hg.stands.imp fun _ _ h => h.toShows) hg.numbered
    (by rw [(h.startedWith plan).noMerge hg.mergedId_lt]; simp) fun run hrun => hg.apart hrun
  refine ⟨merged, ⟨hasc, c.layers_eq runs ▸ hmem⟩, ?_⟩
  rw [mergeWritten, crashed]
  cases hwrite : c.generation.writeMerged c.buffers c.activeId c.flushing (d.startedWith plan) with
  | mk r d₁ =>
    rw [hwrite] at houtcome
    cases r with
    | error e =>
      rw [compactRuns_of_unwritten hlayers hwrite]
      exact .inl ⟨e, rfl, rfl, houtcome⟩
    | ok name => exact .inr ⟨rfl, _, compactRuns_of_written hg.among hlayers hwrite houtcome⟩

/-! ## Merges with live entries -/

/-- A compaction whose merge has a live entry is atomic under crashes. After the process stopped at
any operation, and after any number of recoveries that were stopped too, the folder can be opened.
It has the contents of the runs alone if the merge had not been completed, and of all layers
otherwise. The file of a merge counts as complete if it opens as a run; `hwhole` says that it is
not opened before all of the merge is in it. -/
theorem Core.recovers_from_crash (h : c.AtRest d place runs)
    (hlive : ∃ e, overlay (c.layers runs) e.key = some e ∧ e.isTombstone = false)
    {plan : Nat → Option Fault} (hplan : StopsForGood plan)
    (hsmall : ∀ file, ((c.crashed d plan).file file).content.length < positionLimit)
    (hwhole : c.mergeWritten d plan = false → c.mergeOpens (c.crashed d plan) = true → ∀ file,
      (c.crashed d plan).node? ((mergedName c.generation).placeIn place) = some (.file file) →
      ∃ entries : List Entry, IsImage ((c.crashed d plan).file file).content entries ∧
        IsLiveOverlay (c.layers runs) entries)
    {plans : List (Nat → Option Fault)} (hplans : ∀ plan ∈ plans, StopsForGood plan) :
    ∃ entries, c.foundAfter d plan plans = some (entries.map .ok) ∧
      IsLiveOverlay (if c.mergeWritten d plan || c.mergeOpens (c.crashed d plan) then c.layers runs
        else runs.reverse.map Prod.snd) entries := by
  have h₀ := h.startedWith plan
  obtain ⟨e, he, hlive⟩ := hlive
  obtain ⟨merged, hmerge, houtcome⟩ :=
    Core.crashed_spec h (Core.hasLayers_of_overlay h.toMirrors he) plan
  have hne : merged ≠ [] := by
    rintro rfl
    cases (hmerge.2 e).mpr ⟨he, hlive⟩
  -- a folder that stands for the merge has what all layers held
  have hnew (hrecoverable : Recoverable (c.crashed d plan) c.generation.dir place
      [(c.generation.mergedId, merged)]) : ∃ entries,
      c.foundAfter d plan plans = some (entries.map .ok) ∧ IsLiveOverlay (c.layers runs) entries := by
    obtain ⟨entries, hfound, hentries⟩ := Core.foundAfter_eq h hplans hrecoverable
      ⟨by simp, by simpa using h.toMirrors.mergedId_lt_flushingRank⟩
    obtain rfl : entries = merged := hentries.unique (isLiveOverlay_singleton hmerge)
    exact ⟨entries, hfound, hmerge⟩
  rcases houtcome with ⟨e, hnot, -, hunwritten⟩ | ⟨hwritten, result, hswap⟩
  · have hrecoverable := Core.recoverable_of_unwritten h₀ hunwritten hsmall (by
      intro file hnode hopens
      obtain ⟨others, himage, hothers⟩ := hwhole hnot hopens file hnode
      exact hothers.unique hmerge ▸ himage)
    rw [hnot, Bool.false_or]
    cases hopens : c.mergeOpens (c.crashed d plan) with
    | false =>
      rw [hopens, if_neg (by simp)] at hrecoverable
      exact Core.foundAfter_eq h hplans hrecoverable h.toMirrors.numbered
    | true =>
      rw [hopens, if_pos rfl] at hrecoverable
      exact hnew hrecoverable
  · rw [hwritten]
    exact hnew (Core.recoverable_of_written h₀ (halting_startedWith hplan d) hswap hne hsmall)

/-- A process that stops after so many operations. -/
def stopsAfter (count : Nat) : Nat → Option Fault :=
  fun n => if n < count then none else some ⟨⟨5⟩, 0⟩

theorem stopsForGood_stopsAfter (count : Nat) : StopsForGood (stopsAfter count) := by
  intro n m hle hfault
  simp only [stopsAfter, ne_eq, ite_eq_left_iff, reduceCtorEq, imp_false, not_not] at hfault ⊢
  omega

theorem truthful_stopsAfter (count : Nat) (d : Disk) :
    (d.startedWith (stopsAfter count)).Truthful := by
  intro n fault _ hfault
  have heq : stopsAfter count n = some fault := hfault
  rw [stopsAfter] at heq
  split at heq
  · cases heq
  · cases heq
    decide

/-- A write over two runs, the newer of which overwrites one key and deletes another. -/
def twoRuns : List Event :=
  [.upsert (.put [1] [10]), .upsert (.put [2] [20]), .flush, .runNext, .upsert (.put [1] [11]),
    .upsert (.tombstone [2]), .flush, .runNext, .upsert (.put [3] [30])]

theorem stopsForGood_of_singleton (count : Nat) :
    ∀ plan ∈ [stopsAfter count], StopsForGood plan := by
  simpa using stopsForGood_stopsAfter count

theorem describes_twoRuns : ∃ place, ((Layers.initial 64).run twoRuns).Describes
    .empty (newSession.run twoRuns) smallConfig.dir place :=
  newSession_startsIn.describes (by decide +kernel)

/-- The compaction stops between the two removals, and so does the first recovery. -/
theorem twoRuns_recovers_from_crash :
    ∃ entries, (newSession.run twoRuns).store.core.foundAfter (newSession.run twoRuns).disk
        (stopsAfter 3) [stopsAfter 4] = some (entries.map .ok) ∧
      IsLiveOverlay ((newSession.run twoRuns).store.core.layers
        (runEntries ((Layers.initial 64).run twoRuns).runs)) entries := by
  obtain ⟨place, hdescribes⟩ := describes_twoRuns
  have hrest := hdescribes.atRest (by decide +kernel) (Layers.left_run rfl _)
  obtain ⟨hlive, hwritten, hsmall⟩ : (overlay ((newSession.run twoRuns).store.core.layers
        (runEntries ((Layers.initial 64).run twoRuns).runs)) [1] = some (.put [1] [11])) ∧
      (newSession.run twoRuns).store.core.mergeWritten (newSession.run twoRuns).disk
        (stopsAfter 3) = true ∧
      ∀ id < ((newSession.run twoRuns).store.core.crashed (newSession.run twoRuns).disk
          (stopsAfter 3)).files.size,
        (((newSession.run twoRuns).store.core.crashed (newSession.run twoRuns).disk
          (stopsAfter 3)).file id).content.length < positionLimit := by decide +kernel
  obtain ⟨entries, hfound, hentries⟩ := Core.recovers_from_crash hrest
    ⟨.put [1] [11], hlive, rfl⟩ (stopsForGood_stopsAfter 3)
    (lengths_iff.mpr hsmall) (fun hnot => absurd hwritten (by rw [hnot]; simp))
    (stopsForGood_of_singleton 4)
  rw [hwritten, Bool.true_or, if_pos rfl] at hentries
  exact ⟨entries, hfound, hentries⟩

/-- A folder that has one run. -/
def folderWith (name : String) (entries : List Entry) : Disk :=
  (writeRun (smallConfig.dir.child name) (entries.map .ok) 32 false
    (makeFolders smallConfig.dir .empty).2).2

/-- The core of a store that has read a folder and sealed a buffer with some entries. -/
def sealedOver (d : Disk) (entries : List Entry) : Option (Core × Disk) :=
  match Generation.openIn smallConfig d with
  | (.ok g, d) => do
    let written := entries.foldlM (fun c e => Prod.snd <$> Core.upsert c e)
      (Core.ofGeneration smallConfig g)
    let (_, c) ← (← written.toOption).sealActive.toOption
    return (c, d)
  | (.error _, _) => none

/-- A sealed buffer that overwrites the key of a run. -/
def overwriting (name : String) : Core × Disk :=
  (sealedOver (folderWith name [.put [2] [20]]) [.put [2] [21], .put [1] [10]]).getD
    (.ofGeneration smallConfig ⟨[], 0, false, [], false⟩, .empty)

/-- A run whose number is the rank of the sealed buffer takes a part of what is newer than it. And
if the folder has a name of an unfinished run under which no file can be removed, it does not open
again. -/
theorem crash_mixes_or_locks_out :
    ((overwriting "18446744073709551614.sst").1.generation.live = true ∧
      (overwriting "18446744073709551614.sst").1.generation.runs.map Run.id =
        [18446744073709551614] ∧
      ¬ ∃ entries, (overwriting "18446744073709551614.sst").1.foundAfter
          (overwriting "18446744073709551614.sst").2 noFaults [] = some (entries.map .ok) ∧
        (IsLiveOverlay [[.put [2] [20]]] entries ∨
          IsLiveOverlay ((overwriting "18446744073709551614.sst").1.layers
            [(18446744073709551614, [.put [2] [20]])]) entries)) ∧
    (overwriting "00000001.sst").1.generation.live = true ∧
    (overwriting "00000001.sst").1.foundAfter
      (makeFolder ["db", "00000001.sst.tmp"] (overwriting "00000001.sst").2).2 noFaults [] = none ∧
    (overwriting "00000001.sst").1.foundAfter
      (Disk.create ["db", "1.sst.tmp"] (overwriting "00000001.sst").2).2 noFaults [] = none := by
  obtain ⟨hlive, hids, hitems, hnewer, hclosed⟩ :
      (overwriting "18446744073709551614.sst").1.generation.live = true ∧
      (overwriting "18446744073709551614.sst").1.generation.runs.map Run.id =
        [18446744073709551614] ∧
      (overwriting "18446744073709551614.sst").1.foundAfter
          (overwriting "18446744073709551614.sst").2 noFaults [] =
        some ([.put [1] [10], .put [2] [20]].map .ok) ∧
      overlay ((overwriting "18446744073709551614.sst").1.layers
        [(18446744073709551614, [.put [2] [20]])]) [2] = some (.put [2] [21]) ∧
      (overwriting "00000001.sst").1.generation.live = true ∧
      (overwriting "00000001.sst").1.foundAfter (makeFolder ["db", "00000001.sst.tmp"]
        (overwriting "00000001.sst").2).2 noFaults [] = none ∧
      (overwriting "00000001.sst").1.foundAfter (Disk.create ["db", "1.sst.tmp"]
        (overwriting "00000001.sst").2).2 noFaults [] = none := by
    decide +kernel
  refine ⟨⟨hlive, hids, ?_⟩, hclosed⟩
  rintro ⟨entries, hfound, hwhole⟩
  rw [hfound, Option.some_inj] at hitems
  obtain rfl : entries = [.put [1] [10], .put [2] [20]] :=
    List.map_injective_iff.mpr (fun _ _ h => Except.ok.inj h) hitems
  rcases hwhole with hold | hnew
  · exact absurd ((hold.2 (.put [1] [10])).mp (by decide)).1 (by decide)
  · have hkept := ((hnew.2 (.put [2] [20])).mp (by decide)).1
    rw [show (Entry.put [2] [20]).key = [2] from rfl, hnewer] at hkept
    exact absurd hkept (by decide)

end LayeredStore
