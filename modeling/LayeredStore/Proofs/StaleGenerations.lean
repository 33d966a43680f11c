import LayeredStore.Proofs.Histories

/-!
# Generations that were given up

A compaction that is planned for a generation looks at the moment at which it runs whether the
generation is still live. `Core.Change` is what can happen to a core and its disk, in whatever
order, with tasks planned for any generation and whatever faults strike; `Core.cleared` lists the
generations whose runs a compaction then comes to remove.

* `Core.Ages` : what a change does to the generations: one may be given up, and new ones are live.
* `stale_generations` : those that were cleared, and no others, are not live, and a compaction that
  is planned for one of them does nothing.

A compaction clears the generation that is current when it runs. One that a flush has superseded
shares its run files with that generation and loses them too, but it remains live:
`superseded_generation_stays_live`.
-/

namespace LayeredStore

open Disk Generation StateProgram

variable {d d' : Disk} {c c' : Core} {config : Config} {g : Generation}

/-! ## Loading -/

/-- A generation that was loaded is live. -/
theorem Generation.live_of_load (h : Generation.load config d = (.ok g, d')) : g.live = true := by
  obtain ⟨names, d₁, -, hrest⟩ := DiskM.exists_of_bind h
  obtain ⟨runs, d₂, -, hlast⟩ := DiskM.exists_of_bind hrest
  cases hlast
  rfl

theorem Generation.live_of_openIn (h : Generation.openIn config d = (.ok g, d')) :
    g.live = true := by
  obtain ⟨-, d₁, -, hrest⟩ := DiskM.exists_of_bind h
  obtain ⟨-, d₂, -, hload⟩ := DiskM.exists_of_bind hrest
  exact live_of_load hload

namespace Core

/-! ## What happens to the generations -/

/-- Some of the generations may have been given up, and new ones are live. -/
structure Ages (cleared : Option Nat) (c c' : Core) : Prop where
  size_le : c.generations.size ≤ c'.generations.size
  kept : ∀ n < c.generations.size, c'.isLive n = (c.isLive n && decide (cleared ≠ some n))
  opened : ∀ n, c.generations.size ≤ n → n < c'.generations.size → c'.isLive n = true

theorem ages_of_eq (h : c'.generations = c.generations) : Ages none c c' where
  size_le := Nat.le_of_eq (congrArg Array.size h.symm)
  kept n _ := by simp [isLive, h]
  opened n hle hlt := by
    rw [h] at hlt
    exact absurd hlt (Nat.not_lt_of_le hle)

/-- A live generation is read from now on. -/
theorem Ages.install {cleared : Option Nat} (h : Ages cleared c c') (hlive : g.live = true) :
    Ages cleared c (c'.install g) where
  size_le := by
    rw [Layers.size_install]
    exact Nat.le_succ_of_le h.size_le
  kept n hlt := by
    rw [Layers.isLive_install c' g (Nat.lt_of_lt_of_le hlt h.size_le)]
    exact h.kept n hlt
  opened n hle hlt := by
    rw [Layers.size_install] at hlt
    by_cases hnew : n = c'.generations.size
    · rw [isLive, Core.install, Array.getElem?_push, if_pos hnew]
      exact hlive
    · have hold : n < c'.generations.size := by omega
      rw [Layers.isLive_install c' g hold]
      exact h.opened n hle hold

/-- The current generation is given up. -/
theorem ages_retired (c : Core) : Ages (some c.current) c c.retired where
  size_le := by simp [retired]
  kept n hlt := by
    rw [isLive, retired, Array.getElem?_setIfInBounds]
    by_cases hsame : c.current = n
    · simp [hsame, hlt]
    · simp [hsame, isLive]
  opened n hle hlt := by
    rw [retired, Array.size_setIfInBounds] at hlt
    exact absurd hlt (Nat.not_lt_of_le hle)

/-- A folder is loaded in the end, or the core stays as it was. -/
theorem ages_load {cleared : Option Nat} (h : Ages cleared c c') (config : Config) (d : Disk)
    {publish : Core → Generation → Core}
    (hpublish : ∀ g, (publish c' g).generations = (c'.install g).generations) :
    Ages cleared c ((do
      let next ← onDisk (Generation.load config)
      modify (publish · next) : CoreM Unit) c' d).1.2 := by
  cases hload : Generation.load config d with
  | mk r d' =>
    cases r with
    | error e =>
      rw [bind_of_error (onDisk_eq hload)]
      exact h
    | ok g =>
      rw [bind_of_ok (onDisk_eq hload)]
      have hinstalled := h.install (live_of_load hload)
      show Ages cleared c (publish c' g)
      exact {
        size_le := hpublish g ▸ hinstalled.size_le
        kept := fun n hlt => by
          rw [isLive, hpublish]
          exact hinstalled.kept n hlt
        opened := fun n hle hlt => by
          rw [isLive, hpublish]
          rw [hpublish] at hlt
          exact hinstalled.opened n hle hlt }

theorem ages_flushBuffer (id : Nat) (c : Core) (d : Disk) :
    Ages none c (flushBuffer id c d).1.2 := by
  unfold flushBuffer
  rw [get_bind]
  cases hpersist : c.generation.persist ((c.buffers id).toList .all) d with
  | mk r d₁ =>
    cases r with
    | error e =>
      rw [bind_of_error (discard_of_error (onDisk_eq hpersist))]
      exact ages_of_eq rfl
    | ok run =>
      rw [bind_of_ok (discard_of_ok (onDisk_eq hpersist))]
      exact ages_load (ages_of_eq rfl) c.config d₁ fun _ => rfl

theorem ages_afterMerge (c : Core) (merged : Option Nat) (d : Disk) :
    Ages (some c.current) c (c.afterMerge merged c d).1.2 := by
  unfold afterMerge
  cases hremove : c.generation.removeRuns d with
  | mk r d₁ =>
    cases r with
    | error e =>
      rw [bind_of_error (retire_of_error hremove)]
      exact ages_retired c
    | ok =>
      rw [bind_of_ok (retire_of_ok hremove)]
      cases merged with
      | none => exact ages_load (ages_retired c) c.config d₁ fun _ => rfl
      | some id =>
        dsimp only
        cases hpublish : c.generation.publish id d₁ with
        | mk r d₂ =>
          cases r with
          | error e =>
            rw [bind_of_error (onDisk_eq hpublish)]
            exact ages_retired c
          | ok =>
            rw [bind_of_ok (onDisk_eq hpublish)]
            exact ages_load (ages_retired c) c.config d₂ fun _ => rfl

/-- Whether a compaction comes to remove the runs of the current generation: there is something to
merge, and the merge was written. -/
def clearsCurrent (c : Core) (d : Disk) : Bool :=
  c.hasLayers && (c.generation.writeMerged c.buffers c.activeId c.flushing d).1.isOk

theorem ages_compactRuns (c : Core) (d : Disk) :
    Ages (if c.clearsCurrent d then some c.current else none) c (compactRuns c d).1.2 := by
  by_cases hlayers : c.hasLayers = true
  · rw [compactRuns_of_hasLayers hlayers, clearsCurrent, hlayers, Bool.true_and]
    cases hwrite : c.generation.writeMerged c.buffers c.activeId c.flushing d with
    | mk r d₁ =>
      cases r with
      | error e =>
        rw [bind_of_error (onDisk_eq hwrite)]
        exact ages_of_eq rfl
      | ok merged =>
        rw [bind_of_ok (onDisk_eq hwrite)]
        exact ages_afterMerge c merged d₁
  · rw [Bool.not_eq_true] at hlayers
    rw [compactRuns_of_not hlayers, clearsCurrent, hlayers, Bool.false_and]
    exact ages_of_eq rfl

/-! ## Histories of a core -/

/-- What can happen to a core and its disk. -/
inductive Change where
  | upsert (e : Entry)
  | sealActive
  /-- The flags of a flush and of a compaction are set or cleared. -/
  | flags (flush compaction : Bool)
  /-- The worker does a task, which may be a compaction planned for any generation. -/
  | task (task : Task)
  /-- Somebody else changes the disk. -/
  | meanwhile (disk : Disk)

/-- The core and the disk after a change. -/
def change (s : Core × Disk) : Change → Core × Disk
  | .upsert e =>
    match s.1.upsert e with
    | .ok (_, c) => (c, s.2)
    | .error _ => s
  | .sealActive =>
    match s.1.sealActive with
    | .ok (_, c) => (c, s.2)
    | .error _ => s
  | .flags flush compaction =>
    ({ s.1 with flushInFlight := flush, compactionPending := compaction }, s.2)
  | .task task => task.effect s
  | .meanwhile disk => (s.1, disk)

/-- The core and the disk after some changes. -/
def changes (s : Core × Disk) (history : List Change) : Core × Disk := history.foldl change s

/-- The generation whose runs a change comes to remove. -/
def clears (s : Core × Disk) : Change → Option Nat
  | .task (.compaction planned) =>
    if s.1.isLive planned && s.1.clearsCurrent s.2 then some s.1.current else none
  | _ => none

/-- The generations whose runs some changes come to remove, oldest first. -/
def cleared : Core × Disk → List Change → List Nat
  | _, [] => []
  | s, next :: history => (clears s next).toList ++ cleared (change s next) history

theorem ages_change (s : Core × Disk) (next : Change) :
    Ages (clears s next) s.1 (change s next).1 := by
  cases next with
  | upsert e =>
    rw [change]
    split
    · next hupsert =>
      obtain ⟨active, flag, -, rfl⟩ := of_upsert hupsert
      exact ages_of_eq rfl
    · exact ages_of_eq rfl
  | sealActive =>
    rw [change]
    split
    · next hseal =>
      rcases of_sealActive hseal with ⟨-, rfl⟩ | ⟨frozen, -, -, rfl⟩
      · exact ages_of_eq rfl
      · exact ages_of_eq rfl
    · exact ages_of_eq rfl
  | flags flush compaction => exact ages_of_eq rfl
  | meanwhile disk => exact ages_of_eq rfl
  | task task =>
    cases task with
    | flush id => exact ages_flushBuffer id s.1 s.2
    | barrier => exact ages_of_eq rfl
    | compaction planned =>
      rw [change, clears, Task.effect]
      by_cases hplanned : s.1.isLive planned = true
      · rw [Task.run_compaction hplanned, hplanned, Bool.true_and]
        have hages := ages_compactRuns s.1 s.2
        exact { hages with kept := hages.kept }
      · rw [Bool.not_eq_true] at hplanned
        rw [hplanned, Bool.false_and, Task.run]
        simp only [hplanned]
        exact ages_of_eq rfl

theorem clears_lt {s : Core × Disk} {next : Change} {n : Nat} (h : clears s next = some n) :
    n < s.1.generations.size := by
  cases next with
  | task task =>
    cases task with
    | compaction planned =>
      rw [clears] at h
      split at h
      · rw [← Option.some.inj h]
        exact s.1.current_lt
      · cases h
    | flush id => cases h
    | barrier => cases h
  | upsert e => cases h
  | sealActive => cases h
  | flags flush compaction => cases h
  | meanwhile disk => cases h

/-- A compaction that was planned for a generation that is not live does nothing. -/
theorem run_compaction_of_stale {planned : Nat} (h : c.isLive planned = false) (d : Disk) :
    (Task.compaction planned).run c d = ((.ok (), c.clearCompaction), d) := by
  rw [Task.run]
  simp only [h]
  rfl

/-- A generation is not live after some changes just if it was not live before, or if it was
cleared. -/
theorem isLive_changes (s : Core × Disk) (history : List Change) {n : Nat}
    (hn : n < (changes s history).1.generations.size) :
    (changes s history).1.isLive n = false ↔
      (n < s.1.generations.size ∧ s.1.isLive n = false) ∨ n ∈ cleared s history := by
  induction history generalizing s with
  | nil =>
    have hlt : n < s.1.generations.size := hn
    simp [changes, cleared, hlt]
  | cons next history ih =>
    have hages := ages_change s next
    have hrest := ih (change s next) hn
    rw [changes] at hrest
    rw [changes, List.foldl_cons, hrest, cleared, List.mem_append, Option.mem_toList, ← or_assoc]
    -- a generation that this change adds is live, so what is stale after it was there before
    refine or_congr_left ?_
    by_cases hold : n < s.1.generations.size
    · rw [hages.kept n hold]
      simp only [hold, Nat.lt_of_lt_of_le hold hages.size_le, true_and, Bool.and_eq_false_iff,
        decide_eq_false_iff_not, not_not]
    · constructor
      · rintro ⟨hlt, hstale⟩
        rw [hages.opened n (Nat.le_of_not_lt hold) hlt] at hstale
        cases hstale
      · rintro (⟨hlt, -⟩ | hclears)
        · exact absurd hlt hold
        · exact absurd (clears_lt hclears) hold

end Core

/-- Whatever happens to a core that was just opened, in whatever order: the generations whose runs
a compaction came to remove, and no others, are not live any more. A compaction that was planned
for one of them clears its flag and does nothing else. -/
theorem stale_generations (hopen : Generation.openIn config d = (.ok g, d'))
    (history : List Core.Change) {n : Nat}
    (hn : n < (Core.changes (.ofGeneration config g, d') history).1.generations.size) :
    ((Core.changes (.ofGeneration config g, d') history).1.isLive n = false ↔
      n ∈ Core.cleared (.ofGeneration config g, d') history) ∧
    (n ∈ Core.cleared (.ofGeneration config g, d') history → ∀ disk,
      (Task.compaction n).run (Core.changes (.ofGeneration config g, d') history).1 disk =
        ((.ok (), (Core.changes (.ofGeneration config g, d') history).1.clearCompaction), disk)) := by
  have hiff : (Core.changes (.ofGeneration config g, d') history).1.isLive n = false ↔
      n ∈ Core.cleared (.ofGeneration config g, d') history := by
    rw [Core.isLive_changes _ history hn, or_iff_right]
    rintro ⟨hlt, hstale⟩
    have hzero : n = 0 := by
      have hlt' : n < 1 := hlt
      omega
    rw [hzero] at hstale
    have hlive : (Core.ofGeneration config g).isLive 0 = g.live := rfl
    rw [hlive, Generation.live_of_openIn hopen] at hstale
    cases hstale
  exact ⟨hiff, fun hcleared disk => Core.run_compaction_of_stale (hiff.mpr hcleared) disk⟩

/-- The generation of a folder without runs. -/
def emptyGeneration : Generation := ⟨["db"], 32, false, [], true⟩

theorem openIn_emptyGeneration : Generation.openIn smallConfig .empty =
    (.ok emptyGeneration, (Generation.openIn smallConfig .empty).2) :=
  Prod.ext (by decide +kernel) rfl

/-- A core that was just opened in an empty folder. -/
def emptyCore : Core × Disk :=
  (.ofGeneration smallConfig emptyGeneration, (Generation.openIn smallConfig .empty).2)

/-- Two flushes and a compaction of what they have written. -/
def supersededHistory : List Core.Change :=
  [.upsert (.put [1] [10]), .sealActive, .task (.flush 0), .upsert (.put [2] [20]), .sealActive,
    .task (.flush 1), .task (.compaction 2)]

/-- The generation of both flushes is given up. -/
theorem supersededHistory_stale :
    (2 < (Core.changes emptyCore supersededHistory).1.generations.size ∧
      2 ∈ Core.cleared emptyCore supersededHistory) ∧
    (Core.changes emptyCore supersededHistory).1.isLive 2 = false ∧
      ∀ disk, (Task.compaction 2).run (Core.changes emptyCore supersededHistory).1 disk =
        ((.ok (), (Core.changes emptyCore supersededHistory).1.clearCompaction), disk) := by
  obtain ⟨hsize, hcleared⟩ : 2 < (Core.changes emptyCore supersededHistory).1.generations.size ∧
      2 ∈ Core.cleared emptyCore supersededHistory := by
    decide +kernel
  obtain ⟨hiff, hnothing⟩ := stale_generations openIn_emptyGeneration supersededHistory hsize
  exact ⟨⟨hsize, hcleared⟩, hiff.mpr hcleared, hnothing hcleared⟩

/-- The generation of the first flush has lost its run to the same compaction, but it is still
live: a compaction that was planned for it merges the layers once more. -/
theorem superseded_generation_stays_live :
    let s := Core.changes emptyCore supersededHistory
    let later := Core.change s (.upsert (.put [3] [30]))
    s.1.generations[1]?.map (fun g => g.runs.map fun run => run.file.path) =
        some [["db", "00000001.sst"]] ∧
      (Disk.list ["db"] s.2).1 = .ok ["00000002.sst"] ∧
      s.1.isLive 1 = true ∧
      ((Task.compaction 1).run later.1 later.2).1.2.generations.size =
        later.1.generations.size + 1 := by
  decide +kernel

end LayeredStore
