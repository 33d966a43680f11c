import LayeredStore.Proofs.StaleGenerations
import LayeredStore.Proofs.WriteLog

/-!
# Sealing splits the writes

A core goes on to another buffer when it seals the active one. `Core.Step` is what can happen to a
core, in whatever order: writes, seals, flags, and generations that flushes and compactions bring.
`Core.writesTo` lists what is written while a buffer of some number is the active one, and
`Core.Split` says that the buffer of that number has the last of these writes for every key, that
the active buffer takes writes, and that the sealed ones are frozen. Every step keeps that
(`Split.step`), and no step touches a buffer that is sealed (`sealed_after`).

So it does not matter when a sealed buffer is flushed, or which generation the run is added to: the
run holds what was last written to the buffer before it was sealed (`sealing_splits_writes`).
-/

namespace LayeredStore

open Disk Generation StateProgram

variable {d d' : Disk} {place : Path} {g : Generation} {config : Config}

/-! ## Last writes -/

/-- A list has for every key the last write, the writes being listed newest first. -/
structure LastWrites (written entries : List Entry) : Prop where
  ascending : Ascending bytewise entries
  entryOf_eq : ∀ key : Bytes, entryOf entries key = entryOf written key

theorem lastWrites_nil : LastWrites [] [] := ⟨.nil, fun _ => rfl⟩

theorem LastWrites.insertEntry {written entries : List Entry} (h : LastWrites written entries)
    (e : Entry) : LastWrites (e :: written) (insertEntry e entries) where
  ascending := ascending_insertEntry e h.ascending
  entryOf_eq key := by
    rw [Log.entryOf_insertEntry h.ascending, h.entryOf_eq]
    by_cases hkey : e.key = key
    · simp [entryOf, hkey]
    · simp [entryOf, hkey]

/-- A generation was read from a folder. -/
def Generation.Loaded (g : Generation) : Prop :=
  ∃ (config : Config) (d d' : Disk), Generation.load config d = (.ok g, d')

namespace Core

variable {c c' : Core} {written : Nat → List Entry} {id : Nat}

/-! ## Steps of a core -/

/-- What can happen to a core. -/
inductive Step where
  | upsert (e : Entry)
  | sealActive
  | markFlush
  | clearFlush
  /-- A flush has ended with a generation that has its run. -/
  | publishFlush (g : Generation)
  /-- A compaction has ended with a generation of what is left. -/
  | publishCompaction (g : Generation)
  /-- A compaction has come to remove the runs of the current generation. -/
  | giveUp

/-- What a step brings was read from a folder. -/
def Step.Loads : Step → Prop
  | .publishFlush g => g.Loaded
  | .publishCompaction g => g.Loaded
  | _ => True

/-- The core after a step. -/
def step (c : Core) : Step → Core
  | .upsert e =>
    match c.upsert e with
    | .ok (_, c') => c'
    | .error _ => c
  | .sealActive =>
    match c.sealActive with
    | .ok (_, c') => c'
    | .error _ => c
  | .markFlush => c.markFlush.2
  | .clearFlush => c.clearFlush
  | .publishFlush g => c.publishFlush g
  | .publishCompaction g => c.publishCompaction g
  | .giveUp => c.retired

/-- The core after some steps. -/
def after (c : Core) (history : List Step) : Core := history.foldl step c

/-- What a step writes while the buffer of a number is the active one. -/
def writesOf (id : Nat) (c : Core) : Step → List Entry
  | .upsert e => if c.activeId = id ∧ (c.upsert e).isOk then [e] else []
  | _ => []

/-- What is written in some steps while the buffer of a number is the active one, newest first. -/
def writesTo (id : Nat) : Core → List Step → List Entry
  | _, [] => []
  | c, next :: history => writesTo id (c.step next) history ++ writesOf id c next

/-! ## Buffers -/

theorem buffers_written (c : Core) (active : Buffer) (flushInFlight : Bool) (id : Nat) :
    ({ c with active, flushInFlight } : Core).buffers id =
      if id = c.activeId then active else c.buffers id := by
  show (if id = c.activeId then active else _) = _
  by_cases hid : id = c.activeId
  · rw [if_pos hid, if_pos hid]
  · rw [if_neg hid, if_neg hid, buffers, if_neg hid]

/-- A sealed buffer is still there after a step, as it was. -/
theorem sealed_step (hid : id < c.activeId) (next : Step) :
    id < (c.step next).activeId ∧ (c.step next).buffers id = c.buffers id := by
  cases next with
  | upsert e =>
    rw [step]
    split
    · next hupsert =>
      obtain ⟨active, flag, -, rfl⟩ := of_upsert hupsert
      exact ⟨hid, by rw [buffers_written, if_neg (Nat.ne_of_lt hid)]⟩
    · exact ⟨hid, rfl⟩
  | sealActive =>
    rw [step]
    split
    · next hseal =>
      rcases of_sealActive hseal with ⟨-, rfl⟩ | ⟨frozen, -, -, rfl⟩
      · exact ⟨hid, rfl⟩
      · exact ⟨Nat.lt_trans hid (c.activeId_lt_sealedWith frozen),
          c.buffers_sealedWith_of_lt frozen hid⟩
    · exact ⟨hid, rfl⟩
  | markFlush => exact ⟨hid, rfl⟩
  | clearFlush => exact ⟨hid, rfl⟩
  | publishFlush g => exact ⟨hid, rfl⟩
  | publishCompaction g => exact ⟨hid, rfl⟩
  | giveUp => exact ⟨hid, rfl⟩

theorem sealed_after (hid : id < c.activeId) (history : List Step) :
    id < (c.after history).activeId ∧ (c.after history).buffers id = c.buffers id := by
  induction history generalizing c with
  | nil => exact ⟨hid, rfl⟩
  | cons next history ih =>
    obtain ⟨hid', hsame⟩ := sealed_step hid next
    obtain ⟨hlater, hkept⟩ := ih hid'
    exact ⟨hlater, hkept.trans hsame⟩

/-! ## The split -/

/-- The writes are split among the buffers. -/
structure Split (written : Nat → List Entry) (c : Core) : Prop where
  thawed : c.active.frozen = false
  frozen : ∀ id < c.activeId, (c.buffers id).frozen = true
  flushing_lt : ∀ id, c.flushing = some id → id < c.activeId
  lastWrites : ∀ id ≤ c.activeId, LastWrites (written id) (c.buffers id).entries
  unwritten : ∀ id, c.activeId < id → written id = []
  ordered : c.generation.runs.Pairwise fun a b => a.id ≤ b.id

theorem split_ofGeneration (hg : g.Loaded) : (ofGeneration config g).Split fun _ => [] := by
  obtain ⟨_, _, _, hload⟩ := hg
  refine ⟨rfl, fun id hid => absurd hid (Nat.not_lt_zero id), fun id hid => (by cases hid),
    fun id hid => ?_, fun _ _ => rfl, ordered_of_load hload⟩
  obtain rfl : id = 0 := Nat.le_zero.mp hid
  exact lastWrites_nil

namespace Split

/-- A write goes to the active buffer. -/
theorem upsert (h : c.Split written) {e : Entry} {due : Bool}
    (hupsert : c.upsert e = .ok (due, c')) :
    c'.Split fun id => writesOf id c (.upsert e) ++ written id := by
  have hwrites (id : Nat) : writesOf id c (.upsert e) = if c.activeId = id then [e] else [] := by
    rw [writesOf, hupsert]
    simp [Except.isOk, Except.toBool]
  obtain ⟨active, flag, hput, rfl⟩ := of_upsert hupsert
  obtain ⟨-, hentries, hthawed⟩ := Buffer.of_put hput
  refine ⟨hthawed, fun id (hid : id < c.activeId) => ?_, h.flushing_lt,
    fun id (hid : id ≤ c.activeId) => ?_, fun id (hid : c.activeId < id) => ?_, h.ordered⟩
  · rw [buffers_written, if_neg (Nat.ne_of_lt hid)]
    exact h.frozen id hid
  · rw [buffers_written, hwrites]
    by_cases hactive : id = c.activeId
    · have hlast := h.lastWrites id hid
      rw [hactive, buffers, if_pos rfl] at hlast
      rw [if_pos hactive, if_pos hactive.symm, hentries, hactive]
      exact hlast.insertEntry e
    · rw [if_neg hactive, if_neg (Ne.symm hactive)]
      exact h.lastWrites id hid
  · rw [hwrites, if_neg (Nat.ne_of_lt hid), h.unwritten id hid]
    rfl

/-- A seal freezes the active buffer, and the next one is empty. -/
theorem sealActive (h : c.Split written) {buffer : Option Nat}
    (hseal : c.sealActive = .ok (buffer, c')) : c'.Split written := by
  rcases of_sealActive hseal with ⟨-, rfl⟩ | ⟨frozen, hfreeze, -, rfl⟩
  · exact h
  obtain ⟨-, rfl⟩ := Buffer.of_freeze hfreeze
  have hnext : (c.sealedWith { c.active with frozen := true }).activeId = c.activeId + 1 :=
    Array.size_push _
  refine ⟨rfl, fun id hid => ?_, fun id hid => ?_, fun id hid => ?_, fun id hid => ?_, h.ordered⟩
  · rw [hnext, Nat.lt_succ_iff_lt_or_eq] at hid
    rcases hid with hlt | rfl
    · rw [buffers_sealedWith_of_lt _ _ hlt]
      exact h.frozen id hlt
    · rw [buffers_sealedWith]
  · obtain rfl : c.activeId = id := Option.some.inj hid
    rw [hnext]
    exact Nat.lt_succ_self _
  · rw [hnext] at hid
    rcases Nat.lt_trichotomy id c.activeId with hlt | rfl | hgt
    · rw [buffers_sealedWith_of_lt _ _ hlt]
      exact h.lastWrites id (Nat.le_of_lt hlt)
    · have hlast := h.lastWrites c.activeId (Nat.le_refl _)
      rw [buffers, if_pos rfl] at hlast
      rw [buffers_sealedWith]
      exact hlast
    · rw [buffers, if_pos ((Nat.le_antisymm hid hgt).trans hnext.symm), h.unwritten id hgt]
      exact lastWrites_nil
  · rw [hnext] at hid
    exact h.unwritten id (Nat.lt_of_succ_lt hid)

/-- What leaves the buffers alone keeps the split. -/
theorem of_same (h : c.Split written) (hactive : c'.active = c.active)
    (hsealed : c'.sealedBuffers = c.sealedBuffers)
    (hflushing : ∀ id, c'.flushing = some id → c.flushing = some id)
    (hordered : c'.generation.runs.Pairwise fun a b => a.id ≤ b.id) : c'.Split written := by
  have hid : c'.activeId = c.activeId := congrArg Array.size hsealed
  have hbuffers : c'.buffers = c.buffers := by
    funext id
    rw [buffers, buffers, hid, hactive, hsealed]
  refine ⟨hactive ▸ h.thawed, ?_, fun id hsome => hid ▸ h.flushing_lt id (hflushing id hsome), ?_,
    fun id hlt => h.unwritten id (hid ▸ hlt), hordered⟩
  · rw [hid, hbuffers]
    exact h.frozen
  · rw [hid, hbuffers]
    exact h.lastWrites

theorem step (h : c.Split written) {next : Step} (hloads : next.Loads) :
    (c.step next).Split fun id => writesOf id c next ++ written id := by
  have hordered {g : Generation} (hg : g.Loaded) :
      (c.install g).generation.runs.Pairwise fun a b => a.id ≤ b.id := by
    obtain ⟨_, _, _, hload⟩ := hg
    rw [generation_install]
    exact ordered_of_load hload
  cases next with
  | upsert e =>
    rw [Core.step]
    split
    · next hupsert => exact h.upsert hupsert
    · next hrefused =>
      simp only [writesOf, hrefused]
      simpa [Except.isOk, Except.toBool] using h
  | sealActive =>
    rw [Core.step]
    split
    · next hseal => exact h.sealActive hseal
    · exact h
  | markFlush => exact h.of_same rfl rfl (fun _ => id) h.ordered
  | clearFlush => exact h.of_same rfl rfl (fun _ => id) h.ordered
  | publishFlush g => exact h.of_same rfl rfl (fun _ hsome => by cases hsome) (hordered hloads)
  | publishCompaction g => exact h.of_same rfl rfl (fun _ => id) (hordered hloads)
  | giveUp =>
    refine h.of_same rfl rfl (fun _ => id) ?_
    show c.retired.generation.runs.Pairwise _
    rw [generation_retired]
    exact h.ordered

theorem after (h : c.Split written) {history : List Step} (hloads : ∀ next ∈ history, next.Loads) :
    (c.after history).Split fun id => writesTo id c history ++ written id := by
  induction history generalizing c written with
  | nil => exact h
  | cons next history ih =>
    have hlater := ih (h.step (hloads next List.mem_cons_self))
      fun later hlater => hloads later (List.mem_cons_of_mem _ hlater)
    simpa only [writesTo, List.append_assoc, Core.after, List.foldl_cons] using hlater

end Split

/-! ## What is seen of the split -/

/-- What a core lets be seen of the split. -/
structure Separated (written : Nat → List Entry) (c : Core) : Prop where
  /-- No write finds the active buffer frozen, and no seal does. -/
  upsert_thawed : ∀ e : Entry, c.upsert e ≠ .error .frozen
  seal_thawed : c.sealActive ≠ .error .frozen
  active_thawed : c.active.frozen = false
  flushing_frozen : ∀ b, c.flushingBuffer? = some b → b.frozen = true
  /-- A write that is accepted is in the active buffer and in no other. -/
  accepted : ∀ (e : Entry) (due : Bool) (c' : Core), c.upsert e = .ok (due, c') →
    c'.activeId = c.activeId ∧ entryOf (c'.buffers c.activeId).entries e.key = some e ∧
      ∀ id, id ≠ c.activeId → c'.buffers id = c.buffers id
  /-- A seal that does not give the number of a buffer changes nothing. -/
  unsealed : (∀ id c', c.sealActive ≠ .ok (some id, c')) → c.step .sealActive = c
  newlySealed : ∀ id c', c.sealActive = .ok (some id, c') → id = c.activeId ∧
    c'.flushing = some id ∧ c'.buffers id = { c.active with frozen := true } ∧ c'.active = .empty
  lastWrites : ∀ id ≤ c.activeId, LastWrites (written id) (c.buffers id).entries

theorem Split.separated (h : c.Split written) : c.Separated written where
  upsert_thawed e := by
    cases hcheck : e.check with
    | error cause =>
      obtain ⟨-, text, rfl⟩ := Entry.of_check_eq_error hcheck
      rw [upsert_of_error hcheck]
      simp
    | ok =>
      by_cases hover : c.overloads e = true
      · rw [upsert_of_overload hcheck hover]
        simp
      · obtain ⟨active, hput, -⟩ := Buffer.put_eq h.thawed e
        rw [upsert_eq hcheck (by simpa using hover) hput]
        simp
  seal_thawed hseal := by
    cases of_sealActive_eq_error h.thawed hseal
  active_thawed := h.thawed
  flushing_frozen b hb := by
    obtain ⟨id, hflushing, rfl⟩ := Option.map_eq_some_iff.mp hb
    exact h.frozen id (h.flushing_lt id hflushing)
  accepted e due c' hupsert := by
    obtain ⟨active, flag, hput, rfl⟩ := of_upsert hupsert
    obtain ⟨-, hentries, -⟩ := Buffer.of_put hput
    have hascending : Ascending bytewise c.active.entries := c.active.ascending
    refine ⟨rfl, ?_, fun id hid => by rw [buffers_written, if_neg hid]⟩
    rw [buffers_written, if_pos rfl, hentries, Log.entryOf_insertEntry hascending,
      if_pos rfl]
  unsealed hnone := by
    rw [Core.step]
    split
    · next buffer c' hseal =>
      rcases of_sealActive hseal with ⟨-, rfl⟩ | ⟨frozen, -, rfl, -⟩
      · rfl
      · exact absurd hseal (hnone _ _)
    · rfl
  newlySealed id c' hseal := by
    rcases of_sealActive hseal with ⟨hnone, -⟩ | ⟨frozen, hfreeze, hid, rfl⟩
    · cases hnone
    obtain rfl : id = c.activeId := Option.some.inj hid
    obtain ⟨-, rfl⟩ := Buffer.of_freeze hfreeze
    exact ⟨rfl, rfl, buffers_sealedWith _ _, rfl⟩
  lastWrites := h.lastWrites

/-! ## Flushes -/

/-- A flush that succeeds has written the buffer as the next run and loaded the folder. -/
theorem of_runFlush (h : (Task.flush id).run c d = ((.ok (), c'), d')) :
    ∃ run d₁ g, c.generation.persist ((c.buffers id).toList .all) d = (.ok run, d₁) ∧
      Generation.load c.config d₁ = (.ok g, d') := by
  have houtcome := flushBuffer_outcome id c d
  rw [Task.run_flush] at h
  generalize flushBuffer id c d = result at h houtcome
  cases houtcome with
  | unwritten | unread => cases h
  | done hpersist hload =>
    cases h
    exact ⟨_, _, _, hpersist, hload⟩

/-- The next run of a generation is there and holds some entries. -/
structure HasNextRun (g : Generation) (d : Disk) (place : Path) (entries : List Entry) : Prop where
  newest : ∀ run ∈ g.runs, run.id < g.nextId
  there : ∃ file, d.node? ((RunName.mk .finished g.nextId).placeIn place) = some (.file file) ∧
    RunWriter.IsWritten g.blockSize (d.file file).content entries ∧
    (g.blockSize ≤ UInt32.size → IsImage (d.file file).content entries)

/-- Whatever has happened to the core since its buffer was sealed, a flush that succeeds adds that
buffer to the runs of the generation that is then current. -/
theorem Split.flushed (h : c.Split written) (hroomy : c.generation.dir.Roomy)
    (hfolder : d.FolderAt c.generation.dir place) (hsound : d.Sound)
    (hnext : c.generation.nextId < RunName.idLimit)
    (hflush : (Task.flush id).run c d = ((.ok (), c'), d')) :
    HasNextRun c.generation d' place (c.buffers id).entries := by
  obtain ⟨run, d₁, g, hpersist, hload⟩ := of_runFlush hflush
  have houtcome := persist_outcome hroomy hfolder hsound hnext ((c.buffers id).toList .all)
  rw [hpersist] at houtcome
  have hstill := still_of_load hload
  refine ⟨fun run hrun => lt_nextId h.ordered hrun, ?_⟩
  cases houtcome with
  | @written entries _ hitems hplaced =>
    rw [Buffer.toList_all] at hitems
    obtain rfl : (c.buffers id).entries = entries :=
      List.map_injective_iff.mpr (fun _ _ heq => Except.ok.inj heq) hitems
    obtain ⟨file, hnode, hwritten⟩ := hplaced.target_there
    rw [← hstill.file] at hwritten
    exact ⟨file, (hstill.node? _).trans hnode, hwritten, fun hblock => hwritten.isImage hblock⟩

end Core

/-- Sealing splits the writes to a core, whatever happens to it and in whatever order. No write and
no seal finds the active buffer frozen; each write that is accepted is in the buffer that is then
the active one; and a buffer that was sealed stays as it was, so that a flush which succeeds
whenever later writes just the last writes to the buffer before its seal, as the newest run. -/
theorem sealing_splits_writes (hg : g.Loaded) {history : List Core.Step}
    (hloads : ∀ next ∈ history, next.Loads) :
    let start := Core.ofGeneration config g
    let c := start.after history
    c.Separated (fun id => Core.writesTo id start history) ∧
    ∀ id < c.activeId, ∀ later : List Core.Step, (∀ next ∈ later, next.Loads) →
      (c.after later).buffers id = c.buffers id ∧
      ∀ (place : Path) (d d' : Disk) (c' : Core), (c.after later).generation.dir.Roomy →
        d.FolderAt (c.after later).generation.dir place → d.Sound →
        (c.after later).generation.nextId < RunName.idLimit →
        (Task.flush id).run (c.after later) d = ((.ok (), c'), d') →
          Core.HasNextRun (c.after later).generation d' place (c.buffers id).entries := by
  intro start c
  have hsplit : c.Split fun id => Core.writesTo id start history := by
    simpa only [List.append_nil] using (Core.split_ofGeneration hg).after hloads
  refine ⟨hsplit.separated, fun id hid later hlater => ?_⟩
  have hsealed := (Core.sealed_after hid later).2
  refine ⟨hsealed, fun place d d' c' hroomy hfolder hsound hnext hflush => ?_⟩
  rw [← hsealed]
  exact (hsplit.after hlater).flushed hroomy hfolder hsound hnext hflush

/-- A folder in which a merge has taken the place of three runs. -/
def mergedFolder : Disk :=
  (writeRun ["db", "00000003.sst"] [.ok (.put [1] [5])] 32 false emptyCore.2).2

/-- The generation that is loaded from it. -/
def mergedGeneration : Generation :=
  (Generation.load smallConfig mergedFolder).1.toOption.getD emptyGeneration

/-- Three writes, of which one overwrites another, are sealed, and a write goes on. -/
def sealingHistory : List Core.Step :=
  [.upsert (.put [1] [10]), .upsert (.put [1] [11]), .upsert (.tombstone [2]), .sealActive,
    .upsert (.put [1] [12])]

/-- The core after that, and after a compaction that ended before the flush. -/
def sealedBesideMerge : Core :=
  ((Core.ofGeneration smallConfig emptyGeneration).after sealingHistory).after
    [.publishCompaction mergedGeneration]

theorem loaded_emptyGeneration : emptyGeneration.Loaded :=
  ⟨smallConfig, emptyCore.2, _, Prod.ext (by decide +kernel) rfl⟩

theorem loaded_mergedGeneration : mergedGeneration.Loaded :=
  ⟨smallConfig, mergedFolder, _, Prod.ext (by decide +kernel) rfl⟩

/-- The flush writes what was sealed after the run of the merge. -/
theorem sealingHistory_splits_writes :
    ((Core.ofGeneration smallConfig emptyGeneration).after sealingHistory).activeId = 1 ∧
    ((Task.flush 0).run sealedBesideMerge mergedFolder).1.1 = .ok () ∧
      Core.HasNextRun mergedGeneration ((Task.flush 0).run sealedBesideMerge mergedFolder).2 ["db"]
        [.put [1] [11], .tombstone [2]] := by
  obtain ⟨hactive, hbuffer, hgeneration, hdir, hnext, hfolder, hlisted, hok⟩ :
      ((Core.ofGeneration smallConfig emptyGeneration).after sealingHistory).activeId = 1 ∧
      (((Core.ofGeneration smallConfig emptyGeneration).after sealingHistory).buffers 0).entries =
        [.put [1] [11], .tombstone [2]] ∧
      sealedBesideMerge.generation = mergedGeneration ∧
      mergedGeneration.dir = ["db"] ∧ mergedGeneration.nextId = 4 ∧
      mergedFolder.locate ["db"] = .ok (["db"], .folder) ∧
      mergedFolder.WellListed ∧
      ((Task.flush 0).run sealedBesideMerge mergedFolder).1.1 = .ok () := by decide +kernel
  refine ⟨hactive, hok, ?_⟩
  obtain ⟨-, hsealed⟩ := @sealing_splits_writes emptyGeneration smallConfig loaded_emptyGeneration
    sealingHistory (by simp [sealingHistory, Core.Step.Loads])
  obtain ⟨-, hflush⟩ := hsealed 0 (by rw [hactive]; decide) [.publishCompaction mergedGeneration]
    (by simpa [Core.Step.Loads] using loaded_mergedGeneration)
  rw [hbuffer] at hflush
  rw [← hgeneration] at hdir hnext ⊢
  refine hflush ["db"] mergedFolder _ _ ?_ ?_ hlisted.sound ?_
    (Prod.ext (Prod.ext hok rfl) rfl)
  · show sealedBesideMerge.generation.dir.Roomy
    rw [hdir]
    exact Path.roomy_singleton (by decide) (by decide) (by decide)
  · show mergedFolder.FolderAt sealedBesideMerge.generation.dir _
    rw [hdir]
    exact hfolder
  · show sealedBesideMerge.generation.nextId < _
    rw [hnext]
    decide

end LayeredStore
