import LayeredStore.Proofs.Layers
import LayeredStore.Proofs.Recovering
import LayeredStore.Proofs.Snapshots

/-!
# Layers held by a store

`Layers.HeldBy` says that a core and a disk hold the layers of a specification: each buffer has
the entries of its log, the runs that are read show the entries of theirs, and the folder has the
runs, and the merge, that the layers have in it.

* `HeldBy.get_eq`, `HeldBy.entries_eq` : what is read is what the logs say.
* `HeldBy.flushBuffer`, `HeldBy.compactRuns` : what a flush and a compaction do to the core and the
  disk is what they do to the layers, unless a fault strikes.
-/

namespace LayeredStore

open Disk Generation

variable {d d' : Disk} {dir place : Path} {l : Layers} {c : Core}

/-- The runs that hold some logs. -/
def runEntries (runs : List (Nat × List Write)) : List (Nat × List Entry) :=
  runs.map fun r => (r.1, Log.entries r.2)

@[simp] theorem map_fst_runEntries (runs : List (Nat × List Write)) :
    (runEntries runs).map Prod.fst = runs.map Prod.fst := by
  simp [runEntries]

theorem mem_runEntries {runs : List (Nat × List Write)} {r : Nat × List Entry} :
    r ∈ runEntries runs ↔ ∃ log, (r.1, log) ∈ runs ∧ r.2 = Log.entries log := by
  obtain ⟨id, entries⟩ := r
  simp only [runEntries, List.mem_map, Prod.mk.injEq]
  constructor
  · rintro ⟨⟨id', log⟩, hmem, rfl, rfl⟩
    exact ⟨log, hmem, rfl⟩
  · rintro ⟨log, hmem, rfl⟩
    exact ⟨(id, log), hmem, rfl, rfl⟩

namespace Layers

/-- The merge that is left in the folder. -/
def leftover (l : Layers) : Leftover :=
  match l.left with
  | none => .nothing
  | some merge => .whole merge.1 (Log.entries merge.2)

/-- The folder has the runs and the merge that the layers have in it. -/
structure StoredIn (l : Layers) (d : Disk) (dir place : Path) : Prop where
  folder : d.FolderAt dir place
  sound : d.Sound
  tidy : d.Tidy place
  unfinished : d.NoUnfinished place
  holds : d.HoldsRuns place (runEntries l.stored)
  left : l.leftover.LiesIn d dir place

/-- The buffers have the entries of the logs. -/
structure BufferedBy (l : Layers) (c : Core) : Prop where
  threshold : c.config.flushThreshold = l.threshold
  active : c.active.entries = Log.entries l.active
  bytes : c.active.bytes = l.bytes
  thawed : c.active.frozen = false
  flushing : Option.Rel (fun id log => id < c.activeId ∧ (c.buffers id).entries = Log.entries log)
    c.flushing l.flushing
  inFlight : c.flushInFlight = l.flushing.isSome

/-- The generation that is read shows the runs, and if it is live it stands for their files. -/
structure ReadBy (l : Layers) (c : Core) (d : Disk) (place : Path) : Prop where
  roomy : c.config.dir.Roomy
  blockSize_le : c.config.blockSize ≤ UInt32.size
  dir_eq : c.generation.dir = c.config.dir
  blockSize_eq : c.generation.blockSize = c.config.blockSize
  live : c.generation.live = l.live
  shows : List.Forall₂ (Run.Shows d) c.generation.runs (runEntries l.runs)
  stands : l.live = true →
    List.Forall₂ (Run.Stands d c.config.dir place) c.generation.runs (runEntries l.runs)
  lt_flushingRank : ∀ r ∈ l.runs, r.1 < flushingRank

/-- What is read of a core and a disk are the layers. -/
structure ShownBy (l : Layers) (c : Core) (d : Disk) (place : Path) : Prop extends
    BufferedBy l c, ReadBy l c d place

/-- A core and a disk hold the layers. -/
structure HeldBy (l : Layers) (c : Core) (d : Disk) (place : Path) : Prop extends
    StoredIn l d c.config.dir place, ShownBy l c d place

/-- A generation that was loaded from the folder is read. -/
theorem ReadBy.of_loaded (hroomy : c.config.dir.Roomy) (hblock : c.config.blockSize ≤ UInt32.size)
    {sync : Bool} {opened : List Run}
    (hgeneration : c.generation = ⟨c.config.dir, c.config.blockSize, sync, opened, true⟩)
    (hlive : l.live = true)
    (hstands : List.Forall₂ (Run.Stands d c.config.dir place) opened (runEntries l.runs))
    (hids : ∀ run ∈ c.generation.runs, run.id < flushingRank) : l.ReadBy c d place where
  roomy := hroomy
  blockSize_le := hblock
  dir_eq := by rw [hgeneration]
  blockSize_eq := by rw [hgeneration]
  live := by rw [hgeneration, hlive]
  shows := by
    rw [hgeneration]
    exact hstands.imp fun _ _ hrun => hrun.toShows
  stands _ := by
    rw [hgeneration]
    exact hstands
  lt_flushingRank r hr := by
    have hopened := Run.ids_eq_of_shows (hstands.imp fun _ _ hrun => hrun.toShows)
    have hmem : r.1 ∈ opened.map Run.id := by
      rw [hopened, map_fst_runEntries]
      exact List.mem_map_of_mem hr
    obtain ⟨run, hrun, hid⟩ := List.mem_map.mp hmem
    rw [hgeneration] at hids
    exact hid ▸ hids run hrun

theorem ShownBy.shows_of_mem (h : l.ShownBy c d place) {run : Run}
    (hrun : run ∈ c.generation.runs) : ∃ r, run.Shows d r := by
  obtain ⟨n, hn, rfl⟩ := List.getElem_of_mem hrun
  exact ⟨_, h.shows.get hn (h.shows.length_eq ▸ hn)⟩

theorem ShownBy.ids_eq (h : l.ShownBy c d place) :
    c.generation.runs.map Run.id = l.runs.map Prod.fst := by
  rw [← map_fst_runEntries]
  exact Run.ids_eq_of_shows h.shows

theorem ShownBy.numbered (h : l.ShownBy c d place) (hsane : l.Sane) :
    Numbered (runEntries l.runs) where
  ascending := List.pairwise_map.mpr hsane.runsAscend
  lt_flushingRank r hr := by
    obtain ⟨log, hmem, -⟩ := mem_runEntries.mp hr
    exact h.lt_flushingRank _ hmem

theorem ShownBy.reads (h : l.ShownBy c d place) :
    c.generation.Reads (fun _ : Unit => d) (runEntries l.runs) :=
  h.shows.imp fun _ _ hrun => ⟨hrun.id_eq, hrun.reads _ fun _ => rfl⟩

theorem ShownBy.isEmpty_runs (h : l.ShownBy c d place) :
    c.generation.runs.isEmpty = true ↔ l.runs = [] := by
  rw [List.isEmpty_iff, ← List.map_eq_nil_iff (f := Run.id), h.ids_eq, List.map_eq_nil_iff]

theorem ShownBy.isEmpty_active (h : l.ShownBy c d place) :
    c.active.isEmpty = true ↔ l.active = [] := by
  rw [← Buffer.entries_eq_nil_iff, h.active, Log.entries_eq_nil_iff]

theorem ShownBy.isSome_flushing (h : l.ShownBy c d place) :
    c.flushing.isSome = l.flushing.isSome := by
  have hflushing := h.flushing
  revert hflushing
  cases c.flushing <;> cases l.flushing <;> intro hflushing <;> first | rfl | cases hflushing

/-- The entries of the sealed buffer that still has to become a run. -/
theorem ShownBy.flushingBuffer (h : l.ShownBy c d place) :
    c.flushingBuffer?.map Buffer.entries = l.flushing.map Log.entries := by
  have hflushing := h.flushing
  rw [Core.flushingBuffer?]
  revert hflushing
  cases c.flushing with
  | none =>
    cases l.flushing with
    | none => exact fun _ => rfl
    | some log => exact fun hflushing => nomatch hflushing
  | some id =>
    cases l.flushing with
    | none => exact fun hflushing => nomatch hflushing
    | some log =>
      intro hflushing
      cases hflushing with
      | some hid =>
        show some (c.buffers id).entries = some (Log.entries log)
        rw [hid.2]

/-! ## Reading -/

theorem ShownBy.snapshot {s : Store} (h : l.ShownBy s.core d place) (hsane : l.Sane) :
    s.Snapshot d (runEntries l.runs) where
  reads := h.reads
  distinct := (h.numbered hsane).distinct
  lt_flushingRank := (h.numbered hsane).lt_flushingRank

/-- The logs of the layers, newest first. -/
def logs (l : Layers) : List (List Write) :=
  l.active :: (l.flushing.toList ++ l.runs.reverse.map Prod.snd)

theorem flatten_logs (l : Layers) : l.logs.flatten = l.all := by
  rw [logs, all, buffered, runLog]
  cases l.flushing <;> simp

/-- The layers that are merged are those of the logs. -/
theorem ShownBy.ranked_eq (h : l.ShownBy c d place) :
    (rankedLayers c.buffers c.activeId c.flushing (runEntries l.runs)).map Prod.snd =
      l.logs.map Log.entries := by
  have hactive : (c.buffers c.activeId).entries = Log.entries l.active := by
    rw [Core.buffers, if_pos rfl, h.active]
  have hflushing : ((c.flushing.map fun id => (flushingRank, (c.buffers id).entries)).toList).map
      Prod.snd = l.flushing.toList.map Log.entries := by
    have hentries := h.flushingBuffer
    rw [Core.flushingBuffer?] at hentries
    cases hc : c.flushing <;> cases hl : l.flushing <;> simp_all
  rw [rankedLayers, logs, List.map_cons, List.map_append, hflushing, hactive]
  simp [runEntries]

theorem ShownBy.overlay_eq (h : l.ShownBy c d place) (key : Bytes) :
    overlay ((rankedLayers c.buffers c.activeId c.flushing (runEntries l.runs)).map Prod.snd) key =
      (Log.newest? l.all key).map Write.entry := by
  rw [h.ranked_eq, Log.overlay_entries, flatten_logs]

variable {s : Store}

/-- The merge of the layers has of every key the newest write. -/
theorem ShownBy.mem_merged (h : l.ShownBy s.core d place) (hsane : l.Sane) {e : Entry} :
    e ∈ s.merged (runEntries l.runs) ↔ (Log.newest? l.all e.key).map Write.entry = some e := by
  unfold Store.merged
  rw [mem_recencyMerge_iff_overlay (.refl _) ((h.numbered hsane).pairwise_rankedLayers _ _ _)
    (h.snapshot hsane).ascending_layers, h.overlay_eq]

/-- Of what is live in the merge, a read of the logs finds just that. -/
theorem ShownBy.mem_live_merged (h : l.ShownBy s.core d place) (hsane : l.Sane) {e : Entry} :
    e ∈ liveEntries (s.merged (runEntries l.runs)) ↔ Log.read l.all e.key = some e := by
  rw [mem_liveEntries, h.mem_merged hsane, Log.read]
  cases Log.newest? l.all e.key with
  | none => simp
  | some w =>
    rw [Option.map_some, Option.some.injEq, Option.bind_some, Entry.live?_eq_some_iff, and_comm]
    refine and_congr_left ?_
    rintro rfl
    exact Iff.rfl

/-- What is read of a key is its newest write, if that is live. -/
theorem ShownBy.get_eq (h : l.ShownBy s.core d place) (hsane : l.Sane) (key : Bytes) :
    s.get d key = .ok (Log.read l.all key) := by
  have hasc := (h.snapshot hsane).ascending_merged.live
  rw [(h.snapshot hsane).get_eq]
  refine congrArg Except.ok (Option.ext fun e => ?_)
  rw [entryOf_eq_some_iff_mem hasc, h.mem_live_merged hsane]
  constructor
  · rintro ⟨hread, rfl⟩
    exact hread
  · intro hread
    obtain rfl : e.key = key := Log.key_of_read hread
    exact ⟨hread, rfl⟩

theorem ShownBy.flushing_lt (h : l.ShownBy c d place) {id : Nat} (hid : c.flushing = some id) :
    id < c.activeId := by
  have hflushing := h.flushing
  rw [hid] at hflushing
  generalize l.flushing = log at hflushing
  cases hflushing with
  | some hsame => exact hsame.1

/-- A scan merges the layers. The order in which it draws from them depends on whether there are
runs; the ranks settle what is newest. -/
theorem ShownBy.scan_eq (h : l.ShownBy s.core d place) (range : KeyRange) :
    ∃ ids : List (Nat × Nat), (∀ b ∈ ids, b.2 ≤ s.core.activeId) ∧
      (ids.map (fun b => (b.1, (s.core.buffers b.2).entries)) ++ runEntries l.runs).Perm
        (rankedLayers s.core.buffers s.core.activeId s.core.flushing (runEntries l.runs)) ∧
      s.scan d range = Scan.ofSources bytewise s.core.buffers d
        (ids.map (fun b => (b.1, Source.ofBuffer b.2 range)) ++
          s.core.generation.runSources d range) := by
  have hids : ∀ b ∈ rankedBuffers s.core.activeId s.core.flushing, b.2 ≤ s.core.activeId := by
    intro b hb
    rcases List.mem_cons.mp hb with rfl | hb
    · exact Nat.le_refl _
    · obtain ⟨id, hid, rfl⟩ := Option.map_eq_some_iff.mp (Option.mem_toList.mp hb)
      exact Nat.le_of_lt (h.flushing_lt hid)
  obtain ⟨ids, hperm, hscan⟩ := s.scan_eq d range
  exact ⟨ids, fun b hb => hids b (hperm.mem_iff.mp hb),
    ((hperm.map _).append_right _).trans (perm_rankedLayers _ _ _ _), hscan⟩

/-- What a scan gives are the live entries of its range, by ascending key. -/
theorem ShownBy.entries_eq (h : l.ShownBy s.core d place) (hsane : l.Sane) (range : KeyRange) :
    ∃ entries, s.entries d range = entries.map .ok ∧ Ascending bytewise entries ∧
      ∀ e, e ∈ entries ↔ Log.read l.all e.key = some e ∧ range.contains bytewise e.key = true := by
  refine ⟨_, (h.snapshot hsane).entries_eq range,
    (h.snapshot hsane).ascending_merged.live.cut range, fun e => ?_⟩
  rw [KeyRange.mem_cut, h.mem_live_merged hsane]

end Layers

/-! ## Limits -/

/-- A core and a disk stay below the limits: the numbers of the runs leave the two largest ranks
to the buffers, and no file is longer than any position in it. -/
structure Core.Within (c : Core) (d : Disk) : Prop where
  ids : ∀ run ∈ c.generation.runs, run.id < flushingRank
  lengths : ∀ file, (d.file file).content.length < positionLimit

theorem Core.within_iff : c.Within d ↔ (∀ run ∈ c.generation.runs, run.id < flushingRank) ∧
    ∀ id < d.files.size, (d.file id).content.length < positionLimit := by
  rw [← lengths_iff]
  exact ⟨fun h => ⟨h.ids, h.lengths⟩, fun h => ⟨h.1, h.2⟩⟩

instance (c : Core) (d : Disk) : Decidable (c.Within d) := decidable_of_iff' _ Core.within_iff

namespace Core

theorem generation_install (c : Core) (g : Generation) : (c.install g).generation = g := by
  simp [generation, install]

/-- How a flush ends: its run was not written, the folder was not loaded, or the generation that was
loaded is read. -/
inductive FlushOutcome (id : Nat) (c : Core) (d : Disk) :
    (Except StoreError Unit × Core) × Disk → Prop
  | unwritten {e : StoreError} {d' : Disk}
      (persist : c.generation.persist ((c.buffers id).toList .all) d = (.error e, d')) :
      FlushOutcome id c d ((.error e, c), d')
  | unread {run : Nat} {e : StoreError} {d₁ d' : Disk}
      (persist : c.generation.persist ((c.buffers id).toList .all) d = (.ok run, d₁))
      (load : Generation.load c.config d₁ = (.error e, d')) :
      FlushOutcome id c d ((.error e, c), d')
  | done {run : Nat} {g : Generation} {d₁ d' : Disk}
      (persist : c.generation.persist ((c.buffers id).toList .all) d = (.ok run, d₁))
      (load : Generation.load c.config d₁ = (.ok g, d')) :
      FlushOutcome id c d ((.ok (), c.publishFlush g), d')

theorem flushBuffer_outcome (id : Nat) (c : Core) (d : Disk) :
    FlushOutcome id c d (flushBuffer id c d) := by
  unfold flushBuffer
  rw [StateProgram.get_bind]
  cases hpersist : c.generation.persist ((c.buffers id).toList .all) d with
  | mk r d₁ =>
    cases r with
    | error e =>
      rw [StateProgram.bind_of_error (StateProgram.discard_of_error (onDisk_eq hpersist))]
      exact .unwritten hpersist
    | ok run =>
      rw [StateProgram.bind_of_ok (StateProgram.discard_of_ok (onDisk_eq hpersist))]
      cases hload : Generation.load c.config d₁ with
      | mk r d₂ =>
        cases r with
        | error e =>
          rw [StateProgram.bind_of_error (onDisk_eq hload)]
          exact .unread hpersist hload
        | ok g =>
          rw [StateProgram.bind_of_ok (onDisk_eq hload)]
          exact .done hpersist hload

end Core

namespace Layers

theorem ShownBy.nextId_eq (h : l.ShownBy c d place) : c.generation.nextId = nextRun l.runs := by
  rw [nextRun, ← h.ids_eq, nextId, maxId?, List.getLast?_map]

theorem ShownBy.nextRun_lt (h : l.ShownBy c d place) : nextRun l.runs < RunName.idLimit := by
  have hlimit : flushingRank + 2 = RunName.idLimit := by decide
  rw [nextRun]
  cases hlast : (l.runs.map Prod.fst).getLast? with
  | none => decide
  | some id =>
    obtain ⟨r, hr, rfl⟩ := List.mem_map.mp (List.mem_of_getLast? hlast)
    have := h.lt_flushingRank r hr
    show r.1 + 1 < RunName.idLimit
    omega

/-! ## A flush -/

/-- The flush of a buffer writes it as the next run. Otherwise a fault struck, and the run may be
there or not. -/
theorem HeldBy.persist (h : l.HeldBy c d place) (hsane : l.Sane)
    {log : List Write} (hlog : l.flushing = some log) {id : Nat} (hid : c.flushing = some id) :
    (∃ d', c.generation.persist ((c.buffers id).toList .all) d = (.ok (nextRun l.runs), d') ∧
        Added place (.mk .unfinished (nextRun l.runs)) (.mk .finished (nextRun l.runs))
          (Log.entries log) d d') ∨
      (∃ e d', c.generation.persist ((c.buffers id).toList .all) d = (.error e, d') ∧
        Attempted place (nextRun l.runs) ((Log.entries log).map .ok) d d') ∧ ¬ d.Faultless := by
  have hentries : (c.buffers id).entries = Log.entries log := by
    have hflushing := h.flushing
    rw [hlog, hid] at hflushing
    cases hflushing with
    | some hsame => exact hsame.2
  have hlt := h.nextRun_lt
  rw [← h.nextId_eq] at hlt ⊢
  have hitems : (c.buffers id).toList .all = (Log.entries log).map .ok := by
    rw [Buffer.toList_all, hentries]
  rw [hitems]
  rcases persist_spec (h.dir_eq ▸ h.roomy) (h.dir_eq ▸ h.folder) h.sound hlt
    (h.blockSize_eq ▸ h.blockSize_le) (by rw [h.unfinished hlt]; simp) (h.holds.notFolder hlt)
    ((Log.entries log).map .ok) with
    ⟨entries, d', hok, hsame, hadded⟩ | ⟨e, d', herror, hattempted, hwhy⟩
  · obtain rfl : Log.entries log = entries :=
      List.map_injective_iff.mpr (fun _ _ heq => Except.ok.inj heq) hsame
    exact .inl ⟨d', hok, hadded⟩
  · refine .inr ⟨⟨e, d', herror, hattempted⟩, fun hfaultless => ?_⟩
    rcases hwhy with hstruck | hnot
    · exact hfaultless.not_struck hstruck
    · -- a log ascends once it is sorted, and no write was accepted that cannot be stored
      refine hnot ⟨Log.entries log, rfl, Log.ascending_entries log, fun e he => ?_⟩
      obtain ⟨w, hw, rfl⟩ := Option.map_eq_some_iff.mp (Log.mem_entries.mp he)
      exact hsane.storable w (mem_logged.mpr (.inr (.inl ⟨log, hlog, Log.mem_of_newest? hw⟩)))

/-- The folder after a flush. -/
theorem StoredIn.flushed (h : l.StoredIn d dir place) (hsane : l.Sane) {log : List Write}
    (hlog : l.flushing = some log) (hlt : nextRun l.runs < RunName.idLimit)
    (hadded : Added place (.mk .unfinished (nextRun l.runs)) (.mk .finished (nextRun l.runs))
      (Log.entries log) d d') (hsmall : ∀ file, (d'.file file).content.length < positionLimit) :
    l.flushed.StoredIn d' dir place := by
  have hflushed : l.flushed.stored =
      l.stored.filter (·.1 < nextRun l.runs) ++ [(nextRun l.runs, log)] ∧
      l.flushed.left = l.left := by
    simp only [Layers.flushed, hlog, and_self]
  refine ⟨h.folder.evolves hadded.toEvolves, hadded.sound h.sound,
    (hadded.works h.sound hlt hlt).tidy h.tidy, ?_, ?_, ?_⟩
  · intro id hid
    by_cases heq : id = nextRun l.runs
    · subst heq
      exact hadded.source_gone
    · rw [hadded.others (RunName.placeIn_ne_of_id hid hlt heq)
        (RunName.placeIn_ne_of_kind _ _ hid hlt (by simp))]
      exact h.unfinished hid
  · have hle : ∀ r ∈ runEntries l.stored, r.1 ≤ nextRun l.runs := by
      intro r hr
      obtain ⟨other, hmem, -⟩ := mem_runEntries.mp hr
      rcases hsane.beforeNext with hbefore | ⟨-, hat⟩
      · exact Nat.le_of_lt (hbefore _ hmem)
      · exact Nat.le_of_eq (hat _ hmem)
    have hholds := hadded.holdsRuns h.sound h.holds hlt hle hsmall
    rw [hflushed.1]
    simpa [runEntries, List.filter_map, Function.comp_def] using hholds
  · have hleft : l.flushed.leftover = l.leftover := by rw [leftover, hflushed.2, leftover]
    rw [hleft]
    refine h.left.congr ?_ ?_
    · intro id hid
      exact hadded.others (RunName.placeIn_ne_of_kind _ _ hid hlt (by simp))
        (RunName.placeIn_ne_of_kind _ _ hid hlt (by simp))
    · intro id file hid hnode
      rw [hadded.file_eq h.sound hlt (.mk .merged id) hid (by simp) hnode]

theorem StoredIn.still (h : l.StoredIn d dir place) (hstill : d.Still d') :
    l.StoredIn d' dir place where
  folder := h.folder.evolves hstill.evolves
  sound := hstill.evolves.sound h.sound
  tidy := (hstill.works place).tidy h.tidy
  unfinished hid := by
    rw [hstill.node?]
    exact h.unfinished hid
  holds := h.holds.congr (fun _ => hstill.node? _) fun _ _ => by rw [hstill.file]
  left := h.left.still hstill

theorem StoredIn.noMerge (h : l.StoredIn d dir place) (hleft : l.left = none) {id : Nat}
    (hid : id < RunName.idLimit) : d.node? ((RunName.mk .merged id).placeIn place) = none := by
  have hnone : l.leftover.ids = [] := by
    rw [leftover, hleft]
    rfl
  exact h.left.others hid (by rw [hnone]; exact List.not_mem_nil)

/-- Where no merge is left, the folder has its runs alone. -/
theorem StoredIn.hasRunsOnly (h : l.StoredIn d dir place) (hleft : l.left = none) :
    d.HasRunsOnly dir place (runEntries l.stored) where
  folder := h.folder
  sound := h.sound
  tidy := h.tidy
  holds := h.holds
  noMerge := h.noMerge hleft
  notFolder hid := by
    rw [h.unfinished hid]
    exact nofun

/-- A generation that is loaded from the folder has the runs that are stored there. -/
theorem StoredIn.load {config : Config} (h : l.StoredIn d config.dir place)
    (hroomy : config.dir.Roomy) :
    (∃ opened d', Generation.load config d =
          (.ok ⟨config.dir, config.blockSize, config.syncWrites, opened, true⟩, d') ∧ d.Still d' ∧
        List.Forall₂ (Run.Stands d config.dir place) opened (runEntries l.stored)) ∨
      ∃ e d', Generation.load config d = (.error e, d') ∧ d.Still d' ∧ d.Struck d' :=
  Generation.load_spec hroomy h.folder h.sound (Tidy.of h.tidy _) h.holds

theorem BufferedBy.flushed (h : l.BufferedBy c) {log : List Write} (hlog : l.flushing = some log)
    (g : Generation) : l.flushed.BufferedBy (c.publishFlush g) := by
  rw [Layers.flushed, hlog]
  exact { h with flushing := .none, inFlight := rfl }

/-- A flush leaves the disk as the writing of its run has left it: loading changes nothing. -/
theorem still_flushBuffer (id : Nat) (c : Core) (d : Disk) :
    (c.generation.persist ((c.buffers id).toList .all) d).2.Still (Core.flushBuffer id c d).2 := by
  have houtcome := Core.flushBuffer_outcome id c d
  generalize Core.flushBuffer id c d = result at houtcome ⊢
  cases houtcome with
  | unwritten hpersist =>
    rw [hpersist]
    exact Still.refl _
  | unread hpersist hload | done hpersist hload =>
    rw [hpersist]
    exact Generation.still_of_load hload

/-- After a flush, the generation that contains the new run is read. Otherwise a fault struck. -/
theorem HeldBy.flushBuffer (h : l.HeldBy c d place) (hsane : l.Sane)
    {log : List Write} (hlog : l.flushing = some log) {id : Nat} (hid : c.flushing = some id)
    (hwithin : (Core.flushBuffer id c d).1.2.Within (Core.flushBuffer id c d).2) :
    (∃ g d', Core.flushBuffer id c d = ((.ok (), c.publishFlush g), d') ∧
        l.flushed.HeldBy (c.publishFlush g) d' place ∧ Works place d d') ∨
      (∃ e, (Core.flushBuffer id c d).1.1 = .error e) ∧ ¬ d.Faultless := by
  have houtcome := Core.flushBuffer_outcome id c d
  have hstill := still_flushBuffer id c d
  generalize Core.flushBuffer id c d = result at houtcome hwithin hstill ⊢
  rcases h.persist hsane hlog hid with ⟨d₁, hpersist, hadded⟩ | ⟨⟨e, d₁, hpersist, -⟩, hfaulty⟩
  swap
  · cases houtcome with
    | unwritten => exact .inr ⟨⟨_, rfl⟩, hfaulty⟩
    | unread => exact .inr ⟨⟨_, rfl⟩, hfaulty⟩
    | done hwrote =>
      rw [hpersist] at hwrote
      cases hwrote
  rw [hpersist] at hstill
  have hworks := hadded.works h.sound h.nextRun_lt h.nextRun_lt
  -- loading changes no file, so that the limits held for the disk before it
  have hstored := h.toStoredIn.flushed hsane hlog h.nextRun_lt hadded fun file => by
    rw [← hstill.file]
    exact hwithin.lengths file
  cases houtcome with
  | unwritten hwrote =>
    rw [hpersist] at hwrote
    cases hwrote
  | unread hwrote hload =>
    obtain rfl := (Prod.mk.inj (hpersist.symm.trans hwrote)).2
    refine .inr ⟨⟨_, rfl⟩, fun hfaultless => ?_⟩
    rcases hstored.load h.roomy with ⟨opened, d₂, hopened, -⟩ | ⟨e, d₂, -, -, hs⟩
    · rw [hopened] at hload
      cases hload
    · exact (hfaultless.evolves hworks.toEvolves).not_struck hs
  | done hwrote hload =>
    obtain rfl := (Prod.mk.inj (hpersist.symm.trans hwrote)).2
    rcases hstored.load h.roomy with ⟨opened, d₂, hopened, -, hstands⟩ | ⟨e, d₂, hopened, -⟩
    swap
    · rw [hopened] at hload
      cases hload
    obtain ⟨hok, rfl⟩ := Prod.mk.inj (hopened.symm.trans hload)
    obtain rfl := Except.ok.inj hok
    refine .inl ⟨_, _, rfl, ?_, hworks.trans (hstill.works place)⟩
    have hsame : l.flushed.runs = l.flushed.stored ∧ l.flushed.live = true := by
      simp only [flushed, hlog, and_self]
    exact {
      toStoredIn := hstored.still hstill
      toBufferedBy := h.toBufferedBy.flushed hlog _
      toReadBy := .of_loaded h.roomy h.blockSize_le (c.generation_install _) hsame.2
        (hsame.1 ▸ hstands.imp fun _ _ hrun => hrun.still hstill) hwithin.ids }

/-! ## A compaction -/

theorem HeldBy.mirrors (h : l.HeldBy c d place) (hsane : l.Sane) (hlive : l.live = true) :
    Mirrors d place c.generation (runEntries l.runs) where
  live := h.live.trans hlive
  blockSize_le := h.blockSize_eq ▸ h.blockSize_le
  roomy := h.dir_eq ▸ h.roomy
  folder := h.dir_eq ▸ h.folder
  sound := h.sound
  holds := hsane.stored_of_live hlive ▸ h.holds
  stands := h.dir_eq ▸ h.stands hlive
  lt_flushingRank := (h.numbered hsane).lt_flushingRank

theorem StoredIn.merged_notFolder (h : l.StoredIn d dir place) {id : Nat}
    (hid : id < RunName.idLimit) :
    d.node? ((RunName.mk .merged id).placeIn place) ≠ some .folder := by
  by_cases hmem : id ∈ l.leftover.ids
  · obtain ⟨file, hfile⟩ := h.left.file hmem
    rw [hfile]
    simp
  · rw [h.left.others hid hmem]
    simp

theorem ShownBy.hasLayers_iff (h : l.ShownBy c d place) :
    c.hasLayers = true ↔ ¬ (l.runs = [] ∧ l.buffered = []) := by
  have hflushing : c.flushingBuffer?.any (!·.isEmpty) = false ↔ l.flushing.getD [] = [] := by
    have hentries := h.flushingBuffer
    cases hbuffer : c.flushingBuffer? with
    | none =>
      rw [hbuffer] at hentries
      have hnone : l.flushing = none := by simpa using hentries.symm
      simp [hnone]
    | some b =>
      rw [hbuffer] at hentries
      obtain ⟨log, hlog, heq⟩ : ∃ log, l.flushing = some log ∧ Log.entries log = b.entries := by
        simpa using hentries.symm
      rw [hlog]
      simp only [Option.any_some, Bool.not_eq_false', Option.getD_some]
      rw [← Buffer.entries_eq_nil_iff, ← heq, Log.entries_eq_nil_iff]
  rw [← not_iff_not, not_not, Bool.not_eq_true, Core.hasLayers, buffered]
  simp only [Bool.or_eq_false_iff, Bool.not_eq_false', h.isEmpty_runs, h.isEmpty_active, hflushing,
    List.append_eq_nil_iff]

/-- Where there is nothing to merge, a compaction does nothing. -/
theorem ShownBy.compactRuns_of_nothing (h : l.ShownBy c d place)
    (hnothing : l.runs = [] ∧ l.buffered = []) : Core.compactRuns c d = ((.ok (), c), d) := by
  refine Core.compactRuns_of_not ?_ d
  rw [← Bool.not_eq_true]
  exact fun hlayers => h.hasLayers_iff.mp hlayers hnothing

/-- The merge of the buffers and the runs is that of the logs. -/
theorem ShownBy.merge_eq (h : l.ShownBy c d place) {merged : List Entry}
    (hasc : Ascending bytewise merged)
    (hmem : ∀ e, e ∈ merged ↔ overlay ((rankedLayers c.buffers c.activeId c.flushing
      (runEntries l.runs)).map Prod.snd) e.key = some e ∧ e.isTombstone = false) :
    merged = Log.entries l.merge := by
  rw [h.ranked_eq] at hmem
  rw [merge, ← flatten_logs]
  exact Log.entries_live_eq hasc hmem

theorem Sane.storable_merge (hsane : l.Sane) : ∀ e ∈ Log.entries l.merge, e.Storable := by
  intro e he
  obtain ⟨w, hw, rfl⟩ := Option.map_eq_some_iff.mp (Log.mem_entries.mp he)
  exact hsane.storable w (List.mem_append_left _ (List.mem_append_left _
    (l.merge_subset (Log.mem_of_newest? hw))))

variable {g : Generation}

theorem mergedId_eq (hg : Among d place g (runEntries l.runs)) :
    g.mergedId = mergedRun l.runs := by
  rw [Generation.mergedId_eq hg, map_fst_runEntries, mergedRun]

theorem runEntries_mergedRuns (l : Layers) :
    (if Log.entries l.merge = [] then [] else [(mergedRun l.runs, Log.entries l.merge)]) =
      runEntries l.mergedRuns := by
  rw [mergedRuns]
  by_cases hmerge : l.merge = []
  · rw [if_pos hmerge, if_pos (Log.entries_eq_nil_iff.mpr hmerge)]
    rfl
  · rw [if_neg hmerge, if_neg fun hnil => hmerge (Log.entries_eq_nil_iff.mp hnil)]
    rfl

/-- A compaction uses up the merge of its own number, and no other. -/
theorem leftover_swapped {entries : List Entry} (h : l.StoredIn d dir place)
    (hg : Mirrors d place g (runEntries l.runs)) (hswapped : Swapped place g entries d d') :
    ({ l with left := l.left.filter (·.1 ≠ mergedRun l.runs) } : Layers).leftover.LiesIn
      d' dir place := by
  have hid := hg.mergedId_lt
  have hother {id : Nat} (hlt : id < RunName.idLimit) (hne : id ≠ mergedRun l.runs) :
      d'.node? ((RunName.mk .merged id).placeIn place) =
        d.node? ((RunName.mk .merged id).placeIn place) := by
    refine hswapped.node?_other hid (fun run hrun => hg.id_lt hrun) hlt (by simp) ?_
    simpa [mergedName, mergedId_eq hg.among] using hne
  have hgone : d'.node? ((RunName.mk .merged (mergedRun l.runs)).placeIn place) = none := by
    rw [← mergedId_eq hg.among]
    exact hswapped.merge_gone
  have hleft := h.left
  rw [leftover] at hleft
  cases hl : l.left with
  | none =>
    rw [hl] at hleft
    refine ⟨trivial, fun id hmem => (List.not_mem_nil hmem).elim, fun {id} hlt _ => ?_⟩
    by_cases hne : id = mergedRun l.runs
    · rw [hne, hgone]
    · rw [hother hlt hne]
      exact hleft.others hlt List.not_mem_nil
  | some merge =>
    rw [hl] at hleft
    by_cases hsame : merge.1 = mergedRun l.runs
    · have hnone : (some merge).filter (fun r => decide (r.1 ≠ mergedRun l.runs)) = none := by
        rw [Option.filter_some, if_neg (by simpa using hsame)]
      rw [leftover, hnone]
      refine ⟨trivial, fun id hmem => (List.not_mem_nil hmem).elim, fun {id} hlt _ => ?_⟩
      by_cases hne : id = mergedRun l.runs
      · rw [hne, hgone]
      · rw [hother hlt hne]
        exact hleft.others hlt fun hmem =>
          hne ((List.mem_singleton.mp hmem).trans hsame)
    · have hsome : (some merge).filter (fun r => decide (r.1 ≠ mergedRun l.runs)) = some merge := by
        rw [Option.filter_some, if_pos (by simpa using hsame)]
      rw [leftover, hsome]
      obtain ⟨file, hnode, hrun⟩ := hleft.describes
      have hlt := hleft.lt_idLimit merge.1 List.mem_cons_self
      refine ⟨⟨file, ?_, ?_⟩, hleft.lt_idLimit, fun {id} hlt hmem => ?_⟩
      · rw [hother hlt hsame, hnode]
      · have hcontent := file_eq_of_files h.sound hid hswapped.files (.mk .merged merge.1) hlt
          (fun heq => hsame ((congrArg RunName.id heq).trans (mergedId_eq hg.among))) hnode
        rw [hcontent]
        exact hrun
      · by_cases hne : id = mergedRun l.runs
        · rw [hne, hgone]
        · rw [hother hlt hne]
          exact hleft.others hlt hmem

theorem compacted_of_any (h : ¬ (l.runs = [] ∧ l.buffered = [])) :
    l.compacted = { l with
      runs := l.mergedRuns
      stored := l.mergedRuns
      left := l.left.filter (·.1 ≠ mergedRun l.runs)
      live := true } := by
  rw [compacted, if_neg h]

/-- The folder after a compaction. -/
theorem StoredIn.swapped (h : l.StoredIn d dir place)
    (hg : Mirrors d place g (runEntries l.runs))
    (hswapped : Swapped place g (Log.entries l.merge) d d') (hnot : ¬ d.Misled d')
    (hsmall : ∀ file, (d'.file file).content.length < positionLimit)
    (hany : ¬ (l.runs = [] ∧ l.buffered = [])) : l.compacted.StoredIn d' dir place := by
  have hworks := hswapped.works h.sound hg.mergedId_lt fun run hrun => hg.id_lt hrun
  refine ⟨h.folder.evolves hworks.toEvolves, hworks.sound h.sound, hworks.tidy h.tidy, ?_, ?_, ?_⟩
  · intro id hid
    rw [hswapped.node?_other hg.mergedId_lt (fun run hrun => hg.id_lt hrun) hid (by simp)
      (by simp [mergedName])]
    exact h.unfinished hid
  · have hholds := hswapped.holdsRuns hg hnot hsmall
    rw [mergedId_eq hg.among, runEntries_mergedRuns] at hholds
    rw [compacted_of_any hany]
    exact hholds
  · rw [compacted_of_any hany]
    exact leftover_swapped h hg hswapped

/-- A merge of storable entries is not given up unless a fault strikes. -/
theorem struck_of_unwritten {merged : List Entry} {id : Nat} {e : StoreError}
    (h : MergeOutcome d dir place id merged (.error e, d')) (hstorable : ∀ e ∈ merged, e.Storable) :
    ∃ d₁, d.Struck d₁ := by
  cases h with
  | failed _ _ why => exact ⟨_, why.resolve_right fun hnot => hnot hstorable⟩
  | left changes _ _ _ still struck => exact ⟨_, struck.earlier changes.toEvolves⟩

/-- After a compaction that has something to merge, the runs are read that the folder then has.
Otherwise a fault struck. -/
theorem ShownBy.compactRuns (h : l.ShownBy c d place) (hsane : l.Sane)
    (hg : Among d place c.generation (runEntries l.runs)) (htidy : d.Tidy place)
    (hany : ¬ (l.runs = [] ∧ l.buffered = []))
    (hfree : d.node? ((mergedName c.generation).placeIn place) ≠ some .folder)
    {runs : List (Nat × List Write)}
    (hholds : ∀ {d₁ : Disk}, Swapped place c.generation (Log.entries l.merge) d d₁ →
      (∀ file, (d₁.file file).content.length < positionLimit) →
        d₁.HoldsRuns place (runEntries runs))
    (hwithin : (Core.compactRuns c d).1.2.Within (Core.compactRuns c d).2) :
    (∃ next d₁ d', Core.compactRuns c d = ((.ok (), c.retired.publishCompaction next), d') ∧
        Swapped place c.generation (Log.entries l.merge) d d₁ ∧ d₁.Still d' ∧
        ({ l with runs, live := true } : Layers).ShownBy (c.retired.publishCompaction next) d'
          place) ∨
      (∃ e, (Core.compactRuns c d).1.1 = .error e) ∧ ¬ d.Faultless := by
  obtain ⟨merged, hasc, hmem, houtcome⟩ :=
    Core.compactRuns_spec hg (h.hasLayers_iff.mpr hany) hfree
  obtain rfl : merged = Log.entries l.merge := h.merge_eq hasc hmem
  -- the folder is in order once the runs have given way to the merge
  have hload {d₁ d₂ : Disk} (hswapped : Swapped place c.generation (Log.entries l.merge) d d₁)
      (hstill : d₁.Still d₂) (hsmall : ∀ file, (d₁.file file).content.length < positionLimit) :=
    have hworks := (hswapped.works hg.sound hg.mergedId_lt fun run hrun => hg.id_lt hrun).trans
      (hstill.works place)
    Generation.load_spec h.roomy ((h.dir_eq ▸ hg.folder).evolves hworks.toEvolves)
      (hworks.sound hg.sound) (Tidy.of (hworks.tidy htidy) _)
      ((hholds hswapped hsmall).congr (fun _ => hstill.node? _) fun _ _ => by rw [hstill.file])
  generalize Core.compactRuns c d = result at hwithin houtcome
  cases houtcome with
  | @unwritten e d' hmerge =>
    obtain ⟨d₁, hstruck⟩ := struck_of_unwritten hmerge hsane.storable_merge
    exact .inr ⟨⟨e, rfl⟩, fun hfaultless => hfaultless.not_struck hstruck⟩
  | merged hswap =>
    cases hswap with
    | @halfway e lost rest d₁ d' split thinned gone still struck left =>
      exact .inr ⟨⟨e, rfl⟩, fun hfaultless => hfaultless.not_struck (struck.earlier thinned.toEvolves)⟩
    | @unread e d₁ d' swapped still why =>
      refine .inr ⟨⟨e, rfl⟩, fun hfaultless => ?_⟩
      have hfaultless₁ := hfaultless.evolves swapped.toEvolves
      -- nothing but a fault keeps the folder from being loaded
      rcases why with hstruck | ⟨d₂, hstill, hfailed⟩
      · exact hfaultless₁.not_struck hstruck
      · rcases hload swapped hstill (fun file => by rw [← still.file]; exact hwithin.lengths file) with
          ⟨_, _, hok, -⟩ | ⟨_, d₃, -, -, hstruck⟩
        · rw [hfailed] at hok
          cases hok
        · exact (hfaultless₁.evolves hstill.evolves).not_struck hstruck
    | @done next d₁ d₂ d' swapped still load =>
      have hstill := Generation.still_of_load load
      rcases hload swapped still (fun file => by
          rw [← still.file, ← hstill.file]
          exact hwithin.lengths file) with ⟨opened, d₃, hopened, -, hstands⟩ | ⟨_, _, herror, -⟩
      swap
      · rw [load] at herror
        cases herror
      rw [load] at hopened
      cases hopened
      exact .inl ⟨_, d₁, d', rfl, swapped, still.trans hstill, {
        toBufferedBy := { h.toBufferedBy with flushing := h.flushing }
        toReadBy := .of_loaded h.roomy h.blockSize_le (Core.generation_install _ _) rfl
          (hstands.imp fun _ _ hrun => hrun.still hstill) hwithin.ids }⟩

/-- After a compaction, the merge of all layers is read. Otherwise a fault struck. -/
theorem HeldBy.compactRuns (h : l.HeldBy c d place) (hsane : l.Sane) (htruthful : d.Truthful)
    (hlive : l.live = true)
    (hwithin : (Core.compactRuns c d).1.2.Within (Core.compactRuns c d).2) :
    (∃ c' d', Core.compactRuns c d = ((.ok (), c'), d') ∧
        (c' = c ∨ ∃ next, c' = c.retired.publishCompaction next) ∧
        l.compacted.HeldBy c' d' place ∧ Works place d d') ∨
      (∃ e, (Core.compactRuns c d).1.1 = .error e) ∧ ¬ d.Faultless := by
  by_cases hany : l.runs = [] ∧ l.buffered = []
  · refine .inl ⟨c, d, h.toShownBy.compactRuns_of_nothing hany, .inl rfl, ?_, Works.refl place d⟩
    rw [Layers.compacted, if_pos hany]
    exact h
  have hg := h.mirrors hsane hlive
  have hholds {d₁ : Disk} (hswapped : Swapped place c.generation (Log.entries l.merge) d d₁)
      (hsmall : ∀ file, (d₁.file file).content.length < positionLimit) :
      d₁.HoldsRuns place (runEntries l.mergedRuns) := by
    have hholds := hswapped.holdsRuns hg htruthful.not_misled hsmall
    rwa [mergedId_eq hg.among, runEntries_mergedRuns] at hholds
  rcases h.toShownBy.compactRuns hsane hg.among h.tidy hany (h.merged_notFolder hg.mergedId_lt)
    hholds hwithin with ⟨next, d₁, d', hdone, hswapped, hstill, hshown⟩ | hfailed
  swap
  · exact .inr hfailed
  have hworks := (hswapped.works hg.sound hg.mergedId_lt fun run hrun => hg.id_lt hrun).trans
    (hstill.works place)
  rw [hdone] at hwithin
  have hstored := (h.toStoredIn.swapped hg hswapped htruthful.not_misled (fun file => by
    rw [← hstill.file]
    exact hwithin.lengths file) hany).still hstill
  refine .inl ⟨_, d', hdone, .inr ⟨next, rfl⟩, ?_, hworks⟩
  rw [compacted_of_any hany] at hstored ⊢
  exact {
    toStoredIn := hstored
    toBufferedBy := { hshown.toBufferedBy with flushing := hshown.flushing }
    toReadBy := { hshown.toReadBy with live := hshown.live } }

end Layers

end LayeredStore
