import LayeredStore.Proofs.Compacting

/-!
# A compaction as a whole

`Core.compactRuns` puts the steps of a compaction together. `CompactionOutcome` lists the ways in
which it can end, with what the folder then holds, and `compactRuns_spec` says that under any plan
of faults it ends in one of them. The generation that is merged need not have all runs of the
folder: `Among` says what a compaction relies on, and `Mirrors` that there are no other runs.
-/

namespace LayeredStore

open Disk Generation

variable {d d' : Disk} {dir place : Path} {runs : List (Nat × List Entry)} {c : Core}

namespace Core

/-- The state after the current generation was given up. -/
def retired (c : Core) : Core :=
  { c with
    generations := c.generations.setIfInBounds c.current { c.generation with live := false }
    current_lt := by simpa using c.current_lt }

theorem generation_retired (c : Core) :
    c.retired.generation = { c.generation with live := false } := by
  simp [retired, generation]

theorem onDisk_eq {α : Type} {x : DiskM StoreError α} {r : Except StoreError α}
    (h : x d = (r, d')) : onDisk x c d = ((r, c), d') := by
  simp only [onDisk, h]

theorem retire_current (c : Core) (d : Disk) : Core.retire c.current c d =
    (((c.generation.removeRuns d).1, c.retired), (c.generation.removeRuns d).2) := by
  have hcurrent : c.generations[c.current]? = some c.generation := by
    rw [Array.getElem?_eq_getElem c.current_lt]
    rfl
  unfold Core.retire
  rw [StateProgram.get_bind, hcurrent]
  rfl

end Core

namespace Generation

/-- The name under which a merge is written. -/
def mergedName (g : Generation) : RunName := ⟨.merged, g.mergedId⟩

/-- The name that a merge gets. -/
def finalName (g : Generation) : RunName := ⟨.finished, g.mergedId⟩

theorem mergedName_ne_finalName (g : Generation) (hid : g.mergedId < RunName.idLimit) :
    (mergedName g).text ≠ (finalName g).text := by
  intro heq
  have := RunName.text_inj heq hid hid
  simp [mergedName, finalName] at this

/-- The name of a merge that is there is changed, or a fault struck. -/
theorem publish_spec {g : Generation} (hroomy : g.dir.Roomy) (hfolder : d.FolderAt g.dir place)
    (hid : g.mergedId < RunName.idLimit) {file : Nat}
    (hnode : d.node? ((mergedName g).placeIn place) = some (.file file))
    (hfree : d.node? ((finalName g).placeIn place) ≠ some .folder) :
    (d.faults d.clock = none ∧
        ∃ d₁, d₁ = d.ticked.moved ((mergedName g).placeIn place) ((finalName g).placeIn place) file ∧
          ((∃ d', g.publish g.mergedId d = (.ok (), d') ∧ d₁.Still d') ∨
            ∃ e d', g.publish g.mergedId d = (.error e, d') ∧ d₁.Still d' ∧ d₁.Struck d')) ∨
      ∃ e, g.publish g.mergedId d = (.error e, d.ticked) ∧ d.Struck d.ticked := by
  have hsource : g.dir.Admits (mergedName g).text := hroomy.admits hid
  have htarget : g.dir.Admits (finalName g).text := hroomy.admits hid
  have hplaces : (mergedName g).placeIn place ≠ (finalName g).placeIn place :=
    fun h => mergedName_ne_finalName g hid (append_singleton_inj.mp h)
  rw [publish, RunName.path, RunName.path]
  rcases hfolder.rename_child hsource htarget (mergedName_ne_finalName g hid) hnode with
    ⟨hrename, halive, -⟩ | ⟨e, hrename, hwhy⟩
  · refine .inl ⟨halive, _, rfl, ?_⟩
    have hmoved := evolves_moved (d := d.ticked) ((mergedName g).placeIn_ne_nil place)
      ((finalName g).placeIn_ne_nil place) hnode hfree
    have hstep := DiskM.writing_of_ok "merged run rename" hrename
    rcases syncDir_spec (g := g) (hfolder.evolves ((still_ticked d).evolves.trans hmoved)) with
      ⟨d', hsync, hstill⟩ | ⟨e, d', hsync, hstill, hs⟩
    · exact .inl ⟨d', (DiskM.bind_of_ok hstep).trans hsync, hstill⟩
    · exact .inr ⟨e, d', (DiskM.bind_of_ok hstep).trans hsync, hstill, hs⟩
  · refine .inr ⟨.write "merged run rename" e,
      DiskM.bind_of_error (DiskM.writing_of_error _ hrename), ?_⟩
    rcases hwhy with hs | hfull
    · exact hs
    · exact absurd hfull hfree

/-! ## What a compaction leaves behind -/

variable {g : Generation} {merged : List Entry} {lost rest : List Run}

/-- A generation is live, and its runs are among the run files of the folder. -/
structure Among (d : Disk) (place : Path) (g : Generation) (runs : List (Nat × List Entry)) :
    Prop where
  live : g.live = true
  blockSize_le : g.blockSize ≤ UInt32.size
  roomy : g.dir.Roomy
  folder : d.FolderAt g.dir place
  sound : d.Sound
  stands : List.Forall₂ (Run.Stands d g.dir place) g.runs runs
  numbered : Numbered runs
  notFolder : ∀ {id : Nat}, id < RunName.idLimit →
    d.node? ((RunName.mk .finished id).placeIn place) ≠ some .folder

theorem Among.ids_eq (h : Among d place g runs) : g.runs.map Run.id = runs.map Prod.fst :=
  Run.ids_eq_of_shows (h.stands.imp fun _ _ hrun => hrun.toShows)

theorem Among.id_lt (h : Among d place g runs) {run : Run} (hrun : run ∈ g.runs) :
    run.id < RunName.idLimit := by
  have hlimit : flushingRank ≤ RunName.idLimit := by decide
  have hmem : run.id ∈ runs.map Prod.fst := h.ids_eq ▸ List.mem_map_of_mem hrun
  obtain ⟨r, hr, heq⟩ := List.mem_map.mp hmem
  exact heq ▸ Nat.lt_of_lt_of_le (h.numbered.lt_flushingRank r hr) hlimit

theorem Among.mergedId_lt (h : Among d place g runs) : g.mergedId < RunName.idLimit := by
  rw [mergedId, nextId, maxId?]
  cases hlast : g.runs.getLast? with
  | none => decide
  | some run => exact h.id_lt (List.mem_of_getLast? hlast)

theorem mergedId_eq (h : Among d place g runs) :
    g.mergedId = ((runs.map Prod.fst).getLast?).getD 1 := by
  rw [mergedId, nextId, maxId?, ← h.ids_eq, List.getLast?_map]
  cases g.runs.getLast? <;> rfl

theorem Among.mergedId_lt_flushingRank (h : Among d place g runs) :
    g.mergedId < flushingRank := by
  rw [mergedId_eq h]
  cases hlast : (runs.map Prod.fst).getLast? with
  | none => decide
  | some id =>
    obtain ⟨r, hr, rfl⟩ := List.mem_map.mp (List.mem_of_getLast? hlast)
    exact h.numbered.lt_flushingRank r hr

/-- A merge gets the largest number of a run. -/
theorem Among.le_mergedId (h : Among d place g runs) {r : Nat × List Entry} (hr : r ∈ runs) :
    r.1 ≤ g.mergedId := by
  rw [mergedId_eq h]
  have hasc := h.numbered.ascending
  rcases List.eq_nil_or_concat' runs with rfl | ⟨front, last, rfl⟩
  · cases hr
  · have hlast : ((front ++ [last]).map Prod.fst).getLast?.getD 1 = last.1 := by simp
    rw [hlast]
    rcases List.mem_append.mp hr with hr | hr
    · obtain ⟨-, -, hlt⟩ := List.pairwise_append.mp hasc
      exact Nat.le_of_lt (hlt r hr last (List.mem_singleton.mpr rfl))
    · rw [List.mem_singleton.mp hr]

theorem Among.stands_of_mem (h : Among d place g runs) {run : Run} (hrun : run ∈ g.runs) :
    ∃ r ∈ runs, Run.Stands d g.dir place run r := by
  obtain ⟨n, hn, rfl⟩ := List.getElem_of_mem hrun
  have hlt : n < runs.length := h.stands.length_eq ▸ hn
  exact ⟨runs[n], List.getElem_mem hlt, h.stands.get hn hlt⟩

theorem Among.removable (h : Among d place g runs) {run : Run} (hrun : run ∈ g.runs) :
    Removable d g.dir place run := by
  obtain ⟨r, -, hstands⟩ := h.stands_of_mem hrun
  refine ⟨h.id_lt hrun, ?_, h.notFolder (h.id_lt hrun)⟩
  rw [hstands.id_eq]
  exact hstands.path_eq

/-- The merge is not written into the file of a run. -/
theorem Among.apart (h : Among d place g runs) {run : Run} (hrun : run ∈ g.runs) :
    d.node? ((mergedName g).placeIn place) ≠ some (.file run.file.fileId) := by
  intro hnode
  obtain ⟨r, -, hstands⟩ := h.stands_of_mem hrun
  have hid : r.1 < RunName.idLimit := hstands.id_eq ▸ h.id_lt hrun
  have hnames := RunName.placeIn_inj (h.sound.unique hnode hstands.node) h.mergedId_lt hid
  simp [mergedName] at hnames

/-- A generation is live, and its runs are the run files of the folder. -/
structure Mirrors (d : Disk) (place : Path) (g : Generation) (runs : List (Nat × List Entry)) :
    Prop where
  live : g.live = true
  blockSize_le : g.blockSize ≤ UInt32.size
  roomy : g.dir.Roomy
  folder : d.FolderAt g.dir place
  sound : d.Sound
  holds : d.HoldsRuns place runs
  stands : List.Forall₂ (Run.Stands d g.dir place) g.runs runs
  lt_flushingRank : ∀ r ∈ runs, r.1 < flushingRank

theorem Mirrors.among (h : Mirrors d place g runs) : Among d place g runs where
  live := h.live
  blockSize_le := h.blockSize_le
  roomy := h.roomy
  folder := h.folder
  sound := h.sound
  stands := h.stands
  numbered := ⟨h.holds.ascending, h.lt_flushingRank⟩
  notFolder := h.holds.notFolder

theorem Mirrors.numbered (h : Mirrors d place g runs) : Numbered runs := h.among.numbered

theorem Mirrors.id_lt (h : Mirrors d place g runs) {run : Run} (hrun : run ∈ g.runs) :
    run.id < RunName.idLimit := h.among.id_lt hrun

theorem Mirrors.mergedId_lt (h : Mirrors d place g runs) : g.mergedId < RunName.idLimit :=
  h.among.mergedId_lt

theorem Mirrors.mergedId_lt_flushingRank (h : Mirrors d place g runs) :
    g.mergedId < flushingRank := h.among.mergedId_lt_flushingRank

theorem Mirrors.le_mergedId (h : Mirrors d place g runs) {r : Nat × List Entry} (hr : r ∈ runs) :
    r.1 ≤ g.mergedId := h.among.le_mergedId hr

theorem Mirrors.apart (h : Mirrors d place g runs) {run : Run} (hrun : run ∈ g.runs) :
    d.node? ((mergedName g).placeIn place) ≠ some (.file run.file.fileId) := h.among.apart hrun

/-- The merge is written and of the runs `lost` are about to lose their names, if not all of them
have. Without live entries there is no merge. -/
structure Thinned (place : Path) (g : Generation) (lost : List Run) (merged : List Entry)
    (d d' : Disk) : Prop extends Evolves d d' where
  others : ∀ {q : Path}, q ≠ (mergedName g).placeIn place → q ∉ runPlaces lost place →
    d'.node? q = d.node? q
  same_or_gone : ∀ {q : Path}, q ≠ (mergedName g).placeIn place →
    d'.node? q = d.node? q ∨ d'.node? q = none
  merge : merged ≠ [] → ∃ file, d'.node? ((mergedName g).placeIn place) = some (.file file) ∧
    IsImage (d'.file file).content merged
  no_merge : merged = [] → d'.node? ((mergedName g).placeIn place) = none
  files : ∀ {id : Nat}, id < d.files.size →
    d.node? ((mergedName g).placeIn place) ≠ some (.file id) → d'.file id = d.file id

/-- The runs have given way to the merge. Without live entries nothing takes their place. -/
structure Swapped (place : Path) (g : Generation) (merged : List Entry) (d d' : Disk) :
    Prop extends Evolves d d' where
  others : ∀ {q : Path}, q ≠ (mergedName g).placeIn place → q ∉ runPlaces g.runs place →
    (merged ≠ [] → q ≠ (finalName g).placeIn place) → d'.node? q = d.node? q
  gone : (∀ q ∈ runPlaces g.runs place, (merged ≠ [] → q ≠ (finalName g).placeIn place) →
    d'.node? q = none) ∨ d.Misled d'
  merge_gone : d'.node? ((mergedName g).placeIn place) = none
  result : merged ≠ [] → ∃ file, d'.node? ((finalName g).placeIn place) = some (.file file) ∧
    IsImage (d'.file file).content merged
  alive : merged ≠ [] → ∃ n, d'.clock = n + 1 ∧ d.faults n = none
  files : ∀ {id : Nat}, id < d.files.size →
    d.node? ((mergedName g).placeIn place) ≠ some (.file id) → d'.file id = d.file id

/-- Beside the merge, no folder has come into being. -/
theorem Thinned.ne_folder (h : Thinned place g lost merged d d') {q : Path}
    (hq : q ≠ (mergedName g).placeIn place) (hbefore : d.node? q ≠ some .folder) :
    d'.node? q ≠ some .folder := by
  rcases h.same_or_gone hq with hsame | hgone
  · rwa [hsame]
  · simp [hgone]

theorem Thinned.of_written {file : Nat}
    (changes : ChangesAt ((mergedName g).placeIn place) d d')
    (node : d'.node? ((mergedName g).placeIn place) = some (.file file))
    (image : IsImage (d'.file file).content merged) (nonempty : merged ≠ []) :
    Thinned place g [] merged d d' where
  toEvolves := changes.toEvolves
  others hq _ := changes.others hq
  same_or_gone hq := .inl (changes.others hq)
  merge _ := ⟨file, node, image⟩
  no_merge hempty := absurd hempty nonempty
  files hid hne := changes.files hid hne

theorem Thinned.of_nothing (changes : ChangesAt ((mergedName g).placeIn place) d d')
    (gone : d'.node? ((mergedName g).placeIn place) = none) (empty : merged = []) :
    Thinned place g [] merged d d' where
  toEvolves := changes.toEvolves
  others hq _ := changes.others hq
  same_or_gone hq := .inl (changes.others hq)
  merge hne := absurd empty hne
  no_merge _ := gone
  files hid hne := changes.files hid hne

/-- Runs have the names of finished ones. -/
theorem notMem_runPlaces {name : RunName} (hname : name.id < RunName.idLimit)
    (hkind : name.kind ≠ .finished) (hlost : ∀ run ∈ lost, run.id < RunName.idLimit) :
    name.placeIn place ∉ runPlaces lost place := by
  intro hmem
  obtain ⟨run, hrun, heq⟩ := List.mem_map.mp hmem
  have hnames := RunName.placeIn_inj heq (hlost run hrun) hname
  exact hkind (congrArg RunName.kind hnames).symm

theorem Thinned.freed {d₁ : Disk} (h : Thinned place g [] merged d d₁)
    (hfreed : Freed (runPlaces lost place) d₁ d') (hid : g.mergedId < RunName.idLimit)
    (hlost : ∀ run ∈ lost, run.id < RunName.idLimit) : Thinned place g lost merged d d' where
  toEvolves := h.toEvolves.trans hfreed.toEvolves
  others hq hnot := (hfreed.others hnot).trans (h.others hq (by simp [runPlaces]))
  same_or_gone {q} hq := by
    have hfirst := h.others hq (by simp [runPlaces])
    rcases hfreed.same_or_gone q with hsame | hgone
    · left
      rw [hsame, hfirst]
    · exact .inr hgone
  merge hne := by
    obtain ⟨file, hnode, himage⟩ := h.merge hne
    refine ⟨file, ?_, ?_⟩
    · rw [hfreed.others (notMem_runPlaces hid (by simp [mergedName]) hlost), hnode]
    · rw [hfreed.files]
      exact himage
  no_merge hempty := by
    rw [hfreed.others (notMem_runPlaces hid (by simp [mergedName]) hlost), h.no_merge hempty]
  files hid hne := (hfreed.files _).trans (h.files hid hne)

/-- A merge that is there gets its name. -/
theorem Thinned.moved {d₁ : Disk} (h : Thinned place g g.runs merged d d₁) (hne : merged ≠ [])
    {file : Nat} (hnode : d₁.node? ((mergedName g).placeIn place) = some (.file file))
    (himage : IsImage (d₁.file file).content merged)
    (hgone : (∀ q ∈ runPlaces g.runs place, d₁.node? q = none) ∨ d.Misled d₁)
    (halive : d₁.faults d₁.clock = none) (hid : g.mergedId < RunName.idLimit)
    (hfree : d₁.node? ((finalName g).placeIn place) ≠ some .folder) :
    Swapped place g merged d
      (d₁.ticked.moved ((mergedName g).placeIn place) ((finalName g).placeIn place) file) := by
  have hmovedNode := node?_moved d₁.ticked file ((mergedName g).placeIn_ne_nil place)
    ((finalName g).placeIn_ne_nil place)
  have hplaces : (mergedName g).placeIn place ≠ (finalName g).placeIn place :=
    fun h => mergedName_ne_finalName g hid (append_singleton_inj.mp h)
  have hevolves : d₁.Evolves
      (d₁.ticked.moved ((mergedName g).placeIn place) ((finalName g).placeIn place) file) :=
    (still_ticked d₁).evolves.trans (evolves_moved (d := d₁.ticked)
      ((mergedName g).placeIn_ne_nil place) ((finalName g).placeIn_ne_nil place) hnode hfree)
  refine ⟨h.toEvolves.trans hevolves, ?_, ?_, ?_, ?_, ?_, ?_⟩
  · intro q hmerged hruns hfinal
    rw [hmovedNode, if_neg (hfinal hne), if_neg hmerged, node?_ticked, h.others hmerged hruns]
  · rcases hgone with hgone | hs
    · left
      intro q hq hfinal
      rw [hmovedNode, if_neg (hfinal hne)]
      split
      · rfl
      · exact hgone q hq
    · exact .inr (StruckBy.later hs hevolves)
  · rw [hmovedNode, if_neg hplaces, if_pos rfl]
  · intro _
    refine ⟨file, ?_, himage⟩
    rw [hmovedNode, if_pos rfl]
  · intro _
    exact ⟨d₁.clock, rfl, h.faults ▸ halive⟩
  · intro id hlt hother
    exact h.files hlt hother

/-- Without live entries, the runs are just removed. -/
theorem Thinned.dropped (h : Thinned place g g.runs merged d d') (hempty : merged = [])
    (hgone : (∀ q ∈ runPlaces g.runs place, d'.node? q = none) ∨ d.Misled d') :
    Swapped place g merged d d' where
  toEvolves := h.toEvolves
  others hmerged hruns _ := h.others hmerged hruns
  gone := hgone.imp (fun hgone q hq _ => hgone q hq) id
  merge_gone := h.no_merge hempty
  result hne := absurd hempty hne
  alive hne := absurd hempty hne
  files hid hne := h.files hid hne

/-! ## How a compaction ends -/

/-- How a compaction ends once it knows its merge. -/
inductive SwapOutcome (place : Path) (c : Core) (d : Disk) (merged : List Entry) :
    (Except StoreError Unit × Core) × Disk → Prop
  /-- A run could not be removed, or the merge not be given its name. -/
  | halfway {e : StoreError} {lost rest : List Run} {d₁ d' : Disk}
      (split : c.generation.runs = lost ++ rest)
      (thinned : Thinned place c.generation lost merged d d₁)
      (gone : (∀ q ∈ runPlaces lost place, d₁.node? q = none) ∨ d.Misled d₁)
      (still : d₁.Still d') (struck : d₁.Struck d') (left : rest = [] → merged ≠ []) :
      SwapOutcome place c d merged ((.error e, c.retired), d')
  /-- The runs have given way to the merge, but the folder was not loaded. -/
  | unread {e : StoreError} {d₁ d' : Disk} (swapped : Swapped place c.generation merged d d₁)
      (still : d₁.Still d')
      (why : d₁.Struck d' ∨ ∃ d₂, d₁.Still d₂ ∧ Generation.load c.config d₂ = (.error e, d')) :
      SwapOutcome place c d merged ((.error e, c.retired), d')
  /-- The runs have given way to the merge. -/
  | done {next : Generation} {d₁ d₂ d' : Disk}
      (swapped : Swapped place c.generation merged d d₁) (still : d₁.Still d₂)
      (load : Generation.load c.config d₂ = (.ok next, d')) :
      SwapOutcome place c d merged ((.ok (), c.retired.publishCompaction next), d')

/-- How a compaction that has something to merge ends. -/
inductive CompactionOutcome (place : Path) (c : Core) (d : Disk) (merged : List Entry) :
    (Except StoreError Unit × Core) × Disk → Prop
  /-- There is no merge, and the runs were not touched. -/
  | unwritten {e : StoreError} {d' : Disk}
      (merge : MergeOutcome d c.generation.dir place c.generation.mergedId merged (.error e, d')) :
      CompactionOutcome place c d merged ((.error e, c), d')
  /-- The merge was written, or it has turned out to be empty. -/
  | merged {result : (Except StoreError Unit × Core) × Disk}
      (swap : SwapOutcome place c d merged result) : CompactionOutcome place c d merged result

end Generation

namespace Core

/-- Whether a compaction has anything to merge. -/
def hasLayers (c : Core) : Bool :=
  !c.generation.runs.isEmpty || (!c.active.isEmpty || c.flushingBuffer?.any (!·.isEmpty))

theorem compactRuns_of_not (h : c.hasLayers = false) (d : Disk) :
    compactRuns c d = ((.ok (), c), d) := by
  unfold compactRuns
  rw [StateProgram.get_bind, if_pos]
  · rfl
  · simpa [hasLayers] using h

/-- The steps of a compaction after the merge was written. -/
def afterMerge (c : Core) (merged : Option Nat) : CoreM Unit := do
  retire c.current
  if let some id := merged then
    onDisk (c.generation.publish id)
  let next ← onDisk (Generation.load c.config)
  modify (publishCompaction · next)

theorem compactRuns_of_hasLayers (h : c.hasLayers = true) (d : Disk) :
    compactRuns c d = (do
      let merged ← onDisk (c.generation.writeMerged c.buffers c.activeId c.flushing)
      c.afterMerge merged : CoreM Unit) c d := by
  unfold compactRuns
  rw [StateProgram.get_bind, if_neg]
  · rfl
  · rw [hasLayers, Bool.or_eq_true, Bool.not_eq_true'] at h
    rw [Bool.and_eq_true, not_and_or]
    rcases h with hruns | hbuffered
    · left
      rw [hruns]
      simp
    · right
      rw [hbuffered]
      simp

theorem retire_of_ok {c : Core} (h : c.generation.removeRuns d = (.ok (), d')) :
    Core.retire c.current c d = ((.ok (), c.retired), d') := by
  rw [retire_current, h]

theorem retire_of_error {c : Core} {e : StoreError}
    (h : c.generation.removeRuns d = (.error e, d')) :
    Core.retire c.current c d = ((.error e, c.retired), d') := by
  rw [retire_current, h]

theorem removeRuns_of_live {g : Generation} (h : g.live = true) (d : Disk) :
    g.removeRuns d = g.runs.forM removeRun d := by
  unfold removeRuns
  rw [h]
  rfl

/-- The last step of a compaction: the folder is loaded. -/
theorem load_outcome {merged : List Entry} {d₁ d₂ : Disk}
    (hswapped : Swapped place c.generation merged d d₁) (hstill : d₁.Still d₂) :
    SwapOutcome place c d merged ((do
      let next ← onDisk (Generation.load c.config)
      modify (publishCompaction · next) : CoreM Unit) c.retired d₂) := by
  cases hload : Generation.load c.config d₂ with
  | mk r d' =>
    cases r with
    | ok next =>
      rw [StateProgram.bind_of_ok (onDisk_eq hload)]
      exact .done hswapped hstill hload
    | error e =>
      rw [StateProgram.bind_of_error (onDisk_eq hload)]
      exact .unread hswapped (hstill.trans (Generation.still_of_load hload))
        (.inr ⟨d₂, hstill, hload⟩)

variable {merged : List Entry}

/-- What becomes of the folder once the merge is written, or has turned out to be empty. -/
theorem afterMerge_spec (hg : Among d place c.generation runs) {d₁ : Disk} {name : Option Nat}
    (hmerge : Thinned place c.generation [] merged d d₁)
    (hname : name = if merged = [] then none else some c.generation.mergedId) :
    SwapOutcome place c d merged (c.afterMerge name c d₁) := by
  have hlt {front rest : List Run} (hsplit : c.generation.runs = front ++ rest) :
      ∀ run ∈ front, run.id < RunName.idLimit := by
    intro run hrun
    apply hg.id_lt
    rw [hsplit]
    exact List.mem_append_left _ hrun
  have hremovable : ∀ run ∈ c.generation.runs, Removable d₁ c.generation.dir place run := by
    intro run hrun
    have hbefore := hg.removable hrun
    refine ⟨hbefore.lt_idLimit, hbefore.path_eq, hmerge.ne_folder ?_ hbefore.notFolder⟩
    exact RunName.placeIn_ne_of_kind _ _ hbefore.lt_idLimit hg.mergedId_lt (by simp [mergedName])
  have hfolder₁ := hg.folder.evolves hmerge.toEvolves
  rw [afterMerge]
  rcases removeRuns_spec hg.roomy hfolder₁ hremovable with
    ⟨d₂, hremove, hfreed, hgone⟩ |
      ⟨e, front, run, rest, d₂, d₃, hsplit, hremove, hfreed, hgone, hstill, hs⟩
  swap
  · rw [StateProgram.bind_of_error (retire_of_error ((removeRuns_of_live hg.live d₁).trans hremove))]
    exact .halfway hsplit (hmerge.freed hfreed hg.mergedId_lt (hlt hsplit))
      (hgone.imp id (StruckBy.earlier hmerge.toEvolves)) hstill hs (by simp)
  rw [StateProgram.bind_of_ok (retire_of_ok ((removeRuns_of_live hg.live d₁).trans hremove))]
  have hthinned := hmerge.freed hfreed hg.mergedId_lt fun run hrun => hg.id_lt hrun
  have hgone' := hgone.imp id (StruckBy.earlier hmerge.toEvolves)
  by_cases hempty : merged = []
  · rw [hname, if_pos hempty]
    exact load_outcome (hthinned.dropped hempty hgone') (Still.refl d₂)
  rw [hname, if_neg hempty]
  obtain ⟨file, hnode, himage⟩ := hthinned.merge hempty
  have hfree : d₂.node? ((finalName c.generation).placeIn place) ≠ some .folder :=
    hthinned.ne_folder (RunName.placeIn_ne_of_kind (finalName c.generation) _ hg.mergedId_lt
      hg.mergedId_lt (by simp [mergedName, finalName])) (hg.notFolder hg.mergedId_lt)
  show SwapOutcome place c d merged ((do
    onDisk (c.generation.publish c.generation.mergedId)
    let next ← onDisk (Generation.load c.config)
    modify (publishCompaction · next) : CoreM Unit) c.retired d₂)
  rcases publish_spec hg.roomy (hg.folder.evolves hthinned.toEvolves) hg.mergedId_lt hnode hfree with
    ⟨halive, d₃, rfl, ⟨d₄, hpublish, hstill⟩ | ⟨e, d₄, hpublish, hstill, hs⟩⟩ | ⟨e, hpublish, hs⟩
  · have hswapped := hthinned.moved hempty hnode himage hgone' halive hg.mergedId_lt hfree
    rw [StateProgram.bind_of_ok (onDisk_eq hpublish)]
    exact load_outcome hswapped hstill
  · have hswapped := hthinned.moved hempty hnode himage hgone' halive hg.mergedId_lt hfree
    rw [StateProgram.bind_of_error (onDisk_eq hpublish)]
    exact .unread hswapped hstill (.inl hs)
  · rw [StateProgram.bind_of_error (onDisk_eq hpublish)]
    exact .halfway (List.append_nil _).symm hthinned hgone' (still_ticked d₂) hs fun _ => hempty

/-- Without a merge, a compaction leaves the core as it was. -/
theorem compactRuns_of_unwritten (hlayers : c.hasLayers = true) {e : StoreError}
    (hwrite : c.generation.writeMerged c.buffers c.activeId c.flushing d = (.error e, d')) :
    compactRuns c d = ((.error e, c), d') := by
  rw [compactRuns_of_hasLayers hlayers, StateProgram.bind_of_error (onDisk_eq hwrite)]

/-- With a merge, or once it is known to be empty, the runs give way to it. -/
theorem compactRuns_of_written (hg : Among d place c.generation runs)
    (hlayers : c.hasLayers = true) {name : Option Nat}
    (hwrite : c.generation.writeMerged c.buffers c.activeId c.flushing d = (.ok name, d'))
    (houtcome : MergeOutcome d c.generation.dir place c.generation.mergedId merged
      (.ok name, d')) : SwapOutcome place c d merged (compactRuns c d) := by
  rw [compactRuns_of_hasLayers hlayers, StateProgram.bind_of_ok (onDisk_eq hwrite)]
  cases houtcome with
  | written hchanges hnode himage hne =>
    exact afterMerge_spec hg (.of_written hchanges hnode himage hne) (by rw [if_neg hne])
  | nothing hchanges hgone hempty =>
    exact afterMerge_spec hg (.of_nothing hchanges hgone hempty) (by rw [if_pos hempty])

/-- A compaction merges the layers and has the runs give way to the merge, or it fails on the way
and leaves the folder as `CompactionOutcome` says. -/
theorem compactRuns_spec (hg : Among d place c.generation runs) (hlayers : c.hasLayers = true)
    (hfree : d.node? ((mergedName c.generation).placeIn place) ≠ some .folder) :
    ∃ merged, Ascending bytewise merged ∧
      (∀ e, e ∈ merged ↔ overlay ((rankedLayers c.buffers c.activeId c.flushing runs).map Prod.snd)
        e.key = some e ∧ e.isTombstone = false) ∧
      CompactionOutcome place c d merged (compactRuns c d) := by
  obtain ⟨merged, hasc, hmem, houtcome⟩ := writeMerged_spec c.buffers
    c.activeId c.flushing hg.roomy hg.folder hg.sound hg.live
    hg.blockSize_le hg.mergedId_lt (hg.stands.imp fun _ _ h => h.toShows) hg.numbered hfree
    fun run hrun => hg.apart hrun
  refine ⟨merged, hasc, hmem, ?_⟩
  cases hwrite : c.generation.writeMerged c.buffers c.activeId c.flushing d with
  | mk r d₁ =>
    rw [hwrite] at houtcome
    cases r with
    | error e =>
      rw [compactRuns_of_unwritten hlayers hwrite]
      exact .unwritten houtcome
    | ok id => exact .merged (compactRuns_of_written hg hlayers hwrite houtcome)

end Core

end LayeredStore
