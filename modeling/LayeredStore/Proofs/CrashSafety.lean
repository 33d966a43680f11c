import LayeredStore.Proofs.Recovering

/-!
# Crashes during a compaction

A process that compacts a folder may stop at any of its file operations, and so may every process
that then tries to recover the folder. A process that stops is one that is run under a plan of
faults that strikes every operation from some moment on (`StopsForGood`). A write that is struck
may leave a part of its bytes behind.

* `Core.recoverable_of_unwritten`, `Core.recoverable_of_written` : what the folder stands for when
  the process has stopped before or after the merge was complete.
* `Recoverable.afterRecoveries` : recoveries that are stopped too do not change that.
* `Generation.openIn_contents` : the first process that is not stopped finds what the folder
  stands for.
-/

namespace LayeredStore

open Disk Generation

variable {d d' : Disk} {dir place : Path} {runs : List (Nat × List Entry)} {c : Core}

/-! ## Processes that stop -/

/-- A plan under which no operation works any more once a fault has struck. -/
def StopsForGood (plan : Nat → Option Fault) : Prop :=
  ∀ n m, n ≤ m → plan n ≠ none → plan m ≠ none

/-- The disk as a new process finds it, its operations being struck as planned. -/
def Disk.startedWith (d : Disk) (plan : Nat → Option Fault) : Disk :=
  { d with clock := 0, faults := plan }

/-- The plan in which nothing fails. -/
def noFaults : Nat → Option Fault := fun _ => none

theorem halting_startedWith {plan : Nat → Option Fault} (h : StopsForGood plan) (d : Disk) :
    (d.startedWith plan).Halting := fun n m _ hle hfault => h n m hle hfault

theorem faultless_startedWith (d : Disk) : (d.startedWith noFaults).Faultless := fun _ _ => rfl

/-! ## The same tree under another plan -/

@[simp] theorem node?_startedWith (d : Disk) (plan : Nat → Option Fault) (place : Path) :
    (d.startedWith plan).node? place = d.node? place := rfl

@[simp] theorem file_startedWith (d : Disk) (plan : Nat → Option Fault) (id : Nat) :
    (d.startedWith plan).file id = d.file id := rfl

theorem Disk.FolderAt.startedWith (h : d.FolderAt dir place) (plan : Nat → Option Fault) :
    (d.startedWith plan).FolderAt dir place := by
  have hfolders {q : Path} (hq : d.node? q = some .folder) :
      (d.startedWith plan).node? q = some .folder := hq
  exact folderAt_iff.mpr ⟨h.check, follow_mono hfolders h.follow⟩

theorem Disk.Sound.startedWith (h : d.Sound) (plan : Nat → Option Fault) :
    (d.startedWith plan).Sound := h.congr rfl (Nat.le_refl _)

theorem Disk.HoldsRuns.startedWith (h : d.HoldsRuns place runs) (plan : Nat → Option Fault) :
    (d.startedWith plan).HoldsRuns place runs := h.congr (fun _ => rfl) fun _ _ => rfl

theorem Generation.Mirrors.startedWith {g : Generation} (h : Mirrors d place g runs)
    (plan : Nat → Option Fault) : Mirrors (d.startedWith plan) place g runs where
  live := h.live
  blockSize_le := h.blockSize_le
  roomy := h.roomy
  folder := h.folder.startedWith plan
  sound := h.sound.startedWith plan
  holds := h.holds.startedWith plan
  stands := h.stands.imp fun _ _ hrun => ⟨⟨hrun.id_eq, hrun.lt_size, hrun.reads⟩, hrun.path_eq,
    hrun.node⟩
  lt_flushingRank := h.lt_flushingRank

theorem Recoverable.startedWith {contents : List (Nat × List Entry)}
    (h : Recoverable d dir place contents) (plan : Nat → Option Fault) :
    Recoverable (d.startedWith plan) dir place contents where
  folder := h.folder.startedWith plan
  sound := h.sound.startedWith plan
  tidy := h.tidy
  notFolder := h.notFolder
  stands := by
    obtain ⟨runs, left, hruns, hleft, hsettled⟩ := h.stands
    exact ⟨runs, left, hruns.startedWith plan, hleft.congr (fun _ => rfl) (fun _ _ => rfl), hsettled⟩

/-! ## What a folder and a store contain -/

/-- The live entries of the runs of a generation. -/
def Generation.contents (g : Generation) (d : Disk) : List Item :=
  ((Scan.feed bytewise fun _ => .empty).on d).toList
    (Scan.ofSources bytewise (fun _ => .empty) d (g.runSources d .all))

/-- The layers of a core whose runs have some entries, newest first. -/
def Core.layers (c : Core) (runs : List (Nat × List Entry)) : List (List Entry) :=
  c.active.entries ::
    ((c.flushingBuffer?.map Buffer.entries).toList ++ runs.reverse.map Prod.snd)

theorem Core.layers_eq (c : Core) (runs : List (Nat × List Entry)) :
    (rankedLayers c.buffers c.activeId c.flushing runs).map Prod.snd = c.layers runs := by
  have hactive : c.buffers c.activeId = c.active := if_pos rfl
  rw [rankedLayers, layers, hactive, flushingBuffer?]
  cases c.flushing <;> simp

/-- The live entries of some layers, newest first. -/
def IsLiveOverlay (layers : List (List Entry)) (entries : List Entry) : Prop :=
  Ascending bytewise entries ∧
    ∀ e, e ∈ entries ↔ overlay layers e.key = some e ∧ e.isTombstone = false

theorem IsLiveOverlay.unique {layers : List (List Entry)} {entries others : List Entry}
    (h : IsLiveOverlay layers entries) (h' : IsLiveOverlay layers others) : entries = others :=
  h.1.ext h'.1 fun e => (h.2 e).trans (h'.2 e).symm

theorem Generation.contents_eq {g : Generation} (hshows : List.Forall₂ (Run.Shows d) g.runs runs)
    (hnumbered : Numbered runs) :
    ∃ entries, g.contents d = entries.map .ok ∧
      IsLiveOverlay (runs.reverse.map Prod.snd) entries := by
  have hreads : g.Reads (fun _ : Unit => d) runs :=
    hshows.imp fun _ _ hrun => ⟨hrun.id_eq, hrun.reads _ fun _ => rfl⟩
  have hperm := (List.reverse_perm runs).symm
  have hdesc := List.pairwise_reverse.mpr hnumbered.ascending
  have hnodup : (runs.reverse.map Prod.fst).Nodup :=
    (hperm.map Prod.fst).nodup_iff.mp hnumbered.distinct
  have hasc : ∀ r ∈ runs.reverse, Ascending bytewise r.2 := fun r hr =>
    hreads.ascending r (List.mem_reverse.mp hr)
  obtain ⟨scan, hscan, hgives⟩ := hreads.gives_scan (fun _ => .empty) [] hperm hnodup .all
  rw [KeyRange.cut_all] at hgives
  refine ⟨_, ?_, (ascending_recencyMerge hasc hnodup).live, fun e => ?_⟩
  · have hlist := hgives.live_map.toList_eq ()
    rw [← hscan ()] at hlist
    exact hlist
  · rw [mem_liveEntries, mem_recencyMerge_iff_overlay (.refl _) hdesc hasc]

/-! ## The crash -/

/-- A generation is live, the run files of the folder are its runs, and beside them there are at
most unfinished runs. -/
structure Core.AtRest (c : Core) (d : Disk) (place : Path) (runs : List (Nat × List Entry)) :
    Prop extends Mirrors d place c.generation runs where
  dir_eq : c.config.dir = c.generation.dir
  tidy : d.Tidy place
  noMerge : ∀ {id : Nat}, id < RunName.idLimit →
    d.node? ((RunName.mk .merged id).placeIn place) = none
  notFolder : ∀ {id : Nat}, id < RunName.idLimit →
    d.node? ((RunName.mk .unfinished id).placeIn place) ≠ some .folder

/-- The disk after a compaction that was struck as planned. -/
def Core.crashed (c : Core) (d : Disk) (plan : Nat → Option Fault) : Disk :=
  (Core.compactRuns c (d.startedWith plan)).2

/-- Whether a compaction that was struck as planned had written its merge. -/
def Core.mergeWritten (c : Core) (d : Disk) (plan : Nat → Option Fault) : Bool :=
  (c.generation.writeMerged c.buffers c.activeId c.flushing
    (d.startedWith plan)).1.toOption.isSome

/-- Whether the file of the merge is there and opens as a run. -/
def Core.mergeOpens (c : Core) (d : Disk) : Bool :=
  (RunFile.openAt ((mergedName c.generation).path c.generation.dir)
    (d.startedWith noFaults)).1.toOption.isSome

/-- Whether the output of a compaction opens as a run, the disk being undisturbed. -/
def Disk.mergeOpens (d : Disk) (dir : Path) (id : Nat) : Bool :=
  (RunFile.openAt ((RunName.mk .merged id).path dir) (d.startedWith noFaults)).1.toOption.isSome

theorem Disk.mergeOpens_of_file (hfolder : d.FolderAt dir place) {id file : Nat}
    (hname : dir.Admits (RunName.mk .merged id).text)
    (hnode : d.node? ((RunName.mk .merged id).placeIn place) = some (.file file)) :
    d.mergeOpens dir id = (RunFile.parse ((RunName.mk .merged id).path dir) file
      (d.file file).content).toOption.isSome := by
  rw [mergeOpens, RunName.path]
  rcases openAt_child (hfolder.startedWith noFaults) hname hnode with hopen | ⟨e, -, hs⟩
  · rw [hopen]
    rfl
  · exact absurd hs (faultless_startedWith d).not_struck

theorem Disk.mergeOpens_of_none (hfolder : d.FolderAt dir place) {id : Nat}
    (hname : dir.Admits (RunName.mk .merged id).text)
    (hnode : d.node? ((RunName.mk .merged id).placeIn place) = none) :
    d.mergeOpens dir id = false := by
  rw [mergeOpens, RunFile.openAt, RunName.path]
  rcases (hfolder.startedWith noFaults).openRead_child hname with ⟨node, -, hthere⟩ | ⟨e, hopen, -⟩
  · rw [RunName.placeIn] at hnode
    rw [node?_startedWith, hnode] at hthere
    cases hthere
  · rw [DiskM.bind_of_error (DiskM.reading_of_error _ hopen)]
    rfl

/-- The disk after recoveries of a folder that were struck as planned. -/
def Disk.afterRecoveries (d : Disk) (dir : Path) (plans : List (Nat → Option Fault)) : Disk :=
  plans.foldl (fun d plan => (recover dir (d.startedWith plan)).2) d

/-- However often recovery is stopped, the folder stands for the same runs. -/
theorem Recoverable.afterRecoveries {contents : List (Nat × List Entry)} (hroomy : dir.Roomy)
    {plans : List (Nat → Option Fault)} (hplans : ∀ plan ∈ plans, StopsForGood plan)
    (h : Recoverable d dir place contents) :
    Recoverable (d.afterRecoveries dir plans) dir place contents := by
  induction plans generalizing d with
  | nil => exact h
  | cons plan rest ih =>
    refine ih (fun plan hplan => hplans plan (List.mem_cons_of_mem _ hplan)) ?_
    have hstart := h.startedWith plan
    show Recoverable (recover dir (d.startedWith plan)).2 dir place contents
    rcases recover_spec hroomy hstart (halting_startedWith (hplans plan List.mem_cons_self) d) with
      ⟨d', hrecover, hrelabels, hruns, hleft, hunfinished⟩ | ⟨e, d', hrecover, -, -, hafter⟩
    · rw [hrecover]
      refine ⟨hstart.folder.evolves hrelabels.toEvolves, hrelabels.sound hstart.sound,
        hrelabels.works.tidy hstart.tidy, ?_, contents, .nothing, hruns, hleft, rfl⟩
      intro id hid
      rw [hunfinished hid]
      simp
    · rw [hrecover]
      exact hafter

variable {merged : List Entry}

/-- Where no file is at the place of the merge, none opens. -/
theorem Core.mergeOpens_of_none (h : c.AtRest d place runs) (hworks : Works place d d')
    (hnode : d'.node? ((mergedName c.generation).placeIn place) = none) :
    c.mergeOpens d' = false :=
  Disk.mergeOpens_of_none (h.folder.evolves hworks.toEvolves)
    (h.roomy.admits h.toMirrors.mergedId_lt) hnode

/-- A run file at the place of the merge opens if its bytes are those of a run. -/
theorem Core.openAt_merge (h : c.AtRest d place runs) (hworks : Works place d d') {file : Nat}
    (hnode : d'.node? ((mergedName c.generation).placeIn place) = some (.file file)) :
    c.mergeOpens d' = (RunFile.parse ((mergedName c.generation).path c.generation.dir) file
      (d'.file file).content).toOption.isSome :=
  Disk.mergeOpens_of_file (h.folder.evolves hworks.toEvolves)
    (h.roomy.admits h.toMirrors.mergedId_lt) hnode

/-- Where a compaction has left no merge beside the runs, the folder has these alone. -/
theorem Disk.HasRunsOnly.withoutMerge {dir : Path} {g : Generation} (h : d.HasRunsOnly dir place runs)
    (hworks : Works place d d') {kept : List (Nat × List Entry)} (hruns : d'.HoldsRuns place kept)
    (hgone : d'.node? ((mergedName g).placeIn place) = none)
    (hother : ∀ {name : RunName}, name.id < RunName.idLimit → name.kind ≠ .finished →
      name ≠ mergedName g → d'.node? (name.placeIn place) = d.node? (name.placeIn place)) :
    d'.HasRunsOnly dir place kept where
  folder := h.folder.evolves hworks.toEvolves
  sound := hworks.sound h.sound
  tidy := hworks.tidy h.tidy
  holds := hruns
  noMerge {id} hlt := by
    by_cases heq : id = g.mergedId
    · rw [heq]
      exact hgone
    · rw [hother hlt (by simp) (by simpa [mergedName] using heq)]
      exact h.noMerge hlt
  notFolder {id} hlt := by
    rw [hother hlt (by simp) (by simp [mergedName])]
    exact h.notFolder hlt

/-- Where it has left one, the folder stands for what that makes of the runs. -/
theorem Disk.HasRunsOnly.withMerge {dir : Path} {id : Nat} (h : d.HasRunsOnly dir place runs)
    (hworks : Works place d d') {kept : List (Nat × List Entry)} (hruns : d'.HoldsRuns place kept)
    (hid : id < RunName.idLimit) {left : Leftover} (hdescribes : left.Describes d' dir place)
    (hids : left.ids = [id])
    (hother : ∀ {name : RunName}, name.id < RunName.idLimit → name.kind ≠ .finished →
      name ≠ .mk .merged id → d'.node? (name.placeIn place) = d.node? (name.placeIn place)) :
    Recoverable d' dir place (left.settled kept) := by
  refine ⟨h.folder.evolves hworks.toEvolves, hworks.sound h.sound, hworks.tidy h.tidy, ?_, kept, left,
    hruns, ⟨hdescribes, ?_, ?_⟩, rfl⟩
  · intro other hlt
    rw [hother hlt (by simp) (by simp)]
    exact h.notFolder hlt
  · intro other hmem
    rw [hids, List.mem_singleton] at hmem
    rwa [hmem]
  · intro other hlt hnot
    rw [hids, List.mem_singleton] at hnot
    rw [hother hlt (by simp) (by simpa using hnot)]
    exact h.noMerge hlt

/-- A merge that no run comes after stands for all of them. -/
theorem settled_whole_of_le {id : Nat} {entries : List Entry} {kept : List (Nat × List Entry)}
    (hle : ∀ r ∈ kept, r.1 ≤ id) : (Leftover.whole id entries).settled kept = [(id, entries)] := by
  rw [Leftover.settled, List.filter_eq_nil_iff.mpr]
  intro r hr
  simpa using hle r hr

/-- Without a merge beside it, the folder of a core has its runs alone. -/
theorem Core.AtRest.hasRunsOnly (h : c.AtRest d place runs) :
    d.HasRunsOnly c.generation.dir place runs :=
  ⟨h.folder, h.sound, h.tidy, h.holds, h.noMerge, h.notFolder⟩

/-- The merge was not complete, or nobody knows that it was: the runs have not been touched. -/
theorem Core.recoverable_of_unwritten (h : c.AtRest d place runs) {e : StoreError}
    (hmerge : MergeOutcome d c.generation.dir place c.generation.mergedId merged (.error e, d'))
    (hsmall : ∀ file, (d'.file file).content.length < positionLimit)
    (hwhole : ∀ file, d'.node? ((mergedName c.generation).placeIn place) = some (.file file) →
      c.mergeOpens d' = true → IsImage (d'.file file).content merged) :
    Recoverable d' c.generation.dir place
      (if c.mergeOpens d' then [(c.generation.mergedId, merged)] else runs) := by
  have hid := h.toMirrors.mergedId_lt
  obtain ⟨hchanges, hnotFolder⟩ := hmerge.changesAt h.folder (h.roomy.admits hid)
  have hworks := hchanges.works h.sound (isRunPlace (mergedName c.generation) hid place)
  have hother {name : RunName} (hname : name.id < RunName.idLimit) (_ : name.kind ≠ .finished)
      (hne : name ≠ mergedName c.generation) :
      d'.node? (name.placeIn place) = d.node? (name.placeIn place) :=
    hchanges.others fun heq => hne (RunName.placeIn_inj heq hname hid)
  have hruns := hmerge.holdsRuns h.toMirrors
  cases hnode : d'.node? ((mergedName c.generation).placeIn place) with
  | none =>
    rw [Core.mergeOpens_of_none h hworks hnode]
    exact (h.hasRunsOnly.withoutMerge hworks hruns hnode hother).stands
  | some node =>
    cases node with
    | folder => exact absurd hnode hnotFolder
    | file file =>
      have hparse := Core.openAt_merge h hworks hnode
      cases hopens : c.mergeOpens d' with
      | true =>
        have hdescribes : (Leftover.whole c.generation.mergedId merged).Describes d'
            c.generation.dir place := ⟨file, hnode, hwhole file hnode hopens, hsmall file⟩
        have hrecoverable := h.hasRunsOnly.withMerge hworks hruns hid hdescribes rfl hother
        rwa [settled_whole_of_le fun r hr => h.toMirrors.le_mergedId hr] at hrecoverable
      | false =>
        have hdescribes : (Leftover.broken c.generation.mergedId).Describes d'
            c.generation.dir place := by
          refine ⟨file, hnode, ?_⟩
          rw [hopens] at hparse
          cases hcontent : RunFile.parse ((mergedName c.generation).path c.generation.dir) file
              (d'.file file).content with
          | ok run => simp [hcontent, Except.toOption] at hparse
          | error e => exact ⟨e, hcontent⟩
        exact h.hasRunsOnly.withMerge hworks hruns hid hdescribes rfl hother

/-- Once the runs have given way, the merge is the only run. -/
theorem Core.AtRest.recoverable_of_swapped (h : c.AtRest d place runs) (hhalting : d.Halting)
    (hswapped : Swapped place c.generation merged d d') (hne : merged ≠ [])
    (hsmall : ∀ file, (d'.file file).content.length < positionLimit) :
    Recoverable d' c.generation.dir place [(c.generation.mergedId, merged)] := by
  have hid := h.toMirrors.mergedId_lt
  have hidLt : ∀ run ∈ c.generation.runs, run.id < RunName.idLimit := fun run hrun =>
    h.toMirrors.id_lt hrun
  -- the merge was given its name at the end, so that no fault can have struck before
  have hnot : ¬ d.Misled d' := by
    intro hmisled
    obtain ⟨n, hle, hlt, hfault⟩ := StruckBy.struck hmisled
    obtain ⟨last, hclock, halive⟩ := hswapped.alive hne
    exact hhalting n last hle (by omega) hfault halive
  have hruns := hswapped.holdsRuns h.toMirrors hnot hsmall
  rw [if_neg hne] at hruns
  exact (h.hasRunsOnly.withoutMerge (hswapped.works h.sound hid hidLt) hruns hswapped.merge_gone
    (hswapped.node?_other hid hidLt)).stands

/-- While runs are removed, the merge stands for those that are gone and for the rest. -/
theorem Core.AtRest.recoverable_of_thinned (h : c.AtRest d place runs) {lost : List Run}
    (hthinned : Thinned place c.generation lost merged d d')
    (hlost : ∀ run ∈ lost, run.id < RunName.idLimit) (hne : merged ≠ [])
    (hsmall : ∀ file, (d'.file file).content.length < positionLimit) :
    Recoverable d' c.generation.dir place [(c.generation.mergedId, merged)] := by
  have hid := h.toMirrors.mergedId_lt
  have hworks := hthinned.works h.sound hid hlost
  obtain ⟨file, hnode, himage⟩ := hthinned.merge hne
  have hruns : d'.HoldsRuns place (runs.filter fun r =>
      (d'.node? ((RunName.mk .finished r.1).placeIn place)).isSome) := by
    refine h.holds.thinned
      (fun id => (d'.node? ((RunName.mk .finished id).placeIn place)).isSome) (fun {id} hlt => ?_)
      fun {id file} hlt hthere => ?_
    · rcases hthinned.same_or_gone (RunName.placeIn_ne_of_kind (.mk .finished id)
        (mergedName c.generation) hlt hid (by simp [mergedName])) with hsame | hnone
      · rw [hsame]
        cases d.node? ((RunName.mk .finished id).placeIn place) <;> rfl
      · rw [hnone]
        rfl
    · rw [file_eq_of_files h.sound hid hthinned.files (.mk .finished id) hlt (by simp [mergedName])
        hthere]
  have hdescribes : (Leftover.whole c.generation.mergedId merged).Describes d' c.generation.dir place :=
    ⟨file, hnode, himage, hsmall file⟩
  have hrecoverable := h.hasRunsOnly.withMerge hworks hruns hid hdescribes rfl
    (hthinned.node?_other hid hlost)
  rwa [settled_whole_of_le fun r hr => h.toMirrors.le_mergedId (List.mem_of_mem_filter hr)]
    at hrecoverable

/-- The merge was complete: whatever was done with the runs, it stands for them. -/
theorem Core.recoverable_of_written (h : c.AtRest d place runs) (hhalting : d.Halting)
    {result : Except StoreError Unit × Core}
    (hswap : SwapOutcome place c d merged (result, d')) (hne : merged ≠ [])
    (hsmall : ∀ file, (d'.file file).content.length < positionLimit) :
    Recoverable d' c.generation.dir place [(c.generation.mergedId, merged)] := by
  have hsmaller {d₁ : Disk} (hstill : d₁.Still d') (file : Nat) :
      (d₁.file file).content.length < positionLimit := by
    rw [← hstill.file]
    exact hsmall file
  cases hswap with
  | unread hswapped hstill _ =>
    exact (h.recoverable_of_swapped hhalting hswapped hne (hsmaller hstill)).still hstill
  | done hswapped hstill hload =>
    have hstill' := hstill.trans (Generation.still_of_load hload)
    exact (h.recoverable_of_swapped hhalting hswapped hne (hsmaller hstill')).still hstill'
  | halfway hsplit hthinned _ hstill _ _ =>
    refine (h.recoverable_of_thinned hthinned (fun run hrun => ?_) hne (hsmaller hstill)).still hstill
    exact h.toMirrors.id_lt (hsplit ▸ List.mem_append_left _ hrun)

/-- A folder that stands for some runs is opened, and its contents are those of the runs. -/
theorem Generation.openIn_contents {config : Config} (hroomy : config.dir.Roomy)
    (h : Recoverable d config.dir place runs) (hnumbered : Numbered runs) :
    ∃ g d' entries, Generation.openIn config (d.startedWith noFaults) = (.ok g, d') ∧
      g.contents d' = entries.map .ok ∧ IsLiveOverlay (runs.reverse.map Prod.snd) entries := by
  obtain ⟨opened, d', hopen, -, -, -, -, hstands⟩ :=
    Generation.openIn_spec hroomy (h.startedWith noFaults) (faultless_startedWith d)
  obtain ⟨entries, hcontents, hlive⟩ := Generation.contents_eq
    (g := ⟨config.dir, config.blockSize, config.syncWrites, opened, true⟩)
    (hstands.imp fun _ _ hrun => hrun.toShows) hnumbered
  exact ⟨_, d', entries, hopen, hcontents, hlive⟩

theorem Core.AtRest.startedWith (h : c.AtRest d place runs) (plan : Nat → Option Fault) :
    c.AtRest (d.startedWith plan) place runs where
  toMirrors := h.toMirrors.startedWith plan
  dir_eq := h.dir_eq
  tidy := h.tidy
  noMerge := h.noMerge
  notFolder := h.notFolder

/-- Where an entry is live there is something to merge. -/
theorem Core.hasLayers_of_overlay (hg : Mirrors d place c.generation runs) {key : Bytes} {e : Entry}
    (h : overlay (c.layers runs) key = some e) : c.hasLayers = true := by
  by_contra hnot
  obtain ⟨hopened, hactive, hflushing⟩ : c.generation.runs = [] ∧ c.active.isEmpty = true ∧
      c.flushingBuffer?.any (!·.isEmpty) = false := by
    simpa [hasLayers] using hnot
  have hruns : runs = [] := by
    have hstands := hg.stands
    rw [hopened] at hstands
    cases hstands
    rfl
  have hentries : c.active.entries = [] := by
    rw [Buffer.entries_eq_nil_iff]
    exact hactive
  have hnone : overlay (c.layers runs) key = none := by
    rw [layers, hentries, hruns]
    cases hbuffer : c.flushingBuffer? with
    | none => rfl
    | some buffer =>
      have hsealed : buffer.entries = [] := by
        rw [Buffer.entries_eq_nil_iff]
        simpa [hbuffer] using hflushing
      simp [hsealed, overlay_cons, entryOf]
  rw [hnone] at h
  cases h

/-- A merge can take the place of the lower of the layers, whether the upper ones are left or not. -/
theorem IsLiveOverlay.folded {upper lower : List (List Entry)} {entries : List Entry}
    (h : IsLiveOverlay (upper ++ lower) entries) : IsLiveOverlay (upper ++ [entries]) entries := by
  refine ⟨h.1, fun e => ?_⟩
  have hmem := h.2 e
  rw [overlay_append] at hmem
  rw [overlay_append]
  cases hupper : overlay upper e.key with
  | some newer => rwa [hupper] at hmem
  | none =>
    have hsingle : (none <|> overlay [entries] e.key) = entryOf entries e.key := by
      rw [overlay_cons, overlay_nil]
      cases entryOf entries e.key <;> rfl
    rw [hsingle, entryOf_eq_some_iff h.1]
    exact ⟨fun he => ⟨he, (hmem.mp he).2⟩, And.left⟩

/-- A merge has the live entries of which it consists. -/
theorem isLiveOverlay_singleton {layers : List (List Entry)} {entries : List Entry}
    (h : IsLiveOverlay layers entries) : IsLiveOverlay [entries] entries :=
  @IsLiveOverlay.folded [] layers entries h

end LayeredStore
