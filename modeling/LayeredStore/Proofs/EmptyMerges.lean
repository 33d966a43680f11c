import LayeredStore.Proofs.TornRuns

/-!
# Compactions that leave nothing

If no entry is live, a compaction removes the runs and puts nothing in their place, so that nothing
tells a later process that it was under way. What a process finds after a crash are the newest of
the runs, as many as were left (`Core.keeps_newest_runs`). They may contain what older runs had
deleted: `crash_keeps_part_of_runs`.
-/

namespace LayeredStore

open Disk Generation

variable {d d' : Disk} {dir place : Path} {runs : List (Nat × List Entry)} {c : Core}

/-! ## The file of an empty run -/

/-- A file that is there after an attempt to remove it is what it was. -/
theorem Disk.FolderAt.kept_of_remove (h : d.FolderAt dir place) {name : String}
    (hname : dir.Admits name) {id : Nat}
    (hthere : (remove (dir.child name) d).2.node? (place ++ [name]) = some (.file id)) :
    d.node? (place ++ [name]) = some (.file id) ∧ (remove (dir.child name) d).2.file id = d.file id := by
  rcases h.remove_child hname with ⟨file, hremove, -⟩ | ⟨e, d', hremove, hstill, -⟩
  · rw [hremove, node?_erase _ (append_singleton_ne_nil place name), if_pos rfl] at hthere
    cases hthere
  · rw [hremove] at hthere ⊢
    exact ⟨by rw [← hstill.node?, hthere], hstill.file id⟩

namespace RunWriter

/-- Bytes for which there is room are gathered. -/
theorem emit_of_room {w : RunWriter} {b : Bytes}
    (hroom : w.pending.length + b.length < gatherLimit) :
    w.emit b d = (.ok { w with pending := w.pending.push b }, d) := by
  have hfits : ¬ gatherLimit < w.pending.length + b.length := by omega
  have hshort : ¬ gatherLimit ≤ b.length := by omega
  rw [emit, if_neg hfits]
  show (if gatherLimit ≤ b.length then _ else _ : DiskM IoFailure RunWriter) d = _
  rw [if_neg hshort]
  rfl

/-- The last bytes of a run without entries go out in one write. -/
theorem finish_tail {w : RunWriter} (hpending : w.pending = .empty) (hoffset : w.offset = 0)
    (hcount : w.count = 0) (hindex : w.index = []) :
    (do
      let v ← w.emit w.index.encode
      let v ← v.emit (footer v.offset v.count w.index.encode)
      v.flush : DiskM IoFailure RunWriter) d = (do
        let handle ← Disk.write w.handle (RunImage.bytes [])
        return { w with handle, pending := .empty } : DiskM IoFailure RunWriter) d := by
  have hbytes : RunImage.bytes [] = Index.encode [] ++ footer w.offset w.count (Index.encode []) := by
    rw [hoffset, hcount]
    rfl
  rw [hindex, DiskM.bind_of_ok (emit_of_room (by rw [hpending]; decide)),
    DiskM.bind_of_ok (emit_of_room (by
      rw [RunImage.length_footer, hpending]
      show 0 + 24 < 8192
      decide)), flush, if_neg, hbytes]
  · simp only [Pieces.bytes_push, hpending, Pieces.bytes_empty, List.nil_append]
  · simp [Pieces.isEmpty, Pieces.push, RunImage.length_footer, footerLength]

/-- As much of a run without entries as reaches its file is the front of what should. -/
theorem content_finish_new (path : Path) {handle : Handle} (blockSize : Nat)
    (hlt : handle.file < d.files.size) (hposition : handle.position = 0)
    (hempty : (d.file handle.file).content = []) (sync : Bool) :
    ((finish ⟨path, handle, .empty, [], {}, none, none, 0, blockSize, 0⟩ sync d).2.file
      handle.file).content <+: RunImage.bytes [] := by
  have hcontent : ((Disk.write handle (RunImage.bytes []) d).2.file handle.file).content <+:
      RunImage.bytes [] := by
    rw [write_eq]
    cases d.faults d.clock with
    | none =>
      show ((d.ticked.alter handle.file _).file handle.file).content <+: _
      rw [file_alter_self d.ticked hlt]
      simp [hempty, hposition, File.overwritten]
    | some fault =>
      show ((d.ticked.alter handle.file _).file handle.file).content <+: _
      rw [file_alter_self d.ticked hlt]
      simp [hempty, hposition, File.overwritten, List.take_prefix]
  have htail := finish_tail (d := d) (w := ⟨path, handle, .empty, [], {}, none, none, 0, blockSize, 0⟩)
    rfl rfl rfl rfl
  have hclose : RunWriter.closeBlock ⟨path, handle, .empty, [], {}, none, none, 0, blockSize, 0⟩ d =
      (.ok ⟨path, handle, .empty, [], {}, none, none, 0, blockSize, 0⟩, d) := rfl
  rw [finish, DiskM.bind_of_ok hclose]
  cases hwrite : Disk.write handle (RunImage.bytes []) d with
  | mk r d' =>
    rw [hwrite] at hcontent
    cases r with
    | error e =>
      rw [DiskM.bind_of_error (DiskM.writing_of_error _ (htail.trans (DiskM.bind_of_error hwrite)))]
      exact hcontent
    | ok h =>
      rw [DiskM.bind_of_ok (DiskM.writing_of_ok _ (htail.trans (DiskM.bind_of_ok hwrite)))]
      cases sync with
      | false => exact hcontent
      | true =>
        rcases syncFile_eq h d' with hsync | ⟨e, hsync, -⟩
        · rw [if_pos rfl, DiskM.bind_of_ok (DiskM.writing_of_ok _ hsync)]
          exact hcontent
        · rw [if_pos rfl, DiskM.bind_of_error (DiskM.writing_of_error _ hsync)]
          exact hcontent

end RunWriter

variable {σ : Type} {p : Feed σ} {s : σ}

/-- When a stream that gives nothing is written, what is found under the name of the run is the front
of a run without entries. -/
theorem content_writeRunFrom_nil (hfolder : d.FolderAt dir place) {name : String}
    (hname : dir.Admits name) (hsound : d.Sound) (hfree : d.node? (place ++ [name]) = none)
    (hgives : Pull.Gives (fun i : { d' : Disk // ChangesAt (place ++ [name]) d d' } => p.on i.1) s [])
    (blockSize : Nat) (sync : Bool) (id : Nat)
    (hthere : (writeRunFrom (dir.child name) p s blockSize sync d).2.node? (place ++ [name]) =
      some (.file id)) :
    ((writeRunFrom (dir.child name) p s blockSize sync d).2.file id).content <+:
      RunImage.bytes [] := by
  rw [writeRunFrom] at hthere ⊢
  rcases hfolder.create_child hname hsound with
    ⟨handle, d₁, hcreate, hchanges, hnode, hposition, hempty, -⟩ | ⟨e, d₁, hcreate, hstill, -⟩
  swap
  · -- nothing was made, so that nothing is there
    have hcreate' : RunWriter.create (dir.child name) blockSize d =
        (.error (.write "run file" e), d₁) :=
      DiskM.bind_of_error (DiskM.writing_of_error _ hcreate)
    rw [DiskM.tryCatch_of_error (DiskM.bind_of_error hcreate')] at hthere
    have hkept := ((hfolder.evolves hstill.evolves).kept_of_remove hname hthere).1
    rw [hstill.node?, hfree] at hkept
    cases hkept
  have hcreate' : RunWriter.create (dir.child name) blockSize d = (.ok ⟨dir.child name, handle,
      .empty, [], {}, none, none, 0, max blockSize 1, 0⟩, d₁) :=
    DiskM.bind_of_ok (DiskM.writing_of_ok _ hcreate)
  have hlt : handle.file < d₁.files.size := (hchanges.sound hsound).lt_size hnode
  have hcontent := RunWriter.content_finish_new (dir.child name) (max blockSize 1) hlt hposition
    hempty sync
  have hdone : (⟨dir.child name, handle, .empty, [], {}, none, none, 0, max blockSize 1,
      0⟩ : RunWriter).addAll p sync s d₁ = _ := RunWriter.addAll_of_done (hgives.nil ⟨d₁, hchanges⟩)
  have hwrote : RunWriter.Wrote ⟨dir.child name, handle, .empty, [], {}, none, none, 0,
      max blockSize 1, 0⟩ d₁ [] [] := .new hlt hposition hempty
  rcases hwrote.finish sync with ⟨d₂, hfinish, hwrites, -⟩ | ⟨e, d₂, hfinish, hwrites, -⟩
  · rw [RunWriter.orAbandon_of_ok hfinish] at hdone
    rw [hfinish] at hcontent
    rw [DiskM.tryCatch_of_ok ((DiskM.bind_of_ok hcreate').trans hdone)] at hthere ⊢
    rw [hwrites.node?, hnode] at hthere
    cases hthere
    exact hcontent
  · rw [RunWriter.orAbandon_of_error hfinish] at hdone
    rw [hfinish] at hcontent
    rw [DiskM.tryCatch_of_error ((DiskM.bind_of_ok hcreate').trans hdone)] at hthere ⊢
    have hfolder₂ := hfolder.evolves (hchanges.toEvolves.trans hwrites.evolves)
    obtain ⟨hkept, hfile⟩ := hfolder₂.kept_of_remove hname hthere
    rw [hwrites.node?, hnode] at hkept
    cases hkept
    rw [← hfile] at hcontent
    exact hcontent

/-! ## What is left of a compaction without live entries -/

/-- No entry is live in some layers, newest first. -/
def NothingLive (layers : List (List Entry)) : Prop :=
  ∀ key e, overlay layers key = some e → e.isTombstone = true

theorem nothingLive_iff {layers : List (List Entry)} : NothingLive layers ↔
    ∀ layer ∈ layers, ∀ e ∈ layer, (overlay layers e.key).all Entry.isTombstone = true := by
  constructor
  · intro h layer _ e _
    cases hoverlay : overlay layers e.key with
    | none => rfl
    | some newest => exact h e.key newest hoverlay
  · intro h key e hoverlay
    obtain ⟨layer, hlayer, hentry⟩ := List.exists_of_findSome?_eq_some hoverlay
    have hall := h layer hlayer e (mem_of_entryOf hentry)
    rw [key_of_entryOf hentry, hoverlay] at hall
    exact hall

instance (layers : List (List Entry)) : Decidable (NothingLive layers) :=
  decidable_of_iff _ nothingLive_iff.symm

/-- A merge of layers without live entries has no entries. -/
theorem NothingLive.merged_eq_nil {layers : List (List Entry)} (h : NothingLive layers)
    {merged : List Entry}
    (hmem : ∀ e, e ∈ merged ↔ overlay layers e.key = some e ∧ e.isTombstone = false) :
    merged = [] := by
  rw [List.eq_nil_iff_forall_not_mem]
  intro e he
  obtain ⟨hoverlay, hlive⟩ := (hmem e).mp he
  rw [h e.key e hoverlay] at hlive
  cases hlive

namespace Core

/-- What is found under the name of a merge without live entries is the front of a run without
entries. -/
theorem content_merge_nil (h : c.AtRest d place runs)
    (hnone : NothingLive (c.layers runs))
    (id : Nat) (hthere : (c.generation.writeMerged c.buffers c.activeId c.flushing d).2.node?
      ((mergedName c.generation).placeIn place) = some (.file id)) :
    ((c.generation.writeMerged c.buffers c.activeId c.flushing d).2.file id).content <+:
      RunImage.bytes [] := by
  have hid := h.toMirrors.mergedId_lt
  have hname : c.generation.dir.Admits (mergedName c.generation).text := h.roomy.admits hid
  obtain ⟨merged, hasc, hmem, hgives⟩ := merge_gives c.buffers c.activeId c.flushing
    (h.stands.imp fun _ _ hrun => hrun.toShows) h.toMirrors.numbered
    fun run hrun => h.toMirrors.apart hrun
  obtain rfl : merged = [] := hnone.merged_eq_nil (c.layers_eq runs ▸ hmem)
  have hfree : d.node? (place ++ [(RunName.mk .merged c.generation.mergedId).text]) = none :=
    h.noMerge hid
  have hname : c.generation.dir.Admits (RunName.mk .merged c.generation.mergedId).text := hname
  have hwrote {id : Nat} := content_writeRunFrom_nil h.folder hname h.sound hfree hgives
    c.generation.blockSize c.generation.syncWrites id
  rw [writeMerged_of_live h.live, RunName.path] at hthere ⊢
  cases hrun : writeRunFrom (c.generation.dir.child (RunName.mk .merged c.generation.mergedId).text)
      (Scan.feed bytewise c.buffers) (c.generation.scanAll c.buffers d c.activeId c.flushing)
      c.generation.blockSize c.generation.syncWrites d with
  | mk r d₁ =>
    rw [hrun] at hwrote
    cases r with
    | error e =>
      rw [DiskM.bind_of_error hrun] at hthere ⊢
      exact hwrote hthere
    | ok count =>
      rw [DiskM.bind_of_ok hrun] at hthere ⊢
      by_cases hcount : count = 0
      swap
      · rw [if_neg hcount] at hthere ⊢
        exact hwrote hthere
      rw [if_pos hcount] at hthere ⊢
      have hfolder₁ : d₁.FolderAt c.generation.dir place := by
        rcases writeRunFrom_spec (p := Scan.feed bytewise c.buffers) h.folder hname h.sound
            (by simp [hfree]) hgives h.blockSize_le c.generation.syncWrites with
          ⟨_, d₂, _, heq, hchanges, -⟩ | ⟨e, _, d₂, heq, -⟩
        · rw [hrun] at heq
          cases heq
          exact h.folder.evolves hchanges.toEvolves
        · rw [hrun] at heq
          cases heq
      rw [DiskM.disk_of_plainly_return] at hthere ⊢
      obtain ⟨hkept, hfile⟩ := hfolder₁.kept_of_remove hname hthere
      rw [hfile]
      exact hwrote hkept

/-- Whatever is found under the name of a merge without live entries has none if it opens. -/
theorem isImage_of_opens (h : c.AtRest d place runs)
    (hnone : NothingLive (c.layers runs))
    (hwrite : c.generation.writeMerged c.buffers c.activeId c.flushing d = (r, d'))
    (hworks : Works place d d') {file : Nat}
    (hnode : d'.node? ((mergedName c.generation).placeIn place) = some (.file file))
    (hopens : c.mergeOpens d' = true) : IsImage (d'.file file).content [] := by
  have hpart := content_merge_nil h hnone file (by rw [hwrite]; exact hnode)
  rw [hwrite] at hpart
  have honce : MagicOnlyAtEnd (RunImage.bytes []) := by decide
  suffices hwhole : (d'.file file).content = RunImage.bytes [] by
    exact ⟨[], ⟨by simp [Ascending], by simp, by simp, by simp⟩, rfl, hwhole⟩
  by_contra hne
  have hlt : (d'.file file).content.length < (RunImage.bytes []).length :=
    lt_of_le_of_ne hpart.length_le fun heq => hne (hpart.eq_of_length heq)
  obtain ⟨e, hparse⟩ := RunFile.parse_take_error honce hlt
    ((mergedName c.generation).path c.generation.dir) file
  rw [Core.openAt_merge h hworks hnode, List.prefix_iff_eq_take.mp hpart, hparse] at hopens
  cases hopens

/-- While the runs give way to nothing, the newest of them are left, as many as were not removed. -/
theorem recoverable_of_emptied (h : c.AtRest d place runs) (htruthful : d.Truthful)
    {result : Except StoreError Unit × Core} (hswap : SwapOutcome place c d [] (result, d'))
    (hsmall : ∀ file, (d'.file file).content.length < positionLimit) :
    ∃ kept, kept <:+ runs ∧ Recoverable d' c.generation.dir place kept := by
  have hid := h.toMirrors.mergedId_lt
  have hidLt : ∀ run ∈ c.generation.runs, run.id < RunName.idLimit := fun run hrun =>
    h.toMirrors.id_lt hrun
  -- once all runs have been removed, none is left
  have hsettled {d₁ : Disk} (hswapped : Swapped place c.generation [] d d₁)
      (hstill : d₁.Still d') : Recoverable d' c.generation.dir place [] := by
    have hruns := hswapped.holdsRuns h.toMirrors htruthful.not_misled fun file => by
      rw [← hstill.file]
      exact hsmall file
    exact (h.hasRunsOnly.withoutMerge (hswapped.works h.sound hid hidLt) hruns hswapped.merge_gone
      (hswapped.node?_other hid hidLt)).stands.still hstill
  cases hswap with
  | unread hswapped hstill _ => exact ⟨[], List.nil_suffix, hsettled hswapped hstill⟩
  | done hswapped hstill hload =>
    exact ⟨[], List.nil_suffix,
      hsettled hswapped (hstill.trans (Generation.still_of_load hload))⟩
  | @halfway e lost rest d₁ _ hsplit hthinned hgone hstill _ _ =>
    have hlostLt : ∀ run ∈ lost, run.id < RunName.idLimit := fun run hrun =>
      hidLt run (hsplit ▸ List.mem_append_left rest hrun)
    have hruns := hthinned.holdsRuns h.toMirrors hsplit (hgone.resolve_right htruthful.not_misled)
    exact ⟨_, List.drop_suffix _ _, (h.hasRunsOnly.withoutMerge (hthinned.works h.sound hid hlostLt) hruns
      (hthinned.no_merge rfl) (hthinned.node?_other hid hlostLt)).stands.still hstill⟩

/-- A compaction that leaves nothing may stop at any operation, and so may any number of recoveries
after it. What is found are the newest of the runs that were there before, as many as were left. -/
theorem keeps_newest_runs (h : c.AtRest d place runs)
    (hnone : NothingLive (c.layers runs))
    {plan : Nat → Option Fault} (htruthful : (d.startedWith plan).Truthful)
    (hsmall : ∀ file, ((c.crashed d plan).file file).content.length < positionLimit)
    {plans : List (Nat → Option Fault)} (hplans : ∀ plan ∈ plans, StopsForGood plan) :
    ∃ kept entries, kept <:+ runs ∧ c.foundAfter d plan plans = some (entries.map .ok) ∧
      IsLiveOverlay (kept.reverse.map Prod.snd) entries := by
  have h₀ := h.startedWith plan
  -- what the folder stands for when the process has stopped
  have hfound {kept : List (Nat × List Entry)} (hsuffix : kept <:+ runs)
      (hrecoverable : Recoverable (c.crashed d plan) c.generation.dir place kept) :
      ∃ kept entries, kept <:+ runs ∧ c.foundAfter d plan plans = some (entries.map .ok) ∧
        IsLiveOverlay (kept.reverse.map Prod.snd) entries := by
    obtain ⟨entries, hfound, hentries⟩ := Core.foundAfter_eq h hplans hrecoverable
      (h.toMirrors.numbered.suffix hsuffix)
    exact ⟨kept, entries, hsuffix, hfound, hentries⟩
  by_cases hlayers : c.hasLayers = true
  swap
  · have hcrashed : c.crashed d plan = d.startedWith plan := by
      rw [crashed, Core.compactRuns_of_not (by simpa using hlayers)]
    exact hfound (List.suffix_refl _) (hcrashed ▸ h₀.hasRunsOnly.stands)
  obtain ⟨merged, hmerge, houtcome⟩ := Core.crashed_spec h hlayers plan
  obtain rfl : merged = [] := hnone.merged_eq_nil hmerge.2
  rcases houtcome with ⟨e, -, hwrite, hunwritten⟩ | ⟨-, result, hswap⟩
  swap
  · obtain ⟨kept, hsuffix, hrecoverable⟩ := recoverable_of_emptied h₀ htruthful hswap hsmall
    exact hfound hsuffix hrecoverable
  have hid := h₀.toMirrors.mergedId_lt
  have hworks := (hunwritten.changesAt h₀.folder (h₀.roomy.admits hid)).1.works h₀.sound
    (isRunPlace (mergedName c.generation) hid place)
  have hrecoverable := Core.recoverable_of_unwritten h₀ hunwritten hsmall fun file hnode hopens =>
    isImage_of_opens h₀ hnone hwrite hworks hnode hopens
  cases hopens : c.mergeOpens (c.crashed d plan) with
  | false =>
    rw [hopens, if_neg (by simp)] at hrecoverable
    exact hfound (List.suffix_refl _) hrecoverable
  | true =>
    -- the file of a run without entries came into the place of the runs
    rw [hopens, if_pos rfl] at hrecoverable
    obtain ⟨entries, hfound, hentries⟩ := Core.foundAfter_eq h hplans hrecoverable
      ⟨by simp, by simpa using h.toMirrors.mergedId_lt_flushingRank⟩
    exact ⟨[], entries, List.nil_suffix, hfound, hentries⟩

end Core

/-- Two runs of one entry each, both of which have been deleted since. -/
def deletedRuns : List Event :=
  [.upsert (.put [1] [10]), .flush, .runNext, .upsert (.put [2] [20]), .flush, .runNext,
    .upsert (.tombstone [1]), .upsert (.tombstone [2])]

/-- The compaction stops between the two removals. -/
theorem deletedRuns_keeps_newest_runs :
    ∃ kept entries, kept <:+ runEntries ((Layers.initial 64).run deletedRuns).runs ∧
      (newSession.run deletedRuns).store.core.foundAfter (newSession.run deletedRuns).disk
        (stopsAfter 4) [stopsAfter 1] = some (entries.map .ok) ∧
      IsLiveOverlay (kept.reverse.map Prod.snd) entries := by
  obtain ⟨place, hdescribes⟩ := newSession_startsIn.describes
    (show newSession.Fits smallConfig.dir deletedRuns by decide +kernel)
  have hrest := hdescribes.atRest (by decide +kernel) (Layers.left_run rfl _)
  obtain ⟨hnone, hsmall⟩ : NothingLive ((newSession.run deletedRuns).store.core.layers
        (runEntries ((Layers.initial 64).run deletedRuns).runs)) ∧
      ∀ id < ((newSession.run deletedRuns).store.core.crashed (newSession.run deletedRuns).disk
          (stopsAfter 4)).files.size,
        (((newSession.run deletedRuns).store.core.crashed (newSession.run deletedRuns).disk
          (stopsAfter 4)).file id).content.length < positionLimit := by decide +kernel
  exact Core.keeps_newest_runs hrest hnone (truthful_stopsAfter 4 _) (lengths_iff.mpr hsmall)
    (stopsForGood_of_singleton 1)

/-- After a crash between the two removals one of the runs is left, so that what is found is neither
what both runs had, nor nothing, which is what all layers have. -/
theorem crash_keeps_part_of_runs :
    (newSession.run deletedRuns).store.core.foundAfter (newSession.run deletedRuns).disk
        (stopsAfter 4) [] = some ([.put [2] [20]].map .ok) ∧
      NothingLive ((newSession.run deletedRuns).store.core.layers
        (runEntries ((Layers.initial 64).run deletedRuns).runs)) ∧
      (newSession.run deletedRuns).store.core.generation.contents (newSession.run deletedRuns).disk =
        [.put [1] [10], .put [2] [20]].map .ok := by
  decide +kernel

end LayeredStore
