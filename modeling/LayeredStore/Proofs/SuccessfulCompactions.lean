import LayeredStore.Proofs.Crashes
import LayeredStore.Proofs.Snapshots

/-!
# Compactions that succeed

A compaction that succeeds leaves one run, or none if no entry is live, and it leaves everything
else alone. `Core.CompactedTo` says so of the folder, of the core and of what is read, and
`compaction_merges_layers` that it is so.

The buffers are merged into the run and stay where they are, above it. That changes nothing of what
is read, as the live entries of all layers are also those of the buffers over the merge
(`IsLiveOverlay.folded`), and whatever is read of a store is found in its live entries
(`Store.Snapshot.reads_eq`).
-/

namespace LayeredStore

open Disk Generation

variable {d d' : Disk} {place : Path} {runs kept : List (Nat × List Entry)} {c c' : Core}
  {s s' : Store} {merged : List Entry}

/-! ## Stores with the same live entries -/

/-- The merge of a store has the live entries of its layers. -/
theorem Store.Snapshot.isLiveOverlay (h : s.Snapshot d runs) (hnumbered : Numbered runs) :
    IsLiveOverlay (s.core.layers runs) (liveEntries (s.merged runs)) := by
  refine ⟨h.ascending_merged.live, fun e => ?_⟩
  rw [mem_liveEntries, Store.merged, mem_recencyMerge_iff_overlay (.refl _)
    (hnumbered.pairwise_rankedLayers _ _ _) h.ascending_layers, Core.layers_eq]

/-- What is read of a store is found in its live entries. -/
theorem Store.Snapshot.reads_eq (h : s.Snapshot d runs) (h' : s'.Snapshot d' kept)
    (hlive : liveEntries (s'.merged kept) = liveEntries (s.merged runs)) :
    (∀ key, s'.get d' key = s.get d key) ∧ ∀ range, s'.entries d' range = s.entries d range := by
  refine ⟨fun key => ?_, fun range => ?_⟩
  · rw [h.get_eq, h'.get_eq, hlive]
  · rw [h.entries_eq, h'.entries_eq, hlive]

/-! ## The folder of a core -/

/-- The run files of a folder are the runs of a core's generation, which was loaded with the
settings of the core, and there is no merge beside them. -/
structure Core.HasFolder (c : Core) (d : Disk) (place : Path) (runs : List (Nat × List Entry)) :
    Prop extends Mirrors d place c.generation runs where
  dir_eq : c.config.dir = c.generation.dir
  blockSize_eq : c.config.blockSize = c.generation.blockSize
  tidy : d.TidyOf place .finished
  noMerge : ∀ {id : Nat}, id < RunName.idLimit →
    d.node? ((RunName.mk .merged id).placeIn place) = none

namespace Core

theorem AtRest.hasFolder (h : c.AtRest d place runs)
    (hblock : c.config.blockSize = c.generation.blockSize) : c.HasFolder d place runs :=
  ⟨h.toMirrors, h.dir_eq, hblock, Tidy.of h.tidy .finished, h.noMerge⟩

/-- A core whose generation was just loaded has the folder for itself. -/
theorem hasFolder_of_load (hroomy : c.config.dir.Roomy) (hblock : c.config.blockSize ≤ UInt32.size)
    (hfolder : d.FolderAt c.config.dir place) (hsound : d.Sound)
    (htidy : d.TidyOf place .finished) (hruns : d.HoldsRuns place runs) (hnumbered : Numbered runs)
    (hnone : ∀ {id : Nat}, id < RunName.idLimit →
      d.node? ((RunName.mk .merged id).placeIn place) = none)
    (hload : Generation.load c.config d = (.ok c.generation, d')) : c.HasFolder d' place runs := by
  rcases Generation.load_spec hroomy hfolder hsound htidy hruns with
    ⟨opened, d₁, hspec, hstill, hstands⟩ | ⟨e, d₁, hspec, -, -⟩
  swap
  · rw [hspec] at hload
    cases hload
  obtain ⟨hok, rfl⟩ := Prod.mk.inj (hspec.symm.trans hload)
  have hg := Except.ok.inj hok
  have hmirrors : Mirrors d₁ place c.generation runs := by
    rw [← hg]
    exact ⟨rfl, hblock, hroomy, hfolder.evolves hstill.evolves, hstill.evolves.sound hsound,
      hruns.congr (fun _ => hstill.node? _) fun _ _ => by rw [hstill.file],
      hstands.imp fun _ _ hrun => hrun.still hstill, hnumbered.lt_flushingRank⟩
  refine ⟨hmirrors, by rw [← hg], by rw [← hg], (hstill.works place).tidyOf htidy, fun hid => ?_⟩
  rw [hstill.node?]
  exact hnone hid

/-- What is read of a store with such a core is read of the runs of the folder. -/
theorem HasFolder.snapshot (h : c.HasFolder d place runs) (hs : s.core = c) :
    s.Snapshot d runs where
  reads := by
    rw [hs]
    exact h.stands.imp fun _ _ hrun => ⟨hrun.id_eq, hrun.reads _ fun _ => rfl⟩
  distinct := h.numbered.distinct
  lt_flushingRank := h.lt_flushingRank

end Core

/-! ## What a compaction is for -/

/-- In an ascending list the last number is the largest. -/
theorem max?_eq_getLast? {ids : List Nat} (h : ids.Pairwise (· < ·)) : ids.max? = ids.getLast? := by
  rcases List.eq_nil_or_concat' ids with rfl | ⟨front, last, rfl⟩
  · rfl
  rw [List.getLast?_concat, List.max?_eq_some_iff]
  refine ⟨by simp, fun id hid => ?_⟩
  rcases List.mem_append.mp hid with hid | hid
  · exact Nat.le_of_lt ((List.pairwise_append.mp h).2.2 id hid last (List.mem_singleton.mpr rfl))
  · exact Nat.le_of_eq (List.mem_singleton.mp hid)

/-- The runs of a folder after its layers were merged: the merge has the largest number of a run, or
the first if there was none, and without live entries there is no run. -/
def runsOfMerge (runs : List (Nat × List Entry)) (merged : List Entry) : List (Nat × List Entry) :=
  if merged = [] then [] else [((runs.map Prod.fst).max?.getD 1, merged)]

theorem runsOfMerge_eq {g : Generation} (h : Mirrors d place g runs) (merged : List Entry) :
    runsOfMerge runs merged = if merged = [] then [] else [(g.mergedId, merged)] := by
  have hascending : (runs.map Prod.fst).Pairwise (· < ·) := by
    rw [List.pairwise_map]
    exact h.holds.ascending
  rw [runsOfMerge, mergedId_eq h.among, max?_eq_getLast? hascending]

theorem numbered_runsOfMerge {g : Generation} (h : Mirrors d place g runs) (merged : List Entry) :
    Numbered (runsOfMerge runs merged) := by
  rw [runsOfMerge_eq h]
  split
  · exact ⟨.nil, by simp⟩
  · exact ⟨by simp, by simpa using h.mergedId_lt_flushingRank⟩

namespace Core

/-- The merge takes the place of the runs, below the buffers. -/
theorem isLiveOverlay_runsOfMerge (hmerge : IsLiveOverlay (c.layers runs) merged) :
    IsLiveOverlay (c.layers (runsOfMerge runs merged)) merged := by
  have hfolded := @IsLiveOverlay.folded
    (c.active.entries :: (c.flushingBuffer?.map Buffer.entries).toList) _ _ hmerge
  rw [layers, runsOfMerge]
  by_cases hempty : merged = []
  · -- an empty layer at the bottom shows nothing
    refine ⟨hfolded.1, fun e => ?_⟩
    rw [hfolded.2 e, if_pos hempty, hempty, overlay_append, ← List.cons_append, overlay_append]
    rfl
  · rw [if_neg hempty]
    exact hfolded

/-- A compaction has done what it is for, and nothing else. -/
structure CompactedTo (c : Core) (d : Disk) (place : Path) (kept : List (Nat × List Entry))
    (c' : Core) (d' : Disk) : Prop where
  /-- The folder has these runs and no merge, and the new generation has them too. -/
  folder : c'.HasFolder d' place kept
  /-- The old generation is given up, and the others are what they were. -/
  generations_eq : c'.generations =
    (c.generations.setIfInBounds c.current { c.generation with live := false }).push c'.generation
  active_eq : c'.active = c.active
  sealedBuffers_eq : c'.sealedBuffers = c.sealedBuffers
  flushing_eq : c'.flushing = c.flushing
  flushInFlight_eq : c'.flushInFlight = c.flushInFlight
  compactionPending_eq : c'.compactionPending = c.compactionPending
  config_eq : c'.config = c.config
  /-- Beside the runs of the folder, everything is where it was. -/
  places : ∀ {q : Path}, (∀ id < RunName.idLimit, q ≠ (RunName.mk .finished id).placeIn place) →
    d'.node? q = d.node? q
  /-- No file that was there has changed. -/
  files : ∀ {file : Nat}, file < d.files.size → d'.file file = d.file file
  get_eq : ∀ s s' : Store, s.core = c → s'.core = c' → ∀ key, s'.get d' key = s.get d key
  entries_eq : ∀ s s' : Store, s.core = c → s'.core = c' →
    ∀ range, s'.entries d' range = s.entries d range

/-- A generation that was given up is not live. -/
theorem CompactedTo.isLive_eq (h : c.CompactedTo d place kept c' d') :
    c'.isLive c.current = false := by
  have hlt : c.current <
      (c.generations.setIfInBounds c.current { c.generation with live := false }).size := by
    simpa using c.current_lt
  rw [isLive, h.generations_eq, Array.getElem?_push_lt hlt]
  simp

/-- When the runs have given way to the merge, the generation that is loaded has the folder for
itself. -/
theorem HasFolder.swapped (h : c.HasFolder d place runs) {d₁ d₂ : Disk} {next : Generation}
    (hswapped : Swapped place c.generation merged d d₁) (hnot : ¬ d.Misled d₁)
    (hsmall : ∀ file, (d₁.file file).content.length < positionLimit) (hstill : d₁.Still d₂)
    (hload : Generation.load c.config d₂ = (.ok next, d')) :
    (c.retired.publishCompaction next).HasFolder d' place (runsOfMerge runs merged) := by
  have hg := h.toMirrors
  have hid := hg.mergedId_lt
  have hlt : ∀ run ∈ c.generation.runs, run.id < RunName.idLimit := fun run hrun => hg.id_lt hrun
  have hworks : Works place d d₂ :=
    (hswapped.works hg.sound hid hlt).trans (hstill.works place)
  have hnext : (c.retired.publishCompaction next).generation = next := generation_install _ _
  have hruns := hswapped.holdsRuns hg hnot hsmall
  rw [← runsOfMerge_eq hg] at hruns
  refine hasFolder_of_load (h.dir_eq ▸ hg.roomy) (h.blockSize_eq ▸ hg.blockSize_le)
    ((h.dir_eq ▸ hg.folder).evolves hworks.toEvolves) (hworks.sound hg.sound)
    (hworks.tidyOf h.tidy) (hruns.congr (fun _ => hstill.node? _) fun _ _ => by rw [hstill.file])
    (numbered_runsOfMerge hg merged) (fun {id} hlimit => ?_) (hnext.symm ▸ hload)
  rw [hstill.node?]
  by_cases heq : id = c.generation.mergedId
  · rw [heq]
    exact hswapped.merge_gone
  · rw [hswapped.node?_other hid hlt hlimit (by simp) (by simpa [mergedName] using heq)]
    exact h.noMerge hlimit

/-- Beside the runs, everything is where it was, as no merge was there before and none is now. -/
theorem HasFolder.node?_swapped (h : c.HasFolder d place runs)
    (hswapped : Swapped place c.generation merged d d') {q : Path}
    (hq : ∀ id < RunName.idLimit, q ≠ (RunName.mk .finished id).placeIn place) :
    d'.node? q = d.node? q := by
  have hid := h.toMirrors.mergedId_lt
  by_cases hmerge : q = (mergedName c.generation).placeIn place
  · rw [hmerge, hswapped.merge_gone]
    exact (h.noMerge hid).symm
  · refine hswapped.others hmerge (fun hmem => ?_) fun _ => hq _ hid
    obtain ⟨run, hrun, hplace⟩ := List.mem_map.mp hmem
    exact hq run.id (h.toMirrors.id_lt hrun) hplace.symm

/-- Folders of the same core, but for the runs, are read alike if the runs of the one are a merge of
the layers of the other. -/
theorem HasFolder.reads_eq (h : c.HasFolder d place runs)
    (h' : c'.HasFolder d' place (runsOfMerge runs merged))
    (hmerge : IsLiveOverlay (c.layers runs) merged)
    (hlayers : ∀ kept, c'.layers kept = c.layers kept) (hs : s.core = c) (hs' : s'.core = c') :
    (∀ key, s'.get d' key = s.get d key) ∧ ∀ range, s'.entries d' range = s.entries d range := by
  have hbefore := (h.snapshot hs).isLiveOverlay h.numbered
  have hafter := (h'.snapshot hs').isLiveOverlay h'.numbered
  rw [hs] at hbefore
  rw [hs', hlayers] at hafter
  exact (h.snapshot hs).reads_eq (h'.snapshot hs')
    ((hafter.unique (isLiveOverlay_runsOfMerge hmerge)).trans (hmerge.unique hbefore))

theorem HasFolder.compacted (h : c.HasFolder d place runs) (htruthful : d.Truthful)
    (hlayers : c.hasLayers = true) (hcompact : compactRuns c d = ((.ok (), c'), d'))
    (hsmall : ∀ file, (d'.file file).content.length < positionLimit) :
    ∃ merged, IsLiveOverlay (c.layers runs) merged ∧
      c.CompactedTo d place (runsOfMerge runs merged) c' d' := by
  have hg := h.toMirrors
  have hnone : d.node? ((mergedName c.generation).placeIn place) = none := h.noMerge hg.mergedId_lt
  obtain ⟨merged, hasc, hmem, houtcome⟩ := compactRuns_spec hg.among hlayers (by simp [hnone])
  have hmerge : IsLiveOverlay (c.layers runs) merged := ⟨hasc, c.layers_eq runs ▸ hmem⟩
  refine ⟨merged, hmerge, ?_⟩
  rw [hcompact] at houtcome
  cases houtcome with
  | merged hswap =>
    cases hswap with
    | @done next d₁ d₂ _ hswapped hstill hload =>
      have hstill' := hstill.trans (Generation.still_of_load hload)
      have hfolder := h.swapped hswapped htruthful.not_misled (fun file => by
        rw [← hstill'.file]
        exact hsmall file) hstill hload
      have hreads {s s' : Store} (hs : s.core = c)
          (hs' : s'.core = c.retired.publishCompaction next) :=
        h.reads_eq hfolder hmerge (fun _ => rfl) hs hs'
      exact {
        folder := hfolder
        generations_eq := by
          rw [show (c.retired.publishCompaction next).generation = next from generation_install _ _]
          rfl
        active_eq := rfl
        sealedBuffers_eq := rfl
        flushing_eq := rfl
        flushInFlight_eq := rfl
        compactionPending_eq := rfl
        config_eq := rfl
        places := fun hq => (hstill'.node? _).trans (h.node?_swapped hswapped hq)
        files := fun hfile => (hstill'.file _).trans (hswapped.files hfile (by simp [hnone]))
        get_eq := fun _ _ hs hs' => (hreads hs hs').1
        entries_eq := fun _ _ hs hs' => (hreads hs hs').2 }

end Core

/-- A compaction that succeeds merges the layers of a core into one run and does nothing else. The
run has the live entries of all layers and the largest number of a run; it is the only one in the
folder, or there is none if no entry is live. The buffers stay over it, and whatever is read of the
store is what was read before. A core that has nothing to merge is left as it was. -/
theorem compaction_merges_layers (c : Core) :
    (c.hasLayers = false → ∀ d, Core.compactRuns c d = ((.ok (), c), d)) ∧
    (c.hasLayers = true → ∀ (d d' : Disk) (place : Path) (runs : List (Nat × List Entry)) (c' : Core),
      c.HasFolder d place runs → d.Truthful → Core.compactRuns c d = ((.ok (), c'), d') →
        (∀ file, (d'.file file).content.length < positionLimit) →
        ∃ merged, IsLiveOverlay (c.layers runs) merged ∧ c'.isLive c.current = false ∧
          c.CompactedTo d place (runsOfMerge runs merged) c' d') := by
  refine ⟨fun hnone d => Core.compactRuns_of_not hnone d, ?_⟩
  intro hlayers d d' place runs c' hfolder htruthful hcompact hsmall
  obtain ⟨merged, hmerge, hdone⟩ := hfolder.compacted htruthful hlayers hcompact hsmall
  exact ⟨merged, hmerge, hdone.isLive_eq, hdone⟩

/-- A sealed buffer over two runs, and a deletion in the active one. -/
def threeLayers : List Event := twoRuns ++ [.flush, .upsert (.tombstone [1])]

/-- One entry is left, and it is in the sealed buffer still. -/
theorem threeLayers_merged : ∃ (place : Path) (c' : Core) (d' : Disk),
    Core.compactRuns (newSession.run threeLayers).store.core (newSession.run threeLayers).disk =
      ((.ok (), c'), d') ∧
    (newSession.run threeLayers).store.core.CompactedTo (newSession.run threeLayers).disk place
      [(2, [.put [3] [30]])] c' d' := by
  obtain ⟨place, hdescribes⟩ : ∃ place, ((Layers.initial 64).run threeLayers).Describes
      .empty (newSession.run threeLayers) smallConfig.dir place :=
    newSession_startsIn.describes (by decide +kernel)
  obtain ⟨hlive, hblock, hlayers, hok, hsmall, hids, hmerged⟩ :
      ((Layers.initial 64).run threeLayers).live = true ∧
      (newSession.run threeLayers).store.core.config.blockSize =
        (newSession.run threeLayers).store.core.generation.blockSize ∧
      (newSession.run threeLayers).store.core.hasLayers = true ∧
      (Core.compactRuns (newSession.run threeLayers).store.core
        (newSession.run threeLayers).disk).1.1 = .ok () ∧
      (∀ id < (Core.compactRuns (newSession.run threeLayers).store.core
          (newSession.run threeLayers).disk).2.files.size,
        ((Core.compactRuns (newSession.run threeLayers).store.core
          (newSession.run threeLayers).disk).2.file id).content.length < positionLimit) ∧
      (runEntries ((Layers.initial 64).run threeLayers).runs).map Prod.fst = [1, 2] ∧
      liveEntries ((newSession.run threeLayers).store.merged
        (runEntries ((Layers.initial 64).run threeLayers).runs)) = [.put [3] [30]] := by
    decide +kernel
  have hfolder := (hdescribes.atRest hlive (Layers.left_run rfl _)).hasFolder hblock
  have hsnapshot : (newSession.run threeLayers).store.Snapshot _ _ := hfolder.snapshot rfl
  generalize hcompact : Core.compactRuns (newSession.run threeLayers).store.core
    (newSession.run threeLayers).disk = result at hok hsmall ⊢
  obtain ⟨⟨r, c'⟩, d'⟩ := result
  obtain rfl : r = .ok () := hok
  obtain ⟨merged, hmerge, -, hdone⟩ := (compaction_merges_layers _).2 hlayers _ _ place _ _ hfolder
    (newSession_startsIn.faultless.evolves hdescribes.since).truthful hcompact
    (lengths_iff.mpr hsmall)
  obtain rfl : merged = [.put [3] [30]] :=
    (hmerge.unique (hsnapshot.isLiveOverlay hfolder.numbered)).trans hmerged
  rw [runsOfMerge, hids] at hdone
  exact ⟨place, c', d', rfl, hdone⟩

end LayeredStore
