import LayeredStore.Core
import LayeredStore.Proofs.LayerScans
import LayeredStore.Proofs.RunFolder

/-!
# The steps of a compaction

A compaction writes the merge of all layers beside the runs, removes the runs, and gives the
merge its final name. Each of these steps is described for any plan of faults, since what a fault
leaves behind in the middle of them is what recovery has to deal with:

* `Generation.writeMerged_spec` : the merge is there and holds the live entries of all layers, or
  nothing was to be kept, or the step failed and the runs were not touched.
* `Generation.removeRuns_spec` : the names of the runs are gone, up to the first failure.
-/

namespace LayeredStore

open Disk

variable {d d' : Disk} {dir place : Path} {runs : List (Nat × List Entry)}

/-- The layers that a compaction merges, newest first, with their ranks. -/
def rankedLayers (buffers : Nat → Buffer) (active : Nat) (flushing : Option Nat)
    (runs : List (Nat × List Entry)) : List (Nat × List Entry) :=
  (activeRank, (buffers active).entries) ::
    ((flushing.map fun id => (flushingRank, (buffers id).entries)).toList ++ runs.reverse)

theorem rankedLayers_none (buffers : Nat → Buffer) (active : Nat) (runs : List (Nat × List Entry)) :
    rankedLayers buffers active none runs =
      (activeRank, (buffers active).entries) :: runs.reverse := rfl

theorem rankedLayers_some (buffers : Nat → Buffer) (active id : Nat)
    (runs : List (Nat × List Entry)) : rankedLayers buffers active (some id) runs =
      (activeRank, (buffers active).entries) :: (flushingRank, (buffers id).entries) ::
        runs.reverse := rfl

/-- Runs with ascending numbers that leave the two largest ranks to the buffers. -/
structure Numbered (runs : List (Nat × List Entry)) : Prop where
  ascending : runs.Pairwise fun a b => a.1 < b.1
  lt_flushingRank : ∀ r ∈ runs, r.1 < flushingRank

theorem Numbered.suffix {kept : List (Nat × List Entry)} (h : Numbered runs)
    (hkept : kept <:+ runs) :
    Numbered kept :=
  ⟨h.ascending.sublist hkept.sublist, fun r hr => h.lt_flushingRank r (hkept.subset hr)⟩

theorem Numbered.pairwise_rankedLayers (h : Numbered runs) (buffers : Nat → Buffer) (active : Nat)
    (flushing : Option Nat) :
    (rankedLayers buffers active flushing runs).Pairwise fun a b => b.1 < a.1 := by
  have hreverse : runs.reverse.Pairwise fun a b => b.1 < a.1 :=
    List.pairwise_reverse.mpr h.ascending
  have hranks : flushingRank < activeRank := by decide
  rw [rankedLayers]
  cases flushing with
  | none =>
    refine .cons ?_ hreverse
    intro r hr
    exact Nat.lt_trans (h.lt_flushingRank r (List.mem_reverse.mp hr)) hranks
  | some id =>
    refine .cons ?_ (.cons ?_ hreverse)
    · intro r hr
      rcases List.mem_cons.mp hr with rfl | hr
      · exact hranks
      · exact Nat.lt_trans (h.lt_flushingRank r (List.mem_reverse.mp hr)) hranks
    · intro r hr
      exact h.lt_flushingRank r (List.mem_reverse.mp hr)

/-- Runs with distinct numbers that leave the two largest ranks to the buffers. -/
theorem nodup_rankedLayers (hdistinct : (runs.map Prod.fst).Nodup)
    (hlt : ∀ r ∈ runs, r.1 < flushingRank) (buffers : Nat → Buffer) (active : Nat)
    (flushing : Option Nat) :
    ((rankedLayers buffers active flushing runs).map Prod.fst).Nodup := by
  have hranks : flushingRank < activeRank := by decide
  have hreverse : (runs.reverse.map Prod.fst).Nodup := by
    rw [List.map_reverse]
    exact List.nodup_reverse.mpr hdistinct
  have hbelow {rank : Nat} (hrank : flushingRank ≤ rank) :
      rank ∉ runs.reverse.map Prod.fst := by
    intro hmem
    obtain ⟨r, hr, rfl⟩ := List.mem_map.mp hmem
    exact Nat.not_lt.mpr hrank (hlt r (List.mem_reverse.mp hr))
  unfold rankedLayers
  cases flushing with
  | none =>
    exact List.nodup_cons.mpr ⟨hbelow (Nat.le_of_lt hranks), hreverse⟩
  | some id =>
    refine List.nodup_cons.mpr ⟨fun hmem => ?_,
      List.nodup_cons.mpr ⟨hbelow (Nat.le_refl _), hreverse⟩⟩
    rcases List.mem_cons.mp hmem with heq | hmem
    · exact Nat.ne_of_lt hranks heq.symm
    · exact hbelow (Nat.le_of_lt hranks) hmem

theorem Numbered.distinct (h : Numbered runs) : (runs.map Prod.fst).Nodup :=
  List.pairwise_map.mpr (h.ascending.imp Nat.ne_of_lt)

namespace Generation

variable {g : Generation} {buffers : Nat → Buffer} {active : Nat} {flushing : Option Nat}

/-- The buffers that are scanned, with their ranks. -/
def rankedBuffers (active : Nat) (flushing : Option Nat) : List (Nat × Nat) :=
  (activeRank, active) :: (flushing.map fun id => (flushingRank, id)).toList

theorem sources_eq (g : Generation) (d : Disk) (active : Nat) (flushing : Option Nat)
    (range : KeyRange) : g.sources d active flushing range =
      (rankedBuffers active flushing).map (fun b => (b.1, Source.ofBuffer b.2 range)) ++
        g.runSources d range := by
  rw [sources, rankedBuffers]
  cases flushing <;> rfl

theorem perm_rankedLayers (buffers : Nat → Buffer) (active : Nat) (flushing : Option Nat)
    (runs : List (Nat × List Entry)) :
    ((rankedBuffers active flushing).map (fun b => (b.1, (buffers b.2).entries)) ++ runs).Perm
      (rankedLayers buffers active flushing runs) := by
  rw [rankedLayers, rankedBuffers, List.map_cons, List.cons_append]
  refine List.Perm.cons _ ?_
  cases flushing with
  | none => exact (List.reverse_perm runs).symm
  | some id => exact List.Perm.cons _ (List.reverse_perm runs).symm

/-- A scan of a range of all layers. -/
theorem Reads.gives_sources {ι : Type} [Nonempty ι] {disks : ι → Disk} (h : g.Reads disks runs)
    (buffers : Nat → Buffer) (active : Nat) (flushing : Option Nat)
    (hnodup : ((rankedLayers buffers active flushing runs).map Prod.fst).Nodup) (range : KeyRange) :
    ∃ m, (∀ i, Scan.ofSources bytewise buffers (disks i)
        (g.sources (disks i) active flushing range) = m) ∧
      Pull.Gives (fun i => Scan.pull bytewise buffers (disks i)) m
        ((range.cut (recencyMerge bytewise (rankedLayers buffers active flushing runs))).map .ok) := by
  have hscan := h.gives_scan buffers _ (perm_rankedLayers buffers active flushing runs) hnodup range
  simpa only [sources_eq] using hscan

/-- The number under which a merge is published. -/
def mergedId (g : Generation) : Nat := g.maxId?.getD g.nextId

/-- How the writing of a merge ends. -/
inductive MergeOutcome (d : Disk) (dir place : Path) (id : Nat) (merged : List Entry) :
    Except StoreError (Option Nat) × Disk → Prop
  /-- The merge is there. -/
  | written {d' : Disk} {file : Nat}
      (changes : ChangesAt ((RunName.mk .merged id).placeIn place) d d')
      (node : d'.node? ((RunName.mk .merged id).placeIn place) = some (.file file))
      (image : IsImage (d'.file file).content merged) (nonempty : merged ≠ []) :
      MergeOutcome d dir place id merged (.ok (some id), d')
  /-- No entry is live, and nothing is there. -/
  | nothing {d' : Disk} (changes : ChangesAt ((RunName.mk .merged id).placeIn place) d d')
      (gone : d'.node? ((RunName.mk .merged id).placeIn place) = none) (empty : merged = []) :
      MergeOutcome d dir place id merged (.ok none, d')
  /-- The merge was given up before it was complete, and its removal was tried. -/
  | failed {d₁ : Disk} {e : StoreError}
      (changes : ChangesAt ((RunName.mk .merged id).placeIn place) d d₁)
      (notFolder : d₁.node? ((RunName.mk .merged id).placeIn place) ≠ some .folder)
      (why : d.Struck d₁ ∨ ¬ ∀ e ∈ merged, e.Storable) :
      MergeOutcome d dir place id merged
        (.error e, (remove ((RunName.mk .merged id).path dir) d₁).2)
  /-- No entry is live, but the empty merge could not be removed. -/
  | left {d₁ d' : Disk} {file : Nat} {e : StoreError}
      (changes : ChangesAt ((RunName.mk .merged id).placeIn place) d d₁)
      (node : d₁.node? ((RunName.mk .merged id).placeIn place) = some (.file file))
      (image : IsImage (d₁.file file).content merged) (empty : merged = [])
      (still : d₁.Still d') (struck : d₁.Struck d') :
      MergeOutcome d dir place id merged (.error e, d')

theorem writeMerged_of_live (hlive : g.live = true) :
    g.writeMerged buffers active flushing d = (do
      let count ← writeRunFrom ((RunName.mk .merged g.mergedId).path g.dir)
        (Scan.feed bytewise buffers) (g.scanAll buffers d active flushing) g.blockSize g.syncWrites
      if count = 0 then
        (Disk.remove ((RunName.mk .merged g.mergedId).path g.dir)).plainly
        return none
      else return some g.mergedId : DiskM StoreError (Option Nat)) d := by
  unfold writeMerged mergedId
  simp only [hlive, Bool.not_true, Bool.false_eq_true, if_false]
  rw [DiskM.get_bind]

/-- A generation that was given up is not merged. -/
theorem writeMerged_of_retired (hretired : g.live = false) :
    g.writeMerged buffers active flushing d = (.error .staleGeneration, d) := by
  unfold writeMerged
  rw [hretired]
  rfl

/-- Whatever becomes of the file of the merge, the stream that is written to it gives the live entries
of the overlay of all layers. -/
theorem merge_gives (buffers : Nat → Buffer) (active : Nat) (flushing : Option Nat)
    (hshows : List.Forall₂ (Run.Shows d) g.runs runs) (hnumbered : Numbered runs)
    (hapart : ∀ run ∈ g.runs,
      d.node? ((RunName.mk .merged g.mergedId).placeIn place) ≠ some (.file run.file.fileId)) :
    ∃ merged, Ascending bytewise merged ∧
      (∀ e, e ∈ merged ↔ overlay ((rankedLayers buffers active flushing runs).map Prod.snd) e.key =
        some e ∧ e.isTombstone = false) ∧
      Pull.Gives (fun i : { d' : Disk //
          ChangesAt ((RunName.mk .merged g.mergedId).placeIn place) d d' } =>
        (Scan.feed bytewise buffers).on i.1) (g.scanAll buffers d active flushing)
        (merged.map .ok) := by
  have hreads : g.Reads (fun i : { d' : Disk //
      ChangesAt ((RunName.mk .merged g.mergedId).placeIn place) d d' } => i.1) runs := by
    refine ((List.forall₂_and_left _ _).mpr ⟨hapart, hshows⟩).imp ?_
    rintro run r ⟨hne, hrun⟩
    refine ⟨hrun.id_eq, hrun.reads _ fun i => ?_⟩
    rw [i.2.files hrun.lt_size hne]
  have : Nonempty { d' : Disk // ChangesAt ((RunName.mk .merged g.mergedId).placeIn place) d d' } :=
    ⟨⟨d, ChangesAt.refl _ _⟩⟩
  have hnodup := nodup_rankedLayers hnumbered.distinct hnumbered.lt_flushingRank buffers active
    flushing
  obtain ⟨scan, hscan, hgives⟩ := hreads.gives_sources buffers active flushing hnodup .all
  obtain rfl : g.scanAll buffers d active flushing = scan := hscan ⟨d, ChangesAt.refl _ _⟩
  rw [KeyRange.cut_all] at hgives
  have hasc := hreads.ascending_layers (perm_rankedLayers buffers active flushing runs)
  refine ⟨_, (ascending_recencyMerge hasc hnodup).live, fun e => ?_, hgives.live_map⟩
  rw [mem_liveEntries, mem_recencyMerge_iff_overlay (.refl _)
    (hnumbered.pairwise_rankedLayers buffers active flushing) hasc]

/-- The merge of all layers holds the live entries of their overlay. -/
theorem writeMerged_spec (buffers : Nat → Buffer) (active : Nat) (flushing : Option Nat)
    (hroomy : g.dir.Roomy) (hfolder : d.FolderAt g.dir place)
    (hsound : d.Sound) (hlive : g.live = true) (hblock : g.blockSize ≤ UInt32.size)
    (hid : g.mergedId < RunName.idLimit) (hshows : List.Forall₂ (Run.Shows d) g.runs runs)
    (hnumbered : Numbered runs)
    (hfree : d.node? ((RunName.mk .merged g.mergedId).placeIn place) ≠ some .folder)
    (hapart : ∀ run ∈ g.runs,
      d.node? ((RunName.mk .merged g.mergedId).placeIn place) ≠ some (.file run.file.fileId)) :
    ∃ merged, Ascending bytewise merged ∧
      (∀ e, e ∈ merged ↔ overlay ((rankedLayers buffers active flushing runs).map Prod.snd) e.key =
        some e ∧ e.isTombstone = false) ∧
      MergeOutcome d g.dir place g.mergedId merged (g.writeMerged buffers active flushing d) := by
  have hname : g.dir.Admits (RunName.mk .merged g.mergedId).text := hroomy.admits hid
  obtain ⟨merged, hasc, hmem, hgives⟩ := merge_gives buffers active flushing hshows hnumbered hapart
  refine ⟨merged, hasc, hmem, ?_⟩
  rw [writeMerged_of_live hlive, RunName.path]
  rcases writeRunFrom_spec (p := Scan.feed bytewise buffers) hfolder hname hsound hfree
      hgives hblock g.syncWrites with
    ⟨entries, d₁, file, hwrite, hchanges, hitems, hnode, himage⟩ |
      ⟨e, d₁, d₂, hwrite, hchanges, rfl, hnotFolder, hwhy⟩
  swap
  · rw [DiskM.bind_of_error hwrite]
    refine .failed hchanges hnotFolder ?_
    rcases hwhy with hs | hnot
    · exact .inl hs
    · exact .inr fun hstorable => hnot ⟨_, rfl, hasc, hstorable⟩
  obtain rfl : merged = entries :=
    List.map_injective_iff.mpr (fun _ _ h => Except.ok.inj h) hitems
  rw [DiskM.bind_of_ok hwrite]
  by_cases hempty : merged = []
  swap
  · rw [if_neg (by simpa using hempty)]
    exact .written hchanges hnode himage hempty
  rw [if_pos (by rw [hempty]; rfl)]
  rcases (hfolder.evolves hchanges.toEvolves).remove_child hname with
    ⟨id, hremove, -⟩ | ⟨e, d₂, hremove, hstill, hwhy⟩
  · rw [DiskM.bind_of_ok (DiskM.plainly_of_ok hremove)]
    refine .nothing (hchanges.trans (((still_ticked d₁).changesAt _).trans
      (changesAt_erase (d := d₁.ticked) (append_singleton_ne_nil place _) ?_))) ?_ hempty
    · rw [node?_ticked, hnode]
      simp
    · show (d₁.ticked.erase _).node? _ = _
      rw [RunName.placeIn, node?_erase _ (append_singleton_ne_nil place _), if_pos rfl]
  · rw [DiskM.bind_of_error (DiskM.plainly_of_error hremove)]
    refine .left hchanges hnode himage hempty hstill ?_
    rcases hwhy with hs | hfolder' | ⟨hnone, -⟩
    · exact hs.struck
    · rw [hnode] at hfolder'
      simp at hfolder'
    · rw [hnode] at hnone
      cases hnone

/-! ## Removing runs -/

/-- Some files have lost their names, if not all of those that were to. -/
structure Freed (places : List Path) (d d' : Disk) : Prop extends Evolves d d' where
  others : ∀ {q : Path}, q ∉ places → d'.node? q = d.node? q
  same_or_gone : ∀ q : Path, d'.node? q = d.node? q ∨ d'.node? q = none
  files : ∀ id : Nat, d'.file id = d.file id

theorem Freed.refl (places : List Path) (d : Disk) : Freed places d d :=
  ⟨Evolves.refl d, fun _ => rfl, fun _ => .inl rfl, fun _ => rfl⟩

theorem Freed.trans {places others : List Path} {d'' : Disk} (h : Freed places d d')
    (h' : Freed others d' d'') : Freed (places ++ others) d d'' where
  toEvolves := h.toEvolves.trans h'.toEvolves
  others {q} hq := by
    rw [List.mem_append, not_or] at hq
    rw [h'.others hq.2, h.others hq.1]
  same_or_gone q := by
    rcases h'.same_or_gone q with hsame | hgone
    · rw [hsame]
      exact h.same_or_gone q
    · exact .inr hgone
  files id := (h'.files id).trans (h.files id)

/-- Freeing names makes no folder. -/
theorem Freed.ne_folder {places : List Path} {q : Path} (h : Freed places d d')
    (hq : d.node? q ≠ some .folder) : d'.node? q ≠ some .folder := by
  rcases h.same_or_gone q with hsame | hgone
  · rwa [hsame]
  · simp [hgone]

/-- What is gone stays gone. -/
theorem Freed.stays_gone {places : List Path} {q : Path} (h : Freed places d d')
    (hq : d.node? q = none) : d'.node? q = none := by
  rcases h.same_or_gone q with hsame | hgone
  · rw [hsame, hq]
  · exact hgone

theorem Freed.of_still (h : d.Still d') (places : List Path) : Freed places d d' :=
  ⟨h.evolves, fun _ => h.node? _, fun q => .inl (h.node? q), h.file⟩

theorem Freed.of_erase {q : Path} (hq : q ≠ []) (hnode : d.node? q ≠ some .folder) :
    Freed [q] d (d.ticked.erase q) where
  toEvolves := (still_ticked d).evolves.trans (changesAt_erase (d := d.ticked) hq hnode).toEvolves
  others {other} hother := by
    rw [node?_erase _ hq, if_neg (fun h => hother (List.mem_singleton.mpr h)), node?_ticked]
  same_or_gone other := by
    rw [node?_erase _ hq]
    split
    · exact .inr rfl
    · exact .inl rfl
  files _ := rfl

/-- Removing a file frees its name, or a fault struck, or there is no file. -/
theorem remove_frees (hfolder : d.FolderAt dir place) {name : String} (hname : dir.Admits name)
    (hnode : d.node? (place ++ [name]) ≠ some .folder) :
    (∃ d', remove (dir.child name) d = (.ok (), d') ∧ Freed [place ++ [name]] d d' ∧
        d'.node? (place ++ [name]) = none) ∨
      ∃ e d', remove (dir.child name) d = (.error e, d') ∧ d.Still d' ∧
        (StruckBy e d d' ∨ d.node? (place ++ [name]) = none ∧ e = .system .noEntry) := by
  have hne := append_singleton_ne_nil place name
  rcases hfolder.remove_child hname with ⟨_, hremove, -⟩ | ⟨e, d', hremove, hstill, hwhy⟩
  · refine .inl ⟨_, hremove, Freed.of_erase hne hnode, ?_⟩
    rw [node?_erase _ hne, if_pos rfl]
  · refine .inr ⟨e, d', hremove, hstill, ?_⟩
    rcases hwhy with hs | hfull | hnone
    · exact .inl hs
    · exact absurd hfull hnode
    · exact .inr hnone

/-- The places of the files of some runs. -/
def runPlaces (opened : List Run) (place : Path) : List Path :=
  opened.map fun run => (RunName.mk .finished run.id).placeIn place

/-- A run whose file has the name of its number, if it has one still. -/
structure Removable (d : Disk) (dir place : Path) (run : Run) : Prop where
  lt_idLimit : run.id < RunName.idLimit
  path_eq : run.file.path = (RunName.mk .finished run.id).path dir
  notFolder : d.node? ((RunName.mk .finished run.id).placeIn place) ≠ some .folder

theorem Removable.freed {run : Run} {places : List Path} (h : Removable d dir place run)
    (hfreed : Freed places d d') : Removable d' dir place run where
  lt_idLimit := h.lt_idLimit
  path_eq := h.path_eq
  notFolder := hfreed.ne_folder h.notFolder

theorem removeRun_spec (hroomy : dir.Roomy) (hfolder : d.FolderAt dir place) {run : Run}
    (hrun : Removable d dir place run) :
    (∃ d', removeRun run d = (.ok (), d') ∧
        Freed [(RunName.mk .finished run.id).placeIn place] d d' ∧
        (d'.node? ((RunName.mk .finished run.id).placeIn place) = none ∨ d.Misled d')) ∨
      ∃ e d', removeRun run d = (.error e, d') ∧ d.Still d' ∧ d.Struck d' := by
  rw [removeRun, hrun.path_eq, RunName.path]
  have hname : dir.Admits (RunName.mk .finished run.id).text := hroomy.admits hrun.lt_idLimit
  rcases remove_frees hfolder hname hrun.notFolder with
    ⟨d', hremove, hfreed, hgone⟩ | ⟨e, d', hremove, hstill, hwhy⟩
  · exact .inl ⟨d', DiskM.writing_of_ok _ (DiskM.tryCatch_of_ok hremove), hfreed, .inl hgone⟩
  · have hcatch : tryCatch (Disk.remove (dir.child (RunName.mk .finished run.id).text))
        (fun e => if e = .system .noEntry then return () else throw e) d =
          (if e = .system .noEntry then return () else throw e : DiskM IoFailure Unit) d' :=
      DiskM.tryCatch_of_error hremove
    by_cases he : e = .system .noEntry
    · rw [if_pos he] at hcatch
      refine .inl ⟨d', DiskM.writing_of_ok _ hcatch, .of_still hstill _, ?_⟩
      rcases hwhy with hs | ⟨hnone, -⟩
      · subst he
        exact .inr hs
      · left
        rw [hstill.node?]
        exact hnone
    · rw [if_neg he] at hcatch
      refine .inr ⟨_, d', DiskM.writing_of_error _ hcatch, hstill, ?_⟩
      rcases hwhy with hs | ⟨-, heq⟩
      · exact hs.struck
      · exact absurd heq he

/-- Runs are removed in their order, up to the first failure. -/
theorem removeRuns_spec (hroomy : dir.Roomy) (hfolder : d.FolderAt dir place) {opened : List Run}
    (hopened : ∀ run ∈ opened, Removable d dir place run) :
    (∃ d', opened.forM removeRun d = (.ok (), d') ∧ Freed (runPlaces opened place) d d' ∧
        ((∀ q ∈ runPlaces opened place, d'.node? q = none) ∨ d.Misled d')) ∨
      ∃ e front run rest d₁ d', opened = front ++ run :: rest ∧
        opened.forM removeRun d = (.error e, d') ∧ Freed (runPlaces front place) d d₁ ∧
        ((∀ q ∈ runPlaces front place, d₁.node? q = none) ∨ d.Misled d₁) ∧
        d₁.Still d' ∧ d₁.Struck d' := by
  induction opened generalizing d with
  | nil => exact .inl ⟨d, rfl, Freed.refl _ d, .inl (by simp [runPlaces])⟩
  | cons run rest ih =>
    have hcons : (run :: rest).forM removeRun = (do
        removeRun run
        rest.forM removeRun : DiskM StoreError Unit) := rfl
    rw [hcons]
    rcases removeRun_spec hroomy hfolder (hopened run List.mem_cons_self) with
      ⟨d₁, hremove, hfreed, hgone⟩ | ⟨e, d₁, hremove, hstill, hs⟩
    swap
    · exact .inr ⟨e, [], run, rest, d, d₁, rfl, DiskM.bind_of_error hremove, Freed.refl _ d,
        .inl (by simp [runPlaces]), hstill, hs⟩
    rw [DiskM.bind_of_ok hremove]
    have hstays {d₂ : Disk} {places : List Path} (hlater : Freed places d₁ d₂)
        (hrest : (∀ q ∈ places, d₂.node? q = none) ∨ d₁.Misled d₂) :
        (∀ q ∈ (RunName.mk .finished run.id).placeIn place :: places, d₂.node? q = none) ∨
          d.Misled d₂ := by
      rcases hgone with hgone | hs
      · rcases hrest with hrest | hs
        · left
          intro q hq
          rcases List.mem_cons.mp hq with rfl | hq
          · exact hlater.stays_gone hgone
          · exact hrest q hq
        · exact .inr (StruckBy.earlier hfreed.toEvolves hs)
      · exact .inr (StruckBy.later hs hlater.toEvolves)
    rcases ih (hfolder.evolves hfreed.toEvolves)
        (fun r hr => (hopened r (List.mem_cons_of_mem _ hr)).freed hfreed) with
      ⟨d₂, hforM, hfreed₂, hgone₂⟩ |
        ⟨e, front, stuck, tail, d₂, d₃, rfl, hforM, hfreed₂, hgone₂, hstill, hs⟩
    · exact .inl ⟨d₂, hforM, hfreed.trans hfreed₂, hstays hfreed₂ hgone₂⟩
    · exact .inr ⟨e, run :: front, stuck, tail, d₂, d₃, rfl, hforM, hfreed.trans hfreed₂,
        hstays hfreed₂ hgone₂, hstill, hs⟩

end Generation

end LayeredStore
