import LayeredStore.Proofs.Closing

/-!
# Compactions that fail

A compaction that fails may have removed runs, and it may have left its merge. The runs that were
opened are read all the same, so that the session goes on to read the last writes for the moment.
If no merge is left, what the folder has will do in the place of the runs (`Layers.StandsIn`), and
the last writes are read whatever happens later: `failed_compaction_keeps_writes`.

If a merge is left beside what remains of the runs, nobody reads it before the folder is opened
again, while the next flush reads the folder: `failed_compaction_loses_writes`.
-/

namespace LayeredStore

open Disk Generation

variable {d d' start : Disk} {dir place : Path} {l : Layers} {c : Core} {s : Session}
  {config : Config}

/-! ## Runs in the place of others -/

/-- If nothing is live in two logs, one above the other, then the upper one alone reads the same. -/
theorem Log.readsLike_of_dead {front rest : List Write} (h : live (front ++ rest) = []) :
    ReadsLike front (front ++ rest) := by
  have hnone (key : Bytes) : read (front ++ rest) key = none := by
    rw [← readsLike_live, h]
    rfl
  intro key
  rw [hnone]
  have hkey := hnone key
  rw [read_append] at hkey
  by_cases hfront : (newest? front key).isSome = true
  · rwa [if_pos hfront] at hkey
  · rw [read, Option.not_isSome_iff_eq_none.mp hfront]
    rfl

namespace Layers

/-- Runs that the folder may have in the place of those that are read. -/
structure StandsIn (l : Layers) (stored : List (Nat × List Write)) : Prop where
  numbers : Numbers stored
  beforeNext : (∀ r ∈ stored, r.1 < nextRun l.runs) ∨
    l.runs = [] ∧ ∀ r ∈ stored, r.1 = nextRun l.runs
  known : ∀ r ∈ stored, ∀ w ∈ r.2, w ∈ l.all
  reads : Log.ReadsLike (l.buffered ++ runLog stored) l.all

/-- Where nothing is live, the newest of the runs stand for all of them. -/
theorem Sane.standsIn_drop (h : l.Sane) (hnothing : l.merge = []) (count : Nat) :
    l.StandsIn (l.runs.drop count) where
  numbers := List.Pairwise.sublist (List.drop_sublist _ _) h.runsAscend
  beforeNext := .inl fun _ hr => h.runsAscend.lt_nextRun (List.mem_of_mem_drop hr)
  known r hr w hw :=
    List.mem_append_right _ (mem_runLog.mpr ⟨r, List.mem_of_mem_drop hr, hw⟩)
  reads := by
    have hsplit : l.all =
        (l.buffered ++ runLog (l.runs.drop count)) ++ runLog (l.runs.take count) := by
      rw [List.append_assoc, ← runLog_append, List.take_append_drop]
      rfl
    rw [merge, hsplit] at hnothing
    rw [hsplit]
    exact Log.readsLike_of_dead hnothing

/-- The merge stands for the runs. -/
theorem standsIn_mergedRuns (l : Layers) : l.StandsIn l.mergedRuns where
  numbers := numbers_mergedRuns l
  beforeNext := by
    by_cases hnone : l.runs = []
    · refine .inr ⟨hnone, fun r hr => ?_⟩
      rw [mem_mergedRuns hr, hnone]
      rfl
    · refine .inl fun r hr => ?_
      rw [mem_mergedRuns hr]
      obtain ⟨front, last, hruns⟩ := (List.eq_nil_or_concat' l.runs).resolve_left hnone
      rw [hruns]
      simp [mergedRun, nextRun]
  known r hr w hw := by
    rw [mem_mergedRuns hr] at hw
    exact l.merge_subset hw
  reads := l.readsLike_merged

/-- The layers after the runs of the folder have changed, while those that were opened are read. -/
def cutOff (l : Layers) (stored : List (Nat × List Write)) : Layers :=
  { l with stored, live := false }

theorem Sane.cutOff (h : l.Sane) (hnone : ∀ chore ∈ l.queue, chore.isCompaction = false)
    {stored : List (Nat × List Write)} (hstands : l.StandsIn stored) : (l.cutOff stored).Sane where
  flushes := h.flushes
  compactions := h.compactions
  live_of_planned hmem := by cases hnone _ hmem
  stored_of_live hlive := by cases hlive
  runsAscend := h.runsAscend
  storedAscend := hstands.numbers
  beforeNext := hstands.beforeNext
  idle_of_closed := h.idle_of_closed
  storable w hw := by
    rcases mem_logged.mp hw with hactive | hflushing | hruns | ⟨r, hr, hw⟩ | hleft
    · exact h.storable w (mem_logged.mpr (.inl hactive))
    · exact h.storable w (mem_logged.mpr (.inr (.inl hflushing)))
    · exact h.storable w (mem_logged.mpr (.inr (.inr (.inl hruns))))
    · exact h.storable w (List.mem_append_left _ (List.mem_append_left _ (hstands.known r hr w hw)))
    · exact h.storable w (mem_logged.mpr (.inr (.inr (.inr (.inr hleft)))))

theorem Right.cutOff (h : l.Right) {stored : List (Nat × List Write)}
    (hstands : l.StandsIn stored) : (l.cutOff stored).Right := ⟨h.all, hstands.reads.trans h.all⟩

/-- What layers become when a compaction fails: nothing has changed, or the folder has other runs
in the place of those that are read. -/
def FailsTo (l m : Layers) : Prop :=
  m = l ∨ ∃ stored, l.StandsIn stored ∧ m = l.cutOff stored

variable {m : Layers}

theorem FailsTo.sane (h : l.FailsTo m) (hsane : l.Sane)
    (hnone : ∀ chore ∈ l.queue, chore.isCompaction = false) : m.Sane := by
  rcases h with rfl | ⟨stored, hstands, rfl⟩
  · exact hsane
  · exact hsane.cutOff hnone hstands

theorem FailsTo.right (h : l.FailsTo m) (hright : l.Right) : m.Right := by
  rcases h with rfl | ⟨stored, hstands, rfl⟩
  · exact hright
  · exact hright.cutOff hstands

/-- Nothing but the runs of the folder, and whether they are those that are read, can differ. -/
theorem FailsTo.same (h : l.FailsTo m) : m.writes = l.writes ∧ m.closed = l.closed ∧
    m.left = l.left ∧ m.queue = l.queue := by
  rcases h with rfl | ⟨stored, -, rfl⟩ <;> exact ⟨rfl, rfl, rfl, rfl⟩

end Layers

/-! ## What a failed compaction leaves -/

/-- No name in a folder is one that a merge could have. -/
def Disk.HasNoMerge (d : Disk) (dir : Path) : Prop :=
  ∀ {place : Path} {text : String} {id : Nat}, d.FolderAt dir place →
    RunName.parse text = some ⟨.merged, id⟩ → d.node? (place ++ [text]) = none

theorem Disk.HasNoMerge.at (h : d.HasNoMerge dir) (hfolder : d.FolderAt dir place) {id : Nat}
    (hid : id < RunName.idLimit) : d.node? ((RunName.mk .merged id).placeIn place) = none :=
  h hfolder (RunName.parse_text hid)

theorem hasNoMerge_of_names (h : ∀ entry ∈ d.nodes, ∀ text ∈ entry.1.getLast?,
    ∀ name ∈ RunName.parse text, name.kind ≠ .merged) (dir : Path) : d.HasNoMerge dir :=
  fun {place text _} _ hparse => node?_of_names (fun entry hentry htext =>
    h entry hentry text htext _ hparse rfl) place

namespace Layers

/-- A folder has the runs that it should have, and no merge. -/
theorem StoredIn.of_holds {m : Layers} (h : l.StoredIn d dir place) (hworks : Works place d d')
    (hunfinished : d'.NoUnfinished place) (hholds : d'.HoldsRuns place (runEntries m.stored))
    (hleft : m.left = none) (hnone : d'.HasNoMerge dir) : m.StoredIn d' dir place where
  folder := h.folder.evolves hworks.toEvolves
  sound := hworks.sound h.sound
  tidy := hworks.tidy h.tidy
  unfinished := hunfinished
  holds := hholds
  left := by
    rw [leftover, hleft]
    exact ⟨trivial, fun _ hid => (List.not_mem_nil hid).elim,
      fun hid _ => hnone.at (h.folder.evolves hworks.toEvolves) hid⟩

/-- Runs that were opened show what they did if their files have not changed. -/
theorem ReadBy.shows_congr (h : l.ReadBy c d place) (hevolves : d.Evolves d')
    (hfiles : ∀ run ∈ c.generation.runs, d'.file run.file.fileId = d.file run.file.fileId) :
    List.Forall₂ (Run.Shows d') c.generation.runs (runEntries l.runs) := by
  refine List.forall₂_iff_zip.mpr ⟨List.Forall₂.length_eq h.shows, fun {run r} hmem => ?_⟩
  exact (List.forall₂_iff_zip.mp h.shows).2 hmem |>.congr hevolves.size
    (by rw [hfiles run (List.of_mem_zip hmem).1])

/-- The runs that were opened are read although the generation was given up. -/
theorem ShownBy.retired (h : l.ShownBy c d place) (hevolves : d.Evolves d')
    (hfiles : ∀ run ∈ c.generation.runs, d'.file run.file.fileId = d.file run.file.fileId)
    (stored : List (Nat × List Write)) : (l.cutOff stored).ShownBy c.retired d' place where
  toBufferedBy := { h.toBufferedBy with flushing := h.flushing }
  toReadBy := {
    roomy := h.roomy
    blockSize_le := h.blockSize_le
    dir_eq := by rw [Core.generation_retired]; exact h.dir_eq
    blockSize_eq := by rw [Core.generation_retired]; exact h.blockSize_eq
    live := by rw [Core.generation_retired]; rfl
    shows := by
      rw [Core.generation_retired]
      exact h.shows_congr hevolves hfiles
    stands := nofun
    lt_flushingRank := h.lt_flushingRank }

/-- What is done beside the runs that were opened changes nothing of what is read. -/
theorem ShownBy.beside (h : l.ShownBy c d place) (hevolves : d.Evolves d')
    (hfiles : ∀ run ∈ c.generation.runs, d'.file run.file.fileId = d.file run.file.fileId)
    (hnodes : ∀ r ∈ runEntries l.runs, d'.node? ((RunName.mk .finished r.1).placeIn place) =
      d.node? ((RunName.mk .finished r.1).placeIn place)) : l.ShownBy c d' place where
  toBufferedBy := h.toBufferedBy
  toReadBy := {
    h.toReadBy with
    shows := h.shows_congr hevolves hfiles
    stands := fun hlive => by
      have hstands := h.stands hlive
      refine List.forall₂_iff_zip.mpr ⟨List.Forall₂.length_eq hstands, fun {run r} hmem => ?_⟩
      have hrun := (List.forall₂_iff_zip.mp hstands).2 hmem
      obtain ⟨hrunMem, hr⟩ := List.of_mem_zip hmem
      exact ⟨hrun.toShows.congr hevolves.size (by rw [hfiles run hrunMem]), hrun.path_eq,
        (hnodes r hr).trans hrun.node⟩ }

variable {merged : List Entry} {lost : List Run} {g : Generation}

/-- The folder after a merge was given up. -/
theorem StoredIn.unwritten {e : StoreError} (h : l.StoredIn d dir place)
    (hg : Mirrors d place g (runEntries l.stored))
    (hmerge : MergeOutcome d g.dir place g.mergedId merged (.error e, d')) (hleft : l.left = none)
    (hnone : d'.HasNoMerge dir) : l.StoredIn d' dir place := by
  have hid := hg.mergedId_lt
  obtain ⟨hchanges, -⟩ := hmerge.changesAt hg.folder (hg.roomy.admits hid)
  refine h.of_holds (hchanges.works hg.sound (isRunPlace (mergedName g) hid place))
    (fun {id} hlt => ?_) (hmerge.holdsRuns hg) hleft hnone
  rw [hchanges.others (RunName.placeIn_ne_of_kind _ _ hlt hid (by simp))]
  exact h.unfinished hlt

/-- The folder after some of the runs were removed, with no merge to take their place. -/
theorem StoredIn.halfway {rest : List Run} (h : l.StoredIn d dir place)
    (hg : Mirrors d place g (runEntries l.runs)) (hsplit : g.runs = lost ++ rest)
    (hthinned : Thinned place g lost merged d d')
    (hgone : ∀ q ∈ runPlaces lost place, d'.node? q = none) (hleft : l.left = none)
    (hnone : d'.HasNoMerge dir) :
    (l.cutOff (l.runs.drop lost.length)).StoredIn d' dir place := by
  have hid := hg.mergedId_lt
  have hlostLt : ∀ run ∈ lost, run.id < RunName.idLimit := fun run hrun =>
    hg.id_lt (hsplit ▸ List.mem_append_left rest hrun)
  refine h.of_holds (hthinned.works hg.sound hid hlostLt) (fun {id} hlt => ?_) ?_ hleft hnone
  · rw [hthinned.node?_other hid hlostLt hlt (by simp) (by simp [mergedName])]
    exact h.unfinished hlt
  · have hholds := hthinned.holdsRuns hg hsplit hgone
    rwa [runEntries, ← List.map_drop] at hholds

/-- A compaction that fails leaves the runs that were opened to be read. If there is no merge in the
folder, then the folder has what stands for them. -/
theorem HeldBy.compactRuns_failed (h : l.HeldBy c d place) (hsane : l.Sane)
    (htruthful : d.Truthful) (hlive : l.live = true) (hleft : l.left = none) {e : StoreError}
    (herror : (Core.compactRuns c d).1.1 = .error e)
    (hsmall : ∀ file, ((Core.compactRuns c d).2.file file).content.length < positionLimit) :
    ∃ m c' d', Core.compactRuns c d = ((.error e, c'), d') ∧ (c' = c ∨ c' = c.retired) ∧
      l.FailsTo m ∧ m.ShownBy c' d' place ∧ Works place d d' ∧
      (d'.HasNoMerge c.config.dir → m.StoredIn d' c.config.dir place) := by
  by_cases hany : l.runs = [] ∧ l.buffered = []
  · rw [h.toShownBy.compactRuns_of_nothing hany] at herror
    cases herror
  have hg := h.mirrors hsane hlive
  obtain ⟨merged, hasc, hmem, houtcome⟩ := Core.compactRuns_spec hg.among (h.hasLayers_iff.mpr hany)
    (h.merged_notFolder hg.mergedId_lt)
  obtain rfl : merged = Log.entries l.merge := h.merge_eq hasc hmem
  generalize Core.compactRuns c d = result at herror hsmall houtcome
  obtain ⟨⟨r, c'⟩, d'⟩ := result
  obtain rfl : r = .error e := herror
  have hworks := houtcome.works hg
  have hfiles : ∀ run ∈ c.generation.runs, d'.file run.file.fileId = d.file run.file.fileId :=
    fun run hrun => houtcome.file_eq hg hrun
  have hretired (stored : List (Nat × List Write)) :=
    h.toShownBy.retired hworks.toEvolves hfiles stored
  cases houtcome with
  | unwritten hmerge =>
    -- the runs were not touched, and the generation stays live
    refine ⟨l, c, d', rfl, .inl rfl, .inl rfl, ?_, hworks,
      h.toStoredIn.unwritten (hsane.stored_of_live hlive ▸ hg) hmerge hleft⟩
    refine h.toShownBy.beside hworks.toEvolves hfiles fun r hr => ?_
    have hid := hg.mergedId_lt
    obtain ⟨hchanges, -⟩ := hmerge.changesAt hg.folder (hg.roomy.admits hid)
    exact hchanges.others (RunName.placeIn_ne_of_kind _ _ (hg.holds.lt_idLimit hr) hid (by simp))
  | merged hswap =>
    cases hswap with
    | @halfway _ lost rest d₁ _ split thinned gone still struck left =>
      by_cases hnothing : l.merge = []
      · -- nothing is live, so that the newest of the runs read like all of them
        refine ⟨_, c.retired, d', rfl, .inr rfl,
          .inr ⟨_, hsane.standsIn_drop hnothing lost.length, rfl⟩, hretired _, hworks,
          fun hnone => ?_⟩
        have hnone₁ : d₁.HasNoMerge c.config.dir := fun hfolder hparse => by
          rw [← still.node?]
          exact hnone (hfolder.evolves still.evolves) hparse
        exact (h.toStoredIn.halfway hg split thinned (gone.resolve_right htruthful.not_misled) hleft
          hnone₁).still still
      · -- the merge is there for as long as it has not got its name
        refine ⟨_, c.retired, d', rfl, .inr rfl, .inr ⟨_, l.standsIn_mergedRuns, rfl⟩, hretired _,
          hworks, fun hnone => ?_⟩
        obtain ⟨file, hnode, -⟩ :=
          thinned.merge fun hnil => hnothing (Log.entries_eq_nil_iff.mp hnil)
        have hgone := hnone.at (h.folder.evolves hworks.toEvolves) hg.mergedId_lt
        rw [still.node?, show RunName.mk .merged c.generation.mergedId = mergedName c.generation
          from rfl, hnode] at hgone
        cases hgone
    | @unread _ d₁ _ swapped still why =>
      -- the merge has come in the place of the runs, but nobody has opened it
      refine ⟨_, c.retired, d', rfl, .inr rfl, .inr ⟨_, l.standsIn_mergedRuns, rfl⟩, hretired _,
        hworks, fun _ => ?_⟩
      have hstored := (h.toStoredIn.swapped hg swapped htruthful.not_misled (fun file => by
        rw [← still.file]
        exact hsmall file) hany).still still
      rw [compacted_of_any hany] at hstored
      have hkept : l.left.filter (·.1 ≠ mergedRun l.runs) = l.left := by rw [hleft]; rfl
      rw [hkept] at hstored
      exact { hstored with left := hstored.left }

/-- A session in which a compaction fails reads what it read before, and if there is no merge in
its folder, then it is as if the runs of the folder had always stood for those that are read. -/
theorem Describes.failCompaction (h : l.Describes start s dir place) (htruthful : start.Truthful)
    (hleft : l.left = none) (hright : l.Right) {planned : Nat}
    (htask : s.store.worker.tasks.head? = some (.compaction planned))
    (hfails : (Task.compaction planned).result (s.store.core, s.disk) ≠ .ok ())
    (hwithin : (s.step .runNext).Within) :
    ∃ m : Layers, m.Sane ∧ m.Right ∧ m.left = none ∧ (s.step .runNext).writes = m.writes ∧
      m.ShownBy (s.step .runNext).store.core (s.step .runNext).disk place ∧
      ((s.step .runNext).disk.HasNoMerge dir → m.Describes start (s.step .runNext) dir place) := by
  obtain ⟨tasks, htasks⟩ := List.head?_eq_some_iff.mp htask
  obtain ⟨worker, hdone, rfl, haccepting, hcrashed, -⟩ :=
    Store.runNext_eq s.store s.disk htasks
  have hawaits := h.awaits
  rw [htasks] at hawaits
  obtain ⟨hdoes, hpending⟩ := hawaits
  generalize hchores : l.queue = chores at hdoes hpending
  cases hdoes with
  | @cons _ _ _ chores hfirst hrest =>
    cases hfirst with
    | compaction hlt =>
      have hnone := h.sane.notMem_of_cons hchores
      -- if it were planned for a generation that was given up, it would do nothing
      have hplanned : s.store.core.isLive planned = true := by
        by_contra hnot
        apply hfails
        rw [Task.result, Task.run]
        simp only [if_neg hnot]
      have hlive := h.sane.live_of_planned (by rw [hchores, hplanned]; exact List.mem_cons_self)
      have hrun := Task.run_compaction hplanned s.disk
      obtain ⟨e, herror⟩ : ∃ e, (Core.compactRuns s.store.core s.disk).1.1 = .error e := by
        rw [Task.result, hrun] at hfails
        cases hresult : (Core.compactRuns s.store.core s.disk).1.1 with
        | ok => exact absurd (by rw [hresult]; rfl) hfails
        | error e => exact ⟨e, rfl⟩
      rw [Session.Within, Session.step, hdone, Task.effect, hrun] at hwithin
      obtain ⟨m, c', d', hcompact, hc', hfailsTo, hshown, hworks, hstored⟩ :=
        (h.held.requeue chores).compactRuns_failed (h.sane.dropCompaction hchores)
          (htruthful.evolves h.since) hlive hleft herror hwithin.lengths
      obtain ⟨hwrites, hclosed, hleft', hqueue''⟩ := hfailsTo.same
      obtain ⟨hflushing, hconfig⟩ : c'.flushing = s.store.core.flushing ∧
          c'.config = s.store.core.config := by
        rcases hc' with rfl | rfl <;> exact ⟨rfl, rfl⟩
      have hsane := hfailsTo.sane (h.sane.dropCompaction hchores) hnone
      have hcleared : m.ShownBy c'.clearCompaction d' place :=
        { hshown with flushing := hshown.flushing, live := hshown.live }
      rw [Session.step, hdone, Task.effect, hrun, hcompact]
      refine ⟨m, hsane, hfailsTo.right ⟨hright.all, hright.stored⟩, hleft'.trans hleft,
        h.writes.trans hwrites.symm, hcleared, fun hnoMerge => ?_⟩
      have hheld : m.HeldBy c'.clearCompaction d' place :=
        { hcleared with
          toStoredIn := by
            rw [Core.clearCompaction]
            exact hconfig ▸ hstored (h.dir_eq ▸ hnoMerge) }
      refine h.moved hheld hsane ⟨?_, ?_⟩ hworks (h.writes.trans hwrites.symm) hclosed hconfig
        haccepting hcrashed
      · rw [hqueue'']
        exact Awaits.compacted hrest hnone hflushing
      · rw [hqueue'']
        exact (List.any_eq_false.mpr fun chore hmem => by simp [hnone chore hmem]).symm

end Layers

/-- A compaction fails, whatever has struck it. The last writes are read, and if no merge is left in
the folder, they are read in every state that the session reaches after that. -/
theorem failed_compaction_keeps_writes {before : List Event} (hstarts : s.StartsIn config d)
    (hbefore : s.Fits config.dir before)
    {plan : Nat → Option Fault} (htruthful : ((s.run before).disk.startedWith plan).Truthful)
    {planned : Nat}
    (htask : (s.run before).store.worker.tasks.head? = some (.compaction planned))
    (hfails : (Task.compaction planned).result
      ((s.run before).store.core, (s.run before).disk.startedWith plan) ≠ .ok ())
    (hwithin : (((s.run before).facing plan).step .runNext).Within) :
    (((s.run before).facing plan).step .runNext).ReadsLastWrites ∧
      ((((s.run before).facing plan).step .runNext).disk.HasNoMerge config.dir →
        ∀ events, ((((s.run before).facing plan).step .runNext).facing noFaults).Fits
            config.dir events →
          (((((s.run before).facing plan).step .runNext).facing noFaults).run
            events).ReadsLastWrites) := by
  obtain ⟨place, l, hdescribes, hright, hleft⟩ := hstarts.right hbefore
  obtain ⟨m, hsane, hright', hleft', hwrites, hshown, hdone⟩ :=
    (hdescribes.facing plan).failCompaction htruthful hleft hright htask hfails hwithin
  refine ⟨hshown.readsLastWrites hsane hright' hwrites, fun hnone events hfits => ?_⟩
  exact (((hdone hnone).facing noFaults).run (faultless_startedWith _) hfits).readsLastWrites
    (hright'.run hsane hleft' events)

theorem truthful_strikesAt (operation : Nat) (d : Disk) :
    (d.startedWith (strikesAt operation)).Truthful := by
  intro n fault _ hfault
  have heq : strikesAt operation n = some fault := hfault
  rw [strikesAt] at heq
  split at heq
  · cases heq
    decide
  · cases heq

/-- Two runs and a compaction that has something to merge. -/
def plannedMerge : List Event :=
  [.upsert (.put [1] [10]), .flush, .runNext, .upsert (.put [2] [20]), .flush, .runNext, .compact]

/-- Two runs and a compaction of which nothing remains. -/
def plannedRemoval : List Event :=
  plannedMerge.take 6 ++ [.upsert (.tombstone [1]), .upsert (.tombstone [2]), .compact]

/-- A flush, and the folder opened again. -/
def flushAndReopen : List Event :=
  [.upsert (.put [3] [30]), .flush, .runNext, .close, .reopen 2 smallConfig]

/-- One of two runs was removed when the compaction failed. -/
theorem plannedRemoval_keeps_writes :
    (((newSession.run plannedRemoval).facing (strikesAt 4)).step .runNext).ReadsLastWrites ∧
      (((((newSession.run plannedRemoval).facing (strikesAt 4)).step .runNext).facing
        noFaults).run flushAndReopen).ReadsLastWrites := by
  obtain ⟨hbefore, htask, hfails, hwithin, hnames, hfits⟩ :
      newSession.Fits smallConfig.dir plannedRemoval ∧
      (newSession.run plannedRemoval).store.worker.tasks.head? = some (.compaction 2) ∧
      (Task.compaction 2).result ((newSession.run plannedRemoval).store.core,
        (newSession.run plannedRemoval).disk.startedWith (strikesAt 4)) ≠ .ok () ∧
      (((newSession.run plannedRemoval).facing (strikesAt 4)).step .runNext).Within ∧
      (∀ entry ∈ (((newSession.run plannedRemoval).facing (strikesAt 4)).step .runNext).disk.nodes,
        ∀ text ∈ entry.1.getLast?, ∀ name ∈ RunName.parse text, name.kind ≠ .merged) ∧
      ((((newSession.run plannedRemoval).facing (strikesAt 4)).step .runNext).facing noFaults).Fits
        smallConfig.dir flushAndReopen := by
    decide +kernel
  obtain ⟨hnow, hlater⟩ := failed_compaction_keeps_writes newSession_startsIn hbefore
    (truthful_strikesAt 4 _) htask hfails hwithin
  exact ⟨hnow, hlater (hasNoMerge_of_names hnames _) flushAndReopen hfits⟩

/-- What is read of a key, and the last write of it. -/
def Session.reads (s : Session) (key : Bytes) : Except StoreError (Option Entry) × Option Entry :=
  (s.store.get s.disk key, Log.read s.writes key)

/-- The merge is left and one of two runs was removed when the compaction failed. The next flush
loads what the folder has, so that the writes of the lost run are not read any more. -/
theorem failed_compaction_loses_writes :
    (Task.compaction 2).result ((newSession.run plannedMerge).store.core,
        (newSession.run plannedMerge).disk.startedWith (strikesAt 3)) ≠ .ok () ∧
      ((((newSession.run plannedMerge).facing (strikesAt 3)).step .runNext).facing noFaults).Fits
        smallConfig.dir (flushAndReopen.take 3) ∧
      (((((newSession.run plannedMerge).facing (strikesAt 3)).step .runNext).facing noFaults).run
        (flushAndReopen.take 3)).reads [1] = (.ok none, some (.put [1] [10])) := by
  decide +kernel

end LayeredStore
