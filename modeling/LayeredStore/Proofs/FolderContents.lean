import LayeredStore.Proofs.Compaction

/-!
# What becomes of the runs of a folder

The steps of a flush, of a compaction and of recovery change nothing but the run files of the
folder (`Disk.Works`), so that every other file stays what it is and where it is. Of the run files
they leave `Disk.HoldsRuns` with a known list of runs: some of them are gone
(`HoldsRuns.thinned`), one has come (`Added.holdsRuns`), or all have given way to a merge
(`Swapped.holdsRuns`).
-/

namespace LayeredStore

open Disk

namespace Disk

variable {d d' d'' : Disk} {dir place : Path} {runs : List (Nat × List Entry)}

/-- A place that has the name of a run file. -/
def IsRunPlace (place q : Path) : Prop :=
  ∃ name : RunName, name.id < RunName.idLimit ∧ q = name.placeIn place

theorem isRunPlace (name : RunName) (h : name.id < RunName.idLimit) (place : Path) :
    IsRunPlace place (name.placeIn place) := ⟨name, h, rfl⟩

theorem not_isRunPlace {text : String} (h : RunName.parse text = none) :
    ¬ IsRunPlace place (place ++ [text]) := by
  rintro ⟨name, hid, heq⟩
  exact RunName.text_ne hid h (append_singleton_inj.mp heq).symm

/-- Nothing changed but the run files of a folder. -/
structure Works (place : Path) (d d' : Disk) : Prop extends Evolves d d' where
  others : ∀ {q : Path}, ¬ IsRunPlace place q → d'.node? q = d.node? q
  files : ∀ {q : Path} {id : Nat}, ¬ IsRunPlace place q → d.node? q = some (.file id) →
    d'.file id = d.file id

theorem Works.trans (h : Works place d d') (h' : Works place d' d'') : Works place d d'' where
  toEvolves := h.toEvolves.trans h'.toEvolves
  others hq := (h'.others hq).trans (h.others hq)
  files hq hnode := (h'.files hq (by rw [h.others hq, hnode])).trans (h.files hq hnode)

theorem Still.works (h : d.Still d') (place : Path) : Works place d d' where
  toEvolves := h.evolves
  others _ := h.node? _
  files _ _ := h.file _

theorem Works.refl (place : Path) (d : Disk) : Works place d d := (Still.refl d).works place

/-- Names that are not the name of a run file stay what they are. -/
theorem Works.tidyOf (h : Works place d d') {kind : RunKind} (htidy : d.TidyOf place kind) :
    d'.TidyOf place kind := by
  intro text name hthere hparse hkind
  by_cases hrun : IsRunPlace place (place ++ [text])
  · obtain ⟨other, hid, heq⟩ := hrun
    obtain rfl : text = other.text := append_singleton_inj.mp heq
    rw [RunName.parse_text hid] at hparse
    rw [Option.some.inj hparse]
  · exact htidy (h.others hrun ▸ hthere) hparse hkind

theorem Works.tidy (h : Works place d d') (htidy : d.Tidy place) : d'.Tidy place :=
  fun hthere hparse => h.tidyOf (htidy.of _) hthere hparse rfl

theorem ChangesAt.works {q : Path} (h : ChangesAt q d d') (hsound : d.Sound)
    (hq : IsRunPlace place q) : Works place d d' where
  toEvolves := h.toEvolves
  others hother := h.others fun heq => hother (heq ▸ hq)
  files hother hnode := h.file_of_ne hsound hnode fun heq => hother (heq ▸ hq)

/-- Run files changed their names or lost them, and that is all. -/
structure Relabels (place : Path) (d d' : Disk) : Prop extends Evolves d d' where
  others : ∀ {q : Path}, ¬ IsRunPlace place q → d'.node? q = d.node? q
  files : ∀ id : Nat, d'.file id = d.file id

theorem Relabels.works (h : Relabels place d d') : Works place d d' where
  toEvolves := h.toEvolves
  others := h.others
  files _ _ := h.files _

theorem Relabels.trans (h : Relabels place d d') (h' : Relabels place d' d'') :
    Relabels place d d'' where
  toEvolves := h.toEvolves.trans h'.toEvolves
  others hq := (h'.others hq).trans (h.others hq)
  files id := (h'.files id).trans (h.files id)

theorem Still.relabels (h : d.Still d') (place : Path) : Relabels place d d' where
  toEvolves := h.evolves
  others _ := h.node? _
  files := h.file

theorem relabels_moved {source target : Path} {id : Nat} (hsource : IsRunPlace place source)
    (htarget : IsRunPlace place target) (hnode : d.node? source = some (.file id))
    (hfree : d.node? target ≠ some .folder) :
    Relabels place d (d.moved source target id) := by
  have hsourceNe : source ≠ [] := by
    obtain ⟨name, -, rfl⟩ := hsource
    exact name.placeIn_ne_nil place
  have htargetNe : target ≠ [] := by
    obtain ⟨name, -, rfl⟩ := htarget
    exact name.placeIn_ne_nil place
  refine ⟨evolves_moved hsourceNe htargetNe hnode hfree, ?_, fun _ => rfl⟩
  intro q hq
  rw [node?_moved d id hsourceNe htargetNe, if_neg, if_neg]
  · rintro rfl
    exact hq hsource
  · rintro rfl
    exact hq htarget

/-- What there is once a merge has become a run. -/
theorem node?_moved_run (d : Disk) {m file : Nat} (hm : m < RunName.idLimit) (name : RunName)
    (hid : name.id < RunName.idLimit) :
    (d.moved ((RunName.mk .merged m).placeIn place) ((RunName.mk .finished m).placeIn place)
        file).node? (name.placeIn place) =
      if name = .mk .finished m then some (.file file)
      else if name = .mk .merged m then none
      else d.node? (name.placeIn place) := by
  have hplace (other : RunName) (hother : other.id < RunName.idLimit) :
      name.placeIn place = other.placeIn place ↔ name = other :=
    ⟨fun heq => RunName.placeIn_inj heq hid hother, fun heq => by rw [heq]⟩
  rw [node?_moved d file (RunName.placeIn_ne_nil _ place) (RunName.placeIn_ne_nil _ place)]
  simp only [hplace (.mk .finished m) hm, hplace (.mk .merged m) hm]

/-- The runs whose names are still there. -/
theorem HoldsRuns.thinned (h : d.HoldsRuns place runs) (keep : Nat → Bool)
    (hnode : ∀ {id : Nat}, id < RunName.idLimit → d'.node? ((RunName.mk .finished id).placeIn place) =
      if keep id then d.node? ((RunName.mk .finished id).placeIn place) else none)
    (hfile : ∀ {id file : Nat}, id < RunName.idLimit →
      d.node? ((RunName.mk .finished id).placeIn place) = some (.file file) →
        (d'.file file).content = (d.file file).content) :
    d'.HoldsRuns place (runs.filter fun r => keep r.1) where
  ascending := h.ascending.filter _
  complete {id} hid hthere := by
    rw [hnode hid] at hthere
    by_cases hkeep : keep id = true
    · rw [if_pos hkeep] at hthere
      obtain ⟨r, hr, rfl⟩ := List.mem_map.mp (h.complete hid hthere)
      exact List.mem_map_of_mem (List.mem_filter.mpr ⟨hr, hkeep⟩)
    · rw [if_neg hkeep] at hthere
      cases hthere
  lt_idLimit hr := h.lt_idLimit (List.mem_of_mem_filter hr)
  isRun {r} hr := by
    obtain ⟨hmem, hkeep⟩ := List.mem_filter.mp hr
    obtain ⟨file, hnode', hrun⟩ := h.isRun hmem
    refine ⟨file, ?_, ?_⟩
    · rw [hnode (h.lt_idLimit hmem), if_pos hkeep, hnode']
    · rw [hfile (h.lt_idLimit hmem) hnode']
      exact hrun

theorem HoldsRuns.congr (h : d.HoldsRuns place runs)
    (hnode : ∀ {id : Nat}, id < RunName.idLimit → d'.node? ((RunName.mk .finished id).placeIn place) =
      d.node? ((RunName.mk .finished id).placeIn place))
    (hfile : ∀ {id file : Nat}, id < RunName.idLimit →
      d.node? ((RunName.mk .finished id).placeIn place) = some (.file file) →
        (d'.file file).content = (d.file file).content) : d'.HoldsRuns place runs := by
  have := h.thinned (fun _ => true) (fun hid => by rw [hnode hid, if_pos rfl]) hfile
  rwa [List.filter_true] at this

/-- What is done to the file of a merge leaves the runs. -/
theorem HoldsRuns.besideMerge (h : d.HoldsRuns place runs) (hsound : d.Sound) {id : Nat}
    (hid : id < RunName.idLimit)
    (hchanges : ChangesAt ((RunName.mk .merged id).placeIn place) d d') :
    d'.HoldsRuns place runs := by
  have hne {other : Nat} (hlt : other < RunName.idLimit) :
      (RunName.mk .finished other).placeIn place ≠ (RunName.mk .merged id).placeIn place :=
    RunName.placeIn_ne_of_kind _ _ hlt hid (by simp)
  exact h.congr (fun hlt => hchanges.others (hne hlt)) fun hlt hnode => by
    rw [hchanges.file_of_ne hsound hnode (hne hlt)]

/-- A run of a number comes in the place of those from the number on. -/
theorem HoldsRuns.added (h : d.HoldsRuns place runs) {id file : Nat} {entries : List Entry}
    (hid : id < RunName.idLimit) (hle : ∀ r ∈ runs, r.1 ≤ id)
    (hnode : ∀ {other : Nat}, other < RunName.idLimit → other ≠ id →
      d'.node? ((RunName.mk .finished other).placeIn place) =
        d.node? ((RunName.mk .finished other).placeIn place))
    (hfile : ∀ {other file : Nat}, other < RunName.idLimit →
      d.node? ((RunName.mk .finished other).placeIn place) = some (.file file) →
        (d'.file file).content = (d.file file).content)
    (hthere : d'.node? ((RunName.mk .finished id).placeIn place) = some (.file file))
    (hrun : IsRun (d'.file file).content entries) :
    d'.HoldsRuns place (runs.filter (·.1 < id) ++ [(id, entries)]) where
  ascending := by
    rw [List.pairwise_append]
    refine ⟨h.ascending.filter _, by simp, ?_⟩
    intro a ha b hb
    rw [List.mem_singleton.mp hb]
    simpa using (List.mem_filter.mp ha).2
  complete {other} hother hnew := by
    rw [List.map_append, List.mem_append]
    by_cases heq : other = id
    · right
      simp [heq]
    · left
      rw [hnode hother heq] at hnew
      obtain ⟨r, hr, rfl⟩ := List.mem_map.mp (h.complete hother hnew)
      refine List.mem_map_of_mem (List.mem_filter.mpr ⟨hr, ?_⟩)
      have := hle r hr
      simp only [decide_eq_true_eq]
      omega
  lt_idLimit {r} hr := by
    rcases List.mem_append.mp hr with hr | hr
    · exact h.lt_idLimit (List.mem_of_mem_filter hr)
    · rw [List.mem_singleton.mp hr]
      exact hid
  isRun {r} hr := by
    rcases List.mem_append.mp hr with hr | hr
    · obtain ⟨hmem, hlt⟩ := List.mem_filter.mp hr
      obtain ⟨other, hnode', hrun'⟩ := h.isRun hmem
      refine ⟨other, ?_, ?_⟩
      · rw [hnode (h.lt_idLimit hmem) (Nat.ne_of_lt (by simpa using hlt)), hnode']
      · rw [hfile (h.lt_idLimit hmem) hnode']
        exact hrun'
    · rw [List.mem_singleton.mp hr]
      exact ⟨file, hthere, hrun⟩

end Disk

namespace Generation

variable {d d' : Disk} {dir place : Path} {runs : List (Nat × List Entry)} {g : Generation}
  {merged : List Entry} {lost : List Run}

/-! ## A flush -/

theorem Added.works {source target : RunName} {entries : List Entry}
    (h : Added place source target entries d d') (hsound : d.Sound)
    (hsource : source.id < RunName.idLimit) (htarget : target.id < RunName.idLimit) :
    Works place d d' where
  toEvolves := h.toEvolves
  others hq := h.others (fun heq => hq ⟨source, hsource, heq⟩) fun heq => hq ⟨target, htarget, heq⟩
  files hq hnode := h.files (hsound.lt_size hnode) fun hplace =>
    hq ⟨source, hsource, hsound.unique hnode hplace⟩

/-- A finished run keeps its file when another comes. -/
theorem Added.file_eq {id : Nat} {entries : List Entry}
    (h : Added place (.mk .unfinished id) (.mk .finished id) entries d d') (hsound : d.Sound)
    (hid : id < RunName.idLimit) (name : RunName) (hname : name.id < RunName.idLimit)
    (hkind : name.kind ≠ .unfinished) {file : Nat}
    (hnode : d.node? (name.placeIn place) = some (.file file)) : d'.file file = d.file file :=
  h.files (hsound.lt_size hnode) fun hplace =>
    RunName.placeIn_ne_of_kind name (.mk .unfinished id) hname hid hkind
      (hsound.unique hnode hplace)

theorem Added.holdsRuns {id : Nat} {entries : List Entry}
    (h : Added place (.mk .unfinished id) (.mk .finished id) entries d d') (hsound : d.Sound)
    (hruns : d.HoldsRuns place runs) (hid : id < RunName.idLimit) (hle : ∀ r ∈ runs, r.1 ≤ id)
    (hsmall : ∀ file, (d'.file file).content.length < positionLimit) :
    d'.HoldsRuns place (runs.filter (·.1 < id) ++ [(id, entries)]) := by
  obtain ⟨file, hthere, himage⟩ := h.target_there
  refine hruns.added hid hle ?_ ?_ hthere ⟨himage, hsmall file⟩
  · intro other hother hne
    exact h.others (RunName.placeIn_ne_of_kind _ _ hother hid (by simp))
      (RunName.placeIn_ne_of_id hother hid hne)
  · intro other file hother hnode
    rw [h.file_eq hsound hid (.mk .finished other) hother (by simp) hnode]

/-- Beside the places of its two names, an attempt to write a run changes nothing. -/
theorem Attempted.others {id : Nat} {items : List Item} (h : Attempted place id items d d') {q : Path}
    (hunfinished : q ≠ (RunName.mk .unfinished id).placeIn place)
    (hfinished : q ≠ (RunName.mk .finished id).placeIn place) : d'.node? q = d.node? q := by
  cases h with
  | unfinished hchanges => exact hchanges.others hunfinished
  | added _ hadded => exact hadded.others hunfinished hfinished

theorem Attempted.works {id : Nat} {items : List Item} (h : Attempted place id items d d')
    (hsound : d.Sound) (hid : id < RunName.idLimit) : Works place d d' := by
  cases h with
  | unfinished hchanges => exact hchanges.works hsound (isRunPlace (.mk .unfinished id) hid place)
  | added _ hadded => exact hadded.works hsound hid hid

/-- Where there was no unfinished file before, an attempt to write a run changes no file. -/
theorem Attempted.file_eq {id : Nat} {items : List Item} (h : Attempted place id items d d')
    (hfree : d.node? ((RunName.mk .unfinished id).placeIn place) = none) {file : Nat}
    (hfile : file < d.files.size) : d'.file file = d.file file := by
  cases h with
  | unfinished hchanges => exact hchanges.files hfile (by rw [hfree]; exact nofun)
  | added _ hadded => exact hadded.files hfile (by rw [hfree]; exact nofun)

/-! ## A compaction -/

theorem isRunPlace_of_mem (hlost : ∀ run ∈ lost, run.id < RunName.idLimit) {q : Path}
    (hq : q ∈ runPlaces lost place) : IsRunPlace place q := by
  obtain ⟨run, hrun, rfl⟩ := List.mem_map.mp hq
  exact isRunPlace (.mk .finished run.id) (hlost run hrun) place

theorem Thinned.works (h : Thinned place g lost merged d d') (hsound : d.Sound)
    (hid : g.mergedId < RunName.idLimit) (hlost : ∀ run ∈ lost, run.id < RunName.idLimit) :
    Works place d d' where
  toEvolves := h.toEvolves
  others hq := h.others (fun heq => hq ⟨mergedName g, hid, heq⟩) fun hmem =>
    hq (isRunPlace_of_mem hlost hmem)
  files hq hnode := h.files (hsound.lt_size hnode) fun hplace =>
    hq ⟨mergedName g, hid, hsound.unique hnode hplace⟩

theorem Swapped.works (h : Swapped place g merged d d') (hsound : d.Sound)
    (hid : g.mergedId < RunName.idLimit) (hruns : ∀ run ∈ g.runs, run.id < RunName.idLimit) :
    Works place d d' where
  toEvolves := h.toEvolves
  others hq := h.others (fun heq => hq ⟨mergedName g, hid, heq⟩)
    (fun hmem => hq (isRunPlace_of_mem hruns hmem)) fun _ heq => hq ⟨finalName g, hid, heq⟩
  files hq hnode := h.files (hsound.lt_size hnode) fun hplace =>
    hq ⟨mergedName g, hid, hsound.unique hnode hplace⟩

/-- Removing runs leaves the names of another kind, that of the merge apart. -/
theorem Thinned.node?_other (h : Thinned place g lost merged d d')
    (hid : g.mergedId < RunName.idLimit) (hlost : ∀ run ∈ lost, run.id < RunName.idLimit)
    {name : RunName} (hname : name.id < RunName.idLimit) (hkind : name.kind ≠ .finished)
    (hne : name ≠ mergedName g) : d'.node? (name.placeIn place) = d.node? (name.placeIn place) :=
  h.others (fun heq => hne (RunName.placeIn_inj heq hname hid))
    (notMem_runPlaces hname hkind hlost)

/-- So does putting the merge in the place of the runs. -/
theorem Swapped.node?_other (h : Swapped place g merged d d') (hid : g.mergedId < RunName.idLimit)
    (hruns : ∀ run ∈ g.runs, run.id < RunName.idLimit) {name : RunName}
    (hname : name.id < RunName.idLimit) (hkind : name.kind ≠ .finished)
    (hne : name ≠ mergedName g) : d'.node? (name.placeIn place) = d.node? (name.placeIn place) :=
  h.others (fun heq => hne (RunName.placeIn_inj heq hname hid))
    (notMem_runPlaces hname hkind hruns)
    fun _ => RunName.placeIn_ne_of_kind _ (finalName g) hname hid hkind

/-- What was given up before the runs were touched is at most a file of the merge. -/
theorem MergeOutcome.changesAt {id : Nat} {e : StoreError} (hfolder : d.FolderAt dir place)
    (hname : dir.Admits (RunName.mk .merged id).text)
    (h : MergeOutcome d dir place id merged (.error e, d')) :
    ChangesAt ((RunName.mk .merged id).placeIn place) d d' ∧
      d'.node? ((RunName.mk .merged id).placeIn place) ≠ some .folder := by
  cases h with
  | @failed d₁ _ hchanges hnotFolder _ =>
    have hfolder₁ := hfolder.evolves hchanges.toEvolves
    exact ⟨hchanges.trans (hfolder₁.changesAt_remove hname hnotFolder),
      hfolder₁.notFolder_remove hname hnotFolder⟩
  | left hchanges hnode _ _ hstill _ =>
    refine ⟨hchanges.trans (hstill.changesAt _), ?_⟩
    rw [hstill.node?, hnode]
    simp

/-- The runs are still there after a merge was given up. -/
theorem MergeOutcome.holdsRuns {e : StoreError} (hg : Mirrors d place g runs)
    (h : MergeOutcome d g.dir place g.mergedId merged (.error e, d')) : d'.HoldsRuns place runs := by
  obtain ⟨hchanges, -⟩ := h.changesAt hg.folder (hg.roomy.admits hg.mergedId_lt)
  exact hg.holds.besideMerge hg.sound hg.mergedId_lt hchanges

theorem SwapOutcome.works {c : Core} {r : Except StoreError Unit × Core}
    (hg : Mirrors d place c.generation runs) (h : SwapOutcome place c d merged (r, d')) :
    Works place d d' := by
  have hid := hg.mergedId_lt
  cases h with
  | halfway hsplit hthinned _ hstill _ _ =>
    refine (hthinned.works hg.sound hid ?_).trans (hstill.works place)
    intro run hrun
    exact hg.id_lt (hsplit ▸ List.mem_append_left _ hrun)
  | unread hswapped hstill _ =>
    exact (hswapped.works hg.sound hid fun run hrun => hg.id_lt hrun).trans (hstill.works place)
  | @done next d₁ d₂ _ hswapped hstill hload =>
    exact (hswapped.works hg.sound hid fun run hrun => hg.id_lt hrun).trans
      ((hstill.trans (Generation.still_of_load hload)).works place)

theorem CompactionOutcome.works {c : Core} {r : Except StoreError Unit × Core}
    (hg : Mirrors d place c.generation runs) (h : CompactionOutcome place c d merged (r, d')) :
    Works place d d' := by
  have hid := hg.mergedId_lt
  cases h with
  | unwritten hmerge =>
    exact (hmerge.changesAt hg.folder (hg.roomy.admits hid)).1.works hg.sound
      (isRunPlace (mergedName c.generation) hid place)
  | merged hswap => exact hswap.works hg

/-- A finished run keeps its file during a compaction, and so does every merge but the one that
the compaction writes. -/
theorem file_eq_of_files (hsound : d.Sound) (hid : g.mergedId < RunName.idLimit)
    (hfiles : ∀ {id : Nat}, id < d.files.size →
      d.node? ((mergedName g).placeIn place) ≠ some (.file id) → d'.file id = d.file id)
    (name : RunName) (hname : name.id < RunName.idLimit) (hne : name ≠ mergedName g) {file : Nat}
    (hnode : d.node? (name.placeIn place) = some (.file file)) : d'.file file = d.file file :=
  hfiles (hsound.lt_size hnode) fun hplace =>
    hne (RunName.placeIn_inj (hsound.unique hnode hplace) hname hid)

/-- However a compaction ends, it has changed no file but one at the place of the merge. -/
theorem CompactionOutcome.files {c : Core} {r : Except StoreError Unit × Core}
    (hg : Mirrors d place c.generation runs) (h : CompactionOutcome place c d merged (r, d'))
    {id : Nat} (hid : id < d.files.size)
    (happart : d.node? ((mergedName c.generation).placeIn place) ≠ some (.file id)) :
    d'.file id = d.file id := by
  cases h with
  | unwritten hmerge =>
    exact (hmerge.changesAt hg.folder (hg.roomy.admits hg.mergedId_lt)).1.files hid happart
  | merged hswap =>
    cases hswap with
    | halfway _ hthinned _ hstill _ _ => rw [hstill.file, hthinned.files hid happart]
    | unread hswapped hstill _ => rw [hstill.file, hswapped.files hid happart]
    | @done next d₁ d₂ _ hswapped hstill hload =>
      rw [(Generation.still_of_load hload).file, hstill.file, hswapped.files hid happart]

/-- However a compaction ends, the runs that were opened keep their files. -/
theorem CompactionOutcome.file_eq {c : Core} {r : Except StoreError Unit × Core}
    (hg : Mirrors d place c.generation runs) (h : CompactionOutcome place c d merged (r, d'))
    {run : Run} (hrun : run ∈ c.generation.runs) :
    d'.file run.file.fileId = d.file run.file.fileId := by
  obtain ⟨other, -, hstands⟩ := hg.among.stands_of_mem hrun
  exact h.files hg hstands.lt_size (hg.apart hrun)

theorem mem_runPlaces (hid : ∀ run ∈ lost, run.id < RunName.idLimit) {id : Nat}
    (hlt : id < RunName.idLimit) :
    (RunName.mk .finished id).placeIn place ∈ runPlaces lost place ↔ id ∈ lost.map Run.id := by
  simp only [runPlaces, List.mem_map]
  constructor
  · rintro ⟨run, hrun, heq⟩
    have := RunName.placeIn_inj heq (hid run hrun) hlt
    exact ⟨run, hrun, congrArg RunName.id this⟩
  · rintro ⟨run, hrun, rfl⟩
    exact ⟨run, hrun, rfl⟩

/-- A compaction that stopped while it removed the runs has left the newest of them. -/
theorem Thinned.holdsRuns (h : Thinned place g lost merged d d') (hg : Mirrors d place g runs)
    {rest : List Run} (hsplit : g.runs = lost ++ rest)
    (hgone : ∀ q ∈ runPlaces lost place, d'.node? q = none) :
    d'.HoldsRuns place (runs.drop lost.length) := by
  have hid := hg.mergedId_lt
  have hlostLt : ∀ run ∈ lost, run.id < RunName.idLimit := fun run hrun =>
    hg.id_lt (hsplit ▸ List.mem_append_left rest hrun)
  have hruns : d'.HoldsRuns place (runs.filter fun r => decide (r.1 ∉ lost.map Run.id)) := by
    refine hg.holds.thinned (fun id => decide (id ∉ lost.map Run.id)) (fun {id} hlt => ?_)
      fun {id file} hlt hnode => ?_
    · by_cases hmem : id ∈ lost.map Run.id
      · rw [if_neg (by simpa using hmem), hgone _ ((mem_runPlaces hlostLt hlt).mpr hmem)]
      · rw [if_pos (by simpa using hmem), h.others
          (RunName.placeIn_ne_of_kind _ _ hlt hid (by simp [mergedName]))
          fun hplace => hmem ((mem_runPlaces hlostLt hlt).mp hplace)]
    · rw [file_eq_of_files hg.sound hid h.files (.mk .finished id) hlt (by simp [mergedName]) hnode]
  have hids : (runs.take lost.length).map Prod.fst = lost.map Run.id := by
    rw [List.map_take, ← hg.among.ids_eq, hsplit, List.map_append]
    exact List.take_left' (by simp)
  have hasc : (runs.take lost.length ++ runs.drop lost.length).Pairwise fun a b => a.1 < b.1 := by
    rw [List.take_append_drop]
    exact hg.holds.ascending
  have hkeep : runs.filter (fun r => decide (r.1 ∉ lost.map Run.id)) = runs.drop lost.length := by
    conv_lhs => rw [← List.take_append_drop lost.length runs]
    rw [List.filter_append, List.filter_eq_nil_iff.mpr, List.filter_eq_self.mpr, List.nil_append]
    · intro r hr
      rw [decide_eq_true_iff, ← hids]
      intro hmem
      obtain ⟨r', hr', heq⟩ := List.mem_map.mp hmem
      exact absurd ((List.pairwise_append.mp hasc).2.2 r' hr' r hr) (by omega)
    · intro r hr
      rw [decide_eq_true_iff, not_not, ← hids]
      exact List.mem_map_of_mem hr
  rwa [hkeep] at hruns

/-- After a compaction the names of the runs are free, and every name of a run but that of the merge
stands for what it did. -/
theorem Swapped.node?_finished (h : Swapped place g merged d d') (hg : Among d place g runs)
    (hnot : ¬ d.Misled d') {id : Nat} (hlt : id < RunName.idLimit)
    (hne : merged ≠ [] → id ≠ g.mergedId) :
    d'.node? ((RunName.mk .finished id).placeIn place) =
      if id ∈ runs.map Prod.fst then none
      else d.node? ((RunName.mk .finished id).placeIn place) := by
  have hid := hg.mergedId_lt
  have hfinal : merged ≠ [] → (RunName.mk .finished id).placeIn place ≠
      (finalName g).placeIn place := fun hm => RunName.placeIn_ne_of_id hlt hid (hne hm)
  have hplaces : (RunName.mk .finished id).placeIn place ∈ runPlaces g.runs place ↔
      id ∈ runs.map Prod.fst := by
    rw [mem_runPlaces (fun run hrun => hg.id_lt hrun) hlt, hg.ids_eq]
  by_cases hmem : id ∈ runs.map Prod.fst
  · rw [if_pos hmem, h.gone.resolve_right hnot _ (hplaces.mpr hmem) hfinal]
  · rw [if_neg hmem, h.others (RunName.placeIn_ne_of_kind _ _ hlt hid (by simp [mergedName]))
      (fun hplace => hmem (hplaces.mp hplace)) hfinal]

/-- After a compaction, the merge comes before the runs of the folder that were not merged, one of
which may have had to give way to it. -/
theorem Swapped.holdsRuns_strays (h : Swapped place g merged d d') (hg : Among d place g runs)
    {strays : List (Nat × List Entry)} (hholds : d.HoldsRuns place (runs ++ strays))
    (hle : ∀ r ∈ strays, g.mergedId ≤ r.1) (hnot : ¬ d.Misled d')
    (hsmall : ∀ file, (d'.file file).content.length < positionLimit) :
    d'.HoldsRuns place ((if merged = [] then [] else [(g.mergedId, merged)]) ++
      strays.filter fun r => decide (merged ≠ [] → g.mergedId < r.1)) := by
  have hid := hg.mergedId_lt
  obtain ⟨-, hascending, hlt⟩ := List.pairwise_append.mp hholds.ascending
  refine ⟨?_, fun {other} hother hthere => ?_, fun {r} hr => ?_, fun {r} hr => ?_⟩
  · rw [List.pairwise_append]
    refine ⟨by split <;> simp, hascending.filter _, fun a ha b hb => ?_⟩
    split at ha
    · cases ha
    · next hne =>
      rw [List.mem_singleton.mp ha]
      exact of_decide_eq_true (List.mem_filter.mp hb).2 hne
  · by_cases hmerge : merged ≠ [] ∧ other = g.mergedId
    · simp [hmerge]
    have hne : merged ≠ [] → other ≠ g.mergedId := fun hm heq => hmerge ⟨hm, heq⟩
    rw [h.node?_finished hg hnot hother hne] at hthere
    split at hthere
    · cases hthere
    · next hmem =>
      have hstray := hholds.complete hother hthere
      rw [List.map_append, List.mem_append] at hstray
      obtain ⟨r, hr, rfl⟩ := List.mem_map.mp (hstray.resolve_left hmem)
      refine List.mem_map_of_mem (List.mem_append_right _ (List.mem_filter.mpr ⟨hr, ?_⟩))
      exact decide_eq_true fun hm => Nat.lt_of_le_of_ne (hle r hr) (Ne.symm (hne hm))
  · rcases List.mem_append.mp hr with hr | hr
    · split at hr
      · cases hr
      · rw [List.mem_singleton.mp hr]
        exact hid
    · exact hholds.lt_idLimit (List.mem_append_right _ (List.mem_filter.mp hr).1)
  · rcases List.mem_append.mp hr with hr | hr
    · split at hr
      · cases hr
      · next hne =>
        obtain ⟨file, hthere, himage⟩ := h.result hne
        rw [List.mem_singleton.mp hr]
        exact ⟨file, hthere, himage, hsmall file⟩
    · obtain ⟨hstray, hkept⟩ := List.mem_filter.mp hr
      have hlimit := hholds.lt_idLimit (List.mem_append_right _ hstray)
      obtain ⟨file, hthere, hrun⟩ := hholds.isRun (List.mem_append_right _ hstray)
      have hmem : r.1 ∉ runs.map Prod.fst := by
        intro hmem
        obtain ⟨r', hr', heq⟩ := List.mem_map.mp hmem
        exact absurd (hlt r' hr' r hstray) (by omega)
      refine ⟨file, ?_, ?_⟩
      · rw [h.node?_finished hg hnot hlimit fun hm => Nat.ne_of_gt (of_decide_eq_true hkept hm),
          if_neg hmem, hthere]
      · rwa [file_eq_of_files hg.sound hid h.files (.mk .finished r.1) hlimit (by simp [mergedName])
          hthere]

/-- After a compaction of all runs of the folder, the merge is the only one. -/
theorem Swapped.holdsRuns (h : Swapped place g merged d d') (hg : Mirrors d place g runs)
    (hnot : ¬ d.Misled d') (hsmall : ∀ file, (d'.file file).content.length < positionLimit) :
    d'.HoldsRuns place (if merged = [] then [] else [(g.mergedId, merged)]) := by
  have hholds : d.HoldsRuns place (runs ++ []) := by simpa using hg.holds
  simpa using h.holdsRuns_strays hg.among hholds (by simp) hnot hsmall

end Generation

end LayeredStore
