import LayeredStore.Proofs.RecoveredFolder
import LayeredStore.Proofs.RunNumerals
import LayeredStore.Proofs.StrictRecovery

/-!
# Run files and their names

Loading and recovery read the names of a folder as run files, and then go to work on the names that are
written for these. Where names are read that are not written, that comes to something else than what is
in the folder (`untidy_folders_mislead`). Where all of them are written, each run is loaded once and by
its own name (`Generation.LoadsByName`), and recovery removes and renames only what is there
(`Recovery.strict_eq`). In other folders the runs are not so loaded, or recovery does not succeed
(`run_files_by_name`).
-/

namespace LayeredStore

open Disk Generation

variable {d d' : Disk} {dir place : Path}

/-! ## Loading -/

/-- The texts of the run files of one kind are the names that are read as such. -/
theorem Disk.TidyOf.text_runIds {kind : RunKind} (h : d.TidyOf place kind) :
    ((d.runIds place kind).map fun id => (RunName.mk kind id).text) =
      (d.names place).filter fun text => (RunName.parse text).any fun name => name.kind = kind := by
  have hthere : ∀ text ∈ d.names place, (d.node? (place ++ [text])).isSome :=
    fun text htext => (mem_names d).mp htext
  rw [runIds, Recovery.idsOf, List.filterMap_filterMap, List.map_filterMap]
  generalize d.names place = names at hthere
  induction names with
  | nil => rfl
  | cons text rest ih =>
    obtain ⟨hfirst, hrest⟩ := List.forall_mem_cons.mp hthere
    rw [List.filterMap_cons, List.filter_cons, ih hrest]
    cases hparse : RunName.parse text with
    | none => rfl
    | some name =>
      by_cases hkind : name.kind = kind
      · have htext : (RunName.mk kind name.id).text = text := by
          rw [← hkind]
          exact h hfirst hparse hkind
        simp [hkind, htext]
      · simp [hkind]

/-- Runs that are opened one after the other fail with the first one that cannot be opened. -/
theorem Generation.error_of_mapM {ids : List Nat} {e : StoreError}
    (h : ids.mapM (openRun dir) d = (.error e, d')) :
    ∃ id ∈ ids, ∃ d₁, d.Still d₁ ∧
      (RunFile.openAt ((RunName.mk .finished id).path dir) d₁).1 = .error e := by
  induction ids generalizing d with
  | nil => cases h
  | cons id rest ih =>
    rw [List.mapM_cons] at h
    have hstill := still_openAt ((RunName.mk .finished id).path dir) d
    cases hopen : RunFile.openAt ((RunName.mk .finished id).path dir) d with
    | mk r d₁ =>
      rw [hopen] at hstill
      cases r with
      | error e' =>
        rw [DiskM.bind_of_error (openRun_of_error hopen)] at h
        cases h
        exact ⟨id, List.mem_cons_self, d, .refl d, by rw [hopen]⟩
      | ok file =>
        rw [DiskM.bind_of_ok (openRun_of_ok hopen)] at h
        cases hrest : rest.mapM (openRun dir) d₁ with
        | mk r d₂ =>
          cases r with
          | ok opened =>
            rw [DiskM.bind_of_ok hrest] at h
            cases h
          | error e' =>
            rw [DiskM.bind_of_error hrest] at h
            cases h
            obtain ⟨other, hother, d₃, hstill₃, hfails⟩ := ih hrest
            exact ⟨other, List.mem_cons_of_mem _ hother, d₃, hstill.trans hstill₃, hfails⟩

/-- Every name that is read as a run's is loaded once, as it is written, and by ascending number; or
the folder cannot be listed, or one of the runs cannot be opened. -/
def Generation.LoadsByName (config : Config) (place : Path) (d : Disk) : Prop :=
  ∃ ids : List Nat, ids.Pairwise (· < ·) ∧
    (ids.map fun id => (RunName.mk .finished id).text).Perm
      ((d.names place).filter fun text =>
        (RunName.parse text).any fun name => name.kind = .finished) ∧
    match (Generation.load config d).1 with
    | .ok g => g.runs.map (fun run => (run.id, run.file.path)) =
        ids.map fun id => (id, (RunName.mk .finished id).path config.dir)
    | .error e => d.Struck (Generation.load config d).2 ∨
        ∃ id ∈ ids, ∃ d₁, d.Still d₁ ∧
          (RunFile.openAt ((RunName.mk .finished id).path config.dir) d₁).1 = .error e

/-- The runs of a folder are loaded by their names just if these are the names that are written. -/
theorem Generation.loadsByName_iff {config : Config} (hfolder : d.FolderAt config.dir place)
    (hsound : d.Sound) : LoadsByName config place d ↔ d.TidyOf place .finished := by
  constructor
  · rintro ⟨ids, -, hperm, -⟩ text name hthere hparse hkind
    have hread : text ∈ (d.names place).filter fun text =>
        (RunName.parse text).any fun name => name.kind = .finished :=
      List.mem_filter.mpr ⟨(mem_names d).mpr hthere, by simp [hparse, hkind]⟩
    obtain ⟨id, -, rfl⟩ := List.mem_map.mp (hperm.mem_iff.mpr hread)
    rw [RunName.eq_of_parse_text hparse]
  · intro htidy
    refine ⟨sortBy Nat.ble (d.runIds place .finished),
      pairwise_lt_sortBy (nodup_runIds hsound htidy), ?_, ?_⟩
    · rw [← htidy.text_runIds]
      exact (sortBy_perm _ _).map _
    rcases hfolder.list with hlist | ⟨e, hlist, hs⟩
    swap
    · rw [load_of_list_error hlist]
      exact .inl hs
    rw [load_of_list hlist]
    cases hopened :
        (sortBy Nat.ble (d.runIds place .finished)).mapM (openRun config.dir) d.ticked with
    | mk r d₁ =>
      cases r with
      | error e =>
        rw [DiskM.bind_of_error hopened]
        obtain ⟨id, hid, d₂, hstill, hfails⟩ := error_of_mapM hopened
        exact .inr ⟨id, hid, d₂, (still_ticked d).trans hstill, hfails⟩
      | ok runs =>
        rw [DiskM.bind_of_ok hopened]
        have hnamed := (opened_of_mapM hopened).imp (S := fun id run =>
            (id, (RunName.mk .finished id).path config.dir) = (run.id, run.file.path)) ?_
        · have hmap := List.forall₂_map_left_iff.mpr (List.forall₂_map_right_iff.mpr hnamed)
          exact (List.forall₂_eq_eq_eq ▸ hmap).symm
        · rintro id run ⟨hid, d₂, d₃, hopen⟩
          rw [hid, (RunFile.openAt_spares hopen).1]

/-! ## Names and folders -/

/-- Every number is read back from the name that is written for it. Conversely, what is read as the
name of a run file spells its number, and is the name that is written just if the numeral is standard.
The runs of a folder are loaded by their names just if these are written ones. If the names of unfinished
runs and merges are written ones, recovery removes and renames what is there alone, and if they are not,
it does not succeed. -/
theorem run_files_by_name (hfolder : d.FolderAt dir place) (hsound : d.Sound) :
    (∀ name : RunName, name.id < RunName.idLimit → RunName.parse name.text = some name) ∧
    (∀ (text : String) (name : RunName), RunName.parse text = some name ↔
      name.id < RunName.idLimit ∧ ∃ numeral, text.toList = numeral ++ name.kind.suffix ∧
        RunName.Spells numeral name.id ∧ (name.text = text ↔ RunName.Standard numeral)) ∧
    (∀ config : Config, config.dir = dir →
      (Generation.LoadsByName config place d ↔ d.TidyOf place .finished)) ∧
    (d.TidyOf place .unfinished ∧ d.TidyOf place .merged →
      Recovery.strict dir d = some (recover dir d)) ∧
    (∀ d', recover dir d = (.ok (), d') → d.TidyOf place .unfinished ∧ d.TidyOf place .merged) := by
  refine ⟨fun _ => RunName.parse_text, fun text name => ?_, ?_, fun htidy => ?_, fun d' hdone => ?_⟩
  · rw [RunName.parse_eq_some_iff]
    refine and_congr_right fun _ => exists_congr fun numeral => and_congr_right fun hends => ?_
    exact (and_iff_left_of_imp fun hspells => RunName.text_eq_iff hends hspells).symm
  · rintro config rfl
    exact Generation.loadsByName_iff hfolder hsound
  · exact Recovery.strict_eq hfolder hsound htidy.1 htidy.2
  · exact Recovery.tidyOf_of_recovered hfolder hsound hdone

/-- Four runs are loaded, and recovery makes them two. -/
theorem fourMerges_by_name :
    RunName.parse "00000003.compacting" = some (.mk .merged 3) ∧
    Generation.LoadsByName smallConfig ["db"] fourMerges ∧
    (Generation.load smallConfig fourMerges).1.toOption.map (fun g => g.runs.map Run.id) =
      some [1, 2, 3, 5] ∧
    Recovery.strict ["db"] fourMerges = some (recover ["db"] fourMerges) ∧
    (recover ["db"] fourMerges).2.names ["db"] = ["00000003.sst", "00000005.sst"] := by
  have h := mendable_fourMerges
  obtain ⟨hread, -, hload, hstrict, -⟩ := run_files_by_name h.folder h.sound
  exact ⟨hread (.mk .merged 3) (by decide), (hload smallConfig rfl).mpr (Tidy.of h.tidy _),
    by decide +kernel, hstrict ⟨Tidy.of h.tidy _, Tidy.of h.tidy _⟩, by decide +kernel⟩

/-- A folder with the first run and with an empty file of some other name. -/
def firstRunBeside (text : String) : Disk :=
  (Disk.create (smallConfig.dir.child text) (folderOf [.mk .finished 1] [])).2

/-- A name with a short numeral is read as a run file, but it is not written. If it stands for a run
that there is, then this run is loaded twice, and if it stands for an unfinished one, recovery is to
remove what is not there, and fails. -/
theorem untidy_folders_mislead :
    RunName.parse "1.sst" = some (.mk .finished 1) ∧ (RunName.mk .finished 1).text ≠ "1.sst" ∧
    (Generation.load smallConfig (firstRunBeside "1.sst")).1.toOption.map
      (fun g => g.runs.map Run.id) = some [1, 1] ∧
    Recovery.strict ["db"] (firstRunBeside "1.sst.tmp") = none ∧
    (recover ["db"] (firstRunBeside "1.sst.tmp")).1 = .error (.io (.system .noEntry)) := by
  decide +kernel

end LayeredStore
