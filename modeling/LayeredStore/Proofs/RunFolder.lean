import LayeredStore.Proofs.RunNames
import LayeredStore.Proofs.RunWriting
import LayeredStore.Recovery
import Mathlib.Data.List.Pairwise

/-!
# The run files of a folder

`Disk.HoldsRuns d place runs` says which runs the folder at a place has, by ascending number, and
which entries each of them holds. Loading such a folder opens exactly these runs
(`Generation.load_spec`), and a generation goes on showing them for as long as their files keep
their content, whatever becomes of their names (`Run.Shows`). Writing a stream as the next run
adds it to the folder (`Generation.persist_spec`).
-/

namespace LayeredStore

open Disk

/-- The place of a run file in the folder at `place`. -/
def RunName.placeIn (name : RunName) (place : Path) : Path := place ++ [name.text]

theorem RunName.placeIn_ne_nil (name : RunName) (place : Path) : name.placeIn place ≠ [] := by
  simp [placeIn]

theorem RunName.placeIn_inj {name other : RunName} {place : Path}
    (h : name.placeIn place = other.placeIn place) (hname : name.id < idLimit)
    (hother : other.id < idLimit) : name = other :=
  text_inj (append_singleton_inj.mp h) hname hother

theorem RunName.placeIn_ne_of_kind (name other : RunName) {place : Path}
    (hname : name.id < idLimit) (hother : other.id < idLimit) (hkind : name.kind ≠ other.kind) :
    name.placeIn place ≠ other.placeIn place := by
  intro heq
  exact hkind (congrArg kind (placeIn_inj heq hname hother))

theorem RunName.placeIn_ne_of_id {kind : RunKind} {id other : Nat} {place : Path}
    (hid : id < idLimit) (hother : other < idLimit) (hne : id ≠ other) :
    (RunName.mk kind id).placeIn place ≠ (RunName.mk kind other).placeIn place := by
  intro heq
  have := placeIn_inj heq hid hother
  exact hne (congrArg RunName.id this)

namespace Disk

variable {d d' : Disk} {dir place : Path} {runs : List (Nat × List Entry)}

/-- Every name in a folder that reads as the name of a run file is the one that is written. -/
def Tidy (d : Disk) (place : Path) : Prop :=
  ∀ {text : String} {name : RunName}, (d.node? (place ++ [text])).isSome →
    RunName.parse text = some name → name.text = text

/-- Every name in a folder that reads as the name of a run file of one kind is the one that is
written. -/
def TidyOf (d : Disk) (place : Path) (kind : RunKind) : Prop :=
  ∀ {text : String} {name : RunName}, (d.node? (place ++ [text])).isSome →
    RunName.parse text = some name → name.kind = kind → name.text = text

theorem Tidy.of (h : d.Tidy place) (kind : RunKind) : d.TidyOf place kind :=
  fun hthere hparse _ => h hthere hparse

/-- The numbers of the run files of one kind in a folder. -/
def runIds (d : Disk) (place : Path) (kind : RunKind) : List Nat :=
  Recovery.idsOf kind ((d.names place).filterMap RunName.parse)

theorem mem_runIds_iff_parse {kind : RunKind} {id : Nat} : id ∈ d.runIds place kind ↔
    ∃ text, (d.node? (place ++ [text])).isSome ∧ RunName.parse text = some (.mk kind id) := by
  simp only [runIds, Recovery.idsOf, List.mem_filterMap, mem_names]
  constructor
  · rintro ⟨name, ⟨text, hthere, hparse⟩, hkind⟩
    split at hkind
    · next hk =>
      cases hk
      cases hkind
      exact ⟨text, hthere, hparse⟩
    · cases hkind
  · rintro ⟨text, hthere, hparse⟩
    exact ⟨⟨kind, id⟩, ⟨text, hthere, hparse⟩, by simp⟩

theorem lt_idLimit_of_mem_runIds {kind : RunKind} {id : Nat} (h : id ∈ d.runIds place kind) :
    id < RunName.idLimit := by
  obtain ⟨text, -, hparse⟩ := mem_runIds_iff_parse.mp h
  exact RunName.id_lt_of_parse hparse

theorem mem_runIds {kind : RunKind} (htidy : d.TidyOf place kind) {id : Nat} :
    id ∈ d.runIds place kind ↔
      id < RunName.idLimit ∧ (d.node? ((RunName.mk kind id).placeIn place)).isSome := by
  constructor
  · intro hid
    refine ⟨lt_idLimit_of_mem_runIds hid, ?_⟩
    obtain ⟨text, hthere, hparse⟩ := mem_runIds_iff_parse.mp hid
    rwa [RunName.placeIn, htidy hthere hparse rfl]
  · rintro ⟨hid, hthere⟩
    exact mem_runIds_iff_parse.mpr ⟨_, hthere, RunName.parse_text hid⟩

theorem nodup_names (h : d.Sound) (place : Path) : (d.names place).Nodup := by
  rw [names, (sortBy_perm _ _).nodup_iff]
  have hnodup := h.nodup
  rw [List.Nodup, List.pairwise_map] at hnodup
  rw [List.Nodup, List.pairwise_filterMap]
  refine hnodup.imp ?_
  rintro ⟨p, node⟩ ⟨q, other⟩ hne a ha b hb rfl
  simp only at ha hb hne
  split at ha
  · next hp =>
    split at hb
    · next hq =>
      apply hne
      rw [← List.dropLast_append_getLast? _ ha, ← List.dropLast_append_getLast? _ hb, hp, hq]
    · cases hb
  · cases ha

/-- Each number comes once just if no two names are read as the same run file. -/
theorem nodup_runIds_iff (h : d.Sound) {kind : RunKind} : (d.runIds place kind).Nodup ↔
    ∀ {text other : String} {id : Nat}, (d.node? (place ++ [text])).isSome →
      (d.node? (place ++ [other])).isSome → RunName.parse text = some (.mk kind id) →
        RunName.parse other = some (.mk kind id) → text = other := by
  have hread {text : String} {id : Nat} : ((RunName.parse text).bind fun name =>
      if name.kind = kind then some name.id else none) = some id ↔
        RunName.parse text = some (.mk kind id) := by
    cases RunName.parse text with
    | none => simp
    | some name =>
      simp only [Option.bind_some, Option.ite_none_right_eq_some, Option.some.injEq]
      exact ⟨fun ⟨hkind, hid⟩ => by rw [← hkind, ← hid], fun heq => by simp [heq]⟩
  rw [runIds, Recovery.idsOf, List.filterMap_filterMap, List.Nodup, List.pairwise_filterMap]
  simp only [hread]
  constructor
  · intro hnodup text other id hthere hthere' hparse hparse'
    have : Std.Symm fun text other : String => ∀ a, RunName.parse text = some (.mk kind a) →
        ∀ b, RunName.parse other = some (.mk kind b) → a ≠ b :=
      ⟨fun _ _ h _ ha _ hb heq => h _ hb _ ha heq.symm⟩
    by_contra hne
    exact hnodup.forall ((mem_names d).mpr hthere) ((mem_names d).mpr hthere') hne _ hparse _ hparse' rfl
  · intro hsame
    refine (nodup_names h place).imp_of_mem fun htext hother hne id hparse id' hparse' heq => ?_
    subst heq
    exact hne (hsame ((mem_names d).mp htext) ((mem_names d).mp hother) hparse hparse')

theorem nodup_runIds (h : d.Sound) {kind : RunKind} (htidy : d.TidyOf place kind) :
    (d.runIds place kind).Nodup :=
  (nodup_runIds_iff h).mpr fun hthere hother hparse hparse' =>
    (htidy hthere hparse rfl).symm.trans (htidy hother hparse' rfl)

theorem pairwise_le_sortBy (l : List Nat) : (sortBy Nat.ble l).Pairwise (· ≤ ·) := by
  have hble : (sortBy Nat.ble l).Pairwise fun a b => Nat.ble a b = true := by
    apply pairwise_sortBy
    · intro a b c hab hbc
      exact Nat.ble_eq.mpr (Nat.le_trans (Nat.ble_eq.mp hab) (Nat.ble_eq.mp hbc))
    · intro a b
      rw [Bool.or_eq_true, Nat.ble_eq, Nat.ble_eq]
      exact Nat.le_total a b
  exact hble.imp Nat.ble_eq.mp

/-- Sorting different numbers puts them in strictly ascending order. -/
theorem pairwise_lt_sortBy {l : List Nat} (hnodup : l.Nodup) :
    (sortBy Nat.ble l).Pairwise (· < ·) := by
  have hne : (sortBy Nat.ble l).Pairwise (· ≠ ·) := (sortBy_perm _ _).nodup_iff.mpr hnodup
  exact (pairwise_le_sortBy l).imp₂ (fun a b => Nat.lt_of_le_of_ne) hne

/-- What is sorted is determined by its members. -/
theorem sortBy_ble_eq {l sorted : List Nat} (hnodup : l.Nodup)
    (hsorted : sorted.Pairwise (· < ·)) (hmem : ∀ n, n ∈ l ↔ n ∈ sorted) :
    sortBy Nat.ble l = sorted := by
  have hperm : (sortBy Nat.ble l).Perm sorted := by
    refine (sortBy_perm _ _).trans ?_
    rw [List.perm_ext_iff_of_nodup hnodup (hsorted.imp Nat.ne_of_lt)]
    exact hmem
  exact hperm.eq_of_pairwise (fun a b _ _ hab hba => absurd hab (Nat.lt_asymm hba))
    (pairwise_lt_sortBy hnodup) hsorted

/-- The runs that a folder has, by ascending number. -/
structure HoldsRuns (d : Disk) (place : Path) (runs : List (Nat × List Entry)) : Prop where
  ascending : runs.Pairwise fun a b => a.1 < b.1
  complete : ∀ {id : Nat}, id < RunName.idLimit →
    (d.node? ((RunName.mk .finished id).placeIn place)).isSome → id ∈ runs.map Prod.fst
  lt_idLimit : ∀ {r : Nat × List Entry}, r ∈ runs → r.1 < RunName.idLimit
  isRun : ∀ {r : Nat × List Entry}, r ∈ runs → ∃ file,
    d.node? ((RunName.mk .finished r.1).placeIn place) = some (.file file) ∧
      IsRun (d.file file).content r.2

/-- What has the name of a run is a file. -/
theorem HoldsRuns.notFolder (h : d.HoldsRuns place runs) {id : Nat} (hid : id < RunName.idLimit) :
    d.node? ((RunName.mk .finished id).placeIn place) ≠ some .folder := by
  intro hfolder
  have hmem := h.complete hid (by rw [hfolder]; rfl)
  obtain ⟨r, hr, rfl⟩ := List.mem_map.mp hmem
  obtain ⟨file, hnode, -⟩ := h.isRun hr
  rw [hnode] at hfolder
  cases hfolder

theorem HoldsRuns.sorted_ids (h : d.HoldsRuns place runs) (hsound : d.Sound)
    (htidy : d.TidyOf place .finished) :
    sortBy Nat.ble (d.runIds place .finished) = runs.map Prod.fst := by
  refine sortBy_ble_eq (nodup_runIds hsound htidy) ?_ ?_
  · rw [List.pairwise_map]
    exact h.ascending
  · intro id
    rw [mem_runIds htidy]
    constructor
    · rintro ⟨hid, hthere⟩
      exact h.complete hid hthere
    · intro hmem
      obtain ⟨r, hr, rfl⟩ := List.mem_map.mp hmem
      obtain ⟨file, hnode, -⟩ := h.isRun hr
      exact ⟨h.lt_idLimit hr, by rw [hnode]; rfl⟩

end Disk

/-! ## Opening runs -/

variable {d d' : Disk} {dir place : Path} {runs : List (Nat × List Entry)}

/-- An opened run reads as some entries for as long as its file keeps its content. -/
structure Run.Shows (d : Disk) (run : Run) (r : Nat × List Entry) : Prop where
  id_eq : run.id = r.1
  lt_size : run.file.fileId < d.files.size
  reads : ∀ {ι : Type} (disks : ι → Disk), (∀ i, ((disks i).file run.file.fileId).content =
    (d.file run.file.fileId).content) → run.file.Reads disks r.2

theorem Run.ids_eq_of_shows {opened : List Run} (h : List.Forall₂ (Run.Shows d) opened runs) :
    opened.map Run.id = runs.map Prod.fst := by
  have hids : List.Forall₂ (· = ·) (opened.map Run.id) (runs.map Prod.fst) := by
    rw [List.forall₂_map_left_iff, List.forall₂_map_right_iff]
    exact h.imp fun _ _ hrun => hrun.id_eq
  rwa [List.forall₂_eq_eq_eq] at hids

theorem Run.Shows.congr {run : Run} {r : Nat × List Entry} (h : run.Shows d r)
    (hsize : d.files.size ≤ d'.files.size)
    (hfile : (d'.file run.file.fileId).content = (d.file run.file.fileId).content) :
    run.Shows d' r :=
  ⟨h.id_eq, Nat.lt_of_lt_of_le h.lt_size hsize, fun disks hdisks =>
    h.reads disks fun i => (hdisks i).trans hfile⟩

/-- An opened run has its name still. -/
structure Run.Stands (d : Disk) (dir place : Path) (run : Run) (r : Nat × List Entry) :
    Prop extends Run.Shows d run r where
  path_eq : run.file.path = (RunName.mk .finished r.1).path dir
  node : d.node? ((RunName.mk .finished r.1).placeIn place) = some (.file run.file.fileId)

theorem Run.Stands.still {run : Run} {r : Nat × List Entry} (h : run.Stands d dir place r)
    (hstill : d.Still d') : run.Stands d' dir place r where
  toShows := h.toShows.congr (Nat.le_of_eq (by rw [hstill.files])) (by rw [hstill.file])
  path_eq := h.path_eq
  node := by rw [hstill.node?, h.node]

/-- Opening the file of a name reads the file as a run, unless the operation is struck. -/
theorem openAt_child {name : String} {file : Nat} (hfolder : d.FolderAt dir place)
    (hname : dir.Admits name) (hnode : d.node? (place ++ [name]) = some (.file file)) :
    RunFile.openAt (dir.child name) d =
        (RunFile.parse (dir.child name) file (d.file file).content, d.ticked) ∨
      ∃ e, RunFile.openAt (dir.child name) d = (.error e, d.ticked) ∧ d.Struck d.ticked := by
  rw [RunFile.openAt]
  rcases hfolder.openRead_child hname with ⟨node, hopen, hnode'⟩ | ⟨e, hopen, hwhy⟩
  · obtain rfl : node = .file file := by
      rw [hnode] at hnode'
      exact (Option.some.inj hnode').symm
    left
    rw [DiskM.bind_of_ok (DiskM.reading_of_ok _ hopen)]
    show (RunFile.parse (dir.child name) file (d.ticked.file file).content, d.ticked) = _
    rw [file_ticked]
  · refine .inr ⟨.read "run file" e, DiskM.bind_of_error (DiskM.reading_of_error _ hopen), ?_⟩
    rcases hwhy with hs | hnone
    · exact hs
    · rw [hnone] at hnode
      cases hnode

theorem openAt_of_isRun {name : String} {file : Nat} {entries : List Entry}
    (hfolder : d.FolderAt dir place) (hname : dir.Admits name)
    (hnode : d.node? (place ++ [name]) = some (.file file))
    (hrun : IsRun (d.file file).content entries) :
    (∃ run, RunFile.openAt (dir.child name) d = (.ok run, d.ticked) ∧ run.path = dir.child name ∧
        run.fileId = file ∧ run.count = entries.length ∧
        ∀ {ι : Type} (disks : ι → Disk),
          (∀ i, ((disks i).file file).content = (d.file file).content) →
            run.Reads disks entries) ∨
      ∃ e, RunFile.openAt (dir.child name) d = (.error e, d.ticked) ∧ d.Struck d.ticked := by
  obtain ⟨run, hparse, hpath, hfile, hcount, hreads⟩ :=
    RunFile.reads_of_isRun hrun (dir.child name) file
  rcases openAt_child hfolder hname hnode with hopen | hstruck
  · rw [hparse] at hopen
    exact .inl ⟨run, hopen, hpath, hfile, hcount, hreads⟩
  · exact .inr hstruck

theorem still_openAt (p : Path) (d : Disk) : d.Still (RunFile.openAt p d).2 := by
  rw [RunFile.openAt]
  refine still_bind ?_ ?_
  · refine still_operate ?_ d
    intro d node d' h
    cases hlocate : d.locate p with
    | error e => simp [hlocate, bind, Except.bind] at h
    | ok found =>
      simp only [hlocate, bind, Except.bind, pure, Except.pure, Except.ok.injEq, Prod.mk.injEq] at h
      exact h.2.symm
  · intro node d'
    cases node with
    | folder => exact Still.refl d'
    | file id => exact Still.refl d'

/-- Opens the run that has a number. -/
def Generation.openRun (dir : Path) (id : Nat) : DiskM StoreError Run := do
  let file ← RunFile.openAt ((RunName.mk .finished id).path dir)
  return { id, file }

theorem Generation.openRun_of_ok {id : Nat} {file : RunFile}
    (h : RunFile.openAt ((RunName.mk .finished id).path dir) d = (.ok file, d')) :
    openRun dir id d = (.ok ⟨id, file⟩, d') :=
  DiskM.bind_of_ok h

theorem Generation.openRun_of_error {id : Nat} {e : StoreError}
    (h : RunFile.openAt ((RunName.mk .finished id).path dir) d = (.error e, d')) :
    openRun dir id d = (.error e, d') :=
  DiskM.bind_of_error h

theorem Generation.still_openRun (dir : Path) (id : Nat) (d : Disk) :
    d.Still (openRun dir id d).2 :=
  still_bind (still_openAt _ d) fun _ d' => Still.refl d'

/-- Loading a folder lists it and opens the runs in it by ascending number. -/
theorem Generation.load_eq (config : Config) : load config = (do
    let names ← (Disk.list config.dir).plainly
    let runs ← (sortBy Nat.ble (Recovery.idsOf .finished (names.filterMap RunName.parse))).mapM
      (openRun config.dir)
    return ⟨config.dir, config.blockSize, config.syncWrites, runs, true⟩) :=
  rfl

/-- What a folder is loaded as, once it has been listed. -/
theorem Generation.load_of_list {config : Config}
    (hlist : Disk.list config.dir d = (.ok (d.names place), d')) :
    load config d = (do
      let runs ← (sortBy Nat.ble (d.runIds place .finished)).mapM (openRun config.dir)
      return ⟨config.dir, config.blockSize, config.syncWrites, runs, true⟩ :
        DiskM StoreError Generation) d' := by
  rw [load_eq]
  exact DiskM.bind_of_ok (DiskM.plainly_of_ok hlist)

theorem Generation.load_of_list_error {config : Config} {e : IoFailure}
    (hlist : Disk.list config.dir d = (.error e, d')) : load config d = (.error (.io e), d') :=
  DiskM.bind_of_error (DiskM.plainly_of_error hlist)

/-- The runs of a folder are opened one after the other. -/
theorem open_runs (hroomy : dir.Roomy) (hfolder : d.FolderAt dir place) (hsound : d.Sound)
    (hruns : ∀ r ∈ runs, r.1 < RunName.idLimit ∧ ∃ file,
      d.node? ((RunName.mk .finished r.1).placeIn place) = some (.file file) ∧
        IsRun (d.file file).content r.2) :
    (∃ opened d', (runs.map Prod.fst).mapM (Generation.openRun dir) d = (.ok opened, d') ∧
        d.Still d' ∧ List.Forall₂ (Run.Stands d dir place) opened runs) ∨
      ∃ e d', (runs.map Prod.fst).mapM (Generation.openRun dir) d = (.error e, d') ∧
        d.Still d' ∧ d.Struck d' := by
  induction runs generalizing d with
  | nil => exact .inl ⟨[], d, rfl, Still.refl d, .nil⟩
  | cons r rest ih =>
    obtain ⟨hid, file, hnode, hrun⟩ := hruns r List.mem_cons_self
    rw [List.map_cons, List.mapM_cons]
    rcases openAt_of_isRun hfolder (hroomy.admits hid) hnode hrun with
      ⟨run, hopen, hpath, rfl, -, hreads⟩ | ⟨e, hopen, hs⟩
    swap
    · exact .inr ⟨e, d.ticked, DiskM.bind_of_error (Generation.openRun_of_error hopen),
        still_ticked d, hs⟩
    rw [DiskM.bind_of_ok (Generation.openRun_of_ok hopen)]
    rcases ih (hfolder.evolves (still_ticked d).evolves) ((still_ticked d).evolves.sound hsound)
        (fun r hr => hruns r (List.mem_cons_of_mem _ hr)) with
      ⟨opened, d', hrest, hstill, hall⟩ | ⟨e, d', hrest, hstill, hs⟩
    · rw [DiskM.bind_of_ok hrest]
      refine .inl ⟨⟨r.1, run⟩ :: opened, d', rfl, (still_ticked d).trans hstill, .cons ?_ ?_⟩
      · exact ⟨⟨rfl, hsound.lt_size hnode, hreads⟩, hpath, hnode⟩
      · exact hall.imp fun _ _ h => ⟨⟨h.id_eq, h.lt_size, h.reads⟩, h.path_eq, h.node⟩
    · rw [DiskM.bind_of_error hrest]
      exact .inr ⟨e, d', rfl, (still_ticked d).trans hstill, hs.earlier (still_ticked d).evolves⟩

/-- A folder that holds runs is loaded, or a fault struck. -/
theorem Generation.load_spec {config : Config} (hroomy : config.dir.Roomy)
    (hfolder : d.FolderAt config.dir place) (hsound : d.Sound)
    (htidy : d.TidyOf place .finished) (hruns : d.HoldsRuns place runs) :
    (∃ opened d', Generation.load config d =
          (.ok ⟨config.dir, config.blockSize, config.syncWrites, opened, true⟩, d') ∧ d.Still d' ∧
        List.Forall₂ (Run.Stands d config.dir place) opened runs) ∨
      ∃ e d', Generation.load config d = (.error e, d') ∧ d.Still d' ∧ d.Struck d' := by
  rcases hfolder.list with hlist | ⟨e, hlist, hs⟩
  swap
  · exact .inr ⟨.io e, d.ticked, load_of_list_error hlist, still_ticked d, hs⟩
  rw [load_of_list hlist, hruns.sorted_ids hsound htidy]
  have hticked := still_ticked d
  rcases open_runs (d := d.ticked) hroomy (hfolder.evolves hticked.evolves)
      (hticked.evolves.sound hsound) (fun r hr => ⟨hruns.lt_idLimit hr, hruns.isRun hr⟩) with
    ⟨opened, d', hopen, hstill, hall⟩ | ⟨e, d', hopen, hstill, hs⟩
  · refine .inl ⟨opened, d', ?_, hticked.trans hstill, hall.imp fun _ _ h =>
      ⟨⟨h.id_eq, h.lt_size, h.reads⟩, h.path_eq, h.node⟩⟩
    rw [DiskM.bind_of_ok hopen]
    rfl
  · exact .inr ⟨e, d', DiskM.bind_of_error hopen, hticked.trans hstill,
      hs.earlier hticked.evolves⟩

/-- What runs a folder was read as: each has its number, and was opened under its name. -/
theorem Generation.opened_of_mapM {ids : List Nat} {opened : List Run}
    (h : ids.mapM (openRun dir) d = (.ok opened, d')) :
    List.Forall₂ (fun id run => run.id = id ∧ ∃ d₁ d₂,
      RunFile.openAt ((RunName.mk .finished id).path dir) d₁ = (.ok run.file, d₂)) ids opened := by
  induction ids generalizing d opened with
  | nil =>
    cases h
    exact .nil
  | cons id rest ih =>
    rw [List.mapM_cons] at h
    obtain ⟨run, d₁, hfirst, hrest⟩ := DiskM.exists_of_bind h
    obtain ⟨others, d₂, hothers, hlast⟩ := DiskM.exists_of_bind hrest
    obtain ⟨file, d₃, hopen, hrun⟩ := DiskM.exists_of_bind hfirst
    cases hrun
    cases hlast
    exact .cons ⟨rfl, d, d₁, hopen⟩ (ih hothers)

/-- The runs of a generation that was loaded stand by ascending number. -/
theorem Generation.ordered_of_load {config : Config} {g : Generation}
    (h : Generation.load config d = (.ok g, d')) : g.runs.Pairwise fun a b => a.id ≤ b.id := by
  obtain ⟨names, d₁, -, hrest⟩ := DiskM.exists_of_bind h
  obtain ⟨opened, d₂, hopened, hlast⟩ := DiskM.exists_of_bind hrest
  cases hlast
  have hids := List.forall₂_map_left_iff.mpr ((opened_of_mapM hopened).flip.imp fun _ _ hrun => hrun.1)
  rw [List.forall₂_eq_eq_eq] at hids
  show opened.Pairwise fun a b => a.id ≤ b.id
  refine List.pairwise_map.mp ?_
  rw [hids]
  exact pairwise_le_sortBy _

/-- Loading a folder changes nothing, whatever is in it. -/
theorem Generation.still_load (config : Config) (d : Disk) :
    d.Still (Generation.load config d).2 := by
  rw [load_eq]
  refine still_bind (still_list config.dir d) fun names d₁ => still_bind ?_ fun opened d₂ => Still.refl d₂
  generalize sortBy Nat.ble _ = ids
  induction ids generalizing d₁ with
  | nil => exact Still.refl d₁
  | cons id rest ih =>
    rw [List.mapM_cons]
    refine still_bind (still_openRun config.dir id d₁) fun run d' => ?_
    exact still_bind (ih d') fun _ d' => Still.refl d'

theorem Generation.still_of_load {config : Config} {r : Except StoreError Generation}
    (h : Generation.load config d = (r, d')) : d.Still d' := by
  have hstill := Generation.still_load config d
  rwa [h] at hstill

/-! ## Adding a run -/

namespace Generation

/-- The next run comes after those that there are. -/
theorem lt_nextId {g : Generation} (h : g.runs.Pairwise fun a b => a.id ≤ b.id) {run : Run}
    (hrun : run ∈ g.runs) : run.id < g.nextId := by
  rcases List.eq_nil_or_concat' g.runs with hruns | ⟨front, last, hruns⟩
  · rw [hruns] at hrun
    cases hrun
  have hnext : g.nextId = last.id + 1 := by simp [nextId, maxId?, hruns]
  rw [hruns] at h hrun
  rw [hnext, Nat.lt_succ_iff]
  rcases List.mem_append.mp hrun with hfront | hlast
  · exact (List.pairwise_append.mp h).2.2 run hfront last (by simp)
  · rw [List.mem_singleton.mp hlast]

theorem syncDir_spec {g : Generation} (hfolder : d.FolderAt g.dir place) :
    (∃ d', g.syncDir d = (.ok (), d') ∧ d.Still d') ∨
      ∃ e d', g.syncDir d = (.error e, d') ∧ d.Still d' ∧ d.Struck d' := by
  rw [syncDir]
  by_cases hsync : g.syncWrites = true
  · rw [if_pos hsync]
    rcases hfolder.syncFolder with hsync | ⟨e, hsync, hs⟩
    · exact .inl ⟨d.ticked, DiskM.writing_of_ok _ hsync, still_ticked d⟩
    · exact .inr ⟨_, d.ticked, DiskM.writing_of_error _ hsync, still_ticked d, hs⟩
  · rw [if_neg hsync]
    exact .inl ⟨d, rfl, Still.refl d⟩

/-- A file was written under one name and given another, and nothing else has changed in the
folder. -/
structure Placed (place : Path) (source target : RunName) (Holds : Bytes → Prop) (d d' : Disk) :
    Prop extends Evolves d d' where
  others : ∀ {q : Path}, q ≠ source.placeIn place → q ≠ target.placeIn place →
    d'.node? q = d.node? q
  source_gone : d'.node? (source.placeIn place) = none
  target_there : ∃ file, d'.node? (target.placeIn place) = some (.file file) ∧
    Holds (d'.file file).content
  files : ∀ {id : Nat}, id < d.files.size → d.node? (source.placeIn place) ≠ some (.file id) →
    d'.file id = d.file id

/-- A file that was written is given another name. -/
theorem Placed.of_rename {source target : RunName} {Holds : Bytes → Prop} {file : Nat}
    {d₁ d₂ : Disk} (hchanges : ChangesAt (source.placeIn place) d d₁)
    (hnode : d₁.node? (source.placeIn place) = some (.file file))
    (hholds : Holds (d₁.file file).content) (hne : source.text ≠ target.text)
    (hfree : d₁.node? (target.placeIn place) ≠ some .folder)
    (hmoved : (d₁.ticked.moved (source.placeIn place) (target.placeIn place) file).Still d₂) :
    Placed place source target Holds d d₂ := by
  have hplaces : ¬ source.placeIn place = target.placeIn place :=
    fun h => hne (append_singleton_inj.mp h)
  have hmovedNode (q : Path) : d₂.node? q =
      if q = target.placeIn place then some (.file file)
      else if q = source.placeIn place then none else d₁.node? q := by
    rw [hmoved.node?, node?_moved _ _ (source.placeIn_ne_nil place) (target.placeIn_ne_nil place)]
    rfl
  refine ⟨?_, ?_, ?_, ⟨file, ?_, ?_⟩, ?_⟩
  · exact hchanges.toEvolves.trans (((still_ticked d₁).evolves.trans
      (evolves_moved (d := d₁.ticked) (source.placeIn_ne_nil place) (target.placeIn_ne_nil place)
        hnode hfree)).trans hmoved.evolves)
  · intro q hsource htarget
    rw [hmovedNode, if_neg htarget, if_neg hsource, hchanges.others hsource]
  · rw [hmovedNode, if_neg hplaces, if_pos rfl]
  · rw [hmovedNode, if_pos rfl]
  · rw [hmoved.file]
    exact hholds
  · intro id hid hother
    rw [hmoved.file]
    exact hchanges.files hid hother

/-- How the writing of a stream as the next run ends. -/
inductive PersistOutcome (g : Generation) (d : Disk) (place : Path) (items : List Item) :
    Except StoreError Nat × Disk → Prop
  /-- The run is there. -/
  | written {entries : List Entry} {d' : Disk} (hitems : items = entries.map .ok)
      (placed : Placed place (.mk .unfinished g.nextId) (.mk .finished g.nextId)
        (RunWriter.IsWritten g.blockSize · entries) d d') :
      PersistOutcome g d place items (.ok g.nextId, d')
  /-- The file was given up for a fault of the disk or of the stream, and its removal was tried. -/
  | refused {e : StoreError} {d₁ : Disk}
      (changes : ChangesAt ((RunName.mk .unfinished g.nextId).placeIn place) d d₁)
      (notFolder : d₁.node? ((RunName.mk .unfinished g.nextId).placeIn place) ≠ some .folder)
      (why : d.Struck d₁ ∨ RunWriter.firstFault ((RunName.mk .unfinished g.nextId).path g.dir) none
        items = some e) :
      PersistOutcome g d place items
        (.error e, (remove ((RunName.mk .unfinished g.nextId).path g.dir) d₁).2)
  /-- The file is complete, but a fault kept it from getting its name. -/
  | unnamed {e : StoreError} {d' : Disk}
      (changes : ChangesAt ((RunName.mk .unfinished g.nextId).placeIn place) d d')
      (notFolder : d'.node? ((RunName.mk .unfinished g.nextId).placeIn place) ≠ some .folder)
      (struck : d.Struck d') : PersistOutcome g d place items (.error e, d')
  /-- The run is there, but a fault kept its name from being forced to the device. -/
  | unsynced {entries : List Entry} {e : StoreError} {d' : Disk} (hitems : items = entries.map .ok)
      (placed : Placed place (.mk .unfinished g.nextId) (.mk .finished g.nextId)
        (RunWriter.IsWritten g.blockSize · entries) d d') (struck : d.Struck d') :
      PersistOutcome g d place items (.error e, d')
  /-- A folder has one of the names. -/
  | blocked {e : StoreError} {d' : Disk}
      (folder : d.node? ((RunName.mk .unfinished g.nextId).placeIn place) = some .folder ∨
        d.node? ((RunName.mk .finished g.nextId).placeIn place) = some .folder) :
      PersistOutcome g d place items (.error e, d')

theorem persist_outcome {g : Generation} (hroomy : g.dir.Roomy) (hfolder : d.FolderAt g.dir place)
    (hsound : d.Sound) (hid : g.nextId < RunName.idLimit) (items : List Item) :
    PersistOutcome g d place items (g.persist items d) := by
  have hsource : g.dir.Admits (RunName.mk .unfinished g.nextId).text := hroomy.admits hid
  have htarget : g.dir.Admits (RunName.mk .finished g.nextId).text := hroomy.admits hid
  have hne : (RunName.mk .unfinished g.nextId).text ≠ (RunName.mk .finished g.nextId).text := by
    intro heq
    have := RunName.text_inj heq hid hid
    simp at this
  rw [persist]
  by_cases hfull : d.node? ((RunName.mk .unfinished g.nextId).placeIn place) = some .folder
  · obtain ⟨e, d', hwrite⟩ := writeRunFrom_of_folder hfolder hsource hsound hfull .items items
      g.blockSize g.syncWrites
    have hwritten : discard (writeRun ((RunName.mk .unfinished g.nextId).path g.dir) items
        g.blockSize g.syncWrites) d = (.error e, d') := DiskM.discard_of_error hwrite
    rw [DiskM.bind_of_error hwritten]
    exact .blocked (.inl hfull)
  have hgives : Pull.Gives (fun i : { d' : Disk //
      ChangesAt (place ++ [(RunName.mk .unfinished g.nextId).text]) d d' } => Feed.items.on i.1)
      items items := Pull.gives_items items
  rcases writeRunFrom_outcome hfolder hsource hsound hfull hgives g.blockSize g.syncWrites with
    ⟨entries, d₁, file, hwrite, hchanges, hitems, hnode, himage⟩ |
      ⟨e, d₁, d₂, hwrite, hchanges, rfl, hnotFolder, hwhy⟩
  swap
  · have hwritten : discard (writeRun ((RunName.mk .unfinished g.nextId).path g.dir) items
        g.blockSize g.syncWrites) d = (.error e, _) := DiskM.discard_of_error hwrite
    rw [DiskM.bind_of_error hwritten]
    exact .refused hchanges hnotFolder hwhy
  have hfolder₁ := hfolder.evolves hchanges.toEvolves
  have hwritten : discard (writeRun ((RunName.mk .unfinished g.nextId).path g.dir) items g.blockSize
      g.syncWrites) d = (.ok (), d₁) := DiskM.discard_of_ok hwrite
  rw [DiskM.bind_of_ok hwritten, RunName.path, RunName.path]
  rcases hfolder₁.rename_child hsource htarget hne hnode with
    ⟨hrename, -, hfree⟩ | ⟨e, hrename, hwhy⟩
  swap
  · rw [DiskM.bind_of_error (DiskM.writing_of_error _ hrename)]
    rcases hwhy with hs | hway
    · refine .unnamed (hchanges.trans ((still_ticked d₁).changesAt _)) ?_
        (hs.earlier hchanges.toEvolves)
      rw [node?_ticked]
      show d₁.node? (place ++ [_]) ≠ _
      simp [hnode]
    · refine .blocked (.inr ?_)
      rw [← hway]
      exact (hchanges.others fun heq => hne (append_singleton_inj.mp heq).symm).symm
  have hmoved := evolves_moved (d := d₁.ticked) (append_singleton_ne_nil place _)
    (append_singleton_ne_nil place _) hnode hfree
  have hevolves := hchanges.toEvolves.trans ((still_ticked d₁).evolves.trans hmoved)
  rw [DiskM.bind_of_ok (DiskM.writing_of_ok _ hrename)]
  rcases syncDir_spec (g := g) (hfolder.evolves hevolves) with
    ⟨d₂, hsync, hstill⟩ | ⟨e, d₂, hsync, hstill, hs⟩
  · rw [DiskM.bind_of_ok hsync]
    exact .written hitems (Placed.of_rename hchanges hnode himage hne hfree hstill)
  · rw [DiskM.bind_of_error hsync]
    exact .unsynced hitems (Placed.of_rename hchanges hnode himage hne hfree hstill)
      (hs.earlier hevolves)

/-- A run of a number has come to a folder, and nothing else has changed there. -/
structure Added (place : Path) (source target : RunName) (entries : List Entry) (d d' : Disk) :
    Prop extends Placed place source target (IsImage · entries) d d'

theorem Placed.added {source target : RunName} {blockSize : Nat} {entries : List Entry}
    (h : Placed place source target (RunWriter.IsWritten blockSize · entries) d d')
    (hblock : blockSize ≤ UInt32.size) : Added place source target entries d d' := by
  obtain ⟨file, hnode, hwritten⟩ := h.target_there
  exact ⟨{ h with target_there := ⟨file, hnode, hwritten.isImage hblock⟩ }⟩

theorem Placed.still {source target : RunName} {Holds : Bytes → Prop} {d'' : Disk}
    (h : Placed place source target Holds d d') (hstill : d'.Still d'') :
    Placed place source target Holds d d'' where
  toEvolves := h.toEvolves.trans hstill.evolves
  others hsource htarget := (hstill.node? _).trans (h.others hsource htarget)
  source_gone := (hstill.node? _).trans h.source_gone
  target_there := by
    obtain ⟨file, hnode, hholds⟩ := h.target_there
    exact ⟨file, (hstill.node? _).trans hnode, by rwa [hstill.file]⟩
  files hid hother := (hstill.file _).trans (h.files hid hother)

/-- What an attempt to write a stream as the run of a number may leave. -/
inductive Attempted (place : Path) (id : Nat) (items : List Item) (d d' : Disk) : Prop
  /-- There is no run, but there may be a file for it. -/
  | unfinished (changes : ChangesAt ((RunName.mk .unfinished id).placeIn place) d d')
      (notFolder : d'.node? ((RunName.mk .unfinished id).placeIn place) ≠ some .folder)
  /-- The run is there. -/
  | added {entries : List Entry} (hitems : items = entries.map .ok)
      (added : Added place (.mk .unfinished id) (.mk .finished id) entries d d')

theorem Attempted.still {id : Nat} {items : List Item} {d'' : Disk}
    (h : Attempted place id items d d') (hstill : d'.Still d'') :
    Attempted place id items d d'' := by
  cases h with
  | unfinished hchanges hnotFolder =>
    exact .unfinished (hchanges.trans (hstill.changesAt _)) (by rwa [hstill.node?])
  | added hitems hadded => exact .added hitems ⟨hadded.toPlaced.still hstill⟩

/-- A stream is written as the next run. Otherwise a fault struck or no run holds the stream, and it
depends on when that was noticed what is left. -/
theorem persist_spec {g : Generation} (hroomy : g.dir.Roomy) (hfolder : d.FolderAt g.dir place)
    (hsound : d.Sound) (hid : g.nextId < RunName.idLimit) (hblock : g.blockSize ≤ UInt32.size)
    (hunfinished : d.node? ((RunName.mk .unfinished g.nextId).placeIn place) ≠ some .folder)
    (hfinished : d.node? ((RunName.mk .finished g.nextId).placeIn place) ≠ some .folder)
    (items : List Item) :
    (∃ entries d', g.persist items d = (.ok g.nextId, d') ∧ items = entries.map .ok ∧
        Added place (.mk .unfinished g.nextId) (.mk .finished g.nextId) entries d d') ∨
      ∃ e d', g.persist items d = (.error e, d') ∧ Attempted place g.nextId items d d' ∧
        (d.Struck d' ∨ ¬ ∃ entries : List Entry,
          items = entries.map .ok ∧ Ascending bytewise entries ∧ ∀ e ∈ entries, e.Storable) := by
  have hsource : g.dir.Admits (RunName.mk .unfinished g.nextId).text := hroomy.admits hid
  have houtcome := persist_outcome hroomy hfolder hsound hid items
  generalize g.persist items d = outcome at houtcome
  cases houtcome with
  | written hitems hplaced => exact .inl ⟨_, _, rfl, hitems, hplaced.added hblock⟩
  | refused hchanges hnotFolder hwhy =>
    have hfolder₁ := hfolder.evolves hchanges.toEvolves
    have hafter := hfolder₁.changesAt_remove hsource hnotFolder
    refine .inr ⟨_, _, rfl, .unfinished (hchanges.trans hafter)
      (hfolder₁.notFolder_remove hsource hnotFolder),
      hwhy.imp (fun hs => hs.later hafter.toEvolves) RunWriter.not_exists_of_fault⟩
  | unnamed hchanges hnotFolder hs =>
    exact .inr ⟨_, _, rfl, .unfinished hchanges hnotFolder, .inl hs⟩
  | unsynced hitems hplaced hs =>
    exact .inr ⟨_, _, rfl, .added hitems (hplaced.added hblock), .inl hs⟩
  | blocked hway => exact absurd hway (not_or.mpr ⟨hunfinished, hfinished⟩)

end Generation

end LayeredStore
