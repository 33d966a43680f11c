import LayeredStore.Proofs.Crashes

/-!
# What recovery comes to

Recovery can find any number of merges beside the runs, complete ones and broken ones, with runs
below, at and above their numbers. What it leaves in the end depends on the last complete merge
alone (`Disk.lastMerge`): the runs after it stay, it takes its place before them, and nothing else
with the name of a run file is left (`Disk.SettlesTo`).

The argument is that no operation of recovery changes what the folder comes to
(`Disk.settledRun`). Some names can go without a change (`Disk.Dispensable`): those of unfinished
runs, of broken merges, and of runs up to some complete merge. Beside these removals there is the
renaming of a merge, which is done when all that is not after the merge is gone
(`settledRun_moved`). So a folder in which recovery has stopped anywhere comes to the same, and in
one that recovery is done with nothing is left to change.
-/

namespace LayeredStore

open Disk Generation

variable {d d' d'' : Disk} {dir place : Path} {runs merged : List Nat}

namespace Disk

/-! ## What a folder comes to -/

/-- The number of the last merge that is complete, if there is one. -/
def lastMerge (d : Disk) (dir place : Path) : Option Nat :=
  ((d.runIds place .merged).filter (d.mergeOpens dir)).max?

/-- What recovery leaves under the name of a run: the runs after the last complete merge, and
the merge in the place of all the others. -/
def settledRun (d : Disk) (dir place : Path) (id : Nat) : Option Node :=
  match d.lastMerge dir place with
  | none => d.node? ((RunName.mk .finished id).placeIn place)
  | some last =>
    if id = last then d.node? ((RunName.mk .merged last).placeIn place)
    else if id < last then none
    else d.node? ((RunName.mk .finished id).placeIn place)

/-- The second disk is what recovery makes of the first one. -/
structure SettlesTo (d : Disk) (dir place : Path) (d' : Disk) : Prop where
  unfinished : ∀ {id : Nat}, id < RunName.idLimit →
    d'.node? ((RunName.mk .unfinished id).placeIn place) = none
  merged : ∀ {id : Nat}, id < RunName.idLimit →
    d'.node? ((RunName.mk .merged id).placeIn place) = none
  finished : ∀ {id : Nat}, id < RunName.idLimit →
    d'.node? ((RunName.mk .finished id).placeIn place) = d.settledRun dir place id
  others : ∀ {q : Path}, ¬ IsRunPlace place q → d'.node? q = d.node? q
  files : ∀ id : Nat, d'.file id = d.file id

/-- What recovery makes of a disk is determined. -/
theorem SettlesTo.sameTree (h : d.SettlesTo dir place d') (h' : d.SettlesTo dir place d'') :
    d'.SameTree d'' where
  node? q := by
    by_cases hq : IsRunPlace place q
    · obtain ⟨⟨kind, id⟩, hid, rfl⟩ := hq
      cases kind with
      | finished => rw [h.finished hid, h'.finished hid]
      | unfinished => rw [h.unfinished hid, h'.unfinished hid]
      | merged => rw [h.merged hid, h'.merged hid]
    · rw [h.others hq, h'.others hq]
  file _ := by rw [h.files, h'.files]

/-- A folder that recovery can deal with: a name of a run file is written as runs are named, and
belongs to a file. What is in the files does not matter. -/
structure Mendable (d : Disk) (dir place : Path) : Prop where
  roomy : dir.Roomy
  folder : d.FolderAt dir place
  sound : d.Sound
  tidy : d.Tidy place
  notFolder : ∀ name : RunName, name.id < RunName.idLimit →
    d.node? (name.placeIn place) ≠ some .folder

theorem Mendable.startedWith (h : d.Mendable dir place) (plan : Nat → Option Fault) :
    (d.startedWith plan).Mendable dir place where
  roomy := h.roomy
  folder := h.folder.startedWith plan
  sound := h.sound.startedWith plan
  tidy := h.tidy
  notFolder := h.notFolder

/-- The file of a name that is there. -/
theorem Mendable.file_of_isSome (h : d.Mendable dir place) (name : RunName)
    (hid : name.id < RunName.idLimit) (hthere : (d.node? (name.placeIn place)).isSome) :
    ∃ file, d.node? (name.placeIn place) = some (.file file) := by
  obtain ⟨node, hnode⟩ := Option.isSome_iff_exists.mp hthere
  cases node with
  | folder => exact absurd hnode (h.notFolder name hid)
  | file file => exact ⟨file, hnode⟩

/-! ## Complete merges -/

/-- There is a merge of a number, and its file reads as a run. -/
def HasMerge (d : Disk) (dir place : Path) (id : Nat) : Prop :=
  id < RunName.idLimit ∧ ∃ file run,
    d.node? ((RunName.mk .merged id).placeIn place) = some (.file file) ∧
      RunFile.parse ((RunName.mk .merged id).path dir) file (d.file file).content = .ok run

theorem Mendable.mem_complete_iff (h : d.Mendable dir place) {id : Nat} :
    id ∈ (d.runIds place .merged).filter (d.mergeOpens dir) ↔ d.HasMerge dir place id := by
  rw [List.mem_filter, mem_runIds (Tidy.of h.tidy _)]
  constructor
  · rintro ⟨⟨hid, hthere⟩, hopens⟩
    obtain ⟨file, hnode⟩ := h.file_of_isSome (.mk .merged id) hid hthere
    rw [mergeOpens_of_file h.folder (h.roomy.admits hid) hnode] at hopens
    cases hparse : RunFile.parse ((RunName.mk .merged id).path dir) file (d.file file).content with
    | error e => simp [hparse, Except.toOption] at hopens
    | ok run => exact ⟨hid, file, run, hnode, hparse⟩
  · rintro ⟨hid, file, run, hnode, hparse⟩
    refine ⟨⟨hid, by rw [hnode]; rfl⟩, ?_⟩
    rw [mergeOpens_of_file h.folder (h.roomy.admits hid) hnode, hparse]
    rfl

/-- A merge is the last one if no complete one comes after it. -/
def IsLastMerge (d : Disk) (dir place : Path) (last : Nat) : Prop :=
  d.HasMerge dir place last ∧ ∀ id, d.HasMerge dir place id → id ≤ last

theorem Mendable.lastMerge_eq_some (h : d.Mendable dir place) {last : Nat} :
    d.lastMerge dir place = some last ↔ d.IsLastMerge dir place last := by
  rw [lastMerge, List.max?_eq_some_iff, IsLastMerge, h.mem_complete_iff]
  simp only [h.mem_complete_iff]

theorem Mendable.lastMerge_eq_none (h : d.Mendable dir place) :
    d.lastMerge dir place = none ↔ ∀ id, ¬ d.HasMerge dir place id := by
  rw [lastMerge, List.max?_eq_none_iff, List.eq_nil_iff_forall_not_mem]
  simp only [h.mem_complete_iff]

theorem Mendable.settledRun_of_none (h : d.Mendable dir place)
    (hnone : ∀ id, ¬ d.HasMerge dir place id) (n : Nat) :
    d.settledRun dir place n = d.node? ((RunName.mk .finished n).placeIn place) := by
  rw [settledRun, h.lastMerge_eq_none.mpr hnone]

theorem Mendable.settledRun_of_last (h : d.Mendable dir place) {last : Nat}
    (hlast : d.IsLastMerge dir place last) (n : Nat) :
    d.settledRun dir place n =
      if n = last then d.node? ((RunName.mk .merged last).placeIn place)
      else if n < last then none
      else d.node? ((RunName.mk .finished n).placeIn place) := by
  rw [settledRun, h.lastMerge_eq_some.mpr hlast]

theorem Mendable.none_or_last (h : d.Mendable dir place) :
    (∀ id, ¬ d.HasMerge dir place id) ∨ ∃ last, d.IsLastMerge dir place last := by
  cases hlast : d.lastMerge dir place with
  | none => exact .inl (h.lastMerge_eq_none.mp hlast)
  | some last => exact .inr ⟨last, h.lastMerge_eq_some.mp hlast⟩

/-- What a folder comes to depends on its complete merges and on the runs after them. -/
theorem Mendable.settledRun_congr (h : d.Mendable dir place) (h' : d'.Mendable dir place)
    (hsame : ∀ id, d'.HasMerge dir place id ↔ d.HasMerge dir place id)
    (hmerged : ∀ id, d.HasMerge dir place id →
      d'.node? ((RunName.mk .merged id).placeIn place) =
        d.node? ((RunName.mk .merged id).placeIn place)) {n : Nat}
    (hfinished : (∀ m, d.HasMerge dir place m → m < n) →
      d'.node? ((RunName.mk .finished n).placeIn place) =
        d.node? ((RunName.mk .finished n).placeIn place)) :
    d'.settledRun dir place n = d.settledRun dir place n := by
  rcases h.none_or_last with hnone | ⟨last, hlast⟩
  · rw [h.settledRun_of_none hnone, h'.settledRun_of_none fun id hid => hnone id ((hsame id).mp hid)]
    exact hfinished fun m hm => absurd hm (hnone m)
  · have hlast' : d'.IsLastMerge dir place last :=
      ⟨(hsame last).mpr hlast.1, fun id hid => hlast.2 id ((hsame id).mp hid)⟩
    rw [h.settledRun_of_last hlast, h'.settledRun_of_last hlast', hmerged last hlast.1]
    by_cases heq : n = last
    · rw [if_pos heq, if_pos heq]
    by_cases hlt : n < last
    · rw [if_neg heq, if_neg heq, if_pos hlt, if_pos hlt]
    · rw [if_neg heq, if_neg heq, if_neg hlt, if_neg hlt]
      refine hfinished fun m hm => ?_
      have hle := hlast.2 m hm
      omega

/-! ## The operations of recovery -/

/-- A name that recovery has no use for. -/
def Dispensable (d : Disk) (dir place : Path) (name : RunName) : Prop :=
  match name.kind with
  | .unfinished => True
  | .merged => ¬ d.HasMerge dir place name.id
  | .finished => ∃ m, d.HasMerge dir place m ∧ name.id ≤ m

/-- Recovery has gone a part of its way: run files lost their names or changed them, and what the
folder comes to is the same. -/
structure Mends (dir place : Path) (d d' : Disk) : Prop extends Relabels place d d' where
  notFolder : ∀ {name : RunName}, name.id < RunName.idLimit →
    d.node? (name.placeIn place) ≠ some .folder → d'.node? (name.placeIn place) ≠ some .folder
  unfinished : ∀ {id : Nat}, id < RunName.idLimit →
    d.node? ((RunName.mk .unfinished id).placeIn place) = none →
      d'.node? ((RunName.mk .unfinished id).placeIn place) = none
  settled : ∀ {id : Nat}, id < RunName.idLimit →
    d'.settledRun dir place id = d.settledRun dir place id

theorem Mends.trans (h : Mends dir place d d') (h' : Mends dir place d' d'') :
    Mends dir place d d'' where
  toRelabels := h.toRelabels.trans h'.toRelabels
  notFolder hid hnot := h'.notFolder hid (h.notFolder hid hnot)
  unfinished hid hnone := h'.unfinished hid (h.unfinished hid hnone)
  settled hid := (h'.settled hid).trans (h.settled hid)

/-- Where run files were relabelled and none of the names has become that of a folder, the folder
is such a one still. -/
theorem Mendable.relabels (h : d.Mendable dir place) (hrelabels : Relabels place d d')
    (hnotFolder : ∀ {name : RunName}, name.id < RunName.idLimit →
      d.node? (name.placeIn place) ≠ some .folder →
        d'.node? (name.placeIn place) ≠ some .folder) : d'.Mendable dir place where
  roomy := h.roomy
  folder := h.folder.evolves hrelabels.toEvolves
  sound := hrelabels.sound h.sound
  tidy := hrelabels.works.tidy h.tidy
  notFolder name hid := hnotFolder hid (h.notFolder name hid)

theorem Mendable.mends (h : d.Mendable dir place) (hmends : Mends dir place d d') :
    d'.Mendable dir place :=
  h.relabels hmends.toRelabels fun hid hnot => hmends.notFolder hid hnot

/-- Freeing names makes no merge complete. -/
theorem HasMerge.of_freed {places : List Path} (hfreed : Freed places d d') {id : Nat}
    (h : d'.HasMerge dir place id) : d.HasMerge dir place id := by
  obtain ⟨hid, file, run, hnode, hparse⟩ := h
  rw [hfreed.files] at hparse
  refine ⟨hid, file, run, ?_, hparse⟩
  rcases hfreed.same_or_gone ((RunName.mk .merged id).placeIn place) with hsame | hgone
  · rw [← hsame, hnode]
  · rw [hgone] at hnode
    cases hnode

/-- Names that recovery has no use for can go. -/
theorem Mendable.mends_of_freed (h : d.Mendable dir place) {places : List Path}
    (hfreed : Freed places d d')
    (hplaces : ∀ q ∈ places, ∃ name : RunName, name.id < RunName.idLimit ∧
      q = name.placeIn place ∧ d.Dispensable dir place name) : Mends dir place d d' := by
  have hrelabels : Relabels place d d' := by
    refine hfreed.relabels fun q hq => ?_
    obtain ⟨name, hid, rfl, -⟩ := hplaces q hq
    exact isRunPlace name hid place
  have h' := h.relabels hrelabels fun _ hnot => hfreed.ne_folder hnot
  have hkept (name : RunName) (hid : name.id < RunName.idLimit)
      (hneeded : ¬ d.Dispensable dir place name) :
      d'.node? (name.placeIn place) = d.node? (name.placeIn place) := by
    refine hfreed.others fun hmem => hneeded ?_
    obtain ⟨other, hother, heq, hdispensable⟩ := hplaces _ hmem
    rwa [RunName.placeIn_inj heq hid hother]
  have hmerged {id : Nat} (hmerge : d.HasMerge dir place id) :
      d'.node? ((RunName.mk .merged id).placeIn place) =
        d.node? ((RunName.mk .merged id).placeIn place) :=
    hkept (.mk .merged id) hmerge.1 (not_not_intro hmerge)
  refine ⟨hrelabels, fun _ hnot => hfreed.ne_folder hnot, fun _ hnone => hfreed.stays_gone hnone, ?_⟩
  intro n hn
  refine h.settledRun_congr h' (fun id => ⟨HasMerge.of_freed hfreed, ?_⟩)
    (fun _ hmerge => hmerged hmerge) fun hafter => hkept (.mk .finished n) hn ?_
  · intro hmerge
    have ⟨hid, file, run, hnode, hparse⟩ := hmerge
    exact ⟨hid, file, run, (hmerged hmerge).trans hnode, by rwa [hfreed.files]⟩
  · rintro ⟨m, hm, hle⟩
    exact absurd (hafter m hm) (Nat.not_lt.mpr hle)

theorem Mendable.mends_of_still (h : d.Mendable dir place) (hstill : d.Still d') :
    Mends dir place d d' :=
  h.mends_of_freed (Freed.of_still hstill []) (by simp)

theorem HasMerge.moved_iff {m file : Nat} (hm : m < RunName.idLimit) {id : Nat} :
    (d.moved ((RunName.mk .merged m).placeIn place) ((RunName.mk .finished m).placeIn place)
        file).HasMerge dir place id ↔ id ≠ m ∧ d.HasMerge dir place id := by
  by_cases hid : id < RunName.idLimit
  · rw [HasMerge, HasMerge, node?_moved_run d hm (.mk .merged id) hid]
    by_cases heq : id = m
    · simp [heq]
    · simp only [heq, RunName.mk.injEq, reduceCtorEq, and_false, if_false, ne_eq,
        not_false_eq_true, true_and]
      exact Iff.rfl
  · simp only [HasMerge, hid, false_and, and_false]

/-- A complete merge takes its name as a run once everything that is not after it is gone. -/
theorem Mendable.mends_moved (h : d.Mendable dir place) {m file : Nat} {run : RunFile}
    (hm : m < RunName.idLimit)
    (hnode : d.node? ((RunName.mk .merged m).placeIn place) = some (.file file))
    (hparse : RunFile.parse ((RunName.mk .merged m).path dir) file (d.file file).content = .ok run)
    (hfinished : ∀ n < RunName.idLimit, n ≤ m →
      d.node? ((RunName.mk .finished n).placeIn place) = none)
    (hmerged : ∀ n < m, d.node? ((RunName.mk .merged n).placeIn place) = none) :
    Mends dir place d (d.moved ((RunName.mk .merged m).placeIn place)
      ((RunName.mk .finished m).placeIn place) file) := by
  have hrelabels : Relabels place d (d.moved ((RunName.mk .merged m).placeIn place)
      ((RunName.mk .finished m).placeIn place) file) :=
    relabels_moved (isRunPlace _ hm place) (isRunPlace _ hm place) hnode
      (h.notFolder (.mk .finished m) hm)
  have hnotFolder {name : RunName} (hid : name.id < RunName.idLimit)
      (hnot : d.node? (name.placeIn place) ≠ some .folder) :
      (d.moved ((RunName.mk .merged m).placeIn place) ((RunName.mk .finished m).placeIn place)
        file).node? (name.placeIn place) ≠ some .folder := by
    rw [node?_moved_run d hm name hid]
    split
    · simp
    · split
      · simp
      · exact hnot
  have h' := h.relabels hrelabels hnotFolder
  refine ⟨hrelabels, hnotFolder, fun hid hnone => ?_, fun {n} hn => ?_⟩
  · rw [node?_moved_run d hm (.mk .unfinished _) hid]
    simpa using hnone
  have hmerge : d.HasMerge dir place m := ⟨hm, file, run, hnode, hparse⟩
  obtain ⟨last, hlast⟩ := h.none_or_last.resolve_left fun hnone => hnone m hmerge
  have hle : m ≤ last := hlast.2 m hmerge
  rw [h.settledRun_of_last hlast]
  rcases Nat.eq_or_lt_of_le hle with rfl | hlt
  · -- it was the last one, and what it stands for is there
    have hnone : ∀ id, ¬ (d.moved ((RunName.mk .merged m).placeIn place)
        ((RunName.mk .finished m).placeIn place) file).HasMerge dir place id := by
      intro id hother
      obtain ⟨hne, hid, other, _, hthere, -⟩ := (HasMerge.moved_iff hm).mp hother
      have hlt : id < m := by
        have := hlast.2 id ((HasMerge.moved_iff hm).mp hother).2
        omega
      rw [hmerged id hlt] at hthere
      cases hthere
    rw [h'.settledRun_of_none hnone, node?_moved_run d hm (.mk .finished n) hn, hnode]
    by_cases heq : n = m
    · simp [heq]
    · by_cases hlt : n < m
      · simp [heq, hlt, hfinished n hn (Nat.le_of_lt hlt)]
      · simp [heq, hlt]
  · -- a later one takes its place in turn
    have hlast' : (d.moved ((RunName.mk .merged m).placeIn place)
        ((RunName.mk .finished m).placeIn place) file).IsLastMerge dir place last :=
      ⟨(HasMerge.moved_iff hm).mpr ⟨by omega, hlast.1⟩,
        fun id hid => hlast.2 id ((HasMerge.moved_iff hm).mp hid).2⟩
    rw [h'.settledRun_of_last hlast', node?_moved_run d hm (.mk .merged last) hlast.1.1,
      node?_moved_run d hm (.mk .finished n) hn]
    have hne : last ≠ m := by omega
    by_cases heq : n = last
    · simp [heq, hne]
    · by_cases hbefore : n < last
      · simp [heq, hbefore]
      · have hnm : n ≠ m := by omega
        simp [heq, hbefore, hnm]

end Disk

/-! ## Dealing with the merges -/

/-- Where recovery is with the merges: it knows of every run that is there, and has these merges
still before it. -/
structure Remaining (d : Disk) (place : Path) (runs merged : List Nat) : Prop where
  nodup : runs.Nodup
  runs_lt : ∀ n ∈ runs, n < RunName.idLimit
  known : ∀ {n : Nat}, n < RunName.idLimit →
    (d.node? ((RunName.mk .finished n).placeIn place)).isSome → n ∈ runs
  ascending : merged.Pairwise (· < ·)
  merged_iff : ∀ {n : Nat}, n ∈ merged ↔ n < RunName.idLimit ∧
    (d.node? ((RunName.mk .merged n).placeIn place)).isSome

theorem Remaining.merged_none (h : Remaining d place runs merged) {n : Nat}
    (hn : n < RunName.idLimit) (hnot : n ∉ merged) :
    d.node? ((RunName.mk .merged n).placeIn place) = none := by
  by_contra hthere
  exact hnot (h.merged_iff.mpr ⟨hn, Option.isSome_iff_ne_none.mpr hthere⟩)

/-- The merge that comes next is gone, and the others are where they were. -/
theorem Remaining.tail_iff {id : Nat} (h : Remaining d place runs (id :: merged))
    (hgone : d'.node? ((RunName.mk .merged id).placeIn place) = none)
    (hkept : ∀ n < RunName.idLimit, n ≠ id → d'.node? ((RunName.mk .merged n).placeIn place) =
      d.node? ((RunName.mk .merged n).placeIn place)) {n : Nat} :
    n ∈ merged ↔ n < RunName.idLimit ∧
      (d'.node? ((RunName.mk .merged n).placeIn place)).isSome := by
  obtain ⟨hafter, -⟩ := List.pairwise_cons.mp h.ascending
  constructor
  · intro hn
    obtain ⟨hlt, hthere⟩ := h.merged_iff.mp (List.mem_cons_of_mem _ hn)
    exact ⟨hlt, by rwa [hkept n hlt (Nat.ne_of_gt (hafter n hn))]⟩
  · rintro ⟨hlt, hthere⟩
    by_cases heq : n = id
    · rw [heq, hgone] at hthere
      cases hthere
    · rw [hkept n hlt heq] at hthere
      exact (List.mem_cons.mp (h.merged_iff.mpr ⟨hlt, hthere⟩)).resolve_left heq

/-- What dealing with the next merge comes to: it is done and the others remain, or it was
interrupted. -/
def DealsWith (d : Disk) (dir place : Path) (runs : List Nat) (id : Nat) (merged : List Nat) :
    Prop :=
  (∃ runs' d', Recovery.settle dir runs (id :: merged) d = Recovery.settle dir runs' merged d' ∧
      Mends dir place d d' ∧ Remaining d' place runs' merged) ∨
    ∃ e d', Recovery.settle dir runs (id :: merged) d = (.error e, d') ∧ d.Struck d' ∧
      Mends dir place d d'

/-- A merge that is not complete is removed. -/
theorem dealsWith_broken {id file : Nat} {e : StoreError} (h : d.Mendable dir place)
    (hremaining : Remaining d place runs (id :: merged)) (hid : id < RunName.idLimit)
    (hnode : d.node? ((RunName.mk .merged id).placeIn place) = some (.file file))
    (hparse : RunFile.parse ((RunName.mk .merged id).path dir) file (d.file file).content =
      .error e) : DealsWith d dir place runs id merged := by
  rcases settle_broken runs merged h.roomy h.folder hid hnode hparse with
    ⟨d', hsettle, hfreed, hgone⟩ | ⟨e, d', hsettle, hstill, hs⟩
  swap
  · exact .inr ⟨e, d', hsettle, hs, h.mends_of_still hstill⟩
  have hbroken : ¬ d.HasMerge dir place id := by
    rintro ⟨-, other, run, hthere, hother⟩
    rw [hnode] at hthere
    cases hthere
    rw [hparse] at hother
    cases hother
  have hother (name : RunName) (hlt : name.id < RunName.idLimit) (hne : name ≠ .mk .merged id) :
      d'.node? (name.placeIn place) = d.node? (name.placeIn place) :=
    hfreed.others fun hmem => hne (RunName.placeIn_inj (List.mem_singleton.mp hmem) hlt hid)
  refine .inl ⟨runs, d', hsettle, h.mends_of_freed hfreed fun q hq =>
    ⟨.mk .merged id, hid, List.mem_singleton.mp hq, hbroken⟩, hremaining.nodup,
    hremaining.runs_lt, fun {n} hn hthere => hremaining.known hn ?_,
    hremaining.ascending.of_cons,
    hremaining.tail_iff hgone fun n hn hne => hother (.mk .merged n) hn (by simpa using hne)⟩
  rwa [hother (.mk .finished n) hn (by simp)] at hthere

/-- Once the runs up to a complete merge are gone, and the merge has become a run, recovery knows of
every run. -/
theorem Remaining.moved {d₁ : Disk} {id file : Nat}
    (hremaining : Remaining d place runs (id :: merged)) (hid : id < RunName.idLimit)
    (hfreed : Freed ((runs.filter (· ≤ id)).map fun n => (RunName.mk .finished n).placeIn place)
      d d₁)
    (hfinished : ∀ n < RunName.idLimit, n ≤ id →
      d₁.node? ((RunName.mk .finished n).placeIn place) = none) :
    Remaining (d₁.moved ((RunName.mk .merged id).placeIn place)
      ((RunName.mk .finished id).placeIn place) file) place (runs.filter (id < ·) ++ [id])
      merged := by
  have hkept := node?_of_freed_upTo hremaining.runs_lt hfreed
  refine ⟨?_, ?_, ?_, hremaining.ascending.of_cons, hremaining.tail_iff ?_ ?_⟩
  · refine List.nodup_append.mpr ⟨hremaining.nodup.filter _, by simp, ?_⟩
    intro a ha b hb heq
    rw [heq, List.mem_singleton.mp hb] at ha
    simp at ha
  · intro n hn
    rcases List.mem_append.mp hn with hn | hn
    · exact hremaining.runs_lt n (List.mem_of_mem_filter hn)
    · rwa [List.mem_singleton.mp hn]
  · intro n hn hthere
    rw [node?_moved_run d₁ hid (.mk .finished n) hn] at hthere
    by_cases heq : n = id
    · simp [heq]
    · have hthere₁ : (d₁.node? ((RunName.mk .finished n).placeIn place)).isSome := by
        simpa [heq] using hthere
      have hlt : id < n := by
        by_contra hle
        rw [hfinished n hn (Nat.not_lt.mp hle)] at hthere₁
        cases hthere₁
      rw [hkept (.mk .finished n) hn (fun _ => hlt)] at hthere₁
      exact List.mem_append_left _ (List.mem_filter.mpr
        ⟨hremaining.known hn hthere₁, by simpa using hlt⟩)
  · rw [node?_moved_run d₁ hid (.mk .merged id) hid]
    simp
  · intro n hn hne
    rw [node?_moved_run d₁ hid (.mk .merged n) hn, hkept (.mk .merged n) hn (by simp)]
    simp [hne]

/-- A complete merge takes the place of the runs up to it. -/
theorem dealsWith_whole {id file : Nat} {run : RunFile} (h : d.Mendable dir place)
    (hhalting : d.Halting) (hremaining : Remaining d place runs (id :: merged))
    (hid : id < RunName.idLimit)
    (hnode : d.node? ((RunName.mk .merged id).placeIn place) = some (.file file))
    (hparse : RunFile.parse ((RunName.mk .merged id).path dir) file (d.file file).content =
      .ok run) : DealsWith d dir place runs id merged := by
  have hdispensable : ∀ q ∈ (runs.filter (· ≤ id)).map fun n =>
      (RunName.mk .finished n).placeIn place, ∃ name : RunName, name.id < RunName.idLimit ∧
        q = name.placeIn place ∧ d.Dispensable dir place name := by
    intro q hq
    obtain ⟨n, hn, rfl⟩ := List.mem_map.mp hq
    obtain ⟨hn, hle⟩ := List.mem_filter.mp hn
    exact ⟨.mk .finished n, hremaining.runs_lt n hn, rfl, id, ⟨hid, file, run, hnode, hparse⟩,
      by simpa using hle⟩
  rcases settle_whole h.roomy h.folder hhalting hid hnode hparse merged hremaining.nodup
    hremaining.runs_lt (fun n hn => h.notFolder (.mk .finished n) hn) with
    ⟨d₁, hfreed, hgone, hsettle⟩ | ⟨e, d', hsettle, hs, hfreed⟩
  swap
  · exact .inr ⟨e, d', hsettle, hs, h.mends_of_freed hfreed hdispensable⟩
  have hmends := h.mends_of_freed hfreed hdispensable
  have hfinished : ∀ n < RunName.idLimit, n ≤ id →
      d₁.node? ((RunName.mk .finished n).placeIn place) = none := by
    intro n hn hle
    by_cases hmem : n ∈ runs
    · exact hgone n (List.mem_filter.mpr ⟨hmem, by simpa using hle⟩)
    · refine hfreed.stays_gone ?_
      by_contra hthere
      exact hmem (hremaining.known hn (Option.isSome_iff_ne_none.mpr hthere))
  -- the merges are dealt with in ascending order, so that none before this one is left
  have hmerged : ∀ n < id, d₁.node? ((RunName.mk .merged n).placeIn place) = none := by
    intro n hlt
    refine hfreed.stays_gone (hremaining.merged_none (by omega) fun hmem => ?_)
    rcases List.mem_cons.mp hmem with rfl | hmem
    · exact Nat.lt_irrefl _ hlt
    · exact Nat.lt_asymm hlt (List.rel_of_pairwise_cons hremaining.ascending hmem)
  have hnode₁ : d₁.node? ((RunName.mk .merged id).placeIn place) = some (.file file) := by
    rw [node?_of_freed_upTo hremaining.runs_lt hfreed (.mk .merged id) hid (by simp), hnode]
  exact .inl ⟨_, _, hsettle, hmends.trans ((h.mends hmends).mends_moved hid hnode₁
    (by rwa [hfreed.files]) hfinished hmerged), hremaining.moved hid hfreed hfinished⟩

/-- Recovery deals with the next merge, or is interrupted. -/
theorem dealsWith_next {id : Nat} (h : d.Mendable dir place) (hhalting : d.Halting)
    (hremaining : Remaining d place runs (id :: merged)) :
    DealsWith d dir place runs id merged := by
  obtain ⟨hid, hthere⟩ := hremaining.merged_iff.mp List.mem_cons_self
  obtain ⟨file, hnode⟩ := h.file_of_isSome (.mk .merged id) hid hthere
  cases hparse : RunFile.parse ((RunName.mk .merged id).path dir) file (d.file file).content with
  | error e => exact dealsWith_broken h hremaining hid hnode hparse
  | ok run => exact dealsWith_whole h hhalting hremaining hid hnode hparse

/-- Recovery deals with all of the merges, or is interrupted. -/
theorem settle_mends (h : d.Mendable dir place) (hhalting : d.Halting)
    (hremaining : Remaining d place runs merged) :
    (∃ d', Recovery.settle dir runs merged d = (.ok (), d') ∧ Mends dir place d d' ∧
        ∀ n < RunName.idLimit, d'.node? ((RunName.mk .merged n).placeIn place) = none) ∨
      ∃ e d', Recovery.settle dir runs merged d = (.error e, d') ∧ d.Struck d' ∧
        Mends dir place d d' := by
  induction merged generalizing d runs with
  | nil =>
    exact .inl ⟨d, rfl, h.mends_of_still (Still.refl d), fun n hn =>
      hremaining.merged_none hn (by simp)⟩
  | cons id rest ih =>
    rcases dealsWith_next h hhalting hremaining with
      ⟨runs', d₁, hsettle, hmends, hremaining₁⟩ | hstopped
    · rw [hsettle]
      rcases ih (h.mends hmends) (hhalting.evolves hmends.toEvolves) hremaining₁ with
        ⟨d₂, hdone, hmends₂, hgone⟩ | ⟨e, d₂, hdone, hs, hmends₂⟩
      · exact .inl ⟨d₂, hdone, hmends.trans hmends₂, hgone⟩
      · exact .inr ⟨e, d₂, hdone, hs.earlier hmends.toEvolves, hmends.trans hmends₂⟩
    · exact .inr hstopped

/-! ## Recovery as a whole -/

/-- What recovery finds in a folder is all that there is. -/
theorem Disk.Mendable.remaining (h : d.Mendable dir place) :
    Remaining d place (d.runIds place .finished) (sortBy Nat.ble (d.runIds place .merged)) where
  nodup := nodup_runIds h.sound (Tidy.of h.tidy .finished)
  runs_lt n hn := ((mem_runIds (Tidy.of h.tidy _)).mp hn).1
  known hn hthere := (mem_runIds (Tidy.of h.tidy _)).mpr ⟨hn, hthere⟩
  ascending := pairwise_lt_sortBy (nodup_runIds h.sound (Tidy.of h.tidy .merged))
  merged_iff := by
    intro n
    rw [(sortBy_perm _ _).mem_iff, mem_runIds (Tidy.of h.tidy _)]

/-- Freeing the names of unfinished runs leaves the work with the merges as it was. -/
theorem Remaining.freed_unfinished {ids : List Nat} (h : Remaining d place runs merged)
    (hids : ∀ id ∈ ids, id < RunName.idLimit)
    (hfreed : Freed (ids.map fun id => (RunName.mk .unfinished id).placeIn place) d d') :
    Remaining d' place runs merged := by
  have hkept := node?_of_freed_unfinished hids hfreed
  refine ⟨h.nodup, h.runs_lt, fun {n} hn hthere => h.known hn ?_, h.ascending, fun {n} => ?_⟩
  · rwa [hkept (.mk .finished n) hn (by simp)] at hthere
  · rw [h.merged_iff]
    refine and_congr_right fun hn => ?_
    rw [hkept (.mk .merged n) hn (by simp)]

/-- Recovery goes its way to the end, where no unfinished run and no merge is left, or is
interrupted on it. -/
theorem recover_mends (h : d.Mendable dir place) (hhalting : d.Halting) :
    (∃ d', recover dir d = (.ok (), d') ∧ Mends dir place d d' ∧ d'.NoUnfinished place ∧
        ∀ n < RunName.idLimit, d'.node? ((RunName.mk .merged n).placeIn place) = none) ∨
      ∃ e d', recover dir d = (.error e, d') ∧ d.Struck d' ∧ Mends dir place d d' := by
  have hids : ∀ id ∈ d.runIds place .unfinished, id < RunName.idLimit :=
    fun _ => lt_idLimit_of_mem_runIds
  have hdispensable : ∀ q ∈ (d.runIds place .unfinished).map fun id =>
      (RunName.mk .unfinished id).placeIn place, ∃ name : RunName, name.id < RunName.idLimit ∧
        q = name.placeIn place ∧ d.Dispensable dir place name := by
    intro q hq
    obtain ⟨id, hid, rfl⟩ := List.mem_map.mp hq
    exact ⟨.mk .unfinished id, hids id hid, rfl, trivial⟩
  rcases recover_begins h.roomy h.folder h.sound (Tidy.of h.tidy _)
      (fun hid => h.notFolder (.mk .unfinished _) hid) with
    ⟨d₁, hrecover, hgone, hfreed⟩ | ⟨e, d₁, hrecover, hs, hfreed⟩
  swap
  · exact .inr ⟨e, d₁, hrecover, hs, h.mends_of_freed hfreed hdispensable⟩
  have hmends := h.mends_of_freed hfreed hdispensable
  rw [hrecover]
  rcases settle_mends (h.mends hmends) (hhalting.evolves hmends.toEvolves)
      (h.remaining.freed_unfinished hids hfreed) with
    ⟨d₂, hsettle, hmends₂, hnone⟩ | ⟨e, d₂, hsettle, hs, hmends₂⟩
  swap
  · exact .inr ⟨e, d₂, hsettle, hs.earlier hmends.toEvolves, hmends.trans hmends₂⟩
  exact .inl ⟨d₂, hsettle, hmends.trans hmends₂, fun hid => hmends₂.unfinished hid (hgone hid), hnone⟩

/-- Recovery was stopped some times, and the folder comes to what it came to before. -/
structure Unsettled (d : Disk) (dir place : Path) (d' : Disk) : Prop where
  mendable : d'.Mendable dir place
  settled : ∀ {id : Nat}, id < RunName.idLimit →
    d'.settledRun dir place id = d.settledRun dir place id
  others : ∀ {q : Path}, ¬ IsRunPlace place q → d'.node? q = d.node? q
  files : ∀ id : Nat, d'.file id = d.file id

theorem Unsettled.refl (h : d.Mendable dir place) : Unsettled d dir place d :=
  ⟨h, fun _ => rfl, fun _ => rfl, fun _ => rfl⟩

theorem Unsettled.startedWith (h : Unsettled d dir place d') (plan : Nat → Option Fault) :
    Unsettled d dir place (d'.startedWith plan) :=
  ⟨h.mendable.startedWith plan, h.settled, h.others, h.files⟩

theorem Unsettled.mends (h : Unsettled d dir place d') (hmends : Mends dir place d' d'') :
    Unsettled d dir place d'' where
  mendable := h.mendable.mends hmends
  settled hid := (hmends.settled hid).trans (h.settled hid)
  others hq := (hmends.others hq).trans (h.others hq)
  files id := (hmends.files id).trans (h.files id)

theorem Unsettled.afterRecoveries {plans : List (Nat → Option Fault)}
    (hplans : ∀ plan ∈ plans, StopsForGood plan) (h : Unsettled d dir place d') :
    Unsettled d dir place (d'.afterRecoveries dir plans) := by
  induction plans generalizing d' with
  | nil => exact h
  | cons plan rest ih =>
    refine ih (fun other hother => hplans other (List.mem_cons_of_mem _ hother)) ?_
    have hstart := h.startedWith plan
    show Unsettled d dir place (recover dir (d'.startedWith plan)).2
    rcases recover_mends hstart.mendable
        (halting_startedWith (hplans plan List.mem_cons_self) d') with
      ⟨d₁, hrecover, hmends, -⟩ | ⟨e, d₁, hrecover, -, hmends⟩
    · rw [hrecover]
      exact hstart.mends hmends
    · rw [hrecover]
      exact hstart.mends hmends

/-- Where nothing fails, recovery brings the folder to what it comes to. -/
theorem Unsettled.recover (h : Unsettled d dir place d') :
    ∃ d'', recover dir (d'.startedWith noFaults) = (.ok (), d'') ∧ d.SettlesTo dir place d'' := by
  have hstart := h.startedWith noFaults
  have hfaultless := faultless_startedWith d'
  rcases recover_mends hstart.mendable hfaultless.halting with
    ⟨d'', hrecover, hmends, hunfinished, hmerged⟩ | ⟨e, d'', -, hs, -⟩
  swap
  · exact absurd hs hfaultless.not_struck
  have hend := hstart.mends hmends
  refine ⟨d'', hrecover, fun hid => hunfinished hid, fun hid => hmerged _ hid, fun {id} hid => ?_,
    fun hq => hend.others hq, hend.files⟩
  have hnone : ∀ m, ¬ d''.HasMerge dir place m := by
    rintro m ⟨hm, file, run, hthere, -⟩
    rw [hmerged m hm] at hthere
    cases hthere
  rw [← hend.settled hid, hend.mendable.settledRun_of_none hnone]

/-- Recovery brings a folder to what its last complete merge decides, and nothing remains to be done
after it. Wherever recovery was stopped before, and however often, the end is the same. -/
theorem recover_reaches_settled (h : d.Mendable dir place) :
    ∃ d', recover dir (d.startedWith noFaults) = (.ok (), d') ∧ d.SettlesTo dir place d' ∧
      (∃ d'', recover dir (d'.startedWith noFaults) = (.ok (), d'') ∧ d'.SameTree d'') ∧
      ∀ plans : List (Nat → Option Fault), (∀ plan ∈ plans, StopsForGood plan) →
        ∃ d'', recover dir ((d.afterRecoveries dir plans).startedWith noFaults) = (.ok (), d'') ∧
          d'.SameTree d'' := by
  obtain ⟨d', hrecover, hsettles⟩ := (Unsettled.refl h).recover
  have hstopped (plans : List (Nat → Option Fault)) (hplans : ∀ plan ∈ plans, StopsForGood plan) :
      ∃ d'', LayeredStore.recover dir ((d.afterRecoveries dir plans).startedWith noFaults) =
        (.ok (), d'') ∧ d'.SameTree d'' := by
    obtain ⟨d'', hagain, hsettles'⟩ := ((Unsettled.refl h).afterRecoveries hplans).recover
    exact ⟨d'', hagain, hsettles.sameTree hsettles'⟩
  refine ⟨d', hrecover, hsettles, ?_, hstopped⟩
  have honce := hstopped [noFaults] (by simp [StopsForGood, noFaults])
  rwa [show d.afterRecoveries dir [noFaults] = d' from congrArg Prod.snd hrecover] at honce

/-- A folder with files of some names: of the first, each holds a run, and of the others, none. -/
def folderOf (whole broken : List RunName) : Disk :=
  let d := whole.foldl (fun d name =>
    (writeRun (name.path smallConfig.dir) [.ok (.put [1] [2])] 32 false d).2)
    (makeFolders smallConfig.dir .empty).2
  broken.foldl (fun d name => (Disk.create (name.path smallConfig.dir) d).2) d

/-- Four runs, four merges, two of which are broken, and an unfinished run. -/
def fourMerges : Disk :=
  folderOf [.mk .finished 1, .mk .finished 2, .mk .finished 3, .mk .finished 5, .mk .merged 1,
    .mk .merged 3] [.mk .merged 2, .mk .merged 4, .mk .unfinished 6]

theorem mendable_fourMerges : fourMerges.Mendable ["db"] ["db"] := by
  obtain ⟨hfolder, hlisted, hnames⟩ :
      fourMerges.locate ["db"] = .ok (["db"], .folder) ∧ fourMerges.WellListed ∧
      ∀ text ∈ fourMerges.names ["db"], ∀ name ∈ RunName.parse text,
        name.text = text ∧ fourMerges.node? (["db"] ++ [text]) ≠ some .folder := by decide +kernel
  refine ⟨Path.roomy_singleton (by decide) (by decide) (by decide), hfolder, hlisted.sound, ?_, ?_⟩
  · intro text name hthere hparse
    exact (hnames text ((mem_names _).mpr hthere) name hparse).1
  · intro name hid hfolder
    exact (hnames name.text ((mem_names _).mpr (by rw [← RunName.placeIn, hfolder]; rfl)) name
      (RunName.parse_text hid)).2 hfolder

/-- The third merge is the last complete one. It takes the place of three runs, and one stays. -/
theorem fourMerges_reaches_settled : ∃ d',
    recover ["db"] (fourMerges.startedWith noFaults) = (.ok (), d') ∧
      fourMerges.SettlesTo ["db"] ["db"] d' ∧ fourMerges.lastMerge ["db"] ["db"] = some 3 ∧
      d'.names ["db"] = ["00000003.sst", "00000005.sst"] ∧
      ∃ d'', recover ["db"] ((fourMerges.afterRecoveries ["db"] [stopsAfter 6, stopsAfter 3]).startedWith
        noFaults) = (.ok (), d'') ∧ d'.SameTree d'' := by
  obtain ⟨d', hrecover, hsettles, -, hstopped⟩ := recover_reaches_settled mendable_fourMerges
  obtain ⟨hlast, hnames⟩ : fourMerges.lastMerge ["db"] ["db"] = some 3 ∧
      (recover ["db"] (fourMerges.startedWith noFaults)).2.names ["db"] =
        ["00000003.sst", "00000005.sst"] := by decide +kernel
  rw [hrecover] at hnames
  refine ⟨d', hrecover, hsettles, hlast, hnames, hstopped [stopsAfter 6, stopsAfter 3] ?_⟩
  simp [stopsForGood_stopsAfter]

end LayeredStore
