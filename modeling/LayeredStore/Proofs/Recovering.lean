import LayeredStore.Proofs.FolderContents

/-!
# Recovery

A folder in which a compaction or a flush stopped is brought back to runs alone by `recover`.
`Leftover` is what a compaction can have left beside the runs, and `Leftover.settled` the runs that
the folder stands for: a complete merge stands for itself and for the runs after it.

Recovery may itself stop, at any of its operations. Under a plan of faults in which nothing works
any more once a fault has struck (`Disk.Halting`), the folder goes on to stand for the same runs
(`recover_spec`), and once nothing fails it has exactly these (`openIn_spec`).
-/

namespace LayeredStore

open Disk Generation

namespace Disk

variable {d d' d'' : Disk} {dir place : Path} {runs : List (Nat × List Entry)}

/-- From the first fault on, every operation is struck: the process has stopped. -/
def Halting (d : Disk) : Prop :=
  ∀ n m : Nat, d.clock ≤ n → n ≤ m → d.faults n ≠ none → d.faults m ≠ none

theorem Faultless.halting (h : d.Faultless) : d.Halting := by
  intro n m hn _ hfault
  exact absurd (h n hn) hfault

theorem Halting.evolves (h : d.Halting) (hevolves : d.Evolves d') : d'.Halting := by
  intro n m hn hm hfault
  rw [hevolves.faults] at hfault ⊢
  exact h n m (Nat.le_trans hevolves.clock hn) hm hfault

/-- What comes after a fault is struck too. -/
theorem Halting.fault_of_struck (h : d.Halting) (hs : d.Struck d') (hevolves : d.Evolves d') :
    d'.faults d'.clock ≠ none := by
  obtain ⟨n, hle, hlt, hfault⟩ := hs
  rw [hevolves.faults]
  exact h n _ hle (Nat.le_of_lt hlt) hfault

/-- No run of the folder is unfinished. -/
def NoUnfinished (d : Disk) (place : Path) : Prop :=
  ∀ {id : Nat}, id < RunName.idLimit → d.node? ((RunName.mk .unfinished id).placeIn place) = none

end Disk

/-! ## Freeing names one by one -/

variable {d d' : Disk} {dir place : Path} {runs : List (Nat × List Entry)}

theorem Generation.Freed.relabels {places : List Path} (h : Freed places d d')
    (hplaces : ∀ q ∈ places, IsRunPlace place q) : Relabels place d d' where
  toEvolves := h.toEvolves
  others hq := h.others fun hmem => hq (hplaces _ hmem)
  files := h.files

/-- A program that frees a name, for each of a list in turn. It may be content with a name that it
could not free (`lax`). -/
theorem forM_frees {α : Type} {f : α → DiskM StoreError Unit} {p : α → Path}
    (lax : Prop) (Ready : Disk → α → Prop) {xs : List α}
    (hstays : ∀ {d d' : Disk} {a b : α}, a ≠ b → Ready d a → Ready d b →
      Freed [p a] d d' → Ready d' b)
    (hf : ∀ {d : Disk} {a : α}, Ready d a →
      (∃ d', f a d = (.ok (), d') ∧ Freed [p a] d d' ∧ (d'.node? (p a) = none ∨ lax ∧ d.Struck d')) ∨
        ∃ e d', f a d = (.error e, d') ∧ Freed [p a] d d' ∧ d.Struck d')
    (hnodup : xs.Nodup) (hready : ∀ a ∈ xs, Ready d a) :
    (∃ d', xs.forM f d = (.ok (), d') ∧ Freed (xs.map p) d d' ∧
        ((∀ a ∈ xs, d'.node? (p a) = none) ∨ lax ∧ d.Struck d')) ∨
      ∃ e d', xs.forM f d = (.error e, d') ∧ Freed (xs.map p) d d' ∧ d.Struck d' := by
  induction xs generalizing d with
  | nil => exact .inl ⟨d, rfl, Freed.refl _ d, .inl (by simp)⟩
  | cons a rest ih =>
    have hcons : (a :: rest).forM f = (do
        f a
        rest.forM f : DiskM StoreError Unit) := rfl
    obtain ⟨hnot, hrest⟩ := List.nodup_cons.mp hnodup
    rw [hcons]
    rcases hf (hready a List.mem_cons_self) with ⟨d₁, hfirst, hfreed, hgone⟩ | ⟨e, d₁, hfirst, hfreed, hs⟩
    swap
    · refine .inr ⟨e, d₁, DiskM.bind_of_error hfirst, ?_, hs⟩
      have := hfreed.trans (Freed.refl (rest.map p) d₁)
      simpa using this
    rw [DiskM.bind_of_ok hfirst]
    have hready₁ : ∀ b ∈ rest, Ready d₁ b := by
      intro b hb
      have hne : a ≠ b := by
        rintro rfl
        exact hnot hb
      exact hstays hne (hready a List.mem_cons_self) (hready b (List.mem_cons_of_mem _ hb)) hfreed
    rcases ih hrest hready₁ with ⟨d₂, hforM, hfreed₂, hgone₂⟩ | ⟨e, d₂, hforM, hfreed₂, hs⟩
    · refine .inl ⟨d₂, hforM, hfreed.trans hfreed₂, ?_⟩
      rcases hgone with hgone | ⟨hlax, hs⟩
      · rcases hgone₂ with hgone₂ | ⟨hlax, hs⟩
        · left
          intro b hb
          rcases List.mem_cons.mp hb with rfl | hb
          · exact hfreed₂.stays_gone hgone
          · exact hgone₂ b hb
        · exact .inr ⟨hlax, hs.earlier hfreed.toEvolves⟩
      · exact .inr ⟨hlax, hs.later hfreed₂.toEvolves⟩
    · exact .inr ⟨e, d₂, hforM, hfreed.trans hfreed₂, hs.earlier hfreed.toEvolves⟩

/-- Removing the unfinished runs. -/
theorem removeUnfinished_spec (hroomy : dir.Roomy) (hfolder : d.FolderAt dir place) {ids : List Nat}
    (hnodup : ids.Nodup) (hids : ∀ id ∈ ids, id < RunName.idLimit ∧
      ∃ file, d.node? ((RunName.mk .unfinished id).placeIn place) = some (.file file)) :
    (∃ d', ids.forM (fun id => (Disk.remove ((RunName.mk .unfinished id).path dir)).plainly) d =
        (.ok (), d') ∧
        Freed (ids.map fun id => (RunName.mk .unfinished id).placeIn place) d d' ∧
        ∀ id ∈ ids, d'.node? ((RunName.mk .unfinished id).placeIn place) = none) ∨
      ∃ e d', ids.forM (fun id => (Disk.remove ((RunName.mk .unfinished id).path dir)).plainly) d =
        (.error e, d') ∧
        Freed (ids.map fun id => (RunName.mk .unfinished id).placeIn place) d d' ∧
        d.Struck d' := by
  have hforM := forM_frees (f := fun id =>
      (Disk.remove ((RunName.mk .unfinished id).path dir)).plainly)
    (p := fun id => (RunName.mk .unfinished id).placeIn place) False
    (fun d id => d.FolderAt dir place ∧ id < RunName.idLimit ∧
      ∃ file, d.node? ((RunName.mk .unfinished id).placeIn place) = some (.file file)) ?_ ?_ hnodup
    fun id hid => ⟨hfolder, hids id hid⟩
  · simpa only [false_and, or_false] using hforM
  · rintro d d' a b hne ⟨-, ha, -⟩ ⟨hfolder, hb, file, hnode⟩ hfreed
    refine ⟨hfolder.evolves hfreed.toEvolves, hb, file, ?_⟩
    rw [hfreed.others, hnode]
    intro hmem
    exact RunName.placeIn_ne_of_id hb ha hne.symm (List.mem_singleton.mp hmem)
  · rintro d id ⟨hfolder, hid, file, hnode⟩
    have hname : dir.Admits (RunName.mk .unfinished id).text := hroomy.admits hid
    have hfile : d.node? (place ++ [(RunName.mk .unfinished id).text]) = some (.file file) := hnode
    rcases remove_frees hfolder hname (by simp [hfile]) with
      ⟨d', hremove, hfreed, hgone⟩ | ⟨e, d', hremove, hstill, hwhy⟩
    · exact .inl ⟨d', DiskM.plainly_of_ok hremove, hfreed, .inl hgone⟩
    · refine .inr ⟨.io e, d', DiskM.plainly_of_error hremove, Freed.of_still hstill _, ?_⟩
      rcases hwhy with hs | ⟨hnone, -⟩
      · exact hs.struck
      · rw [hfile] at hnone
        cases hnone

/-- Removing the runs that a merge has taken the place of. -/
theorem removeSuperseded_spec (hroomy : dir.Roomy) (hfolder : d.FolderAt dir place)
    {ids : List Nat} (hnodup : ids.Nodup) (hids : ∀ id ∈ ids, id < RunName.idLimit ∧
      d.node? ((RunName.mk .finished id).placeIn place) ≠ some .folder) :
    (∃ d', ids.forM (Recovery.removeSuperseded dir) d = (.ok (), d') ∧
        Freed (ids.map fun id => (RunName.mk .finished id).placeIn place) d d' ∧
        ((∀ id ∈ ids, d'.node? ((RunName.mk .finished id).placeIn place) = none) ∨
          d.Struck d')) ∨
      ∃ e d', ids.forM (Recovery.removeSuperseded dir) d = (.error e, d') ∧
        Freed (ids.map fun id => (RunName.mk .finished id).placeIn place) d d' ∧ d.Struck d' := by
  have hforM := forM_frees (f := Recovery.removeSuperseded dir)
    (p := fun id => (RunName.mk .finished id).placeIn place) True
    (fun d id => d.FolderAt dir place ∧ id < RunName.idLimit ∧
      d.node? ((RunName.mk .finished id).placeIn place) ≠ some .folder) ?_ ?_ hnodup
    fun id hid => ⟨hfolder, hids id hid⟩
  · simpa only [true_and] using hforM
  · rintro d d' a b - - ⟨hfolder, hid, hnode⟩ hfreed
    exact ⟨hfolder.evolves hfreed.toEvolves, hid, hfreed.ne_folder hnode⟩
  · rintro d id ⟨hfolder, hid, hnode⟩
    have hname : dir.Admits (RunName.mk .finished id).text := hroomy.admits hid
    have hticked := still_ticked d
    have hfolder' := hfolder.evolves hticked.evolves
    rw [Recovery.removeSuperseded, RunName.path, DiskM.lift_bind]
    rcases hfolder.isThere_child hname with hthere | ⟨hthere, hs⟩
    swap
    · rw [hthere]
      exact .inl ⟨d.ticked, rfl, Freed.of_still hticked _, .inr ⟨trivial, hs⟩⟩
    rw [hthere]
    by_cases hsome : (d.node? (place ++ [(RunName.mk .finished id).text])).isSome = true
    swap
    · rw [if_neg hsome]
      refine .inl ⟨d.ticked, rfl, Freed.of_still hticked _, .inl ?_⟩
      exact Option.not_isSome_iff_eq_none.mp hsome
    rw [if_pos hsome]
    rcases remove_frees hfolder' hname hnode with
      ⟨d', hremove, hfreed, hgone⟩ | ⟨e, d', hremove, hstill, hwhy⟩
    · exact .inl ⟨d', DiskM.plainly_of_ok hremove, (Freed.of_still hticked []).trans hfreed,
        .inl hgone⟩
    · refine .inr ⟨.io e, d', DiskM.plainly_of_error hremove,
        Freed.of_still (hticked.trans hstill) _, ?_⟩
      rcases hwhy with hs | ⟨hnone, -⟩
      · exact (hs.earlier hticked.evolves).struck
      · rw [node?_ticked] at hnone
        rw [hnone] at hsome
        cases hsome

/-! ## What is left beside the runs -/

/-- What a compaction that stopped has left beside the runs. -/
inductive Leftover where
  | nothing
  /-- The file of a merge that does not open as a run. -/
  | broken (id : Nat)
  /-- The file of a merge. -/
  | whole (id : Nat) (entries : List Entry)

namespace Leftover

/-- The numbers of the merges that are there. -/
def ids : Leftover → List Nat
  | nothing => []
  | broken id => [id]
  | whole id _ => [id]

/-- The runs that a folder stands for. A merge stands for itself and for the runs after it. -/
def settled : Leftover → List (Nat × List Entry) → List (Nat × List Entry)
  | whole id entries, runs => (id, entries) :: runs.filter (id < ·.1)
  | _, runs => runs

/-- What is in the file of a merge, if there is one. -/
def Describes (d : Disk) (dir place : Path) : Leftover → Prop
  | nothing => True
  | broken id => ∃ file, d.node? ((RunName.mk .merged id).placeIn place) = some (.file file) ∧
      ∃ e, RunFile.parse ((RunName.mk .merged id).path dir) file (d.file file).content = .error e
  | whole id entries => ∃ file,
      d.node? ((RunName.mk .merged id).placeIn place) = some (.file file) ∧
        IsRun (d.file file).content entries

/-- This is what lies beside the runs of a folder. -/
structure LiesIn (d : Disk) (dir place : Path) (left : Leftover) : Prop where
  describes : left.Describes d dir place
  lt_idLimit : ∀ id ∈ left.ids, id < RunName.idLimit
  others : ∀ {id : Nat}, id < RunName.idLimit → id ∉ left.ids →
    d.node? ((RunName.mk .merged id).placeIn place) = none

variable {left : Leftover}

theorem LiesIn.file (h : left.LiesIn d dir place) {id : Nat} (hid : id ∈ left.ids) :
    ∃ file, d.node? ((RunName.mk .merged id).placeIn place) = some (.file file) := by
  have hdescribes := h.describes
  cases left with
  | nothing => cases hid
  | broken other =>
    obtain rfl := List.mem_singleton.mp hid
    obtain ⟨file, hnode, -⟩ := hdescribes
    exact ⟨file, hnode⟩
  | whole other entries =>
    obtain rfl := List.mem_singleton.mp hid
    obtain ⟨file, hnode, -⟩ := hdescribes
    exact ⟨file, hnode⟩

theorem LiesIn.congr (h : left.LiesIn d dir place)
    (hnode : ∀ {id : Nat}, id < RunName.idLimit → d'.node? ((RunName.mk .merged id).placeIn place) =
      d.node? ((RunName.mk .merged id).placeIn place))
    (hfile : ∀ {id file : Nat}, id < RunName.idLimit →
      d.node? ((RunName.mk .merged id).placeIn place) = some (.file file) →
        (d'.file file).content = (d.file file).content) : left.LiesIn d' dir place where
  describes := by
    have hdescribes := h.describes
    have hlt := h.lt_idLimit
    cases left with
    | nothing => trivial
    | broken id =>
      obtain ⟨file, hthere, e, hparse⟩ := hdescribes
      have hid := hlt id (List.mem_singleton.mpr rfl)
      exact ⟨file, (hnode hid).trans hthere, e, by rw [hfile hid hthere, hparse]⟩
    | whole id entries =>
      obtain ⟨file, hthere, hrun⟩ := hdescribes
      have hid := hlt id (List.mem_singleton.mpr rfl)
      exact ⟨file, (hnode hid).trans hthere, by rwa [hfile hid hthere]⟩
  lt_idLimit := h.lt_idLimit
  others hid hnot := by rw [hnode hid, h.others hid hnot]

theorem LiesIn.still (h : left.LiesIn d dir place) (hstill : d.Still d') :
    left.LiesIn d' dir place :=
  h.congr (fun _ => hstill.node? _) fun _ _ => by rw [hstill.file]

/-- The merges of a folder are found by their names. -/
theorem LiesIn.sorted_ids (h : left.LiesIn d dir place) (hsound : d.Sound) (htidy : d.Tidy place) :
    sortBy Nat.ble (d.runIds place .merged) = left.ids := by
  refine sortBy_ble_eq (nodup_runIds hsound (htidy.of .merged)) ?_ ?_
  · cases left <;> simp [ids]
  · intro id
    rw [mem_runIds (htidy.of _)]
    constructor
    · rintro ⟨hid, hthere⟩
      by_contra hnot
      rw [h.others hid hnot] at hthere
      cases hthere
    · intro hid
      obtain ⟨file, hnode⟩ := h.file hid
      exact ⟨h.lt_idLimit id hid, by rw [hnode]; rfl⟩

end Leftover

/-! ## Settling the leftover -/

variable {left : Leftover} {ids : List Nat}

/-- What recovery does with the next merge, once it is known whether it is complete. -/
theorem settle_eq {d₁ : Disk} {id : Nat} {rest : List Nat} (complete : Bool)
    (h : (tryCatch (do discard <| RunFile.openAt ((RunName.mk .merged id).path dir); return true)
      fun _ => return false : DiskM StoreError Bool) d = (.ok complete, d₁)) :
    Recovery.settle dir ids (id :: rest) d =
      (if complete then do
        (ids.filter (· ≤ id)).forM (Recovery.removeSuperseded dir)
        (Disk.rename ((RunName.mk .merged id).path dir)
          ((RunName.mk .finished id).path dir)).plainly
        Recovery.settle dir (ids.filter (id < ·) ++ [id]) rest
      else do
        (Disk.remove ((RunName.mk .merged id).path dir)).plainly
        Recovery.settle dir ids rest : DiskM StoreError Unit) d₁ := by
  rw [Recovery.settle, DiskM.bind_of_ok h]

/-- The file of a merge that is not complete is removed. -/
theorem settle_broken (ids rest : List Nat) (hroomy : dir.Roomy) (hfolder : d.FolderAt dir place)
    {id file : Nat} (hid : id < RunName.idLimit)
    (hnode : d.node? ((RunName.mk .merged id).placeIn place) = some (.file file)) {e : StoreError}
    (hparse : RunFile.parse ((RunName.mk .merged id).path dir) file (d.file file).content =
      .error e) :
    (∃ d', Recovery.settle dir ids (id :: rest) d = Recovery.settle dir ids rest d' ∧
        Freed [(RunName.mk .merged id).placeIn place] d d' ∧
        d'.node? ((RunName.mk .merged id).placeIn place) = none) ∨
      ∃ e d', Recovery.settle dir ids (id :: rest) d = (.error e, d') ∧ d.Still d' ∧
        d.Struck d' := by
  have hname : dir.Admits (RunName.mk .merged id).text := hroomy.admits hid
  have hticked := still_ticked d
  have hopen : ∃ e, RunFile.openAt ((RunName.mk .merged id).path dir) d = (.error e, d.ticked) := by
    rcases openAt_child hfolder hname hnode with hopen | ⟨e, hopen, -⟩
    · exact ⟨e, hopen.trans (congrArg (·, d.ticked) hparse)⟩
    · exact ⟨e, hopen⟩
  obtain ⟨e, hopen⟩ := hopen
  rw [settle_eq false
    (DiskM.tryCatch_of_error (DiskM.bind_of_error (DiskM.discard_of_error hopen))), if_neg (by simp)]
  rcases remove_frees (hfolder.evolves hticked.evolves) hname (by
      rw [node?_ticked]
      rw [RunName.placeIn] at hnode
      simp [hnode]) with ⟨d', hremove, hfreed, hgone⟩ | ⟨e, d', hremove, hstill, hwhy⟩
  · exact .inl ⟨d', DiskM.bind_of_ok (DiskM.plainly_of_ok hremove),
      (Freed.of_still hticked []).trans hfreed, hgone⟩
  · refine .inr ⟨.io e, d', DiskM.bind_of_error (DiskM.plainly_of_error hremove),
      hticked.trans hstill, ?_⟩
    rcases hwhy with hs | ⟨hnone, -⟩
    · exact (hs.earlier hticked.evolves).struck
    · rw [node?_ticked] at hnone
      rw [RunName.placeIn, hnone] at hnode
      cases hnode

/-- A merge that is complete takes the place of the runs up to its number. -/
theorem settle_whole (hroomy : dir.Roomy) (hfolder : d.FolderAt dir place)
    (hhalting : d.Halting) {id file : Nat} (hid : id < RunName.idLimit)
    (hnode : d.node? ((RunName.mk .merged id).placeIn place) = some (.file file)) {run : RunFile}
    (hparse : RunFile.parse ((RunName.mk .merged id).path dir) file (d.file file).content = .ok run)
    (rest : List Nat) (hnodup : ids.Nodup) (hids : ∀ n ∈ ids, n < RunName.idLimit)
    (hfiles : ∀ n, n < RunName.idLimit → d.node? ((RunName.mk .finished n).placeIn place) ≠
      some .folder) :
    (∃ d₁, Freed ((ids.filter (· ≤ id)).map fun n => (RunName.mk .finished n).placeIn place) d d₁ ∧
        (∀ n ∈ ids.filter (· ≤ id), d₁.node? ((RunName.mk .finished n).placeIn place) = none) ∧
        Recovery.settle dir ids (id :: rest) d =
          Recovery.settle dir (ids.filter (id < ·) ++ [id]) rest
            (d₁.moved ((RunName.mk .merged id).placeIn place)
              ((RunName.mk .finished id).placeIn place) file)) ∨
      ∃ e d', Recovery.settle dir ids (id :: rest) d = (.error e, d') ∧ d.Struck d' ∧
        Freed ((ids.filter (· ≤ id)).map fun n => (RunName.mk .finished n).placeIn place) d d' := by
  have hname : dir.Admits (RunName.mk .merged id).text := hroomy.admits hid
  have hticked := still_ticked d
  have hhalting' := hhalting.evolves hticked.evolves
  rcases openAt_child hfolder hname hnode with hopen | ⟨e, hopen, hs⟩
  swap
  · -- the merge was not looked at, and cannot be removed either
    rw [settle_eq false
      (DiskM.tryCatch_of_error (DiskM.bind_of_error (DiskM.discard_of_error hopen))),
      if_neg (by simp)]
    obtain ⟨e, hremove⟩ := operate_of_fault (d := d.ticked) _
      (hhalting.fault_of_struck hs hticked.evolves)
    exact .inr ⟨.io e, d.ticked.ticked, DiskM.bind_of_error (DiskM.plainly_of_error hremove),
      hs.later (still_ticked _).evolves, Freed.of_still (hticked.trans (still_ticked _)) _⟩
  rw [← RunName.path, hparse] at hopen
  rw [settle_eq true
    (DiskM.tryCatch_of_ok (DiskM.bind_of_ok (DiskM.discard_of_ok hopen))), if_pos rfl]
  have hready : ∀ n ∈ ids.filter (· ≤ id), n < RunName.idLimit ∧
      d.ticked.node? ((RunName.mk .finished n).placeIn place) ≠ some .folder := by
    intro n hn
    have hlt := hids n (List.mem_of_mem_filter hn)
    exact ⟨hlt, hfiles n hlt⟩
  rcases removeSuperseded_spec hroomy (hfolder.evolves hticked.evolves) (hnodup.filter _) hready with
    ⟨d₂, hforM, hfreed, hgone⟩ | ⟨e, d₂, hforM, hfreed, hs⟩
  swap
  · exact .inr ⟨e, d₂, DiskM.bind_of_error hforM, hs.earlier hticked.evolves,
      (Freed.of_still hticked []).trans hfreed⟩
  have hfreed' := (Freed.of_still hticked []).trans hfreed
  rw [DiskM.bind_of_ok hforM, RunName.path, RunName.path]
  have hother : ∀ n < RunName.idLimit, (RunName.mk .merged id).placeIn place ≠
      (RunName.mk .finished n).placeIn place := fun n hn =>
    RunName.placeIn_ne_of_kind _ _ hid hn (by simp)
  have hnode₂ : d₂.node? ((RunName.mk .merged id).placeIn place) = some (.file file) := by
    rw [hfreed'.others, hnode]
    intro hmem
    obtain ⟨n, hn, heq⟩ := List.mem_map.mp hmem
    exact hother n (hids n (List.mem_of_mem_filter hn)) heq.symm
  have hfree₂ : d₂.node? ((RunName.mk .finished id).placeIn place) ≠ some .folder :=
    hfreed'.ne_folder (hfiles id hid)
  have hnames : (RunName.mk .merged id).text ≠ (RunName.mk .finished id).text :=
    fun h => hother id hid (append_singleton_inj.mpr h)
  rcases (hfolder.evolves hfreed'.toEvolves).rename_child hname
      (hroomy.admits hid : dir.Admits (RunName.mk .finished id).text) hnames hnode₂ with
    ⟨hrename, halive, -⟩ | ⟨e, hrename, hwhy⟩
  · refine .inl ⟨d₂.ticked, ?_, ?_, DiskM.bind_of_ok (DiskM.plainly_of_ok hrename)⟩
    · have := hfreed'.trans (Freed.of_still (still_ticked d₂) [])
      simpa using this
    · -- the process has not stopped, so that all of the removals were done
      refine hgone.resolve_right fun hs => ?_
      exact hhalting.fault_of_struck (hs.earlier hticked.evolves) hfreed'.toEvolves halive
  · refine .inr ⟨.io e, d₂.ticked, DiskM.bind_of_error (DiskM.plainly_of_error hrename), ?_, ?_⟩
    · rcases hwhy with hs | hfull
      · exact hs.earlier hfreed'.toEvolves
      · exact absurd hfull hfree₂
    · have := hfreed'.trans (Freed.of_still (still_ticked d₂) [])
      simpa using this

/-! ## Recovery as a whole -/

/-- The runs that still have their names. -/
theorem Disk.HoldsRuns.freed {places : List Path} (h : d.HoldsRuns place runs)
    (hfreed : Freed places d d') : d'.HoldsRuns place
      (runs.filter fun r => (d'.node? ((RunName.mk .finished r.1).placeIn place)).isSome) := by
  refine h.thinned (fun id => (d'.node? ((RunName.mk .finished id).placeIn place)).isSome) ?_
    fun _ _ => by rw [hfreed.files]
  intro id _
  rcases hfreed.same_or_gone ((RunName.mk .finished id).placeIn place) with hsame | hnone
  · rw [hsame]
    cases d.node? ((RunName.mk .finished id).placeIn place) <;> rfl
  · rw [hnone]
    rfl

/-- A run comes before all others. -/
theorem Disk.HoldsRuns.preceded (h : d.HoldsRuns place runs) {id file : Nat}
    {entries : List Entry} (hid : id < RunName.idLimit) (hlt : ∀ r ∈ runs, id < r.1)
    (hnode : ∀ {other : Nat}, other < RunName.idLimit → other ≠ id →
      d'.node? ((RunName.mk .finished other).placeIn place) =
        d.node? ((RunName.mk .finished other).placeIn place))
    (hfile : ∀ file : Nat, d'.file file = d.file file)
    (hthere : d'.node? ((RunName.mk .finished id).placeIn place) = some (.file file))
    (hrun : IsRun (d.file file).content entries) : d'.HoldsRuns place ((id, entries) :: runs) where
  ascending := List.pairwise_cons.mpr ⟨hlt, h.ascending⟩
  complete {other} hother hnew := by
    by_cases heq : other = id
    · simp [heq]
    · rw [hnode hother heq] at hnew
      exact List.mem_cons_of_mem _ (h.complete hother hnew)
  lt_idLimit {r} hr := by
    rcases List.mem_cons.mp hr with rfl | hr
    · exact hid
    · exact h.lt_idLimit hr
  isRun {r} hr := by
    rcases List.mem_cons.mp hr with rfl | hr
    · exact ⟨file, hthere, by rwa [hfile]⟩
    · obtain ⟨other, hnode', hrun'⟩ := h.isRun hr
      refine ⟨other, ?_, by rwa [hfile]⟩
      rw [hnode (h.lt_idLimit hr) (Nat.ne_of_gt (hlt r hr)), hnode']

/-- A folder that recovery brings back to some runs. -/
structure Recoverable (d : Disk) (dir place : Path) (contents : List (Nat × List Entry)) :
    Prop where
  folder : d.FolderAt dir place
  sound : d.Sound
  tidy : d.Tidy place
  notFolder : ∀ {id : Nat}, id < RunName.idLimit →
    d.node? ((RunName.mk .unfinished id).placeIn place) ≠ some .folder
  stands : ∃ runs left, d.HoldsRuns place runs ∧ Leftover.LiesIn d dir place left ∧
    left.settled runs = contents

variable {contents : List (Nat × List Entry)}

/-- A folder has some runs, and beside them at most unfinished ones. -/
structure Disk.HasRunsOnly (d : Disk) (dir place : Path) (runs : List (Nat × List Entry)) :
    Prop where
  folder : d.FolderAt dir place
  sound : d.Sound
  tidy : d.Tidy place
  holds : d.HoldsRuns place runs
  noMerge : ∀ {id : Nat}, id < RunName.idLimit →
    d.node? ((RunName.mk .merged id).placeIn place) = none
  notFolder : ∀ {id : Nat}, id < RunName.idLimit →
    d.node? ((RunName.mk .unfinished id).placeIn place) ≠ some .folder

theorem Disk.HasRunsOnly.stands (h : d.HasRunsOnly dir place runs) : Recoverable d dir place runs :=
  ⟨h.folder, h.sound, h.tidy, h.notFolder, runs, .nothing, h.holds,
    ⟨trivial, by simp [Leftover.ids], fun hid _ => h.noMerge hid⟩, rfl⟩

/-- Freeing names of unfinished runs frees no other name. -/
theorem node?_of_freed_unfinished {ids : List Nat} (hids : ∀ id ∈ ids, id < RunName.idLimit)
    (hfreed : Freed (ids.map fun id => (RunName.mk .unfinished id).placeIn place) d d')
    (name : RunName) (hname : name.id < RunName.idLimit) (hkind : name.kind ≠ .unfinished) :
    d'.node? (name.placeIn place) = d.node? (name.placeIn place) := by
  refine hfreed.others fun hmem => ?_
  obtain ⟨other, hother, heq⟩ := List.mem_map.mp hmem
  exact RunName.placeIn_ne_of_kind name (.mk .unfinished other) hname (hids other hother) hkind
    heq.symm

/-- Where only names of unfinished runs are freed, the folder stands for what it did. -/
theorem freed_unfinished {ids : List Nat} (hids : ∀ id ∈ ids, id < RunName.idLimit)
    (hfreed : Freed (ids.map fun id => (RunName.mk .unfinished id).placeIn place) d d')
    (hruns : d.HoldsRuns place runs) (hleft : left.LiesIn d dir place) :
    d'.HoldsRuns place runs ∧ left.LiesIn d' dir place := by
  have hnode := node?_of_freed_unfinished hids hfreed
  constructor
  · exact hruns.congr (fun hid => hnode (.mk .finished _) hid (by simp))
      fun _ _ => by rw [hfreed.files]
  · exact hleft.congr (fun hid => hnode (.mk .merged _) hid (by simp))
      fun _ _ => by rw [hfreed.files]

/-- The unfinished runs are where they were. -/
def SameUnfinished (place : Path) (d d' : Disk) : Prop :=
  ∀ {id : Nat}, id < RunName.idLimit → d'.node? ((RunName.mk .unfinished id).placeIn place) =
    d.node? ((RunName.mk .unfinished id).placeIn place)

theorem settled_whole_filter {id : Nat} {entries : List Entry} {keep : Nat × List Entry → Bool}
    (hkeep : ∀ r ∈ runs, id < r.1 → keep r = true) :
    (Leftover.whole id entries).settled (runs.filter keep) =
      (Leftover.whole id entries).settled runs := by
  rw [Leftover.settled, Leftover.settled, List.filter_filter]
  congr 1
  refine List.filter_congr fun r hr => ?_
  by_cases hlt : id < r.1
  · simp [hlt, hkeep r hr hlt]
  · simp [hlt]

/-- What dealing with the leftover may come to: the folder is brought to the runs it stands for, or
the work is interrupted, and the folder stands for them still. -/
def Settles (d : Disk) (dir place : Path) (runs : List (Nat × List Entry)) (left : Leftover)
    (program : DiskM StoreError Unit) : Prop :=
  (∃ d', program d = (.ok (), d') ∧ Relabels place d d' ∧ SameUnfinished place d d' ∧
      d'.HoldsRuns place (left.settled runs) ∧ Leftover.nothing.LiesIn d' dir place) ∨
    ∃ e d', program d = (.error e, d') ∧ d.Struck d' ∧ Relabels place d d' ∧
      SameUnfinished place d d' ∧ ∃ runs', d'.HoldsRuns place runs' ∧ left.LiesIn d' dir place ∧
        left.settled runs' = left.settled runs

/-- A merge that is not complete is removed, and the runs stay as they are. -/
theorem settles_broken (hroomy : dir.Roomy) (hfolder : d.FolderAt dir place)
    (hruns : d.HoldsRuns place runs) {m : Nat} (hleft : (Leftover.broken m).LiesIn d dir place) :
    Settles d dir place runs (.broken m) (Recovery.settle dir ids [m]) := by
  have hm : m < RunName.idLimit := hleft.lt_idLimit m (List.mem_singleton.mpr rfl)
  obtain ⟨file, hnode, e, hparse⟩ := hleft.describes
  rcases settle_broken ids [] hroomy hfolder hm hnode hparse with
    ⟨d', hsettle, hfreed, hgone⟩ | ⟨e, d', hsettle, hstill, hs⟩
  swap
  · exact .inr ⟨e, d', hsettle, hs, hstill.relabels place, fun _ => hstill.node? _, runs,
      hruns.congr (fun _ => hstill.node? _) (fun _ _ => by rw [hstill.file]), hleft.still hstill,
      rfl⟩
  have hother (name : RunName) (hname : name.id < RunName.idLimit) (hne : name ≠ .mk .merged m) :
      d'.node? (name.placeIn place) = d.node? (name.placeIn place) := by
    refine hfreed.others fun hmem => hne ?_
    exact RunName.placeIn_inj (List.mem_singleton.mp hmem) hname hm
  refine .inl ⟨d', hsettle, hfreed.relabels ?_, ?_, ?_, trivial, by simp [Leftover.ids], ?_⟩
  · intro q hq
    rw [List.mem_singleton.mp hq]
    exact isRunPlace (.mk .merged m) hm place
  · exact fun hid => hother (.mk .unfinished _) hid (by simp)
  · exact hruns.congr (fun hid => hother (.mk .finished _) hid (by simp))
      fun _ _ => by rw [hfreed.files]
  · intro id hid _
    by_cases heq : id = m
    · rw [heq, hgone]
    · rw [hother (.mk .merged id) hid (by simpa using heq)]
      exact hleft.others hid (by simpa [Leftover.ids] using heq)

/-- Freeing the names of the runs up to a merge frees no other name. -/
theorem node?_of_freed_upTo {m : Nat} (hids : ∀ n ∈ ids, n < RunName.idLimit)
    (hfreed : Freed ((ids.filter (· ≤ m)).map fun n => (RunName.mk .finished n).placeIn place) d d')
    (name : RunName) (hname : name.id < RunName.idLimit)
    (hne : name.kind = .finished → m < name.id) :
    d'.node? (name.placeIn place) = d.node? (name.placeIn place) := by
  refine hfreed.others fun hmem => ?_
  obtain ⟨n, hn, heq⟩ := List.mem_map.mp hmem
  obtain ⟨hn, hle⟩ := List.mem_filter.mp hn
  obtain rfl := RunName.placeIn_inj heq (hids n hn) hname
  have hlt : m < n := hne rfl
  have hle : n ≤ m := by simpa using hle
  omega

/-- A run after a merge keeps its name when those up to the merge lose theirs. -/
theorem Disk.HoldsRuns.isSome_of_freed_upTo {m : Nat} (h : d.HoldsRuns place runs)
    (hids : ∀ n ∈ ids, n < RunName.idLimit)
    (hfreed : Freed ((ids.filter (· ≤ m)).map fun n => (RunName.mk .finished n).placeIn place) d d')
    {r : Nat × List Entry} (hr : r ∈ runs) (hlt : m < r.1) :
    (d'.node? ((RunName.mk .finished r.1).placeIn place)).isSome = true := by
  obtain ⟨file, hnode, -⟩ := h.isRun hr
  rw [node?_of_freed_upTo hids hfreed (.mk .finished r.1) (h.lt_idLimit hr) (fun _ => hlt), hnode]
  rfl

/-- Once the names up to a merge are gone, the runs after it are left. -/
theorem Disk.HoldsRuns.freed_upTo {m : Nat} (h : d.HoldsRuns place runs)
    (hids : ∀ n, n ∈ ids ↔ n ∈ runs.map Prod.fst) (hlt : ∀ n ∈ ids, n < RunName.idLimit)
    (hfreed : Freed ((ids.filter (· ≤ m)).map fun n => (RunName.mk .finished n).placeIn place) d d')
    (hgone : ∀ n ∈ ids.filter (· ≤ m), d'.node? ((RunName.mk .finished n).placeIn place) = none) :
    d'.HoldsRuns place (runs.filter (m < ·.1)) := by
  have hfilter : runs.filter (fun r => (d'.node? ((RunName.mk .finished r.1).placeIn
      place)).isSome) = runs.filter (m < ·.1) := by
    refine List.filter_congr fun r hr => ?_
    by_cases hafter : m < r.1
    · rw [h.isSome_of_freed_upTo hlt hfreed hr hafter, decide_eq_true hafter]
    · rw [hgone r.1 (List.mem_filter.mpr ⟨(hids r.1).mpr (List.mem_map_of_mem hr),
        by simpa using hafter⟩), decide_eq_false hafter]
      rfl
  have hruns := h.freed hfreed
  rwa [hfilter] at hruns

/-- A complete merge takes the place of the runs up to it. Where that is interrupted, the merge
stands for the runs that are gone. -/
theorem settles_whole (hroomy : dir.Roomy) (hfolder : d.FolderAt dir place) (hhalting : d.Halting)
    (hruns : d.HoldsRuns place runs) {m : Nat} {entries : List Entry}
    (hleft : (Leftover.whole m entries).LiesIn d dir place) (hnodup : ids.Nodup)
    (hids : ∀ n, n ∈ ids ↔ n ∈ runs.map Prod.fst) :
    Settles d dir place runs (.whole m entries) (Recovery.settle dir ids [m]) := by
  have hm : m < RunName.idLimit := hleft.lt_idLimit m (List.mem_singleton.mpr rfl)
  have hidsLt : ∀ n ∈ ids, n < RunName.idLimit := by
    intro n hn
    obtain ⟨r, hr, rfl⟩ := List.mem_map.mp ((hids n).mp hn)
    exact hruns.lt_idLimit hr
  have hplaces : ∀ q ∈ (ids.filter (· ≤ m)).map fun n => (RunName.mk .finished n).placeIn place,
      IsRunPlace place q := by
    intro q hq
    obtain ⟨n, hn, rfl⟩ := List.mem_map.mp hq
    exact isRunPlace (.mk .finished n) (hidsLt n (List.mem_of_mem_filter hn)) place
  obtain ⟨file, hnode, hrun⟩ := hleft.describes
  obtain ⟨run, hparse, -⟩ := RunFile.reads_of_isRun hrun ((RunName.mk .merged m).path dir) file
  rcases settle_whole hroomy hfolder hhalting hm hnode hparse [] hnodup hidsLt
    (fun n hn => hruns.notFolder hn) with
    ⟨d₁, hfreed, hgone, hsettle⟩ | ⟨e, d₁, hsettle, hs, hfreed⟩
  swap
  · have hkept := node?_of_freed_upTo hidsLt hfreed
    exact .inr ⟨e, d₁, hsettle, hs, hfreed.relabels hplaces,
      fun hid => hkept (.mk .unfinished _) hid (by simp), _, hruns.freed hfreed,
      hleft.congr (fun hid => hkept (.mk .merged _) hid (by simp)) (fun _ _ => by
        rw [hfreed.files]),
      settled_whole_filter fun _ hr => hruns.isSome_of_freed_upTo hidsLt hfreed hr⟩
  have hkept := node?_of_freed_upTo hidsLt hfreed
  have hnode₁ : d₁.node? ((RunName.mk .merged m).placeIn place) = some (.file file) := by
    rw [hkept (.mk .merged m) hm (by simp), hnode]
  refine .inl ⟨_, hsettle, (hfreed.relabels hplaces).trans (relabels_moved
    (isRunPlace (.mk .merged m) hm place) (isRunPlace (.mk .finished m) hm place) hnode₁
    (hfreed.ne_folder (hruns.notFolder hm))), ?_, ?_, trivial, by simp [Leftover.ids], ?_⟩
  -- the renaming changes two names and no file
  · intro id hid
    rw [node?_moved_run d₁ hm (.mk .unfinished id) hid, if_neg (by simp), if_neg (by simp)]
    exact hkept (.mk .unfinished id) hid (by simp)
  · refine (hruns.freed_upTo hids hidsLt hfreed hgone).preceded hm
      (fun r hr => by simpa using (List.mem_filter.mp hr).2) ?_ (fun _ => rfl) ?_
      (by rwa [hfreed.files])
    · intro other hother hne
      rw [node?_moved_run d₁ hm (.mk .finished other) hother, if_neg (by simpa using hne),
        if_neg (by simp)]
    · rw [node?_moved_run d₁ hm (.mk .finished m) hm, if_pos rfl]
  · intro id hid _
    rw [node?_moved_run d₁ hm (.mk .merged id) hid, if_neg (by simp)]
    by_cases heq : id = m
    · rw [if_pos (by rw [heq])]
    · rw [if_neg (by simpa using heq), hkept (.mk .merged id) hid (by simp)]
      exact hleft.others hid (by simpa [Leftover.ids] using heq)

/-- Dealing with the leftover brings the folder to the runs it stands for, or is interrupted and
leaves a folder that stands for them. -/
theorem settle_spec (hroomy : dir.Roomy) (hfolder : d.FolderAt dir place) (hhalting : d.Halting)
    (hruns : d.HoldsRuns place runs) (hleft : left.LiesIn d dir place) (hnodup : ids.Nodup)
    (hids : ∀ n, n ∈ ids ↔ n ∈ runs.map Prod.fst) :
    Settles d dir place runs left (Recovery.settle dir ids left.ids) := by
  cases left with
  | nothing => exact .inl ⟨d, rfl, (Still.refl d).relabels place, fun _ => rfl, hruns, hleft⟩
  | broken m => exact settles_broken hroomy hfolder hruns hleft
  | whole m entries => exact settles_whole hroomy hfolder hhalting hruns hleft hnodup hids

theorem Recoverable.still (h : Recoverable d dir place contents) (hstill : d.Still d') :
    Recoverable d' dir place contents where
  folder := h.folder.evolves hstill.evolves
  sound := hstill.evolves.sound h.sound
  tidy := (hstill.works place).tidy h.tidy
  notFolder hid := by
    rw [hstill.node?]
    exact h.notFolder hid
  stands := by
    obtain ⟨runs, left, hruns, hleft, hsettled⟩ := h.stands
    exact ⟨runs, left, hruns.congr (fun _ => hstill.node? _) (fun _ _ => by rw [hstill.file]),
      hleft.still hstill, hsettled⟩

/-- Recovery once the names of the folder are known. -/
theorem recover_of_list (hlist : Disk.list dir d = (.ok (d.names place), d')) :
    recover dir d = (do
      (d.runIds place .unfinished).forM fun id =>
        (Disk.remove ((RunName.mk .unfinished id).path dir)).plainly
      Recovery.settle dir (d.runIds place .finished) (sortBy Nat.ble (d.runIds place .merged)) :
        DiskM StoreError Unit) d' :=
  DiskM.bind_of_ok (DiskM.plainly_of_ok hlist)

/-- Recovery frees the names of the unfinished runs and goes on with the merges, or it is interrupted
before that. -/
theorem recover_begins (hroomy : dir.Roomy) (hfolder : d.FolderAt dir place) (hsound : d.Sound)
    (htidy : d.TidyOf place .unfinished) (hnotFolder : ∀ {id : Nat}, id < RunName.idLimit →
      d.node? ((RunName.mk .unfinished id).placeIn place) ≠ some .folder) :
    (∃ d₁, recover dir d = Recovery.settle dir (d.runIds place .finished)
          (sortBy Nat.ble (d.runIds place .merged)) d₁ ∧ d₁.NoUnfinished place ∧
        Freed ((d.runIds place .unfinished).map fun id =>
          (RunName.mk .unfinished id).placeIn place) d d₁) ∨
      ∃ e d₁, recover dir d = (.error e, d₁) ∧ d.Struck d₁ ∧
        Freed ((d.runIds place .unfinished).map fun id =>
          (RunName.mk .unfinished id).placeIn place) d d₁ := by
  have hticked := still_ticked d
  rcases hfolder.list with hlist | ⟨e, hlist, hs⟩
  swap
  · exact .inr ⟨.io e, d.ticked, DiskM.bind_of_error (DiskM.plainly_of_error hlist), hs,
      Freed.of_still hticked _⟩
  have hunfinished : ∀ id ∈ d.runIds place .unfinished, id < RunName.idLimit ∧
      ∃ file, d.ticked.node? ((RunName.mk .unfinished id).placeIn place) = some (.file file) := by
    intro id hid
    obtain ⟨hlt, hthere⟩ := (mem_runIds htidy).mp hid
    refine ⟨hlt, ?_⟩
    obtain ⟨node, hnode⟩ := Option.isSome_iff_exists.mp hthere
    cases node with
    | folder => exact absurd hnode (hnotFolder hlt)
    | file file => exact ⟨file, hnode⟩
  rw [recover_of_list hlist]
  rcases removeUnfinished_spec hroomy (hfolder.evolves hticked.evolves) (nodup_runIds hsound htidy)
      hunfinished with ⟨d₁, hforM, hfreed, hgone⟩ | ⟨e, d₁, hforM, hfreed, hs⟩
  swap
  · exact .inr ⟨e, d₁, DiskM.bind_of_error hforM, hs.earlier hticked.evolves,
      (Freed.of_still hticked []).trans hfreed⟩
  refine .inl ⟨d₁, DiskM.bind_of_ok hforM, fun {id} hid => ?_,
    (Freed.of_still hticked []).trans hfreed⟩
  by_cases hmem : id ∈ d.runIds place .unfinished
  · exact hgone id hmem
  · refine hfreed.stays_gone ?_
    by_contra hthere
    exact hmem ((mem_runIds htidy).mpr ⟨hid, Option.isSome_iff_ne_none.mpr hthere⟩)

/-- Recovery brings a folder to the runs it stands for, or it is interrupted and leaves a folder
that stands for them. -/
theorem recover_spec (hroomy : dir.Roomy) (h : Recoverable d dir place contents)
    (hhalting : d.Halting) :
    (∃ d', recover dir d = (.ok (), d') ∧ Relabels place d d' ∧ d'.HoldsRuns place contents ∧
        Leftover.nothing.LiesIn d' dir place ∧ d'.NoUnfinished place) ∨
      ∃ e d', recover dir d = (.error e, d') ∧ d.Struck d' ∧ Relabels place d d' ∧
        Recoverable d' dir place contents := by
  obtain ⟨runs, left, hruns, hleft, rfl⟩ := h.stands
  have hids : ∀ id ∈ d.runIds place .unfinished, id < RunName.idLimit :=
    fun _ => lt_idLimit_of_mem_runIds
  have hplaces : ∀ q ∈ (d.runIds place .unfinished).map fun id =>
      (RunName.mk .unfinished id).placeIn place, IsRunPlace place q := by
    intro q hq
    obtain ⟨id, hid, rfl⟩ := List.mem_map.mp hq
    exact isRunPlace (.mk .unfinished id) (hids id hid) place
  rcases recover_begins hroomy h.folder h.sound (Tidy.of h.tidy _) h.notFolder with
    ⟨d₁, hrecover, hnone, hfreed⟩ | ⟨e, d₁, hrecover, hs, hfreed⟩
  swap
  · obtain ⟨hruns₁, hleft₁⟩ := freed_unfinished hids hfreed hruns hleft
    have hrelabels := hfreed.relabels hplaces
    exact .inr ⟨e, d₁, hrecover, hs, hrelabels, h.folder.evolves hrelabels.toEvolves,
      hrelabels.sound h.sound, hrelabels.works.tidy h.tidy,
      fun hid => hfreed.ne_folder (h.notFolder hid), runs, left, hruns₁, hleft₁, rfl⟩
  obtain ⟨hruns₁, hleft₁⟩ := freed_unfinished hids hfreed hruns hleft
  have hrelabels := hfreed.relabels hplaces
  have hfinished : ∀ n, n ∈ d.runIds place .finished ↔ n ∈ runs.map Prod.fst := by
    intro n
    rw [← hruns.sorted_ids h.sound (Tidy.of h.tidy _), (sortBy_perm _ _).mem_iff]
  rw [hrecover, hleft.sorted_ids h.sound h.tidy]
  rcases settle_spec hroomy (h.folder.evolves hrelabels.toEvolves)
      (hhalting.evolves hrelabels.toEvolves) hruns₁ hleft₁
      (nodup_runIds h.sound (Tidy.of h.tidy .finished))
      hfinished with
    ⟨d₂, hsettle, hrelabels₂, hsame, hruns₂, hleft₂⟩ |
      ⟨e, d₂, hsettle, hs, hrelabels₂, hsame, runs₂, hruns₂, hleft₂, hsettled⟩
  · exact .inl ⟨d₂, hsettle, hrelabels.trans hrelabels₂, hruns₂, hleft₂,
      fun hid => (hsame hid).trans (hnone hid)⟩
  · refine .inr ⟨e, d₂, hsettle, hs.earlier hrelabels.toEvolves, hrelabels.trans hrelabels₂,
      h.folder.evolves (hrelabels.trans hrelabels₂).toEvolves,
      (hrelabels.trans hrelabels₂).sound h.sound,
      (hrelabels.trans hrelabels₂).works.tidy h.tidy, ?_, runs₂, left, hruns₂, hleft₂, hsettled⟩
    intro id hid
    rw [hsame hid]
    exact hfreed.ne_folder (h.notFolder hid)

/-- Opening a folder that stands for some runs opens exactly these. -/
theorem Generation.openIn_spec {config : Config} (hroomy : config.dir.Roomy)
    (h : Recoverable d config.dir place contents) (hfaultless : d.Faultless) :
    ∃ opened d', Generation.openIn config d =
        (.ok ⟨config.dir, config.blockSize, config.syncWrites, opened, true⟩, d') ∧
      Relabels place d d' ∧ d'.HoldsRuns place contents ∧
      Leftover.nothing.LiesIn d' config.dir place ∧ d'.NoUnfinished place ∧
      List.Forall₂ (Run.Stands d' config.dir place) opened contents := by
  have hmade := h.folder.makeFolders hfaultless
  have hstill : d.Still d.ticked.ticked := (still_ticked d).trans (still_ticked _)
  have hfaultless' := hfaultless.evolves hstill.evolves
  rw [Generation.openIn, DiskM.bind_of_ok (DiskM.plainly_of_ok hmade)]
  rcases recover_spec hroomy (h.still hstill) hfaultless'.halting with
    ⟨d₁, hrecover, hrelabels, hruns, hleft, hunfinished⟩ | ⟨e, d₁, -, hs, -⟩
  swap
  · exact absurd hs hfaultless'.not_struck
  have hrelabels₁ := (hstill.relabels place).trans hrelabels
  rw [DiskM.bind_of_ok hrecover]
  rcases Generation.load_spec hroomy (h.folder.evolves hrelabels₁.toEvolves)
      (hrelabels₁.sound h.sound) (Tidy.of (hrelabels₁.works.tidy h.tidy) _) hruns with
    ⟨opened, d₂, hload, hstill₂, hstands⟩ | ⟨e, d₂, -, -, hs⟩
  swap
  · exact absurd hs (hfaultless.evolves hrelabels₁.toEvolves).not_struck
  refine ⟨opened, d₂, hload, hrelabels₁.trans (hstill₂.relabels place), ?_, hleft.still hstill₂, ?_,
    hstands.imp fun _ _ hrun => hrun.still hstill₂⟩
  · exact hruns.congr (fun _ => hstill₂.node? _) fun _ _ => by rw [hstill₂.file]
  · intro id hid
    rw [hstill₂.node?]
    exact hunfinished hid

end LayeredStore
