import LayeredStore.Proofs.LockFrames

/-!
# Recovery of what is there

Recovery takes numbers from the names in a folder, and then removes and renames the files that these
numbers are given as run files. That all of these files are there is said by a recovery that comes to a
halt, without a result and without an error, as soon as it is to remove or to rename what is not there:
`Recovery.strict` is such a program. In a folder where the unfinished runs and the merges have the names
that are written for them, it does what `recover` does, whichever faults strike (`strict_eq`). In any
other folder recovery does not succeed (`tidyOf_of_recovered`).

Both follow from what lies ahead of recovery, some files of different names (`Recovery.Ahead`). If they
are there, then it finds each when it comes to it, and if it succeeds, they were there.
-/

namespace LayeredStore

open Disk Generation

variable {d d' d'' : Disk} {dir place : Path}

theorem Disk.FolderAt.resolved_path (h : d.FolderAt dir place) (name : RunName) :
    (name.path dir).resolved = name.placeIn place := by
  rw [name.resolved_path, h.resolved, RunName.placeIn]

/-! ## The program -/

namespace Recovery

/-- A program over a disk that can come to a halt. -/
abbrev StrictM (α : Type) := ExceptT StoreError (StateT Disk Option) α

variable {α β : Type}

/-- A program that comes to no halt. -/
def freely (x : DiskM StoreError α) : StrictM α := fun d => some (x d)

/-- A program that comes to a halt if there is nothing where a path leads. -/
def requiring (p : Path) (x : DiskM StoreError α) : StrictM α := fun d =>
  if (d.node? p.resolved).isSome then some (x d) else none

/-- The removal of a run that a complete merge has taken the place of. -/
def strictRemoveSuperseded (dir : Path) (id : Nat) : StrictM Unit := do
  let path := (RunName.mk .finished id).path dir
  if ← freely (Disk.isThere path) then
    requiring path (Disk.remove path).plainly

/-- The dealing with the outputs of compactions. -/
def strictSettle (dir : Path) (runs : List Nat) : (merged : List Nat) → StrictM Unit
  | [] => return ()
  | id :: rest => do
    let path := (RunName.mk .merged id).path dir
    let complete ← freely (tryCatch (do discard <| RunFile.openAt path; return true)
      fun _ => return false)
    if complete then
      (runs.filter (· ≤ id)).forM (strictRemoveSuperseded dir)
      requiring path (Disk.rename path ((RunName.mk .finished id).path dir)).plainly
      strictSettle dir (runs.filter (id < ·) ++ [id]) rest
    else
      requiring path (Disk.remove path).plainly
      strictSettle dir runs rest

/-- The program `recover`, but it comes to a halt when it is to remove or to rename what is not
there. -/
def strict (dir : Path) : StrictM Unit := do
  let names := (← freely (Disk.list dir).plainly).filterMap RunName.parse
  (idsOf .unfinished names).forM fun id =>
    let path := (RunName.mk .unfinished id).path dir
    requiring path (Disk.remove path).plainly
  strictSettle dir (idsOf .finished names) (sortBy Nat.ble (idsOf .merged names))

theorem requiring_eq {p : Path} (x : DiskM StoreError α) (h : (d.node? p.resolved).isSome) :
    requiring p x d = some (x d) := if_pos h

theorem strict_bind {x : DiskM StoreError α} {f : α → DiskM StoreError β} {sx : StrictM α}
    {sf : α → StrictM β} (hx : sx d = some (x d))
    (hf : ∀ a d', x d = (.ok a, d') → sf a d' = some (f a d')) :
    (sx >>= sf) d = some ((x >>= f) d) := by
  cases h : x d with
  | mk r d' =>
    rw [h] at hx
    show (sx d).bind _ = _
    cases r with
    | ok a =>
      rw [DiskM.bind_of_ok h, hx, ← hf a d' h]
      rfl
    | error e =>
      rw [DiskM.bind_of_error h, hx]
      rfl

/-- A list is gone through. `P` is what holds while some items remain. -/
theorem strict_forM (f : α → DiskM StoreError Unit) (sf : α → StrictM Unit)
    (P : List α → Disk → Prop)
    (hstep : ∀ {a rest d}, P (a :: rest) d → sf a d = some (f a d) ∧ P rest (f a d).2)
    {items : List α} (h : P items d) : items.forM sf d = some (items.forM f d) ∧
      ∀ d', items.forM f d = (.ok (), d') → P [] d' := by
  induction items generalizing d with
  | nil =>
    refine ⟨rfl, fun d' hdone => ?_⟩
    cases hdone
    exact h
  | cons a rest ih =>
    obtain ⟨hfirst, hrest⟩ := hstep h
    constructor
    · refine strict_bind hfirst fun _ d' hdone => ?_
      rw [hdone] at hrest
      exact (ih hrest).1
    · intro d' hdone
      obtain ⟨_, d₁, hfirst', hdone'⟩ := DiskM.exists_of_bind hdone
      rw [hfirst'] at hrest
      exact (ih hrest).2 d' hdone'

/-! ## What lies ahead -/

/-- The run files that recovery has still to deal with are there. -/
structure Ahead (dir place : Path) (names : List RunName) (d : Disk) : Prop where
  folder : d.FolderAt dir place
  nodup : names.Nodup
  there : ∀ name ∈ names, name.id < RunName.idLimit ∧ (d.node? (name.placeIn place)).isSome

variable {names : List RunName} {name : RunName}

theorem Ahead.tail (h : Ahead dir place (name :: names) d) : Ahead dir place names d where
  folder := h.folder
  nodup := (List.nodup_cons.mp h.nodup).2
  there other hother := h.there other (List.mem_cons_of_mem _ hother)

theorem Ahead.still (h : Ahead dir place names d) (hstill : d.Still d') :
    Ahead dir place names d' where
  folder := h.folder.evolves hstill.evolves
  nodup := h.nodup
  there name hname := by
    rw [hstill.node?]
    exact h.there name hname

theorem Ahead.append {others : List RunName} (h : Ahead dir place names d)
    (h' : Ahead dir place others d) (hdisjoint : ∀ name ∈ names, name ∉ others) :
    Ahead dir place (names ++ others) d where
  folder := h.folder
  nodup := List.nodup_append.mpr
    ⟨h.nodup, h'.nodup, fun name hname _ hother heq => hdisjoint name hname (heq ▸ hother)⟩
  there name hname := (List.mem_append.mp hname).elim (h.there name) (h'.there name)

theorem Ahead.perm {others : List RunName} (h : Ahead dir place names d) (hperm : names.Perm others) :
    Ahead dir place others d where
  folder := h.folder
  nodup := hperm.nodup_iff.mp h.nodup
  there name hname := h.there name (hperm.mem_iff.mpr hname)

theorem Ahead.head (h : Ahead dir place (name :: names) d) :
    (d.node? (name.path dir).resolved).isSome := by
  rw [h.folder.resolved_path]
  exact (h.there name List.mem_cons_self).2

/-- Removing a file leaves all others alone. -/
theorem Ahead.remove (h : Ahead dir place names d) (hname : name ∉ names)
    (hid : name.id < RunName.idLimit) :
    Ahead dir place names (Disk.remove (name.path dir) d).2 := by
  rcases operate_fails_or_ok _ d with hfails | ⟨_, d', hdone⟩
  · exact hfails ▸ h.still (still_ticked d)
  · have hspares := spares_remove (name.noLock dir) d
    obtain ⟨hne, -, rfl⟩ := remove_eq_ok hdone
    rw [Disk.remove, hdone] at hspares ⊢
    refine ⟨h.folder.evolves hspares.toEvolves, h.nodup, fun other hother => ?_⟩
    obtain ⟨hother', hthere⟩ := h.there other hother
    rw [node?_erase _ hne, if_neg, node?_ticked]
    · exact ⟨hother', hthere⟩
    · rw [h.folder.resolved_path]
      exact fun heq => hname (RunName.placeIn_inj heq hother' hid ▸ hother)

/-- So does renaming it, if it is no folder. -/
theorem Ahead.rename (h : Ahead dir place names d) (hname : name ∉ names)
    (hid : name.id < RunName.idLimit) (hnode : d.node? (name.path dir).resolved ≠ some .folder)
    (target : RunName) :
    Ahead dir place names (Disk.rename (name.path dir) (target.path dir) d).2 := by
  have hspares := spares_rename (name.noLock dir) (target.noLock dir) hnode
  rcases operate_fails_or_ok _ d with hfails | ⟨_, d', hdone⟩
  · exact hfails ▸ h.still (still_ticked d)
  · rw [Disk.rename, hdone] at hspares ⊢
    refine ⟨h.folder.evolves hspares.toEvolves, h.nodup, fun other hother => ?_⟩
    obtain ⟨hother', hthere⟩ := h.there other hother
    refine ⟨hother', ?_⟩
    obtain ⟨hne, hne', id, -, -, ⟨-, rfl⟩ | rfl⟩ := rename_eq_ok hdone hnode
    · exact hthere
    · rw [node?_moved _ _ hne hne', h.folder.resolved_path, h.folder.resolved_path]
      split
      · rfl
      · rw [if_neg fun heq => hname (RunName.placeIn_inj heq hother' hid ▸ hother), node?_ticked]
        exact hthere

/-- The first of the files that are ahead is removed. -/
theorem Ahead.remove_head (h : Ahead dir place (name :: names) d) :
    requiring (name.path dir) (Disk.remove (name.path dir)).plainly d =
        some ((Disk.remove (name.path dir)).plainly d) ∧
      Ahead dir place names ((Disk.remove (name.path dir)).plainly d).2 :=
  ⟨requiring_eq _ h.head, h.tail.remove (List.nodup_cons.mp h.nodup).1
    (h.there name List.mem_cons_self).1⟩

/-- What a path is found to lead to is there. -/
theorem isSome_of_isThere {p : Path} (h : (Disk.isThere p d).1 = true) :
    ((Disk.isThere p d).2.node? p.resolved).isSome := by
  rw [isThere, leadsTo_eq] at h ⊢
  cases hfault : d.faults d.clock with
  | some fault => simp [hfault] at h
  | none =>
    cases hlocate : d.ticked.locate p with
    | error e => simp [hfault, hlocate, Except.toOption] at h
    | ok found =>
      show (d.ticked.node? p.resolved).isSome
      rw [(resolved_of_locate hlocate).2]
      rfl

/-- Recovery looks for a run before it removes it. -/
theorem Ahead.removeSuperseded (h : Ahead dir place names d) {id : Nat}
    (hname : RunName.mk .finished id ∉ names) (hid : id < RunName.idLimit) :
    strictRemoveSuperseded dir id d = some (Recovery.removeSuperseded dir id d) ∧
      Ahead dir place names (Recovery.removeSuperseded dir id d).2 := by
  have hasked := h.still (still_isThere ((RunName.mk .finished id).path dir) d)
  constructor
  · refine strict_bind rfl fun there d₁ hanswer => ?_
    cases there with
    | false => rfl
    | true =>
      have hthere := congrArg Prod.fst hanswer
      have hafter : (Disk.isThere ((RunName.mk .finished id).path dir) d).2 = d₁ :=
        congrArg Prod.snd hanswer
      refine requiring_eq _ (hafter ▸ isSome_of_isThere (Except.ok.inj hthere))
  · rw [Recovery.removeSuperseded, DiskM.lift_bind]
    split
    · exact hasked.remove hname hid
    · exact hasked

theorem spares_of_forM {f : Nat → DiskM StoreError Unit} {ids : List Nat}
    (hf : ∀ (id : Nat) (d : Disk), d.Spares (f id d).2) (h : ids.forM f d = (.ok (), d')) : d.Spares d' := by
  have hspares := spares_forM (fun id (_ : id ∈ ids) => hf id) d
  rwa [h] at hspares

/-- And so with one run after the other, where only merges are ahead. -/
theorem Ahead.forM_removeSuperseded {runs merged : List Nat}
    (hruns : ∀ id ∈ runs, id < RunName.idLimit)
    (h : Ahead dir place (merged.map (RunName.mk .merged)) d) :
    runs.forM (strictRemoveSuperseded dir) d =
        some (runs.forM (Recovery.removeSuperseded dir) d) ∧
      ∀ d', runs.forM (Recovery.removeSuperseded dir) d = (.ok (), d') →
        Ahead dir place (merged.map (RunName.mk .merged)) d' := by
  have hwhole := strict_forM (Recovery.removeSuperseded dir) (strictRemoveSuperseded dir)
    (fun remaining d => (∀ id ∈ remaining, id < RunName.idLimit) ∧
      Ahead dir place (merged.map (RunName.mk .merged)) d) ?_ ⟨hruns, h⟩
  · exact ⟨hwhole.1, fun d' hdone => (hwhole.2 d' hdone).2⟩
  · rintro id rest d ⟨hids, h⟩
    obtain ⟨hid, hrest⟩ := List.forall_mem_cons.mp hids
    obtain ⟨hstrict, hahead⟩ := h.removeSuperseded (by simp) hid
    exact ⟨hstrict, hrest, hahead⟩

/-- Merges are dealt with one after the other. -/
theorem Ahead.strictSettle_eq {runs merged : List Nat} (hruns : ∀ id ∈ runs, id < RunName.idLimit)
    (h : Ahead dir place (merged.map (RunName.mk .merged)) d) :
    strictSettle dir runs merged d = some (settle dir runs merged d) := by
  induction merged generalizing runs d with
  | nil => rfl
  | cons id rest ih =>
    obtain ⟨complete, d₁, hasked, hstill, hfile⟩ :=
      complete_still ((RunName.mk .merged id).path dir) d
    have h₁ := h.still hstill
    refine strict_bind rfl fun answer d₂ hanswer => ?_
    obtain ⟨rfl, rfl⟩ : complete = answer ∧ d₁ = d₂ := by
      rw [hasked] at hanswer
      cases hanswer
      exact ⟨rfl, rfl⟩
    cases complete with
    | false =>
      obtain ⟨hstrict, hrest⟩ := h₁.remove_head
      refine strict_bind hstrict fun _ d₂ hdone => ih hruns ?_
      rwa [hdone] at hrest
    | true =>
      have hsome : ∀ run ∈ runs.filter (· ≤ id), run < RunName.idLimit :=
        fun run hrun => hruns run (List.mem_of_mem_filter hrun)
      obtain ⟨hstrict, hafter⟩ := h₁.forM_removeSuperseded hsome
      refine strict_bind hstrict fun _ d₂ hremoved => ?_
      have h₂ := hafter d₂ hremoved
      -- what is complete is no folder, and no removal makes it one
      have hnode := (spares_of_forM (spares_removeSuperseded dir) hremoved).notFolder (hfile rfl)
      have hid := (h₂.there _ List.mem_cons_self).1
      refine strict_bind (requiring_eq _ h₂.head) fun _ d₃ hrenamed => ih ?_ ?_
      · intro run hrun
        rcases List.mem_append.mp hrun with hlater | hnew
        · exact hruns run (List.mem_of_mem_filter hlater)
        · rw [List.mem_singleton.mp hnew]
          exact hid
      · have hrest := h₂.tail.rename (List.nodup_cons.mp h₂.nodup).1 hid hnode (.mk .finished id)
        have hafter : (Disk.rename ((RunName.mk .merged id).path dir)
            ((RunName.mk .finished id).path dir) d₂).2 = d₃ := congrArg Prod.snd hrenamed
        rwa [hafter] at hrest

/-- The files of a kind lie ahead as they are listed, just if they have the names that are written. -/
theorem tidyOf_iff (hfolder : d.FolderAt dir place) (hsound : d.Sound) {kind : RunKind} :
    d.TidyOf place kind ↔ Ahead dir place ((d.runIds place kind).map (RunName.mk kind)) d := by
  constructor
  · intro htidy
    refine ⟨hfolder, (nodup_runIds hsound htidy).map (fun _ _ heq => (RunName.mk.inj heq).2), ?_⟩
    intro name hname
    obtain ⟨id, hid, rfl⟩ := List.mem_map.mp hname
    exact (mem_runIds htidy).mp hid
  · rintro h text name hthere hparse rfl
    have hmem : name.id ∈ d.runIds place name.kind := mem_runIds_iff_parse.mpr ⟨text, hthere, hparse⟩
    obtain ⟨hid, hwritten⟩ := h.there name (List.mem_map.mpr ⟨name.id, hmem, rfl⟩)
    -- the name that is written is in the folder too, and one of the two would be read in vain
    exact (nodup_runIds_iff hsound).mp h.nodup.of_map hwritten hthere (RunName.parse_text hid) hparse

/-- Where the unfinished runs and the merges have the names that are written for them, recovery removes
and renames what is there alone. -/
theorem strict_eq (hfolder : d.FolderAt dir place) (hsound : d.Sound)
    (hunfinished : d.TidyOf place .unfinished) (hmerged : d.TidyOf place .merged) :
    strict dir d = some (recover dir d) := by
  refine strict_bind rfl fun names d₁ hlisted => ?_
  rcases hfolder.list with hlist | ⟨e, hlist, -⟩
  swap
  · rw [DiskM.plainly_of_error hlist] at hlisted
    cases hlisted
  rw [DiskM.plainly_of_ok hlist] at hlisted
  cases hlisted
  have h := ((tidyOf_iff hfolder hsound).mp hunfinished).append
    ((tidyOf_iff hfolder hsound).mp hmerged) (by simp)
  have hremoved := strict_forM
    (fun id => (Disk.remove ((RunName.mk .unfinished id).path dir)).plainly)
    (fun id => requiring ((RunName.mk .unfinished id).path dir)
      (Disk.remove ((RunName.mk .unfinished id).path dir)).plainly)
    (fun remaining d' => Ahead dir place (remaining.map (RunName.mk .unfinished) ++
      (d.runIds place .merged).map (RunName.mk .merged)) d')
    (fun h => h.remove_head) (h.still (still_ticked d))
  refine strict_bind hremoved.1 fun _ d₂ hdone => ?_
  exact ((hremoved.2 d₂ hdone).perm ((sortBy_perm Nat.ble _).symm.map _)).strictSettle_eq
    fun _ => lt_idLimit_of_mem_runIds

/-! ## What success takes -/

/-- There is no run file of a kind that there was not. -/
def NothingNew (place : Path) (kind : RunKind) (d d' : Disk) : Prop :=
  ∀ id : Nat, id < RunName.idLimit → (d'.node? ((RunName.mk kind id).placeIn place)).isSome →
    (d.node? ((RunName.mk kind id).placeIn place)).isSome

variable {kind : RunKind} {id : Nat} {ids : List Nat}

theorem NothingNew.of_still (h : d.Still d') : NothingNew place kind d d' := fun _ _ hthere => by
  rwa [h.node?] at hthere

theorem NothingNew.trans (h : NothingNew place kind d d') (h' : NothingNew place kind d' d'') :
    NothingNew place kind d d'' := fun id hid hthere => h id hid (h' id hid hthere)

theorem nothingNew_remove (p : Path) (d : Disk) : NothingNew place kind d (Disk.remove p d).2 := by
  rcases operate_fails_or_ok _ d with hfails | ⟨_, d', hdone⟩
  · exact hfails ▸ .of_still (still_ticked d)
  · obtain ⟨hne, -, rfl⟩ := remove_eq_ok hdone
    intro id hid hthere
    rw [Disk.remove, hdone, node?_erase _ hne] at hthere
    split at hthere
    · cases hthere
    · exact hthere

theorem nothingNew_removeSuperseded (dir : Path) (id : Nat) (d : Disk) :
    NothingNew place kind d (Recovery.removeSuperseded dir id d).2 := by
  rw [Recovery.removeSuperseded, DiskM.lift_bind]
  refine (NothingNew.of_still (still_isThere ((RunName.mk .finished id).path dir) d)).trans ?_
  split
  · exact nothingNew_remove _ _
  · exact .of_still (.refl _)

theorem nothingNew_of_forM {f : Nat → DiskM StoreError Unit}
    (hf : ∀ (id : Nat) (d : Disk), NothingNew place kind d (f id d).2) (h : ids.forM f d = (.ok (), d')) :
    NothingNew place kind d d' := by
  induction ids generalizing d with
  | nil =>
    cases h
    exact .of_still (.refl _)
  | cons id rest ih =>
    obtain ⟨_, d₁, hfirst, hlater⟩ := DiskM.exists_of_bind h
    have hnew := hf id d
    rw [hfirst] at hnew
    exact hnew.trans (ih hlater)

/-- A run file was there and is gone, and no other of its kind is new. -/
structure Spends (dir place : Path) (name : RunName) (d d' : Disk) : Prop where
  folder : d'.FolderAt dir place
  there : (d.node? (name.placeIn place)).isSome
  gone : d'.node? (name.placeIn place) = none
  new : NothingNew place name.kind d d'

/-- What is there later was there before, where nothing is new. -/
theorem Ahead.before (h : Ahead dir place (ids.map (RunName.mk kind)) d') (hfolder : d.FolderAt dir place)
    (hnew : NothingNew place kind d d') : Ahead dir place (ids.map (RunName.mk kind)) d where
  folder := hfolder
  nodup := h.nodup
  there name hname := by
    obtain ⟨hlt, hthere⟩ := h.there name hname
    obtain ⟨id, -, rfl⟩ := List.mem_map.mp hname
    exact ⟨hlt, hnew id hlt hthere⟩

/-- A file that was spent is none of those that are there after it. -/
theorem Spends.ahead (h : Spends dir place (.mk kind id) d d') (hfolder : d.FolderAt dir place)
    (hid : id < RunName.idLimit) (hrest : Ahead dir place (ids.map (RunName.mk kind)) d') :
    Ahead dir place ((id :: ids).map (RunName.mk kind)) d where
  folder := hfolder
  nodup := by
    refine List.nodup_cons.mpr ⟨fun hmem => ?_, hrest.nodup⟩
    have hstill := (hrest.there _ hmem).2
    rw [h.gone] at hstill
    cases hstill
  there := List.forall_mem_cons.mpr ⟨⟨hid, h.there⟩, (hrest.before hfolder h.new).there⟩

theorem spends_remove (hfolder : d.FolderAt dir place) {name : RunName}
    (h : Disk.remove (name.path dir) d = (.ok (), d')) : Spends dir place name d d' := by
  have hspares := spares_remove (name.noLock dir) d
  have hnew : NothingNew place name.kind d (Disk.remove (name.path dir) d).2 :=
    nothingNew_remove (name.path dir) d
  rw [h] at hspares hnew
  obtain ⟨hne, ⟨id, hnode⟩, rfl⟩ := remove_eq_ok h
  rw [hfolder.resolved_path] at hspares hne hnode hnew ⊢
  refine ⟨hfolder.evolves hspares.toEvolves, ?_, ?_, hnew⟩
  · rw [hnode]
    rfl
  · rw [node?_erase _ hne, if_pos rfl]

/-- A merge that has become a run is spent as a merge. -/
theorem spends_rename (hfolder : d.FolderAt dir place) (hid : id < RunName.idLimit)
    (hnode : d.node? ((RunName.mk .merged id).path dir).resolved ≠ some .folder)
    (h : Disk.rename ((RunName.mk .merged id).path dir) ((RunName.mk .finished id).path dir) d =
      (.ok (), d')) : Spends dir place (.mk .merged id) d d' := by
  have hspares := spares_rename ((RunName.mk .merged id).noLock dir)
    ((RunName.mk .finished id).noLock dir) hnode
  obtain ⟨-, -, file, hfile, -, hmoved⟩ := rename_eq_ok h hnode
  rw [h] at hspares
  rw [hfolder.resolved_path, hfolder.resolved_path] at hmoved
  rw [hfolder.resolved_path] at hfile
  rcases hmoved with ⟨hsame, -⟩ | rfl
  · exact absurd hsame (RunName.placeIn_ne_of_kind _ _ hid hid (by simp))
  refine ⟨hfolder.evolves hspares.toEvolves, ?_, ?_, fun other hlt hthere => ?_⟩
  · rw [hfile]
    rfl
  · rw [node?_moved_run _ hid (.mk .merged id) hid, if_neg (by simp), if_pos rfl]
  · rw [node?_moved_run _ hid (.mk .merged other) hlt, if_neg (by simp)] at hthere
    split at hthere
    · cases hthere
    · exact hthere

/-- Files of a kind that were removed one after the other were there. -/
theorem ahead_of_removed (hfolder : d.FolderAt dir place) (hids : ∀ id ∈ ids, id < RunName.idLimit)
    (h : ids.forM (fun id => (Disk.remove ((RunName.mk kind id).path dir)).plainly) d = (.ok (), d')) :
    Ahead dir place (ids.map (RunName.mk kind)) d := by
  induction ids generalizing d with
  | nil => exact ⟨hfolder, .nil, nofun⟩
  | cons id rest ih =>
    obtain ⟨hid, hrest⟩ := List.forall_mem_cons.mp hids
    obtain ⟨_, d₁, hfirst, hlater⟩ := DiskM.exists_of_bind h
    have hspends := spends_remove hfolder (DiskM.of_plainly_eq_ok hfirst)
    exact hspends.ahead hfolder hid (ih hspends.folder hrest hlater)

/-- Merges that were dealt with one after the other were there. -/
theorem ahead_of_settled (hfolder : d.FolderAt dir place) {runs : List Nat}
    (hids : ∀ id ∈ ids, id < RunName.idLimit) (h : settle dir runs ids d = (.ok (), d')) :
    Ahead dir place (ids.map (RunName.mk .merged)) d := by
  induction ids generalizing runs d with
  | nil => exact ⟨hfolder, .nil, nofun⟩
  | cons id rest ih =>
    obtain ⟨hid, hrest⟩ := List.forall_mem_cons.mp hids
    obtain ⟨complete, d₁, hasked, hstill, hfile⟩ :=
      complete_still ((RunName.mk .merged id).path dir) d
    have hfolder₁ := hfolder.evolves hstill.evolves
    refine Ahead.before ?_ hfolder (.of_still hstill)
    rw [settle, DiskM.bind_of_ok hasked] at h
    cases complete with
    | false =>
      obtain ⟨_, d₂, hremoved, hlater⟩ := DiskM.exists_of_bind h
      have hspends := spends_remove hfolder₁ (DiskM.of_plainly_eq_ok hremoved)
      exact hspends.ahead hfolder₁ hid (ih hspends.folder hrest hlater)
    | true =>
      obtain ⟨_, d₂, hremoved, hnamed⟩ := DiskM.exists_of_bind h
      obtain ⟨_, d₃, hrenamed, hlater⟩ := DiskM.exists_of_bind hnamed
      have hspares := spares_of_forM (spares_removeSuperseded dir) hremoved
      -- what is complete is no folder, and no removal makes it one
      have hnode := hspares.notFolder (hfile rfl)
      have hfolder₂ := hfolder₁.evolves hspares.toEvolves
      have hnew : NothingNew place .merged d₁ d₂ :=
        nothingNew_of_forM (nothingNew_removeSuperseded dir) hremoved
      have hspends := spends_rename hfolder₂ hid hnode (DiskM.of_plainly_eq_ok hrenamed)
      exact (hspends.ahead hfolder₂ hid (ih hspends.folder hrest hlater)).before hfolder₁ hnew

/-- Recovery succeeds only where the unfinished runs and the merges have the names that are written for
them. -/
theorem tidyOf_of_recovered (hfolder : d.FolderAt dir place) (hsound : d.Sound)
    (h : recover dir d = (.ok (), d')) : d.TidyOf place .unfinished ∧ d.TidyOf place .merged := by
  rcases hfolder.list with hlist | ⟨e, hlist, -⟩
  swap
  · rw [recover, DiskM.bind_of_error (DiskM.plainly_of_error hlist)] at h
    cases h
  rw [recover_of_list hlist] at h
  obtain ⟨_, d₁, hremoved, hsettled⟩ := DiskM.exists_of_bind h
  rw [tidyOf_iff hfolder hsound, tidyOf_iff hfolder hsound]
  have hticked := still_ticked d
  have hfolder' := hfolder.evolves hticked.evolves
  constructor
  · exact (ahead_of_removed hfolder' (fun _ => lt_idLimit_of_mem_runIds) hremoved).before hfolder (.of_still hticked)
  · have hspares := spares_of_forM
      (fun id d => spares_remove ((RunName.mk .unfinished id).noLock dir) d) hremoved
    have hnew : NothingNew place .merged d.ticked d₁ :=
      nothingNew_of_forM (fun id d => nothingNew_remove _ d) hremoved
    have hids : ∀ id ∈ sortBy Nat.ble (d.runIds place .merged), id < RunName.idLimit :=
      fun id hid => lt_idLimit_of_mem_runIds ((sortBy_perm _ _).mem_iff.mp hid)
    have hmerged := ahead_of_settled (hfolder'.evolves hspares.toEvolves) hids hsettled
    exact (hmerged.perm ((sortBy_perm _ _).map _)).before hfolder
      ((NothingNew.of_still hticked).trans hnew)

end Recovery

end LayeredStore
