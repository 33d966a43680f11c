import LayeredStore.Proofs.Refinement

/-!
# Opening a store

Opening makes the folder if it is missing, takes its lock and brings it into order.

* `makeFolders_spec` : a folder that was made is there, and nothing else has changed.
* `Lock.acquire_spec` : a lock that nobody holds is taken, one that somebody holds is left to him.
* `Describes.reopened` : the folder of a closed store opens, and the new store is in the state that
  the layers describe.
* `describes_opened` : so is a store that was opened in a folder without runs.
-/

namespace LayeredStore

open Disk Generation

variable {d d' d'' : Disk} {dir place : Path}

namespace Disk

/-! ## Making folders -/

/-- Some folders are new. -/
structure MakesFolders (d d' : Disk) : Prop extends Evolves d d' where
  nodes : ∀ q : Path, d'.node? q = d.node? q ∨ d.node? q = none ∧ d'.node? q = some .folder
  files : ∀ id : Nat, d'.file id = d.file id

theorem MakesFolders.trans (h : d.MakesFolders d') (h' : d'.MakesFolders d'') :
    d.MakesFolders d'' where
  toEvolves := h.toEvolves.trans h'.toEvolves
  nodes q := by
    rcases h.nodes q with hsame | ⟨hnone, hmade⟩
    · rcases h'.nodes q with hsame' | ⟨hnone', hmade'⟩
      · exact .inl (hsame'.trans hsame)
      · exact .inr ⟨hsame ▸ hnone', hmade'⟩
    · exact .inr ⟨hnone, h'.folders hmade⟩
  files id := (h'.files id).trans (h.files id)

theorem Still.makesFolders (h : d.Still d') : d.MakesFolders d' where
  toEvolves := h.evolves
  nodes q := .inl (h.node? q)
  files := h.file

theorem makesFolders_put {q : Path} (hq : q ≠ []) (hnone : d.node? q = none) :
    d.MakesFolders (d.put q .folder) where
  faults := rfl
  clock := Nat.le_refl _
  size := Nat.le_refl _
  folders {other} hother := by
    rw [node?_put d hq, if_neg]
    · exact hother
    · rintro rfl
      rw [hnone] at hother
      cases hother
  sound hsound := hsound.put hq fun id hid => nomatch hid
  nodes other := by
    rw [node?_put d hq]
    by_cases hother : other = q
    · rw [if_pos hother]
      exact .inr ⟨hother ▸ hnone, rfl⟩
    · rw [if_neg hother]
      exact .inl rfl
  files _ := rfl

theorem follow_slashes {slashes : List String} (hslashes : ∀ name ∈ slashes, name = "")
    (hnode : d.node? place = some .folder) : d.follow place slashes = .ok (place, .folder) := by
  induction slashes with
  | nil => rw [follow, hnode]
  | cons name rest ih =>
    rw [follow, hnode, hslashes name List.mem_cons_self]
    exact ih fun other hother => hslashes other (List.mem_cons_of_mem _ hother)

theorem slot_eq_ok {p : Path} {nameless : SystemError} {slot : Slot}
    (h : d.slot p nameless = .ok slot) : p.check = .ok () ∧ ∃ front : Path,
      p.withoutSlashes = front ++ [slot.name] ∧ d.follow [] front = .ok (slot.folder, .folder) ∧
      Path.staysPut slot.name = false ∧ slot.name ≠ Path.outward ∧
      slot.slashed = decide (p.withoutSlashes.length < p.length) := by
  rw [Disk.slot] at h
  cases hcheck : p.check with
  | error e => simp [hcheck, bind, Except.bind] at h
  | ok =>
    refine ⟨rfl, ?_⟩
    cases hfollow : d.follow [] p.withoutSlashes.dropLast with
    | error e => simp [hcheck, hfollow, bind, Except.bind] at h
    | ok found =>
      obtain ⟨folder, node⟩ := found
      simp only [hcheck, hfollow, bind, Except.bind] at h
      cases node with
      | file id => simp [throw, throwThe, MonadExceptOf.throw] at h
      | folder =>
        rcases List.eq_nil_or_concat' p.withoutSlashes with hnil | ⟨front, name, hconcat⟩
        · simp [hnil, throw, throwThe, MonadExceptOf.throw] at h
        · rw [hconcat, List.dropLast_concat] at hfollow
          rw [hconcat, List.getLast?_concat] at h
          by_cases hnameless : (Path.staysPut name || name == Path.outward) = true
          · simp [hnameless, throw, throwThe, MonadExceptOf.throw] at h
          · simp only [ne_eq, not_true_eq_false, if_false, hnameless, pure, Except.pure,
              Bool.false_eq_true, Except.ok.injEq] at h
            subst h
            obtain ⟨hstays, houtward⟩ : Path.staysPut name = false ∧ name ≠ Path.outward := by
              simpa using hnameless
            exact ⟨front, hconcat, hfollow, hstays, houtward, by rw [hconcat]⟩

/-- A folder that is put into the slot of a path is where the path leads. -/
theorem folderAt_put {p : Path} {nameless : SystemError} {slot : Slot}
    (hslot : d.slot p nameless = .ok slot) (hnone : d.inSlot slot = .ok none) :
    (d.put slot.place .folder).FolderAt p slot.place := by
  obtain ⟨hcheck, front, hfront, hfollow, hstays, houtward, -⟩ := slot_eq_ok hslot
  rw [inSlot] at hnone
  split at hnone
  · cases hnone
  next hshort =>
  have hnode : d.node? slot.place = none := by simpa using hnone
  have hplace : (d.put slot.place .folder).node? slot.place = some .folder := by
    rw [node?_put d slot.place_ne_nil, if_pos rfl]
  have hfollow' : (d.put slot.place .folder).follow _ _ = _ :=
    follow_mono (makesFolders_put slot.place_ne_nil hnode).folders hfollow
  obtain ⟨slashes, hslashes, hp⟩ := p.withoutSlashes_append
  refine folderAt_iff.mpr ⟨hcheck, ?_⟩
  rw [hp, hfront, List.append_assoc, follow_append, hfollow']
  show (d.put slot.place .folder).follow slot.folder (slot.name :: slashes) = _
  rw [follow, node?_of_follow hfollow']
  simp only [hstays, houtward, hshort, if_false, Bool.false_eq_true]
  exact follow_slashes hslashes hplace

/-! ### One folder -/

theorem makeFolder_spec (p : Path) (d : Disk) :
    (∃ d' place, makeFolder p d = (.ok (), d') ∧ d.MakesFolders d' ∧ d'.FolderAt p place ∧
        d.node? place = none) ∨ ∃ e, makeFolder p d = (.error e, d.ticked) := by
  rw [makeFolder, operate_eq]
  cases d.faults d.clock with
  | some fault => exact .inr ⟨_, rfl⟩
  | none =>
    cases hslot : d.ticked.slot p .alreadyExists with
    | error e => exact .inr ⟨e, by simp [bind, Except.bind]⟩
    | ok slot =>
      cases hin : d.ticked.inSlot slot with
      | error e => exact .inr ⟨e, by simp [hin, bind, Except.bind]⟩
      | ok node =>
        cases node with
        | some node =>
          refine .inr ⟨.system .alreadyExists, ?_⟩
          simp [hin, bind, Except.bind]
          rfl
        | none =>
          have hnode : d.ticked.node? slot.place = none := by
            have hfree := hin
            rw [inSlot] at hfree
            split at hfree
            · cases hfree
            · simpa using hfree
          refine .inl ⟨d.ticked.put slot.place .folder, slot.place, ?_, ?_,
            folderAt_put hslot hin, hnode⟩
          · simp [hin, bind, Except.bind, pure, Except.pure]
          · exact (still_ticked d).makesFolders.trans (makesFolders_put slot.place_ne_nil hnode)

theorem isFolder_spec (p : Path) (d : Disk) :
    ∃ answer, isFolder p d = (answer, d.ticked) ∧
      (answer = true → ∃ place, d.ticked.FolderAt p place) := by
  rw [isFolder, leadsTo_eq]
  cases d.faults d.clock with
  | some fault => exact ⟨false, rfl, fun htrue => by cases htrue⟩
  | none =>
    refine ⟨_, rfl, fun hanswer => ?_⟩
    cases hlocate : d.ticked.locate p with
    | error e => simp [hlocate, Except.toOption] at hanswer
    | ok found =>
      obtain ⟨place, node⟩ := found
      have hfolder : node = .folder := by simpa [hlocate, Except.toOption] using hanswer
      exact ⟨place, by rw [FolderAt, hlocate, hfolder]⟩

theorem ensureFolder_spec (p : Path) (d : Disk) :
    (∃ d' place, ensureFolder p d = (.ok (), d') ∧ d.MakesFolders d' ∧ d'.FolderAt p place) ∨
      ∃ e d', ensureFolder p d = (.error e, d') ∧ d.Still d' := by
  rcases makeFolder_spec p d with ⟨d', place, hmade, hmakes, hfolder, -⟩ | ⟨e, herror⟩
  · exact .inl ⟨d', place, DiskM.tryCatch_of_ok hmade, hmakes, hfolder⟩
  · obtain ⟨answer, hasked, hanswer⟩ := isFolder_spec p d.ticked
    have hstill := (still_ticked d).trans (still_ticked d.ticked)
    rw [ensureFolder, DiskM.tryCatch_of_error herror, DiskM.lift_bind, hasked]
    cases answer with
    | true =>
      obtain ⟨place, hfolder⟩ := hanswer rfl
      exact .inl ⟨_, place, rfl, hstill.makesFolders, hfolder⟩
    | false => exact .inr ⟨e, _, rfl, hstill⟩

/-! ### The way to a folder -/

theorem ensureWithin_spec (p : Path) (outer : List Path) {r : Except IoFailure Unit}
    (h : ensureWithin p outer d = (r, d')) :
    d.MakesFolders d' ∧ (r = .ok () → ∃ place, d'.FolderAt p place) := by
  induction outer generalizing p d d' r with
  | nil =>
    rw [ensureWithin] at h
    rcases ensureFolder_spec p d with ⟨d₁, place, hmade, hmakes, hfolder⟩ | ⟨e, d₁, herror, hstill⟩
    · rw [hmade] at h
      cases h
      exact ⟨hmakes, fun _ => ⟨place, hfolder⟩⟩
    · rw [herror] at h
      cases h
      exact ⟨hstill.makesFolders, fun hok => by cases hok⟩
  | cons next outer ih =>
    rw [ensureWithin] at h
    rcases makeFolder_spec p d with ⟨d₁, place, hmade, hmakes, hfolder, -⟩ | ⟨e, herror⟩
    · rw [DiskM.tryCatch_of_ok hmade] at h
      cases h
      exact ⟨hmakes, fun _ => ⟨place, hfolder⟩⟩
    · have hmakes₁ := (still_ticked d).makesFolders
      rw [DiskM.tryCatch_of_error herror] at h
      by_cases hmissing : e = .system .noEntry
      · rw [if_pos hmissing] at h
        cases houter : ensureWithin next outer d.ticked with
        | mk r₂ d₂ =>
          obtain ⟨hmakes₂, -⟩ := ih next houter
          cases r₂ with
          | error e' =>
            rw [DiskM.bind_of_error houter] at h
            cases h
            exact ⟨hmakes₁.trans hmakes₂, fun hok => by cases hok⟩
          | ok =>
            rw [DiskM.bind_of_ok houter] at h
            rcases ensureFolder_spec p d₂ with
              ⟨d₃, place, hmade, hmakes₃, hfolder⟩ | ⟨e', d₃, herror', hstill⟩
            · rw [hmade] at h
              cases h
              exact ⟨(hmakes₁.trans hmakes₂).trans hmakes₃, fun _ => ⟨place, hfolder⟩⟩
            · rw [herror'] at h
              cases h
              exact ⟨(hmakes₁.trans hmakes₂).trans hstill.makesFolders, fun hok => by cases hok⟩
      · rw [if_neg hmissing] at h
        obtain ⟨answer, hasked, hanswer⟩ := isFolder_spec p d.ticked
        have hmakes₂ := hmakes₁.trans (still_ticked d.ticked).makesFolders
        rw [DiskM.lift_bind, hasked] at h
        cases answer with
        | true =>
          cases h
          exact ⟨hmakes₂, fun _ => hanswer rfl⟩
        | false =>
          cases h
          exact ⟨hmakes₂, fun hok => by cases hok⟩

/-- Whatever comes of it, making a folder with those on the way to it makes folders and nothing
else. If it succeeds the folder is there. -/
theorem makeFolders_spec (p : Path) {r : Except IoFailure Unit} (h : makeFolders p d = (r, d')) :
    d.MakesFolders d' ∧ (r = .ok () → ∃ place, d'.FolderAt p place) :=
  ensureWithin_spec p p.ancestors h

/-! ### Folders that are there -/

theorem folder_of_follow {here : Path} {names : List String}
    (h : d.follow here names = .ok (place, .folder)) : d.node? here = some .folder := by
  cases names with
  | nil =>
    rw [follow] at h
    split at h
    · cases h
    · next hnode =>
      cases h
      exact hnode
  | cons name rest =>
    rw [follow] at h
    split at h
    · cases h
    · cases h
    · next hnode => exact hnode

/-- Points and slashes on the way to a folder can be left out. -/
theorem follow_filter {here : Path} {names : List String}
    (h : d.follow here names = .ok (place, .folder)) :
    d.follow here (names.filter (!Path.staysPut ·)) = .ok (place, .folder) := by
  induction names generalizing here with
  | nil => exact h
  | cons name rest ih =>
    have hhere := folder_of_follow h
    rw [follow, hhere] at h
    dsimp only at h
    by_cases hstays : Path.staysPut name = true
    · rw [if_pos hstays] at h
      rw [List.filter_cons_of_neg (by simp [hstays])]
      exact ih h
    · rw [if_neg hstays] at h
      rw [List.filter_cons_of_pos (by simp [hstays]), follow, hhere]
      dsimp only
      rw [if_neg hstays]
      split at h
      · next houtward => rw [if_pos houtward, ih h]
      · next hinward =>
        rw [if_neg hinward]
        split at h
        · cases h
        · next hshort => rw [if_neg hshort, ih h]

/-- The folders on the way to a folder that is there are there. -/
theorem FolderAt.ancestors (h : d.FolderAt dir place) {p : Path} (hp : p ∈ dir.ancestors) :
    d.node? p.resolved = some .folder := by
  obtain ⟨n, -, rfl⟩ := List.mem_map.mp (List.mem_reverse.mp hp)
  have hfollow := follow_filter h.follow
  generalize dir.filter (!Path.staysPut ·) = names at hfollow ⊢
  rw [← List.take_append_drop n names, follow_append] at hfollow
  cases hfront : d.follow [] (names.take n) with
  | error e =>
    rw [hfront] at hfollow
    cases hfollow
  | ok found =>
    rw [hfront] at hfollow
    have hplace : Path.resolved (names.take n) = found.1 := resolvedFrom_of_follow hfront
    rw [hplace]
    exact folder_of_follow hfollow

theorem makeFolder_of_there {p : Path} (h : d.node? p.resolved = some .folder) :
    ∃ e, makeFolder p d = (.error e, d.ticked) := by
  refine (makeFolder_spec p d).resolve_left ?_
  rintro ⟨d', place, -, -, hfolder, hnone⟩
  rw [← hfolder.resolved, h] at hnone
  cases hnone

theorem still_ensureFolder {p : Path} (h : d.node? p.resolved = some .folder) :
    d.Still (ensureFolder p d).2 := by
  obtain ⟨e, herror⟩ := makeFolder_of_there h
  obtain ⟨answer, hasked, -⟩ := isFolder_spec p d.ticked
  have hstill := (still_ticked d).trans (still_ticked d.ticked)
  rw [ensureFolder, DiskM.tryCatch_of_error herror, DiskM.lift_bind, hasked]
  cases answer with
  | true => exact hstill
  | false => exact hstill

theorem still_ensureWithin {p : Path} {outer : List Path}
    (h : ∀ q ∈ p :: outer, d.node? q.resolved = some .folder) :
    d.Still (ensureWithin p outer d).2 := by
  induction outer generalizing p d with
  | nil => exact still_ensureFolder (h p List.mem_cons_self)
  | cons next outer ih =>
    obtain ⟨e, herror⟩ := makeFolder_of_there (h p List.mem_cons_self)
    have hticked := still_ticked d
    rw [ensureWithin, DiskM.tryCatch_of_error herror]
    split
    · have hfirst : d.ticked.Still (ensureWithin next outer d.ticked).2 :=
        ih fun q hq => h q (List.mem_cons_of_mem _ hq)
      refine hticked.trans (DiskM.related_bind (R := Still) Still.trans hfirst fun _ d₂ hdone => ?_)
      rw [hdone] at hfirst
      refine still_ensureFolder ?_
      rw [hfirst.node?]
      exact h p List.mem_cons_self
    · obtain ⟨answer, hasked, -⟩ := isFolder_spec p d.ticked
      rw [DiskM.lift_bind, hasked]
      cases answer with
      | true => exact hticked.trans (still_ticked d.ticked)
      | false => exact hticked.trans (still_ticked d.ticked)

theorem evolves_ensureFolder (p : Path) (d : Disk) : d.Evolves (ensureFolder p d).2 := by
  rcases ensureFolder_spec p d with ⟨d', place, hmade, hmakes, -⟩ | ⟨e, d', herror, hstill⟩
  · rw [hmade]
    exact hmakes.toEvolves
  · rw [herror]
    exact hstill.evolves

/-- Whatever follows when a folder could not be made, follows later. -/
theorem evolves_ensureWithin {p : Path} {e : IoFailure}
    (herror : makeFolder p d = (.error e, d.ticked)) (outer : List Path) :
    d.ticked.Evolves (ensureWithin p outer d).2 := by
  obtain ⟨answer, hasked, -⟩ := isFolder_spec p d.ticked
  have hlater := (still_ticked d.ticked).evolves
  cases outer with
  | nil =>
    rw [ensureWithin, ensureFolder, DiskM.tryCatch_of_error herror, DiskM.lift_bind, hasked]
    cases answer with
    | true => exact hlater
    | false => exact hlater
  | cons next outer =>
    rw [ensureWithin, DiskM.tryCatch_of_error herror]
    split
    · refine DiskM.related_bind (R := Evolves) Evolves.trans ?_ fun _ d₂ _ => ?_
      · exact (ensureWithin_spec next outer rfl).1.toEvolves
      · exact evolves_ensureFolder p d₂
    · rw [DiskM.lift_bind, hasked]
      cases answer with
      | true => exact hlater
      | false => exact hlater

/-- A folder that is there is found to be there, unless a fault strikes. -/
theorem FolderAt.makeFolders_of_there (h : d.FolderAt dir place) :
    (Disk.makeFolders dir d).1 = .ok () ∨ d.Struck (Disk.makeFolders dir d).2 := by
  cases hfault : d.faults d.clock with
  | some fault =>
    obtain ⟨e, herror⟩ := makeFolder_of_there (h.resolved.symm ▸ h.node?)
    exact .inr ((struck_ticked hfault).later (evolves_ensureWithin herror dir.ancestors))
  | none =>
    have herror := h.makeFolder hfault
    -- whether the folder is there is asked in any case, as it was not missing
    have hask : Disk.makeFolders dir d = (if (Disk.isFolder dir d.ticked).1 then (.ok (), d.ticked.ticked)
        else (.error (.system .alreadyExists), d.ticked.ticked)) := by
      obtain ⟨answer, hasked, -⟩ := isFolder_spec dir d.ticked
      rw [Disk.makeFolders, hasked]
      cases dir.ancestors with
      | nil =>
        rw [ensureWithin, ensureFolder, DiskM.tryCatch_of_error herror, DiskM.lift_bind, hasked]
        cases answer <;> rfl
      | cons next outer =>
        rw [ensureWithin, DiskM.tryCatch_of_error herror, if_neg (by decide), DiskM.lift_bind, hasked]
        cases answer <;> rfl
    have hticked := h.evolves (still_ticked d).evolves
    rw [hask]
    cases hfault' : d.ticked.faults d.ticked.clock with
    | none =>
      rw [hticked.isFolder hfault']
      exact .inl rfl
    | some fault =>
      have hlater := (struck_ticked hfault').earlier (still_ticked d).evolves
      split
      · exact .inr hlater
      · exact .inr hlater

/-- A folder that is there is left as it is. -/
theorem FolderAt.still_makeFolders (h : d.FolderAt dir place) : d.Still (Disk.makeFolders dir d).2 := by
  refine still_ensureWithin fun q hq => ?_
  rcases List.mem_cons.mp hq with rfl | hq
  · exact h.resolved.symm ▸ h.node?
  · exact h.ancestors hq

end Disk

/-! ## Locks -/

/-- Nobody holds the lock of the folder at a place. -/
def Disk.LockFree (d : Disk) (place : Path) : Prop :=
  ∀ id, d.node? (place ++ [Store.lockName]) = some (.file id) → (d.file id).holder = none

/-- The lock file is opened with the lock that is on it, or made without one. -/
theorem Disk.FolderAt.openOrCreate_child (h : d.FolderAt dir place) {name : String}
    (hname : dir.Admits name) :
    (∃ handle d', openOrCreate (dir.child name) d = (.ok handle, d') ∧
        ChangesAt (place ++ [name]) d d' ∧ d'.node? (place ++ [name]) = some (.file handle.file) ∧
        (d.node? (place ++ [name]) = some (.file handle.file) ∧ d' = d.ticked ∨
          d.node? (place ++ [name]) = none ∧ (d'.file handle.file).holder = none)) ∨
      ∃ e, openOrCreate (dir.child name) d = (.error e, d.ticked) ∧
        (d.Struck d.ticked ∨ d.node? (place ++ [name]) = some .folder) := by
  rw [openOrCreate, operate_eq]
  cases hfault : d.faults d.clock with
  | some fault => exact .inr ⟨_, rfl, .inl (struck_ticked hfault)⟩
  | none =>
    have hfileSlot := (h.evolves (still_ticked d).evolves).fileSlot_child hname
    rw [node?_ticked] at hfileSlot
    cases hnode : d.node? (place ++ [name]) with
    | none =>
      rw [hnode] at hfileSlot
      refine .inl ⟨⟨d.files.size, 0⟩, (d.ticked.putNew ⟨place, name, false⟩).2, ?_, ?_, ?_,
        .inr ⟨rfl, ?_⟩⟩
      · simp [hfileSlot, bind, Except.bind, pure, Except.pure, putNew]
        rfl
      · exact ((still_ticked d).changesAt _).trans (changesAt_putNew ⟨place, name, false⟩ hnode)
      · show (d.ticked.put (place ++ [name]) (.file d.files.size)).node? _ = _
        rw [node?_put _ (append_singleton_ne_nil _ _), if_pos rfl]
      · show ((d.ticked.files.push {}).getD d.files.size {}).holder = none
        simp [ticked]
    | some node =>
      cases node with
      | folder =>
        rw [hnode] at hfileSlot
        exact .inr ⟨.system .isFolder, by simp [hfileSlot, bind, Except.bind], .inr rfl⟩
      | file id =>
        rw [hnode] at hfileSlot
        refine .inl ⟨⟨id, 0⟩, d.ticked, ?_, (still_ticked d).changesAt _, hnode, .inl ⟨rfl, rfl⟩⟩
        simp [hfileSlot, bind, Except.bind, pure, Except.pure]

/-- An operation that works on the bytes of a file leaves the lock that is on it. -/
theorem holder_alter_ticked {file : Nat} (hfile : file < d.files.size) (change : File → File)
    (hchange : ∀ f, (change f).holder = f.holder) :
    Writes file d (d.ticked.alter file change) ∧
      ((d.ticked.alter file change).file file).holder = (d.file file).holder := by
  refine ⟨((still_ticked d).writes _).trans (writes_alter _ _ _), ?_⟩
  rw [file_alter_self d.ticked hfile, hchange, file_ticked]

/-- A file that is locked is not locked again, and one that is not is. -/
theorem Lock.claim_spec {handle : Handle} (hfile : handle.file < d.files.size) :
    (∃ token d', Lock.claim handle d = (.ok token, d') ∧ Writes handle.file d d' ∧
        (d.file handle.file).holder = none ∧ (d'.file handle.file).holder = some token) ∨
      ∃ e, Lock.claim handle d = (.error e, d.ticked) ∧
        (d.Struck d.ticked ∨ (d.file handle.file).holder ≠ none) := by
  rw [claim, operate_eq]
  cases hfault : d.faults d.clock with
  | some fault => exact .inr ⟨_, rfl, .inl (struck_ticked hfault)⟩
  | none =>
    cases hheld : (d.file handle.file).holder with
    | some token => exact .inr ⟨.system .wouldBlock, by simp [hheld], .inr nofun⟩
    | none =>
      refine .inl ⟨d.ticked.clock, d.ticked.alter handle.file fun f =>
        { f with holder := some d.ticked.clock }, by simp [hheld],
        ((still_ticked d).writes _).trans (writes_alter _ _ _), rfl, ?_⟩
      rw [file_alter_self d.ticked hfile]

/-- Signing a lock file leaves the lock that is on it. -/
theorem Lock.sign_spec {handle : Handle} (process : Nat) (hfile : handle.file < d.files.size) :
    (∃ handle' d₁ d', setLength handle 0 d = (.ok (), d₁) ∧
        write handle (signature process) d₁ = (.ok handle', d') ∧ Writes handle.file d d' ∧
        (d'.file handle.file).holder = (d.file handle.file).holder) ∨
      ∃ e d', (do
          setLength handle 0
          discard <| write handle (signature process) : DiskM IoFailure Unit) d = (.error e, d') ∧
        Writes handle.file d d' ∧ (d'.file handle.file).holder = (d.file handle.file).holder ∧
        d.Struck d' := by
  cases hfault : d.faults d.clock with
  | some fault =>
    have hset : setLength handle 0 d = (.error (.system fault.error), d.ticked) := by
      rw [setLength, operate_eq, hfault]
    exact .inr ⟨_, d.ticked, DiskM.bind_of_error hset, (still_ticked d).writes _, rfl,
      struck_ticked hfault⟩
  | none =>
    obtain ⟨hcut, hcutHolder⟩ := holder_alter_ticked hfile (·.resize 0) fun _ => rfl
    have hset : setLength handle 0 d = (.ok (), d.ticked.alter handle.file (·.resize 0)) := by
      rw [setLength, operate_eq, hfault]
    generalize d.ticked.alter handle.file (·.resize 0) = d₁ at hcut hcutHolder hset
    have hfile₁ : handle.file < d₁.files.size := hcut.size ▸ hfile
    cases hfault₁ : d₁.faults d₁.clock with
    | some fault =>
      obtain ⟨hsigned, hsignedHolder⟩ := holder_alter_ticked hfile₁
        (·.overwrite handle.position ((signature process).take fault.kept)) fun _ => rfl
      refine .inr ⟨.system fault.error, _, ?_, hcut.trans hsigned,
        hsignedHolder.trans hcutHolder,
        (struck_ticked hfault₁).earlier hcut.evolves⟩
      rw [DiskM.bind_of_ok hset]
      refine DiskM.discard_of_error ?_
      rw [write_eq, hfault₁]
    | none =>
      obtain ⟨hsigned, hsignedHolder⟩ := holder_alter_ticked hfile₁
        (·.overwrite handle.position (signature process)) fun _ => rfl
      refine .inl ⟨{ handle with position := handle.position + (signature process).length }, _, _,
        hset, ?_, hcut.trans hsigned, hsignedHolder.trans hcutHolder⟩
      rw [write_eq, hfault₁]

/-- A lock that is given back is free. -/
theorem Lock.holder_release (lock : Lock) (hfile : lock.file < d.files.size)
    (hheld : (d.file lock.file).holder = some lock.token) :
    Writes lock.file d (lock.release d).2 ∧
      ((lock.release d).2.file lock.file).holder = none := by
  refine ⟨writes_alter d lock.file _, ?_⟩
  show ((d.alter lock.file _).file lock.file).holder = none
  rw [file_alter_self d hfile, if_pos hheld]

/-- Locks an open file and signs it. -/
def Lock.seize (process : Nat) (p : Path) (handle : Handle) : DiskM IoFailure Lock := do
  let lock : Lock := ⟨p, handle.file, ← claim handle⟩
  try
    setLength handle 0
    discard <| write handle (signature process)
    return lock
  catch e =>
    lock.release
    throw e

theorem Lock.acquire_eq (process : Nat) (p : Path) :
    acquire process p = openOrCreate p >>= seize process p := rfl

/-- A file that is not locked is seized. If it is not, then it has the lock that it had, and a fault
or that lock stood in the way. -/
theorem Lock.seize_spec (process : Nat) (p : Path) {handle : Handle}
    (hfile : handle.file < d.files.size) :
    (∃ lock d', seize process p handle d = (.ok lock, d') ∧ Writes handle.file d d' ∧
        lock.file = handle.file ∧ (d.file handle.file).holder = none ∧
        (d'.file handle.file).holder = some lock.token) ∨
      ∃ e d', seize process p handle d = (.error e, d') ∧ Writes handle.file d d' ∧
        (d.Still d' ∨ (d.file handle.file).holder = none ∧ (d'.file handle.file).holder = none) ∧
        (d.Struck d' ∨ (d.file handle.file).holder ≠ none) := by
  rcases claim_spec hfile with ⟨token, d₁, hclaim, hclaimed, hnone, htoken⟩ | ⟨e, hclaim, hwhy⟩
  swap
  · have hstill := still_ticked d
    exact .inr ⟨e, d.ticked, DiskM.bind_of_error hclaim, hstill.writes _, .inl hstill, hwhy⟩
  let lock : Lock := ⟨p, handle.file, token⟩
  rw [seize, DiskM.bind_of_ok hclaim]
  rcases sign_spec process (hclaimed.size ▸ hfile) with
    ⟨handle', d₂, d₃, hset, hwrite, hsigned, hkept⟩ | ⟨e, d₂, hsign, hsigned, hkept, hs⟩
  · -- the answer leaves the program early, by way of the other side of an `Except`
    have hearly {x : DiskM IoFailure (Except Lock Lock)}
        {f : Except Lock Lock → DiskM IoFailure Lock}
        (hx : x d₁ = (.ok (.error lock), d₃)) : (x >>= f) d₁ = f (.error lock) d₃ :=
      DiskM.bind_of_ok hx
    refine .inl ⟨lock, d₃, (hearly (DiskM.tryCatch_of_ok ?_)).trans rfl, hclaimed.trans hsigned,
      rfl, hnone, hkept.trans htoken⟩
    rw [DiskM.bind_of_ok hset, DiskM.bind_of_ok (DiskM.discard_of_ok hwrite)]
    rfl
  · have hfile₂ : handle.file < d₂.files.size := (hclaimed.trans hsigned).size ▸ hfile
    obtain ⟨hreleased, hgiven⟩ := lock.holder_release hfile₂ (hkept.trans htoken)
    have hgiveUp {x : DiskM IoFailure (Except Lock Lock)}
        {f : Except Lock Lock → DiskM IoFailure Lock} {d₃ : Disk}
        (hx : x d₁ = (.error e, d₃)) : (x >>= f) d₁ = (.error e, d₃) := DiskM.bind_of_error hx
    have hunsigned (f : Unit → DiskM IoFailure (Except Lock Lock)) :
        (setLength handle 0 >>= fun _ =>
          discard (write handle (signature process)) >>= f) d₁ = (.error e, d₂) := by
      rw [← bind_assoc]
      exact DiskM.bind_of_error hsign
    refine .inr ⟨e, (lock.release d₂).2,
      hgiveUp ((DiskM.tryCatch_of_error (hunsigned fun _ => return .error lock)).trans rfl),
      (hclaimed.trans hsigned).trans hreleased, .inr ⟨hnone, hgiven⟩, .inl ?_⟩
    exact (hs.earlier hclaimed.evolves).later hreleased.evolves

/-- A lock that nobody holds is taken. If it is not, then whoever had it has it still, and a fault or
something that was there stood in the way. -/
theorem Lock.acquire_spec (process : Nat) (h : d.FolderAt dir place)
    (hname : dir.Admits Store.lockName) (hsound : d.Sound) :
    (∃ lock d', Lock.acquire process (dir.child Store.lockName) d = (.ok lock, d') ∧
        ChangesAt (place ++ [Store.lockName]) d d' ∧ d.LockFree place ∧
        LockedBy d' place (some lock)) ∨
      ∃ e d', Lock.acquire process (dir.child Store.lockName) d = (.error e, d') ∧
        ChangesAt (place ++ [Store.lockName]) d d' ∧
        (d.Still d' ∨ d.LockFree place ∧ d'.LockFree place) ∧
        (d.Struck d' ∨ d.node? (place ++ [Store.lockName]) = some .folder ∨
          ¬ d.LockFree place) := by
  rw [acquire_eq]
  rcases h.openOrCreate_child hname with
    ⟨handle, d₁, hopened, hchanges, hnode, hwas⟩ | ⟨e, herror, hwhy⟩
  swap
  · have hstill := still_ticked d
    exact .inr ⟨e, d.ticked, DiskM.bind_of_error herror, hstill.changesAt _, .inl hstill,
      hwhy.imp id .inl⟩
  -- the lock was free if and only if it is free now
  have hbefore : d.LockFree place ↔ (d₁.file handle.file).holder = none := by
    rcases hwas with ⟨hold, rfl⟩ | ⟨hmissing, hnone⟩
    · refine ⟨fun hfree => hfree _ hold, fun hnone id hid => ?_⟩
      cases hid.symm.trans hold
      exact hnone
    · refine iff_of_true (fun id hid => ?_) hnone
      rw [hmissing] at hid
      cases hid
  rw [DiskM.bind_of_ok hopened]
  rcases seize_spec process (dir.child Store.lockName) ((hchanges.sound hsound).lt_size hnode) with
    ⟨lock, d', hseized, hwrites, hlock, hnone, htoken⟩ | ⟨e, d', herror, hwrites, hleft, hwhy⟩
  · refine .inl ⟨lock, d', hseized, hchanges.trans (hwrites.changesAt hnode), hbefore.mpr hnone,
      handle.file, (hwrites.node? _).trans hnode, hlock ▸ htoken, ?_⟩
    intro held hheld
    rw [← Option.some.inj hheld, hlock]
  · refine .inr ⟨e, d', herror, hchanges.trans (hwrites.changesAt hnode), ?_, ?_⟩
    · have hafter (hnone : (d'.file handle.file).holder = none) : d'.LockFree place := by
        intro id hid
        cases hid.symm.trans ((hwrites.node? _).trans hnode)
        exact hnone
      rcases hleft with hstill | ⟨hnone, hgiven⟩
      · rcases hwas with ⟨-, rfl⟩ | ⟨-, hnone⟩
        · exact .inl ((still_ticked d).trans hstill)
        · exact .inr ⟨hbefore.mpr hnone, hafter (by rw [hstill.file]; exact hnone)⟩
      · exact .inr ⟨hbefore.mpr hnone, hafter hgiven⟩
    · rcases hwhy with hs | hheld
      · exact .inl (hs.earlier hchanges.toEvolves)
      · exact .inr (.inr fun hfree => hheld (hbefore.mp hfree))

/-! ## The store of a folder -/

variable {l : Layers} {config : Config} {s : Session} {start : Disk}

/-- An opened store is what its parts are. -/
theorem Store.openIn_eq (process : Nat) {lock : Lock} {g : Generation} {d₁ d₂ d₃ : Disk}
    (hmakes : makeFolders config.dir d = (.ok (), d₁))
    (hlock : Lock.acquire process (config.dir.child lockName) d₁ = (.ok lock, d₂))
    (hopen : Generation.openIn config d₂ = (.ok g, d₃)) :
    Store.openIn process config d = (.ok ⟨.ofGeneration config g, .start, some lock, false⟩, d₃) := by
  rw [openIn, DiskM.bind_of_ok (DiskM.plainly_of_ok hmakes),
    DiskM.bind_of_ok (DiskM.mapError_of_ok hlock), DiskM.bind_of_ok (DiskM.tryCatch_of_ok hopen)]
  rfl

/-- How opening a store ends: without its folder, without the lock, with a folder that cannot be
brought into order, or with a store. -/
inductive Store.Opening (process : Nat) (config : Config) (d : Disk) :
    Except StoreError Store → Disk → Prop
  | unmade {cause : IoFailure} {d' : Disk} (makes : makeFolders config.dir d = (.error cause, d')) :
      Opening process config d (.error (.io cause)) d'
  | refused {cause : IoFailure} {d₁ d' : Disk} (makes : makeFolders config.dir d = (.ok (), d₁))
      (locks : Lock.acquire process (config.dir.child lockName) d₁ = (.error cause, d')) :
      Opening process config d (.error (.lock cause)) d'
  | failed {lock : Lock} {e : StoreError} {d₁ d₂ d₃ : Disk}
      (makes : makeFolders config.dir d = (.ok (), d₁))
      (locks : Lock.acquire process (config.dir.child lockName) d₁ = (.ok lock, d₂))
      (opens : Generation.openIn config d₂ = (.error e, d₃)) :
      Opening process config d (.error e) (lock.release d₃).2
  | opened {lock : Lock} {g : Generation} {d₁ d₂ d' : Disk}
      (makes : makeFolders config.dir d = (.ok (), d₁))
      (locks : Lock.acquire process (config.dir.child lockName) d₁ = (.ok lock, d₂))
      (opens : Generation.openIn config d₂ = (.ok g, d')) :
      Opening process config d (.ok ⟨.ofGeneration config g, .start, some lock, false⟩) d'

theorem Store.opening_of {process : Nat} {r : Except StoreError Store}
    (h : Store.openIn process config d = (r, d')) : Opening process config d r d' := by
  cases hmakes : makeFolders config.dir d with
  | mk made d₁ =>
    cases made with
    | error e =>
      rw [openIn, DiskM.bind_of_error (DiskM.plainly_of_error hmakes)] at h
      cases h
      exact .unmade hmakes
    | ok =>
      cases hlock : Lock.acquire process (config.dir.child lockName) d₁ with
      | mk locked d₂ =>
        cases locked with
        | error e =>
          rw [openIn, DiskM.bind_of_ok (DiskM.plainly_of_ok hmakes),
            DiskM.bind_of_error (DiskM.mapError_of_error hlock)] at h
          cases h
          exact .refused hmakes hlock
        | ok lock =>
          cases hopen : Generation.openIn config d₂ with
          | mk opened d₃ =>
            cases opened with
            | ok g =>
              rw [openIn_eq process hmakes hlock hopen] at h
              cases h
              exact .opened hmakes hlock hopen
            | error e =>
              rw [openIn, DiskM.bind_of_ok (DiskM.plainly_of_ok hmakes),
                DiskM.bind_of_ok (DiskM.mapError_of_ok hlock),
                DiskM.bind_of_error (DiskM.tryCatch_of_error hopen)] at h
              cases h
              exact .failed hmakes hlock hopen

/-- Whatever opening has met with, a store that comes out of it has nothing under way. -/
theorem Store.of_openIn {process : Nat} {store : Store}
    (h : Store.openIn process config d = (.ok store, d')) :
    ∃ g lock, store = ⟨.ofGeneration config g, .start, some lock, false⟩ := by
  cases opening_of h with
  | opened => exact ⟨_, _, rfl⟩

namespace Layers

/-- The lock file is none of the run files. -/
theorem StoredIn.changed (h : l.StoredIn d dir place)
    (hchanges : ChangesAt (place ++ [Store.lockName]) d d') : l.StoredIn d' dir place := by
  have hnode (name : RunName) (hid : name.id < RunName.idLimit) :
      name.placeIn place ≠ place ++ [Store.lockName] := fun heq =>
    not_isRunPlace_lock place (heq ▸ isRunPlace name hid place)
  have hcontent (name : RunName) (hid : name.id < RunName.idLimit) {file : Nat}
      (hfile : d.node? (name.placeIn place) = some (.file file)) :
      (d'.file file).content = (d.file file).content := by
    rw [hchanges.file_of_ne h.sound hfile (hnode name hid)]
  refine ⟨h.folder.evolves hchanges.toEvolves, hchanges.sound h.sound, ?_, ?_, ?_, ?_⟩
  · intro text name hsome hparse
    by_cases htext : text = Store.lockName
    · have hnone : RunName.parse Store.lockName = none := by decide
      rw [htext, hnone] at hparse
      cases hparse
    · rw [hchanges.others fun heq => htext (append_singleton_inj.mp heq)] at hsome
      exact h.tidy hsome hparse
  · intro id hid
    rw [hchanges.others (hnode _ hid)]
    exact h.unfinished hid
  · exact h.holds.congr (fun hid => hchanges.others (hnode _ hid)) fun hid hfile =>
      hcontent _ hid hfile
  · exact h.left.congr (fun hid => hchanges.others (hnode _ hid)) fun hid hfile =>
      hcontent _ hid hfile

theorem settled_leftover (l : Layers) :
    l.leftover.settled (runEntries l.stored) = runEntries l.settled := by
  rw [leftover, settled]
  cases l.left with
  | none => rfl
  | some merge =>
    simp [Leftover.settled, runEntries, List.filter_map, Function.comp_def]

theorem StoredIn.recoverable (h : l.StoredIn d dir place) :
    Recoverable d dir place (runEntries l.settled) where
  folder := h.folder
  sound := h.sound
  tidy := h.tidy
  notFolder hid := by
    rw [h.unfinished hid]
    simp
  stands := ⟨_, _, h.holds, h.left, l.settled_leftover⟩

/-- The folder opens, and the layers of the store that has it are those that were stored there. -/
theorem StoredIn.opens (h : l.StoredIn d config.dir place) (hroomy : config.dir.Roomy)
    (hblock : config.blockSize ≤ UInt32.size) (hfaultless : d.Faultless) :
    ∃ g d', Generation.openIn config d = (.ok g, d') ∧ Works place d d' ∧
      g.runs.map Run.id = l.settled.map Prod.fst ∧ ((∀ run ∈ g.runs, run.id < flushingRank) →
        (l.opened config.flushThreshold).HeldBy (.ofGeneration config g) d' place) := by
  obtain ⟨opened, d', hopen, hrelabels, hholds, hleft, hunfinished, hstands⟩ :=
    Generation.openIn_spec hroomy h.recoverable hfaultless
  have hids := Run.ids_eq_of_shows (hstands.imp fun _ _ hrun => hrun.toShows)
  rw [map_fst_runEntries] at hids
  refine ⟨_, d', hopen, hrelabels.works, hids, fun hids => ?_⟩
  exact {
    toStoredIn := {
      folder := h.folder.evolves hrelabels.toEvolves
      sound := hrelabels.sound h.sound
      tidy := hrelabels.works.tidy h.tidy
      unfinished := hunfinished
      holds := hholds
      left := hleft }
    toBufferedBy := ⟨rfl, rfl, rfl, rfl, .none, rfl⟩
    toReadBy := .of_loaded hroomy hblock rfl rfl hstands hids }

/-- Opening the folder of a closed store. -/
theorem Describes.openIn (h : l.Describes start s dir place) (hfaultless : start.Faultless)
    (hclosed : l.closed = true) (process : Nat) (hdir : config.dir = dir)
    (hblock : config.blockSize ≤ UInt32.size) :
    ∃ g lock disk, Store.openIn process config s.disk =
        (.ok ⟨.ofGeneration config g, .start, some lock, false⟩, disk) ∧
      ((∀ run ∈ g.runs, run.id < flushingRank) → (l.opened config.flushThreshold).Describes start
        { s with store := ⟨.ofGeneration config g, .start, some lock, false⟩, disk } dir place) := by
  subst hdir
  have hfaultless := hfaultless.evolves h.since
  have hstored : l.StoredIn s.disk config.dir place := h.dir_eq ▸ h.held.toStoredIn
  have hroomy : config.dir.Roomy := h.dir_eq ▸ h.held.roomy
  have hmakes := hstored.folder.makeFolders hfaultless
  have hstill : s.disk.Still s.disk.ticked.ticked :=
    (still_ticked s.disk).trans (still_ticked s.disk.ticked)
  generalize s.disk.ticked.ticked = d₁ at hmakes hstill
  have hstored₁ := hstored.still hstill
  have hfaultless₁ := hfaultless.evolves hstill.evolves
  -- nobody holds the lock of a closed store
  obtain ⟨file, hnode, hholder, -⟩ := h.locked
  have hnobody : s.store.lock = none := by
    have hholds := h.holds
    rw [hclosed] at hholds
    simpa using hholds
  rw [hnobody] at hholder
  rcases Lock.acquire_spec process hstored₁.folder h.lockable hstored₁.sound with
    ⟨lock, d₂, hlock, hchanges, -, hlocked⟩ | ⟨e, d₂, -, -, -, hwhy⟩
  · have hfaultless₂ := hfaultless₁.evolves hchanges.toEvolves
    obtain ⟨g, d₃, hopen, hworks, -, hdone⟩ :=
      (hstored₁.changed hchanges).opens hroomy hblock hfaultless₂
    refine ⟨g, lock, d₃, Store.openIn_eq process hmakes hlock hopen, fun hids => ?_⟩
    have hsane := h.sane.reopened config.flushThreshold
    rw [reopened, if_pos hclosed] at hsane
    exact {
      held := hdone hids
      sane := hsane
      since := h.since.trans
        (((hstill.evolves).trans hchanges.toEvolves).trans hworks.toEvolves)
      awaits := ⟨.nil, rfl⟩
      writes := h.writes
      closed := rfl
      accepting := rfl
      running := rfl
      locked := hlocked.works hworks
      holds := rfl
      dir_eq := rfl
      lockable := h.lockable }
  · exfalso
    rcases hwhy with hs | hfolder | hheld
    · exact hfaultless₁.not_struck hs
    · rw [hstill.node?, hnode] at hfolder
      cases hfolder
    · refine hheld fun id hid => ?_
      rw [hstill.node?, hnode] at hid
      cases hid
      rw [hstill.file]
      exact hholder

theorem Describes.reopened (h : l.Describes start s dir place) (hfaultless : start.Faultless)
    (process : Nat)
    (hdir : config.dir = dir) (hblock : config.blockSize ≤ UInt32.size)
    (hwithin : (s.step (.reopen process config)).Within) :
    (l.reopened config.flushThreshold).Describes start (s.step (.reopen process config)) dir place := by
  rw [Layers.reopened]
  by_cases hclosed : l.closed = true
  · obtain ⟨g, lock, disk, hopen, hdone⟩ := h.openIn hfaultless hclosed process hdir hblock
    have hstep : s.step (.reopen process config) =
        { s with store := ⟨.ofGeneration config g, .start, some lock, false⟩, disk } := by
      rw [Session.step, Session.reopened, if_pos (h.closed.trans hclosed), hopen]
    rw [hstep] at hwithin ⊢
    rw [if_pos hclosed]
    exact hdone hwithin.ids
  · have hsame : s.step (.reopen process config) = s := by
      rw [Session.step, Session.reopened, if_neg fun h' => hclosed (h.closed.symm.trans h')]
    rw [hsame, if_neg hclosed]
    exact h

/-- The answer of an operation does not matter to the session. -/
theorem after_discard {α : Type} (s : Session) (x : StoreM α) : s.after (discard x) = s.after x := by
  rw [Session.after, Session.after]
  cases hx : x s.store s.disk with
  | mk answer disk =>
    obtain ⟨result, store⟩ := answer
    cases result with
    | ok a => rw [StateProgram.discard_of_ok hx]
    | error e => rw [StateProgram.discard_of_error hx]

theorem Describes.flush (h : l.Describes start s dir place) :
    l.scheduleFlush.Describes start (s.after Store.flush) dir place := by
  rw [Store.flush, after_discard]
  exact h.scheduleFlush

theorem Describes.compact (h : l.Describes start s dir place) :
    l.scheduleCompaction.Describes start (s.after Store.compact) dir place := by
  rw [Store.compact, after_discard]
  exact h.scheduleCompaction

/-- Without faults, every event does to a session what it does to the layers. -/
theorem Describes.step (h : l.Describes start s dir place) (hfaultless : start.Faultless)
    {event : Event} (hsuits : event.Suits dir)
    (hwithin : s.StaysWithin event) :
    (l.step event).Describes start (s.step event) dir place := by
  cases event with
  | upsert e => exact h.upsert e
  | flush => exact h.flush
  | compact => exact h.compact
  | scheduleFlush => exact h.scheduleFlush
  | scheduleCompaction => exact h.scheduleCompaction
  | waitForBackground =>
    exact (h.waitForBackground hfaultless.truthful hwithin).resolve_right fun hfail =>
      hfail.2 hfaultless
  | status => exact h.status
  | close =>
    exact (h.close hfaultless.truthful hwithin).resolve_right fun hfail => hfail.2 hfaultless
  | runNext =>
    exact (h.runNext hfaultless.truthful hwithin).resolve_right fun hfail => hfail.2 hfaultless
  | reopen process config => exact h.reopened hfaultless process hsuits.1 hsuits.2 hwithin

/-- What happens to a session without faults happens to the layers. -/
theorem Describes.run (h : l.Describes start s dir place) (hfaultless : start.Faultless)
    {events : List Event} (hfits : s.Fits dir events) : (l.run events).Describes start (s.run events) dir place := by
  induction events generalizing l s with
  | nil => exact h
  | cons event events ih =>
    obtain ⟨hsuits, hwithin, hrest⟩ := hfits
    exact ih (h.step hfaultless hsuits hwithin) hrest

end Layers

/-! ## A new store -/

/-- No name in a folder is one that a run file could have. -/
def Disk.HasNoRuns (d : Disk) (dir : Path) : Prop :=
  ∀ {place : Path} {text : String}, d.FolderAt dir place → (RunName.parse text).isSome →
    d.node? (place ++ [text]) = none

theorem node?_of_names {text : String} (h : ∀ entry ∈ d.nodes, text ∉ entry.1.getLast?)
    (place : Path) : d.node? (place ++ [text]) = none := by
  rw [node?_of_ne _ (append_singleton_ne_nil place text), List.lookup_eq_none_iff]
  intro entry hentry
  rw [bne_iff_ne]
  rintro heq
  exact h entry hentry (by simp [← heq])

theorem hasNoRuns_of_names
    (h : ∀ entry ∈ d.nodes, ∀ text ∈ entry.1.getLast?, RunName.parse text = none) (dir : Path) :
    d.HasNoRuns dir :=
  fun {place text} _ hparse => node?_of_names (fun entry hentry htext => by
    rw [h entry hentry text htext] at hparse
    cases hparse) place

/-- No lock file is found by what is no path. -/
theorem Lock.acquire_of_check {p : Path} {e : IoFailure} (process : Nat)
    (hcheck : p.check = .error e) (d : Disk) :
    ∃ cause, Lock.acquire process p d = (.error cause, d.ticked) := by
  have hrefused : ∃ cause, openOrCreate p d = (.error cause, d.ticked) := by
    rw [openOrCreate, operate_eq]
    cases d.faults d.clock with
    | some fault => exact ⟨_, rfl⟩
    | none =>
      have hslot : d.ticked.slot p .isFolder = .error e := by
        simp [Disk.slot, hcheck, bind, Except.bind]
      have hfileSlot : d.ticked.fileSlot p = .error e := by
        simp [fileSlot, hslot, bind, Except.bind]
      exact ⟨e, by simp [hfileSlot, bind, Except.bind]⟩
  obtain ⟨cause, hrefused⟩ := hrefused
  exact ⟨cause, DiskM.bind_of_error hrefused⟩

theorem Lock.check_of_acquire {process : Nat} {p : Path} {lock : Lock}
    (h : Lock.acquire process p d = (.ok lock, d')) : p.check = .ok () := by
  cases hcheck : p.check with
  | ok => rfl
  | error e =>
    obtain ⟨cause, hrefused⟩ := acquire_of_check process hcheck d
    rw [hrefused] at h
    cases h

theorem storedIn_initial (threshold : Nat) (hfolder : d.FolderAt dir place) (hsound : d.Sound)
    (hempty : d.HasNoRuns dir) : (Layers.initial threshold).StoredIn d dir place := by
  have hnone (name : RunName) (hid : name.id < RunName.idLimit) :
      d.node? (name.placeIn place) = none :=
    hempty hfolder (by rw [RunName.parse_text hid]; rfl)
  exact {
    folder := hfolder
    sound := hsound
    tidy := fun {text name} hsome hparse => by
      rw [hempty hfolder (by rw [hparse]; rfl)] at hsome
      cases hsome
    unfinished := fun hid => hnone _ hid
    holds := {
      ascending := .nil
      complete := fun hid hsome => by
        rw [hnone _ hid] at hsome
        cases hsome
      lt_idLimit := fun hr => nomatch hr
      isRun := fun hr => nomatch hr }
    left := ⟨trivial, fun _ hid => (List.not_mem_nil hid).elim, fun hid _ => hnone _ hid⟩ }

/-- A store that was opened in a folder without runs has nothing in it. -/
theorem describes_opened {process : Nat} {config : Config} {store : Store} (hsound : d.Sound)
    (hfaultless : d.Faultless) (hroomy : config.dir.Roomy) (hblock : config.blockSize ≤ UInt32.size)
    (hempty : (makeFolders config.dir d).2.HasNoRuns config.dir)
    (hopen : Store.openIn process config d = (.ok store, d')) :
    ∃ place, (Layers.initial config.flushThreshold).Describes d ⟨store, d', []⟩ config.dir place := by
  cases Store.opening_of hopen with
  | @opened lock g d₁ d₂ _ hmakes hlock hgeneration =>
    rw [hmakes] at hempty
    obtain ⟨hmade, hthere⟩ := makeFolders_spec config.dir hmakes
    obtain ⟨place, hfolder⟩ := hthere rfl
    have hsound₁ := hmade.sound hsound
    have hfaultless₁ := hfaultless.evolves hmade.toEvolves
    have hstored := storedIn_initial config.flushThreshold hfolder hsound₁ hempty
    have hlockable : config.dir.Admits Store.lockName :=
      ⟨by decide, by decide, by decide, Lock.check_of_acquire hlock⟩
    rcases Lock.acquire_spec process hfolder hlockable hsound₁ with
      ⟨lock', d₂', hlock', hchanges, -, hlocked⟩ | ⟨e, d₂', herror, -⟩
    · rw [hlock] at hlock'
      cases hlock'
      have hfaultless₂ := hfaultless₁.evolves hchanges.toEvolves
      obtain ⟨g', d₃, hgeneration', hworks, hids, hdone⟩ :=
        (hstored.changed hchanges).opens hroomy hblock hfaultless₂
      rw [hgeneration] at hgeneration'
      cases hgeneration'
      have hnone : g.runs = [] := List.map_eq_nil_iff.mp hids
      refine ⟨place, ?_⟩
      exact {
        held := hdone (by rw [hnone]; exact fun _ hrun => nomatch hrun)
        sane := Layers.sane_initial _
        since := (hmade.toEvolves.trans hchanges.toEvolves).trans hworks.toEvolves
        awaits := ⟨.nil, rfl⟩
        writes := rfl
        closed := rfl
        accepting := rfl
        running := rfl
        locked := hlocked.works hworks
        holds := rfl
        dir_eq := rfl
        lockable := hlockable }
    · rw [hlock] at herror
      cases herror

end LayeredStore
