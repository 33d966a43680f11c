import LayeredStore.Proofs.LockFrames

/-!
# The lock of a store

A store holds the lock of its folder from its opening to its end. What happens to the lock on the way,
on whatever disk and whichever faults strike:

* `Store.outcome` : an attempt to open a folder gives a store that holds the lock, which was free, or
  leaves the lock to whoever has it (`Disk.Refuses`).
* `Session.keepsLock_step` : nothing that an open store does touches its lock.
* `Session.closed_step` : closing it gives the lock back.
* `Store.Tenant` : what holds of a store and the lock of its folder from then on.
-/

namespace LayeredStore

open Disk Generation

variable {d d' d'' : Disk} {place : Path} {config : Config}

/-! ## How bringing a folder into order fails -/

namespace DiskM

variable {ε ε' α β : Type} {P : ε → Prop} {x : DiskM ε α}

/-- A program fails with errors of one kind only. -/
def FailsBy (P : ε → Prop) (x : DiskM ε α) : Prop := ∀ d e d', x d = (.error e, d') → P e

theorem failsBy_pure (a : α) : FailsBy P (pure a : DiskM ε α) := fun _ _ _ h => by cases h

theorem FailsBy.bind {f : α → DiskM ε β} (hx : FailsBy P x) (hf : ∀ a, FailsBy P (f a)) :
    FailsBy P (x >>= f) := by
  intro d e d' h
  cases hresult : x d with
  | mk r d₁ =>
    cases r with
    | ok a =>
      rw [bind_of_ok hresult] at h
      exact hf a d₁ e d' h
    | error e' =>
      rw [bind_of_error hresult] at h
      cases h
      exact hx d e _ hresult

theorem failsBy_tryCatch {f : ε → DiskM ε α} (hf : ∀ e, FailsBy P (f e)) :
    FailsBy P (tryCatch x f) := by
  intro d e d' h
  cases hresult : x d with
  | mk r d₁ =>
    cases r with
    | ok a =>
      rw [tryCatch_of_ok hresult] at h
      cases h
    | error e' =>
      rw [tryCatch_of_error hresult] at h
      exact hf e' d₁ e d' h

theorem failsBy_mapError {f : ε' → ε} (hf : ∀ cause, P (f cause)) (x : DiskM ε' α) :
    FailsBy P (x.mapError f) := by
  intro d e d' h
  cases hresult : x d with
  | mk r d₁ =>
    cases r with
    | ok a =>
      rw [mapError_of_ok hresult] at h
      cases h
    | error cause =>
      rw [mapError_of_error hresult] at h
      cases h
      exact hf cause

theorem failsBy_forM {f : α → DiskM ε Unit} (hf : ∀ a, FailsBy P (f a)) (items : List α) :
    FailsBy P (items.forM f) := by
  induction items with
  | nil => exact failsBy_pure ()
  | cons item rest ih => exact (hf item).bind fun _ => ih

theorem failsBy_mapM {f : α → DiskM ε β} (hf : ∀ a, FailsBy P (f a)) (items : List α) :
    FailsBy P (items.mapM f) := by
  induction items with
  | nil => exact failsBy_pure []
  | cons item rest ih =>
    rw [List.mapM_cons]
    exact (hf item).bind fun _ => ih.bind fun _ => failsBy_pure _

end DiskM

open DiskM

/-- An error does not tell of a lock. -/
def StoreError.NotOfLock (e : StoreError) : Prop := ∀ cause, e ≠ .lock cause

theorem Index.notOfLock_readField {subject : String} {n : Nat} {b : Bytes} {e : StoreError}
    (h : readField subject n b = .error e) : e.NotOfLock := by
  rw [readField] at h
  split at h
  · cases h
    exact fun _ heq => by cases heq
  · cases h

theorem Index.notOfLock_decodeRef {b : Bytes} {e : StoreError} (h : decodeRef b = .error e) :
    e.NotOfLock := by
  rw [decodeRef] at h
  split at h
  · next hfield =>
    cases h
    exact notOfLock_readField hfield
  split at h
  · next hfield =>
    cases h
    exact notOfLock_readField hfield
  split at h
  · next hfield =>
    cases h
    exact notOfLock_readField hfield
  split at h
  · next hfield =>
    cases h
    exact notOfLock_readField hfield
  · cases h

theorem Index.notOfLock_decode {b : Bytes} {e : StoreError} (h : decode b = .error e) :
    e.NotOfLock := by
  -- by induction on the length of what is left of the index
  generalize hlength : b.length = length
  induction length using Nat.strong_induction_on generalizing b e with
  | _ length ih =>
    rw [decode] at h
    split at h
    · cases h
    · split at h
      · next hfirst =>
        cases h
        exact notOfLock_decodeRef hfirst
      · next block rest hfirst =>
        have hless : rest.length < length := hlength ▸ length_lt_of_decodeRef hfirst
        cases hrest : decode rest with
        | error cause =>
          rw [hrest] at h
          cases h
          exact ih _ hless hrest rfl
        | ok index =>
          rw [hrest] at h
          cases h

theorem RunFile.notOfLock_parse {p : Path} {id : Nat} {content : Bytes} {e : StoreError}
    (h : RunFile.parse p id content = .error e) : e.NotOfLock := by
  rw [parse] at h
  split at h
  · cases h
    exact fun _ heq => by cases heq
  dsimp only at h
  split at h
  · cases h
    exact fun _ heq => by cases heq
  split at h
  · cases h
    exact fun _ heq => by cases heq
  split at h
  · cases h
    exact fun _ heq => by cases heq
  generalize hindex : Index.decode _ = index at h
  cases index with
  | error cause =>
    cases h
    exact Index.notOfLock_decode hindex
  | ok index => cases h

theorem RunFile.failsBy_openAt (p : Path) : FailsBy StoreError.NotOfLock (RunFile.openAt p) := by
  rw [openAt]
  refine (failsBy_mapError (fun _ _ heq => by cases heq) _).bind fun node d e d' h => ?_
  cases node with
  | folder =>
    cases h
    exact fun _ heq => by cases heq
  | file id =>
    have hparse : RunFile.parse p id (d.file id).content = .error e := congrArg Prod.fst h
    exact notOfLock_parse hparse

theorem failsBy_plainly {α : Type} (x : DiskM IoFailure α) :
    FailsBy StoreError.NotOfLock x.plainly := failsBy_mapError (fun _ _ heq => by cases heq) x

theorem Recovery.failsBy_removeSuperseded (dir : Path) (id : Nat) :
    FailsBy StoreError.NotOfLock (removeSuperseded dir id) := by
  intro d e d' h
  rw [removeSuperseded, lift_bind] at h
  split at h
  · exact failsBy_plainly _ _ e d' h
  · cases h

theorem Recovery.failsBy_settle (dir : Path) (runs merged : List Nat) :
    FailsBy StoreError.NotOfLock (settle dir runs merged) := by
  induction merged generalizing runs with
  | nil => exact failsBy_pure ()
  | cons id rest ih =>
    rw [settle]
    refine (failsBy_tryCatch fun _ => failsBy_pure false).bind fun complete => ?_
    split
    · refine (failsBy_forM (fun run => ?_) _).bind fun _ => (failsBy_plainly _).bind fun _ => ih _
      exact failsBy_removeSuperseded dir run
    · exact (failsBy_plainly _).bind fun _ => ih _

/-- Whatever is in the way of the recovery of a folder, it is no lock. -/
theorem Generation.failsBy_openIn (config : Config) :
    FailsBy StoreError.NotOfLock (Generation.openIn config) := by
  refine (failsBy_plainly _).bind fun _ => FailsBy.bind ?_ fun _ => ?_
  · refine (failsBy_plainly _).bind fun names => FailsBy.bind ?_ fun _ => ?_
    · exact failsBy_forM (fun id => failsBy_plainly _) _
    · exact Recovery.failsBy_settle _ _ _
  · refine (failsBy_plainly _).bind fun names => FailsBy.bind ?_ fun _ => failsBy_pure _
    exact failsBy_mapM (fun id => (RunFile.failsBy_openAt _).bind fun _ => failsBy_pure _) _

/-! ## Locks -/

theorem LockedBy.keepsLocks {lock : Option Lock} (h : LockedBy d place lock)
    (hkeeps : d.KeepsLocks d') : LockedBy d' place lock := by
  obtain ⟨file, hnode, hholder, hheld⟩ := h
  exact ⟨file, (hkeeps.lockFiles (by simp)).mpr hnode, (hkeeps.holders file).trans hholder, hheld⟩

theorem Disk.KeepsLocks.lockFree_iff (h : d.KeepsLocks d') :
    d'.LockFree place ↔ d.LockFree place := by
  refine forall_congr' fun id => ?_
  rw [h.lockFiles (by simp), h.holders]

theorem LockedBy.lockFree (h : LockedBy d place none) : d.LockFree place := by
  obtain ⟨file, hnode, hholder, -⟩ := h
  intro id hid
  cases hid.symm.trans hnode
  exact hholder

theorem LockedBy.not_lockFree {lock : Lock} (h : LockedBy d place (some lock)) :
    ¬ d.LockFree place := by
  obtain ⟨file, hnode, hholder, -⟩ := h
  intro hfree
  rw [hfree file hnode] at hholder
  cases hholder

/-- The lock of a folder that is given back is free. -/
theorem LockedBy.release {lock : Lock} (h : LockedBy d place (some lock)) (hsound : d.Sound) :
    LockedBy (lock.release d).2 place none := by
  obtain ⟨file, hnode, hholder, hheld⟩ := h
  obtain rfl : lock.file = file := hheld lock rfl
  obtain ⟨hwrites, hgiven⟩ := lock.holder_release (hsound.lt_size hnode) hholder
  exact ⟨lock.file, (hwrites.node? _).trans hnode, hgiven, nofun⟩

/-- How taking the lock of a folder ends, whatever its path is. -/
theorem Lock.of_acquire {process : Nat} {dir : Path} {r : Except IoFailure Lock}
    (h : d.FolderAt dir place) (hsound : d.Sound)
    (hlock : Lock.acquire process (dir.child Store.lockName) d = (r, d')) :
    (∃ lock, r = .ok lock ∧ d.Evolves d' ∧ d.LockFree place ∧ LockedBy d' place (some lock)) ∨
      ∃ e, r = .error e ∧ d.Evolves d' ∧ (d.Still d' ∨ d.LockFree place ∧ d'.LockFree place) ∧
        (dir.Admits Store.lockName → d.Struck d' ∨
          d.node? (place ++ [Store.lockName]) = some .folder ∨ ¬ d.LockFree place) := by
  cases hcheck : (dir.child Store.lockName).check with
  | error e =>
    obtain ⟨cause, hrefused⟩ := acquire_of_check process hcheck d
    rw [hrefused] at hlock
    cases hlock
    refine .inr ⟨cause, rfl, (still_ticked d).evolves, .inl (still_ticked d), fun hadmits => ?_⟩
    rw [hadmits.check] at hcheck
    cases hcheck
  | ok =>
    have hname : dir.Admits Store.lockName := ⟨by decide, by decide, by decide, hcheck⟩
    rcases acquire_spec process h hname hsound with
      ⟨lock, d₁, hlock', hchanges, hfree, hlocked⟩ | ⟨e, d₁, hlock', hchanges, hkept, hwhy⟩
    · rw [hlock'] at hlock
      cases hlock
      exact .inl ⟨lock, rfl, hchanges.toEvolves, hfree, hlocked⟩
    · rw [hlock'] at hlock
      cases hlock
      exact .inr ⟨e, rfl, hchanges.toEvolves, hkept, fun _ => hwhy⟩

/-! ## Opening -/

/-- A store of the folder at a place. As long as it is open it holds the lock of the folder. -/
structure Store.Tenant (s : Store) (d : Disk) (place : Path) : Prop where
  noLocks : s.core.NoLocks
  folder : d.FolderAt s.core.config.dir place
  given : s.closed = true → s.lock = none
  held : s.closed = false → ∃ lock, s.lock = some lock ∧ LockedBy d place (some lock)

/-- What an attempt to open the folder at a place that ends in an error has done to the disk. -/
structure Disk.Refuses (d d' : Disk) (config : Config) (place : Path) (e : StoreError) :
    Prop extends Evolves d d' where
  /-- A lock that was free is free. -/
  free : d.LockFree place → d'.LockFree place
  /-- It was not for the lock then, unless a fault struck or there can be no lock file. -/
  unlocked : d.LockFree place → config.dir.Admits Store.lockName → ∀ cause, e = .lock cause →
    d.Struck d' ∨ (∀ id, d.node? (place ++ [Store.lockName]) ≠ some (.file id)) ∧
      d'.node? (place ++ [Store.lockName]) = some .folder
  /-- A folder whose lock is held is not touched. -/
  untouched : ¬ d.LockFree place → d.MakesFolders d'
  still : ¬ d.LockFree place → d.FolderAt config.dir place →
    d.Still d' ∧ ((∃ cause, e = .lock cause) ∨ d.Struck d')

theorem refuses_unmade {cause : IoFailure} (place : Path)
    (hmakes : makeFolders config.dir d = (.error cause, d')) :
    d.Refuses d' config place (.io cause) := by
  have hmade := (makeFolders_spec config.dir hmakes).1
  exact {
    toEvolves := hmade.toEvolves
    free := hmade.keepsLocks.lockFree_iff.mpr
    unlocked := fun _ _ _ => nofun
    untouched := fun _ => hmade
    still := fun _ hfolder => by
      have hstill := hfolder.still_makeFolders
      have hthere := hfolder.makeFolders_of_there
      rw [hmakes] at hstill hthere
      exact ⟨hstill, .inr (hthere.resolve_left nofun)⟩ }

theorem refuses_locked {process : Nat} {cause : IoFailure} {d₁ : Disk} (hsound : d.Sound)
    (hdir : config.dir.resolved = place) (hmakes : makeFolders config.dir d = (.ok (), d₁))
    (hlock : Lock.acquire process (config.dir.child Store.lockName) d₁ = (.error cause, d')) :
    d.Refuses d' config place (.lock cause) := by
  obtain ⟨hmade, hthere⟩ := makeFolders_spec config.dir hmakes
  obtain ⟨place', hfolder⟩ := hthere rfl
  obtain rfl : place = place' := hdir.symm.trans hfolder.resolved
  have hfree : d₁.LockFree place ↔ d.LockFree place := hmade.keepsLocks.lockFree_iff
  rcases Lock.of_acquire hfolder (hmade.sound hsound) hlock with
    ⟨lock, hok, -⟩ | ⟨e, -, hevolves, hkept, hwhy⟩
  · cases hok
  exact {
    toEvolves := hmade.toEvolves.trans hevolves
    free := fun hlockFree => by
      rcases hkept with hstill | ⟨-, hfree'⟩
      · exact hstill.spares.toKeepsLocks.lockFree_iff.mpr (hfree.mpr hlockFree)
      · exact hfree'
    unlocked := fun hlockFree hadmits _ _ => by
      rcases hwhy hadmits with hs | hway | hheld
      · exact .inl (hs.earlier hmade.toEvolves)
      · refine .inr ⟨fun id hid => ?_, hevolves.folders hway⟩
        have hid' := (hmade.keepsLocks.lockFiles (by simp)).mpr hid
        rw [hway] at hid'
        cases hid'
      · exact absurd (hfree.mpr hlockFree) hheld
    untouched := fun hheld => by
      rcases hkept with hstill | ⟨hfree', -⟩
      · exact hmade.trans hstill.makesFolders
      · exact absurd (hfree.mp hfree') hheld
    still := fun hheld hfolder => by
      have hstill := hfolder.still_makeFolders
      rw [hmakes] at hstill
      rcases hkept with hstill' | ⟨hfree', -⟩
      · exact ⟨hstill.trans hstill', .inl ⟨cause, rfl⟩⟩
      · exact absurd (hfree.mp hfree') hheld }

/-- An attempt that gives the lock back in the end has had it, and fails for another reason. -/
theorem refuses_released {lock : Lock} {e : StoreError} {d₁ : Disk} (hsound : d.Sound)
    (hevolves : d.Evolves d₁) (hfree : d.LockFree place) (hlocked : LockedBy d₁ place (some lock))
    (he : e.NotOfLock) : d.Refuses (lock.release d₁).2 config place e where
  toEvolves := hevolves.trans (relocked_release lock d₁).evolves
  free _ := (hlocked.release (hevolves.sound hsound)).lockFree
  unlocked _ _ cause hlock := absurd hlock (he cause)
  untouched hheld := absurd hfree hheld
  still hheld := absurd hfree hheld

theorem Store.outcome_openIn {process : Nat} {r : Except StoreError Store} (hsound : d.Sound)
    (hdir : config.dir.resolved = place) (h : Store.openIn process config d = (r, d')) :
    (∃ store, r = .ok store ∧ d.Evolves d' ∧ d.LockFree place ∧ store.closed = false ∧
        store.Tenant d' place) ∨
      ∃ e, r = .error e ∧ d.Refuses d' config place e := by
  -- what is known once the lock is held
  have hheld {lock : Lock} {d₁ d₂ : Disk} (hmakes : makeFolders config.dir d = (.ok (), d₁))
      (hlock : Lock.acquire process (config.dir.child Store.lockName) d₁ = (.ok lock, d₂)) :
      d.Evolves d₂ ∧ d.LockFree place ∧ d₂.FolderAt config.dir place ∧
        LockedBy d₂ place (some lock) := by
    obtain ⟨hmade, hthere⟩ := makeFolders_spec config.dir hmakes
    obtain ⟨place', hfolder⟩ := hthere rfl
    obtain rfl : place = place' := hdir.symm.trans hfolder.resolved
    rcases Lock.of_acquire hfolder (hmade.sound hsound) hlock with
      ⟨lock', hok, hevolves, hfree, hlocked⟩ | ⟨e, herror, -⟩
    · cases hok
      exact ⟨hmade.toEvolves.trans hevolves, hmade.keepsLocks.lockFree_iff.mp hfree,
        hfolder.evolves hevolves, hlocked⟩
    · cases herror
  cases Store.opening_of h with
  | unmade hmakes => exact .inr ⟨_, rfl, refuses_unmade place hmakes⟩
  | refused hmakes hlock => exact .inr ⟨_, rfl, refuses_locked hsound hdir hmakes hlock⟩
  | @failed lock e d₁ d₂ d₃ hmakes hlock hopen =>
    obtain ⟨hevolves, hfree, -, hlocked⟩ := hheld hmakes hlock
    have hkeeps := Generation.keepsLocks_openIn config d₂
    rw [hopen] at hkeeps
    exact .inr ⟨e, rfl, refuses_released hsound (hevolves.trans hkeeps.toEvolves) hfree
      (hlocked.keepsLocks hkeeps) (Generation.failsBy_openIn config _ _ _ hopen)⟩
  | @opened lock g d₁ d₂ _ hmakes hlock hopen =>
    obtain ⟨hevolves, hfree, hfolder, hlocked⟩ := hheld hmakes hlock
    have hkeeps := Generation.keepsLocks_openIn config d₂
    rw [hopen] at hkeeps
    refine .inl ⟨_, rfl, hevolves.trans hkeeps.toEvolves, hfree, rfl, ?_⟩
    exact {
      noLocks := fun other hother => by
        obtain rfl : other = g := by simpa [Core.ofGeneration] using hother
        exact Generation.noLocks_of_openIn hopen
      folder := hfolder.evolves hkeeps.toEvolves
      given := nofun
      held := fun _ => ⟨lock, rfl, hlocked.keepsLocks hkeeps⟩ }

/-- An attempt to open a folder gives a store that holds the lock, or leaves the lock to whoever has
it. -/
theorem Store.outcome {thread : Except IoFailure Unit} {process : Nat} {r : Except StoreError Store}
    (hsound : d.Sound) (hdir : config.dir.resolved = place)
    (h : Store.openStarting thread process config d = (r, d')) :
    (∃ store, r = .ok store ∧ d.Evolves d' ∧ d.LockFree place ∧ store.closed = false ∧
        store.Tenant d' place) ∨
      ∃ e, r = .error e ∧ d.Refuses d' config place e := by
  cases hopen : Store.openIn process config d with
  | mk opened d₁ =>
    rcases outcome_openIn hsound hdir hopen with
      ⟨store, rfl, hevolves, hfree, hclosed, htenant⟩ | ⟨e, rfl, hrefuses⟩
    · rw [openStarting, DiskM.bind_of_ok hopen] at h
      cases thread with
      | ok =>
        cases h
        exact .inl ⟨store, rfl, hevolves, hfree, hclosed, htenant⟩
      | error cause =>
        obtain ⟨lock, hlock, hlocked⟩ := htenant.held hclosed
        simp only [hlock] at h
        cases h
        exact .inr ⟨.io cause, rfl,
          refuses_released hsound hevolves hfree hlocked fun _ => nofun⟩
    · rw [openStarting, DiskM.bind_of_error hopen] at h
      cases h
      exact .inr ⟨e, rfl, hrefuses⟩

/-! ## The work of a store -/

namespace Core

theorem config_flushBuffer (id : Nat) (c : Core) (d : Disk) :
    (flushBuffer id c d).1.2.config = c.config := by
  rcases flushBuffer_cases id c d with ⟨g, hdone⟩ | ⟨e, hfailed⟩
  · rw [hdone]
    rfl
  · rw [hfailed]

theorem config_effect (task : Task) (c : Core) (d : Disk) :
    (task.effect (c, d)).1.config = c.config := by
  cases task with
  | flush id => exact config_flushBuffer id c d
  | compaction planned =>
    obtain ⟨core, hretains, hcore⟩ := retains_compaction planned c d
    rw [hcore]
    exact hretains.config
  | barrier => rfl

theorem config_effects (tasks : List Task) (c : Core) (d : Disk) :
    (Task.effects tasks (c, d)).1.config = c.config := by
  induction tasks generalizing c d with
  | nil => rfl
  | cons task tasks ih => exact (ih _ _).trans (config_effect task c d)

end Core

namespace Store

open StateProgram

/-- A store that goes on with its lock, on a disk whose locks have been spared. -/
structure KeepsLock (s : Store) (d : Disk) (s' : Store) (d' : Disk) : Prop extends
    Core.Guarded d s'.core d' where
  config : s'.core.config = s.core.config
  lock : s'.lock = s.lock
  closed : s'.closed = s.closed

variable {s s' s'' : Store}

theorem KeepsLock.refl (h : s.core.NoLocks) (d : Disk) : s.KeepsLock d s d where
  toGuarded := .refl h d
  config := rfl
  lock := rfl
  closed := rfl

theorem KeepsLock.trans (h : s.KeepsLock d s' d') (h' : s'.KeepsLock d' s'' d'') : s.KeepsLock d s'' d'' where
  toGuarded := h.toGuarded.trans h'.toGuarded
  config := h'.config.trans h.config
  lock := h'.lock.trans h.lock
  closed := h'.closed.trans h.closed

theorem stable_keepsLock (s : Store) (d : Disk) : Stable (s.KeepsLock d) where
  submitted _ hs := { hs with }
  flagged _ _ hs := { hs with noLocks := hs.noLocks.congr rfl }
  sealed hseal hs := by
    rcases Core.of_sealActive hseal with ⟨hnone, -⟩ | ⟨frozen, -, -, rfl⟩
    · cases hnone
    · exact { hs with noLocks := hs.noLocks.congr rfl }

theorem keepsLock_upsert (e : Entry) : Keeps (s.KeepsLock d) (upsert e) := by
  refine (stable_keepsLock s d).upsert fun hupsert hs => ?_
  obtain ⟨active, flushInFlight, -, rfl⟩ := Core.of_upsert hupsert
  exact { hs with noLocks := hs.noLocks.congr rfl }

theorem keepsLock_runAll (h : s.core.NoLocks) (d : Disk) :
    s.KeepsLock d (runAll s d).1.2 (runAll s d).2 := by
  obtain ⟨worker, -, -, hrun⟩ := runAll_eq s d
  rw [hrun]
  exact {
    toGuarded := h.effects s.worker.tasks d
    config := Core.config_effects _ _ _
    lock := rfl
    closed := rfl }

theorem keepsLock_waitForBackground : Keeps (s.KeepsLock d) waitForBackground := by
  refine ((stable_keepsLock s d).submit .barrier).bind fun ticket => ?_
  refine Keeps.bind (x := (liftM runAll : StoreM Unit)) (fun s' d' hs => ?_) fun _ _ _ hs => hs
  exact hs.trans (keepsLock_runAll hs.noLocks d')

theorem keepsLock_runNext (h : s.core.NoLocks) (d : Disk) :
    s.KeepsLock d (runNext s d).1.2 (runNext s d).2 := by
  cases htasks : s.worker.tasks with
  | nil =>
    rw [runNext_of_idle htasks]
    exact .refl h d
  | cons task tasks =>
    obtain ⟨worker, hdone, -⟩ := runNext_eq s d htasks
    rw [hdone]
    exact {
      toGuarded := h.effect task d
      config := Core.config_effect task _ _
      lock := rfl
      closed := rfl }

theorem keepsLock_status (h : s.core.NoLocks) (d : Disk) :
    s.KeepsLock d (status s d).1.2 (status s d).2 := by
  obtain ⟨result, -, hdone⟩ := status_eq s d
  rw [hdone]
  exact { KeepsLock.refl h d with }

end Store

namespace Session

/-- A store goes on with its lock through every event but its end. -/
theorem keepsLock_step (s : Session) (hnoLocks : s.store.core.NoLocks) {event : Event}
    (hkeeps : event.KeepsStore) (hclose : event = .close → s.store.closed = true) :
    s.store.KeepsLock s.disk (s.step event).store (s.step event).disk := by
  have hrefl := Store.KeepsLock.refl hnoLocks s.disk
  have hstable := Store.stable_keepsLock s.store s.disk
  cases event with
  | upsert e =>
    have hafter := Store.keepsLock_upsert e s.store s.disk hrefl
    rw [← store_upsert, ← disk_upsert] at hafter
    exact hafter
  | flush => exact hstable.scheduleFlush.map _ s.store s.disk hrefl
  | compact => exact hstable.scheduleCompaction.map _ s.store s.disk hrefl
  | scheduleFlush => exact hstable.scheduleFlush s.store s.disk hrefl
  | scheduleCompaction => exact hstable.scheduleCompaction s.store s.disk hrefl
  | waitForBackground => exact Store.keepsLock_waitForBackground s.store s.disk hrefl
  | status => exact Store.keepsLock_status hnoLocks s.disk
  | runNext => exact Store.keepsLock_runNext hnoLocks s.disk
  | close =>
    rw [step_close_of_closed (hclose rfl)]
    exact hrefl
  | reopen process config => exact hkeeps.elim

/-- A store that is closed gives its lock back when its work is done, however that went. -/
theorem closed_step (s : Session) (hnoLocks : s.store.core.NoLocks)
    (hopen : s.store.closed = false) : ∃ d', s.disk.Spares d' ∧
      (s.step .close).disk = s.store.unlocked d' ∧
      (s.step .close).store.core.NoLocks ∧
      (s.step .close).store.core.config = s.store.core.config ∧
      (s.step .close).store.lock = none ∧ (s.step .close).store.closed = true := by
  -- before the lock is given back it waits, starts a last flush and lets the worker finish
  let waited : Session := s.step .waitForBackground
  have hwait : s.store.KeepsLock s.disk waited.store waited.disk :=
    s.keepsLock_step hnoLocks trivial nofun
  have hflush : waited.store.KeepsLock waited.disk s.closing.store s.closing.disk :=
    waited.keepsLock_step hwait.noLocks trivial nofun
  have hclosing := hwait.trans hflush
  have hsettled := hclosing.noLocks.effects s.closing.store.worker.tasks s.closing.disk
  have hgiven : s.closing.store.unlocked s.closing.settled.2 =
      s.store.unlocked s.closing.settled.2 := by
    rw [Store.unlocked, Store.unlocked, hclosing.lock]
  rw [step_close hopen]
  refine ⟨s.closing.settled.2, hclosing.spares.trans hsettled.spares, hgiven, hsettled.noLocks, ?_,
    rfl, rfl⟩
  exact (Core.config_effects _ _ _).trans hclosing.config

end Session

/-! ## Tenants -/

namespace Store.Tenant

variable {s s' : Store}

/-- What happens beside a store does not concern it, as long as the locks are kept. -/
theorem beside (h : s.Tenant d place) (hkeeps : d.KeepsLocks d') : s.Tenant d' place where
  noLocks := h.noLocks
  folder := h.folder.evolves hkeeps.toEvolves
  given := h.given
  held hopen := by
    obtain ⟨lock, hlock, hlocked⟩ := h.held hopen
    exact ⟨lock, hlock, hlocked.keepsLocks hkeeps⟩

/-- A closed store is not concerned with the lock. -/
theorem of_closed (h : s.Tenant d place) (hclosed : s.closed = true) (hevolves : d.Evolves d') :
    s.Tenant d' place where
  noLocks := h.noLocks
  folder := h.folder.evolves hevolves
  given := h.given
  held hopen := by
    rw [hclosed] at hopen
    cases hopen

theorem worked (h : s.Tenant d place) (hworked : s.KeepsLock d s' d') : s'.Tenant d' place where
  noLocks := hworked.noLocks
  folder := hworked.config ▸ h.folder.evolves hworked.spares.toEvolves
  given hclosed := hworked.lock.trans (h.given (hworked.closed.symm.trans hclosed))
  held hopen := by
    obtain ⟨lock, hlock, hlocked⟩ := h.held (hworked.closed.symm.trans hopen)
    exact ⟨lock, hworked.lock.trans hlock, hlocked.keepsLocks hworked.spares.toKeepsLocks⟩

/-- The end of a store leaves the lock free. -/
theorem closes (h : s.Tenant d place) (writes : List Write) (hsound : d.Sound)
    (hopen : s.closed = false) :
    ((Session.mk s d writes).step .close).store.Tenant
        ((Session.mk s d writes).step .close).disk place ∧
      ((Session.mk s d writes).step .close).store.closed = true ∧
      d.Evolves ((Session.mk s d writes).step .close).disk ∧
      LockedBy ((Session.mk s d writes).step .close).disk place none := by
  obtain ⟨lock, hlock, hlocked⟩ := h.held hopen
  obtain ⟨d', hspares, hdisk, hnoLocks, hconfig, hgiven, hclosed⟩ :=
    (Session.mk s d writes).closed_step h.noLocks hopen
  have hrelease : ((Session.mk s d writes).step .close).disk = (lock.release d').2 := by
    rw [hdisk, Store.unlocked]
    simp only [hlock]
  have hevolves := hspares.toEvolves.trans (relocked_release lock d').evolves
  rw [hrelease]
  refine ⟨?_, hclosed, hevolves, ?_⟩
  · exact {
      noLocks := hnoLocks
      folder := hconfig ▸ h.folder.evolves hevolves
      given := fun _ => hgiven
      held := fun hopen' => by
        rw [hclosed] at hopen'
        cases hopen' }
  · exact (hlocked.keepsLocks hspares.toKeepsLocks).release (hspares.sound hsound)

end Store.Tenant

end LayeredStore
