import LayeredStore.Proofs.Histories
import LayeredStore.Proofs.Tenants

/-!
# One owner of a folder

Processes open, use, close and drop stores of one folder, in whatever order, while any fault may
strike. `Tenancy.step` lets happen what a visit says, by the operations of the store.

* `Tenancy.Kept` : the invariant. The stores are tenants of the folder, one of them at most is open,
  and if none is, the lock of the folder is free. Every visit keeps it (`Tenancy.Kept.step`).
* `one_owner` : so at any time one store at most is open, everyone else is kept out without touching
  the files of the folder, and the end of the owner leaves the folder vacant.
-/

namespace LayeredStore

open Disk

variable {d : Disk} {place : Path} {config : Config}

/-! ## The stores of a folder -/

/-- The stores that were opened on a disk, by the order of their opening. One that was dropped is
gone. -/
structure Tenancy where
  handles : List (Option Store)
  disk : Disk

/-- What a process does with the store of a folder. -/
inductive Visit where
  /-- It tries to open a store. The system may refuse the thread of the worker. -/
  | enter (thread : Except IoFailure Unit) (process : Nat) (config : Config)
  | use (handle : Nat) (event : Event)
  | drop (handle : Nat)

/-- All stores are opened in the folder at one place. -/
def Visit.Suits (place : Path) : Visit → Prop
  | .enter _ _ config => config.dir.resolved = place
  | .use _ event => event.KeepsStore
  | .drop _ => True

instance (place : Path) : (visit : Visit) → Decidable (visit.Suits place)
  | .enter _ _ _ => inferInstanceAs (Decidable (_ = _))
  | .use _ event => inferInstanceAs (Decidable event.KeepsStore)
  | .drop _ => .isTrue trivial

namespace Tenancy

/-- No store was opened yet. -/
def start (d : Disk) : Tenancy := ⟨[], d⟩

/-- The store of a number, unless it was dropped. -/
def store? (t : Tenancy) (handle : Nat) : Option Store := t.handles[handle]?.join

/-- The stores after a visit. To drop a store is to close it, whatever comes of that. -/
def step (t : Tenancy) : Visit → Tenancy
  | .enter thread process config =>
    match Store.openStarting thread process config t.disk with
    | (.ok store, disk) => ⟨t.handles ++ [some store], disk⟩
    | (.error _, disk) => { t with disk }
  | .use handle event =>
    match t.store? handle with
    | none => t
    | some store =>
      let s := (Session.mk store t.disk []).step event
      ⟨t.handles.set handle (some s.store), s.disk⟩
  | .drop handle =>
    match t.store? handle with
    | none => t
    | some store => ⟨t.handles.set handle none, ((Session.mk store t.disk []).step .close).disk⟩

/-- The stores after some visits. -/
def run (t : Tenancy) (visits : List Visit) : Tenancy := visits.foldl step t

/-- One of the stores is open. -/
def Owned (t : Tenancy) : Prop := ∃ handle s, t.store? handle = some s ∧ s.closed = false

/-- What holds of the stores of one folder at any time. -/
structure Kept (t : Tenancy) (place : Path) : Prop where
  sound : t.disk.Sound
  tenant : ∀ {i : Nat} {s : Store}, t.store? i = some s → s.Tenant t.disk place
  unique : ∀ {i j : Nat} {s s' : Store}, t.store? i = some s → t.store? j = some s' →
    s.closed = false → s'.closed = false → i = j
  free : ¬ t.Owned → t.disk.LockFree place

variable {t : Tenancy} {i j : Nat} {s s' : Store}

theorem kept_start (hsound : d.Sound) (hfree : d.LockFree place) : (start d).Kept place where
  sound := hsound
  tenant h := nomatch h
  unique h := nomatch h
  free _ := hfree

theorem Kept.owned_iff (h : t.Kept place) : t.Owned ↔ ¬ t.disk.LockFree place := by
  refine ⟨?_, fun hheld => ?_⟩
  · rintro ⟨i, s, hs, hopen⟩
    obtain ⟨lock, -, hlocked⟩ := (h.tenant hs).held hopen
    exact hlocked.not_lockFree
  · by_contra hunowned
    exact hheld (h.free hunowned)

/-! ### Another store -/

theorem store?_replaced (h : t.store? i = some s) (x : Option Store) (d : Disk) (j : Nat) :
    (Tenancy.mk (t.handles.set i x) d).store? j = if j = i then x else t.store? j := by
  have hlt : i < t.handles.length := by
    by_contra hge
    rw [store?, List.getElem?_eq_none (Nat.le_of_not_lt hge)] at h
    cases h
  rw [store?, List.getElem?_set]
  by_cases hji : j = i
  · subst hji
    simp [hlt]
  · rw [if_neg (Ne.symm hji), if_neg hji]
    rfl

theorem store?_entered (t : Tenancy) (s : Store) (d : Disk) (j : Nat) :
    (Tenancy.mk (t.handles ++ [some s]) d).store? j =
      if j = t.handles.length then some s else t.store? j := by
  rw [store?, store?, List.getElem?_append]
  by_cases hlast : j = t.handles.length
  · simp [hlast]
  · rw [if_neg hlast]
    split
    · rfl
    · next hge =>
      have hlt : t.handles.length < j := by omega
      rw [List.getElem?_eq_none (Nat.le_of_lt hlt), List.getElem?_eq_none]
      simp
      omega

/-- One store gives way to another or is gone. The others have to be tenants of the new disk, and its
lock has to be free if none of them is open. -/
theorem Kept.replaced (h : t.Kept place) (hs : t.store? i = some s) {x : Option Store}
    (hsound : d.Sound)
    (hx : ∀ s' ∈ x, s'.Tenant d place ∧ (s'.closed = false → s.closed = false))
    (hothers : ∀ j s', j ≠ i → t.store? j = some s' → s'.Tenant d place)
    (hfree : ¬ (Tenancy.mk (t.handles.set i x) d).Owned → d.LockFree place) :
    (Tenancy.mk (t.handles.set i x) d).Kept place where
  sound := hsound
  tenant {j s'} hs' := by
    rw [store?_replaced hs] at hs'
    split at hs'
    · exact (hx s' hs').1
    · next hne => exact hothers j s' hne hs'
  unique {j k s' s''} hs' hs'' hopen hopen' := by
    -- a store that is open now stands where one was open before
    have hbefore {j : Nat} {s' : Store}
        (hs' : (Tenancy.mk (t.handles.set i x) d).store? j = some s') (hopen : s'.closed = false) :
        ∃ s₀, t.store? j = some s₀ ∧ s₀.closed = false := by
      rw [store?_replaced hs] at hs'
      split at hs'
      · next hj => exact ⟨s, hj ▸ hs, (hx s' hs').2 hopen⟩
      · exact ⟨s', hs', hopen⟩
    obtain ⟨s₁, hs₁, hopen₁⟩ := hbefore hs' hopen
    obtain ⟨s₂, hs₂, hopen₂⟩ := hbefore hs'' hopen'
    exact h.unique hs₁ hs₂ hopen₁ hopen₂
  free := hfree

/-! ### What a visit does -/

theorem Kept.closed_of_lockFree (h : t.Kept place) (hfree : t.disk.LockFree place)
    (hs : t.store? i = some s) : s.closed = true := by
  by_contra hopen
  exact h.owned_iff.mp ⟨i, s, hs, by simpa using hopen⟩ hfree

theorem Kept.enter (h : t.Kept place) (thread : Except IoFailure Unit) (process : Nat)
    (hdir : config.dir.resolved = place) : (t.step (.enter thread process config)).Kept place := by
  rw [step]
  cases hopen : Store.openStarting thread process config t.disk with
  | mk r d' =>
    rcases Store.outcome h.sound hdir hopen with
      ⟨store, rfl, hevolves, hfree, hstart, htenant⟩ | ⟨e, rfl, hrefuses⟩
    · -- the lock was free, so all other stores are closed
      have hold {j : Nat} {s : Store} (hs : t.store? j = some s) : s.closed = true :=
        h.closed_of_lockFree hfree hs
      exact {
        sound := hevolves.sound h.sound
        tenant := fun {j s} hs => by
          rw [store?_entered] at hs
          split at hs
          · cases hs
            exact htenant
          · exact (h.tenant hs).of_closed (hold hs) hevolves
        unique := fun {j k s s'} hs hs' hopen hopen' => by
          rw [store?_entered] at hs hs'
          split at hs
          · next hj =>
            split at hs'
            · next hk => rw [hj, hk]
            · rw [hold hs'] at hopen'
              cases hopen'
          · rw [hold hs] at hopen
            cases hopen
        free := fun hunowned => by
          refine absurd ⟨t.handles.length, store, ?_, hstart⟩ hunowned
          rw [store?_entered, if_pos rfl] }
    · exact {
        sound := hrefuses.sound h.sound
        tenant := fun {j s} hs => by
          by_cases hfree : t.disk.LockFree place
          · exact (h.tenant hs).of_closed (h.closed_of_lockFree hfree hs) hrefuses.toEvolves
          · exact (h.tenant hs).beside (hrefuses.untouched hfree).keepsLocks
        unique := h.unique
        free := fun hunowned => hrefuses.free (h.free hunowned) }

/-- A store that goes on with its lock leaves everything else as it was. -/
theorem Kept.worked (h : t.Kept place) (hs : t.store? i = some s) (hworked : s.KeepsLock t.disk s' d) :
    (Tenancy.mk (t.handles.set i (some s')) d).Kept place := by
  have hkeeps := hworked.spares.toKeepsLocks
  refine h.replaced hs (hkeeps.sound h.sound) ?_ (fun j s'' _ hs'' => (h.tenant hs'').beside hkeeps) ?_
  · rintro _ ⟨⟩
    exact ⟨(h.tenant hs).worked hworked, fun hopen => hworked.closed ▸ hopen⟩
  · intro hunowned
    refine hkeeps.lockFree_iff.mpr (h.free ?_)
    rintro ⟨j, s'', hs'', hopen⟩
    by_cases hj : j = i
    · subst hj
      obtain rfl : s'' = s := Option.some.inj (hs''.symm.trans hs)
      refine hunowned ⟨j, s', ?_, hworked.closed.trans hopen⟩
      rw [store?_replaced hs, if_pos rfl]
    · refine hunowned ⟨j, s'', ?_, hopen⟩
      rw [store?_replaced hs, if_neg hj, hs'']

/-- The end of an open store frees the lock. -/
theorem Kept.ended (h : t.Kept place) (hs : t.store? i = some s) (hopen : s.closed = false)
    {x : Option Store}
    (hx : ∀ s' ∈ x, s' = ((Session.mk s t.disk []).step .close).store) :
    (Tenancy.mk (t.handles.set i x) ((Session.mk s t.disk []).step .close).disk).Kept place := by
  obtain ⟨htenant, hclosed, hevolves, hlocked⟩ := (h.tenant hs).closes [] h.sound hopen
  refine h.replaced hs (hevolves.sound h.sound) ?_ ?_ fun _ => hlocked.lockFree
  · intro s' hs'
    rw [hx s' hs']
    refine ⟨htenant, fun hopen' => ?_⟩
    rw [hclosed] at hopen'
    cases hopen'
  · intro j s' hne hs'
    refine (h.tenant hs').of_closed ?_ hevolves
    by_contra hother
    exact hne (h.unique hs' hs (by simpa using hother) hopen)

theorem Kept.use (h : t.Kept place) (handle : Nat) {event : Event} (hkeeps : event.KeepsStore) :
    (t.step (.use handle event)).Kept place := by
  rw [step]
  cases hs : t.store? handle with
  | none => exact h
  | some s =>
    by_cases hend : event = .close ∧ s.closed = false
    · obtain ⟨rfl, hopen⟩ := hend
      refine h.ended hs hopen ?_
      rintro _ ⟨⟩
      rfl
    · refine h.worked hs ?_
      refine (Session.mk s t.disk []).keepsLock_step (h.tenant hs).noLocks hkeeps fun hclose => ?_
      by_contra hopen
      exact hend ⟨hclose, by simpa using hopen⟩

theorem Kept.drop (h : t.Kept place) (handle : Nat) : (t.step (.drop handle)).Kept place := by
  rw [step]
  cases hs : t.store? handle with
  | none => exact h
  | some s =>
    by_cases hopen : s.closed = false
    · exact h.ended hs hopen fun s' hs' => absurd hs' (Option.not_mem_none s')
    · -- nothing happens to the disk when a closed store is dropped, only its handle goes
      have hclosed : s.closed = true := by simpa using hopen
      have hsame : ((Session.mk s t.disk []).step .close).disk = t.disk := by
        rw [Session.step_close_of_closed hclosed]
      dsimp only
      rw [hsame]
      refine h.replaced hs h.sound (fun s' hs' => absurd hs' (Option.not_mem_none s'))
        (fun j s' _ hs' => h.tenant hs') fun hunowned => h.free ?_
      rintro ⟨j, s', hs', hopen'⟩
      refine hunowned ⟨j, s', ?_, hopen'⟩
      rw [store?_replaced hs, if_neg, hs']
      rintro rfl
      obtain rfl : s' = s := Option.some.inj (hs'.symm.trans hs)
      exact hopen hopen'

theorem Kept.step (h : t.Kept place) {visit : Visit} (hsuits : visit.Suits place) :
    (t.step visit).Kept place := by
  cases visit with
  | enter thread process config => exact h.enter thread process hsuits
  | use handle event => exact h.use handle hsuits
  | drop handle => exact h.drop handle

theorem Kept.run (h : t.Kept place) {visits : List Visit} (hsuits : ∀ visit ∈ visits, visit.Suits place) :
    (t.run visits).Kept place := by
  induction visits generalizing t with
  | nil => exact h
  | cons visit visits ih =>
    exact ih (h.step (hsuits visit List.mem_cons_self)) fun other hother =>
      hsuits other (List.mem_cons_of_mem _ hother)

end Tenancy

/-! ## One owner -/

/-- The lock of the folder at a place is free, and no attempt to open the folder fails for it, unless a
fault strikes or there is a folder in place of the lock file. -/
structure Disk.Vacant (d : Disk) (place : Path) : Prop where
  free : d.LockFree place
  unrefused : ∀ {thread : Except IoFailure Unit} {process : Nat} {config : Config}
    {cause : IoFailure} {d' : Disk}, config.dir.resolved = place →
    config.dir.Admits Store.lockName →
    Store.openStarting thread process config d = (.error (.lock cause), d') →
    d.Struck d' ∨ (∀ id, d.node? (place ++ [Store.lockName]) ≠ some (.file id)) ∧
      d'.node? (place ++ [Store.lockName]) = some .folder

theorem Disk.LockFree.vacant (h : d.LockFree place) (hsound : d.Sound) : d.Vacant place where
  free := h
  unrefused hdir hadmits hopen := by
    rcases Store.outcome hsound hdir hopen with ⟨store, hok, -⟩ | ⟨e, herror, hrefuses⟩
    · cases hok
    · cases herror
      exact hrefuses.unlocked h hadmits _ rfl

/-- A visit is the end of a store. -/
def Visit.Ends (handle : Nat) (visit : Visit) : Prop :=
  visit = .use handle .close ∨ visit = .drop handle

namespace Tenancy

/-- The folder at a place has one owner at most, who keeps all others out and leaves it vacant. -/
structure Exclusive (t : Tenancy) (place : Path) : Prop where
  /-- At most one store is open. -/
  unique : ∀ {i j : Nat} {s s' : Store}, t.store? i = some s → t.store? j = some s' →
    s.closed = false → s'.closed = false → i = j
  /-- The paths by which stores were opened lead to the folder. -/
  leads : ∀ {i : Nat} {s : Store}, t.store? i = some s → t.disk.FolderAt s.core.config.dir place
  /-- While a store is open, an attempt to open another one is refused for the lock. It does not
  touch the files, and it makes no folder unless its path would not lead to the folder without. -/
  refused : t.Owned → ∀ (thread : Except IoFailure Unit) (process : Nat) {config : Config},
    config.dir.resolved = place → ∃ e d',
      Store.openStarting thread process config t.disk = (.error e, d') ∧ t.disk.MakesFolders d' ∧
        (t.disk.FolderAt config.dir place →
          t.disk.Still d' ∧ ((∃ cause, e = .lock cause) ∨ t.disk.Struck d'))
  /-- An attempt that fails while no store is open leaves the folder vacant. -/
  failed : ¬ t.Owned → ∀ {thread : Except IoFailure Unit} {process : Nat} {config : Config}
    {e : StoreError} {d' : Disk}, config.dir.resolved = place →
    Store.openStarting thread process config t.disk = (.error e, d') → d'.Vacant place
  /-- So does an open store that is closed or dropped, whatever comes of that. -/
  ended : ∀ {i : Nat} {s : Store}, t.store? i = some s → s.closed = false → ∀ {visit : Visit},
    visit.Ends i → (t.step visit).disk.Vacant place ∧ LockedBy (t.step visit).disk place none

theorem Kept.exclusive {t : Tenancy} (h : t.Kept place) : t.Exclusive place where
  unique := h.unique
  leads hs := (h.tenant hs).folder
  refused howned thread process config hdir := by
    have hheld := h.owned_iff.mp howned
    cases hopen : Store.openStarting thread process config t.disk with
    | mk r d' =>
      rcases Store.outcome h.sound hdir hopen with ⟨store, -, -, hfree, -⟩ | ⟨e, rfl, hrefuses⟩
      · exact absurd hfree hheld
      · exact ⟨e, d', rfl, hrefuses.untouched hheld, hrefuses.still hheld⟩
  failed hunowned {thread process config e d'} hdir hopen := by
    rcases Store.outcome h.sound hdir hopen with ⟨store, hok, -⟩ | ⟨e', -, hrefuses⟩
    · cases hok
    · exact (hrefuses.free (h.free hunowned)).vacant (hrefuses.sound h.sound)
  ended {i s} hs hopen {visit} hends := by
    obtain ⟨-, -, hevolves, hlocked⟩ := (h.tenant hs).closes [] h.sound hopen
    have hdisk : (t.step visit).disk = ((Session.mk s t.disk []).step .close).disk := by
      rcases hends with rfl | rfl
      · simp only [Tenancy.step, hs]
      · simp only [Tenancy.step, hs]
    rw [hdisk]
    exact ⟨hlocked.lockFree.vacant (hevolves.sound h.sound), hlocked⟩

end Tenancy

/-- Whoever opens, uses, closes and drops stores of one folder, in whatever order and whichever
faults strike, the folder has one owner at most. -/
theorem one_owner (hsound : d.Sound) (hfree : d.LockFree place) {visits : List Visit}
    (hsuits : ∀ visit ∈ visits, visit.Suits place) :
    ((Tenancy.start d).run visits).Exclusive place :=
  ((Tenancy.kept_start hsound hfree).run hsuits).exclusive

/-- A second process comes while the first one has the store open, comes again when the first one has
closed it and gets no thread for its worker, and then opens the store. -/
def twoOwners : List Visit :=
  [.enter (.ok ()) 1 smallConfig, .use 0 (.upsert (.put [1] [10])), .use 0 .scheduleFlush,
    .enter (.ok ()) 2 smallConfig, .use 0 .runNext, .use 0 .close,
    .enter (.error (.system .wouldBlock)) 2 smallConfig, .enter (.ok ()) 2 smallConfig]

theorem twoOwners_one_owner : ((Tenancy.start .empty).run twoOwners).Exclusive ["db"] ∧
    ((Tenancy.start .empty).run twoOwners).handles.map (Option.map Store.closed) =
      [some true, some false] :=
  ⟨one_owner sound_empty (by simp [LockFree, node?, Disk.empty]) (by decide), by decide +kernel⟩

end LayeredStore
