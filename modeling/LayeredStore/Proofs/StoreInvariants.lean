import LayeredStore.Store
import LayeredStore.Proofs.DiskPrograms

/-!
# Properties that the operations of a store keep

The operations that do not wait for the worker are put together from a few changes: an entry is
written, the active buffer is sealed, a flag is set or cleared, a task is handed to the worker. A
property of a store is `Stable` if it survives each of these changes, the writing apart, in
whatever state the store is. Then it survives the operations, however they end:
`Stable.startFlush`, `Stable.scheduleCompaction`, and with the writing `Stable.upsert`.
-/

namespace LayeredStore

/-! ## Programs that keep a property -/

namespace StateProgram

variable {ε σ α β : Type} {P : σ → Disk → Prop} {x : ExceptT ε (StateT σ (StateM Disk)) α}

/-- A program keeps a property of its state and the disk, however it ends. -/
def Keeps (P : σ → Disk → Prop) (x : ExceptT ε (StateT σ (StateM Disk)) α) : Prop :=
  ∀ s d, P s d → P (x s d).1.2 (x s d).2

theorem keeps_pure (a : α) : Keeps P (pure a : ExceptT ε (StateT σ (StateM Disk)) α) :=
  fun _ _ hs => hs

theorem keeps_throw (e : ε) : Keeps P (throw e : ExceptT ε (StateT σ (StateM Disk)) α) :=
  fun _ _ hs => hs

theorem Keeps.bind {f : α → ExceptT ε (StateT σ (StateM Disk)) β} (hx : Keeps P x)
    (hf : ∀ a, Keeps P (f a)) : Keeps P (x >>= f) := by
  intro s d hs
  have hfirst := hx s d hs
  cases hresult : x s d with
  | mk answer d' =>
    obtain ⟨r, s'⟩ := answer
    rw [hresult] at hfirst
    cases r with
    | ok a =>
      rw [bind_of_ok hresult]
      exact hf a s' d' hfirst
    | error e =>
      rw [bind_of_error hresult]
      exact hfirst

theorem Keeps.map (hx : Keeps P x) (g : α → β) : Keeps P (g <$> x) := by
  rw [map_eq_pure_bind]
  exact hx.bind fun a => keeps_pure (g a)

theorem Keeps.tryCatch {g : ε → ExceptT ε (StateT σ (StateM Disk)) α} (hx : Keeps P x)
    (hg : ∀ e, Keeps P (g e)) : Keeps P (MonadExcept.tryCatch x g) := by
  intro s d hs
  have hfirst := hx s d hs
  cases hresult : x s d with
  | mk answer d' =>
    obtain ⟨r, s'⟩ := answer
    rw [hresult] at hfirst
    cases r with
    | ok a =>
      rw [tryCatch_of_ok hresult]
      exact hfirst
    | error e =>
      rw [tryCatch_of_error hresult]
      exact hg e s' d' hfirst

end StateProgram

/-! ## The operations of a store -/

namespace Store

open StateProgram

variable {P : Store → Disk → Prop}

/-- A property survives the changes of which the operations are put together. -/
structure Stable (P : Store → Disk → Prop) : Prop where
  submitted : ∀ {s d} (task : Task), P s d →
    P { s with worker := (s.worker.submit task.name task).2 } d
  flagged : ∀ {s d} (flush compaction : Bool), P s d →
    P { s with
      core := { s.core with flushInFlight := flush, compactionPending := compaction } } d
  sealed : ∀ {s d id core}, s.core.sealActive = .ok (some id, core) → P s d → P { s with core } d

theorem keeps_ensureOpen : Keeps P ensureOpen := by
  intro s d hs
  rw [ensureOpen, getThe_bind]
  split
  · exact hs
  · exact hs

namespace Stable

variable (h : Stable P)

include h

theorem submit (task : Task) : Keeps P (Store.submit task) := fun _ _ hs => h.submitted task hs

theorem clearFlush : Keeps P (modifyCore Core.clearFlush) := fun s _ hs =>
  h.flagged false s.core.compactionPending hs

theorem clearCompaction : Keeps P (modifyCore Core.clearCompaction) := fun s _ hs =>
  h.flagged s.core.flushInFlight false hs

theorem triggerFlush : Keeps P Store.triggerFlush := by
  intro s d hs
  rw [Store.triggerFlush, getThe_bind]
  cases hseal : s.core.sealActive with
  | error e => exact (h.clearFlush.bind fun _ => keeps_throw e) s d hs
  | ok answer =>
    obtain ⟨buffer, core⟩ := answer
    cases buffer with
    | none => exact (h.clearFlush.bind fun _ => keeps_pure none) s d hs
    | some buffer => exact (h.submit (.flush buffer)).map some { s with core } d (h.sealed hseal hs)

theorem startFlush : Keeps P Store.startFlush := by
  intro s d hs
  rw [Store.startFlush, getThe_bind]
  dsimp only
  split
  · exact hs
  · have hmarked := h.flagged true s.core.compactionPending hs
    rw [modifyCore, modify_bind]
    split
    · exact h.triggerFlush _ _ hmarked
    · exact hmarked

theorem scheduleFlush : Keeps P Store.scheduleFlush := keeps_ensureOpen.bind fun _ => h.startFlush

theorem scheduleCompaction : Keeps P Store.scheduleCompaction := by
  refine keeps_ensureOpen.bind fun _ s d hs => ?_
  rw [getThe_bind]
  dsimp only
  split
  · exact hs
  · have hmarked := h.flagged s.core.flushInFlight true hs
    rw [modifyCore, modify_bind]
    split
    · exact hmarked
    · exact ((h.submit _).map _).tryCatch (fun e => h.clearCompaction.bind fun _ => keeps_throw e)
        _ _ hmarked

/-- A write keeps the property if the change that it makes to the core does. -/
theorem upsert {e : Entry} (hput : ∀ {s d due core}, s.core.upsert e = .ok (due, core) → P s d →
    P { s with core } d) : Keeps P (Store.upsert e) := by
  refine keeps_ensureOpen.bind fun _ s d hs => ?_
  rw [getThe_bind]
  cases hupsert : s.core.upsert e with
  | error cause => exact hs
  | ok answer =>
    obtain ⟨due, core⟩ := answer
    have hrest : Keeps P (if due then discard Store.triggerFlush else pure () : StoreM Unit) := by
      split
      · exact h.triggerFlush.map _
      · exact keeps_pure ()
    exact hrest { s with core } d (hput hupsert hs)

end Stable

/-- What does not depend on the core is kept if handing over a task keeps it. -/
theorem stable_of_worker {P : Store → Disk → Prop}
    (hcore : ∀ {s d core}, P s d → P { s with core } d)
    (hsubmit : ∀ {s d} (task : Task), P s d →
      P { s with worker := (s.worker.submit task.name task).2 } d) : Stable P where
  submitted := hsubmit
  flagged _ _ hs := hcore hs
  sealed _ hs := hcore hs

end Store

end LayeredStore
