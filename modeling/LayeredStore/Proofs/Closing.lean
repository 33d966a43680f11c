import LayeredStore.Proofs.Crashes

/-!
# Closing a store that had failures

A task that fails leaves its failure with the worker. It stays there until a status report or the
end of the store takes it away, so that a store which could be closed without an error has lost
nothing, provided that no status report has told of a failure before (`close_loses_nothing`).

After such a report the store goes on, but its sealed layer will never be flushed, and closing does
not say so: `reported_failure_is_forgotten`.
-/

namespace LayeredStore

open Disk

variable {d start : Disk} {dir place : Path} {l : Layers} {s : Session} {config : Config}

/-! ## Other faults from some moment on -/

namespace Session

/-- The session when other faults strike its disk from now on. -/
def facing (s : Session) (plan : Nat → Option Fault) : Session :=
  { s with disk := s.disk.startedWith plan }

/-- The session after some events without other faults, and some with them. -/
def runFacing (s : Session) (before : List Event) (plan : Nat → Option Fault)
    (events : List Event) : Session :=
  ((s.run before).facing plan).run events

end Session

namespace Layers

theorem StoredIn.startedWith (h : l.StoredIn d dir place) (plan : Nat → Option Fault) :
    l.StoredIn (d.startedWith plan) dir place where
  folder := h.folder.startedWith plan
  sound := h.sound.startedWith plan
  tidy := h.tidy
  unfinished := h.unfinished
  holds := h.holds.startedWith plan
  left := h.left.congr (fun _ => rfl) fun _ _ => rfl

theorem ShownBy.startedWith {c : Core} (h : l.ShownBy c d place) (plan : Nat → Option Fault) :
    l.ShownBy c (d.startedWith plan) place where
  toBufferedBy := h.toBufferedBy
  toReadBy := {
    h.toReadBy with
    shows := h.shows.imp fun _ _ hrun => hrun.congr (Nat.le_refl _) rfl
    stands := fun hlive => (h.stands hlive).imp fun _ _ hrun =>
      ⟨hrun.toShows.congr (Nat.le_refl _) rfl, hrun.path_eq, hrun.node⟩ }

theorem HeldBy.startedWith {c : Core} (h : l.HeldBy c d place) (plan : Nat → Option Fault) :
    l.HeldBy c (d.startedWith plan) place where
  toStoredIn := h.toStoredIn.startedWith plan
  toShownBy := h.toShownBy.startedWith plan

/-- What the layers say of a session does not depend on the faults that are to come. -/
theorem Describes.facing (h : l.Describes start s dir place) (plan : Nat → Option Fault) :
    l.Describes (s.disk.startedWith plan) (s.facing plan) dir place :=
  { h with
    held := h.held.startedWith plan
    since := Evolves.refl _
    locked := h.locked }

end Layers

/-! ## Failures that nobody has asked for -/

/-- An event neither closes nor opens a store. -/
def Event.KeepsOpen : Event → Prop
  | .close | .reopen _ _ => False
  | _ => True

instance : (event : Event) → Decidable event.KeepsOpen
  | .close | .reopen _ _ => .isFalse id
  | .upsert _ | .flush | .compact | .scheduleFlush | .scheduleCompaction | .waitForBackground
  | .status | .runNext => .isTrue trivial

namespace Session

/-- An event is no status report that tells of a failure. -/
def ReportsNothing (s : Session) : Event → Prop
  | .status => (Store.status s.store s.disk).1.1 = .ok ()
  | _ => True

instance (s : Session) : (event : Event) → Decidable (s.ReportsNothing event)
  | .status => inferInstanceAs (Decidable (_ = _))
  | .upsert _ | .flush | .compact | .scheduleFlush | .scheduleCompaction | .waitForBackground
  | .close | .runNext | .reopen _ _ => .isTrue trivial

/-- During some events the store stays open, and no status report tells of a failure. -/
def GoesOn : Session → List Event → Prop
  | _, [] => True
  | s, event :: events =>
    event.KeepsOpen ∧ s.ReportsNothing event ∧ (s.step event).GoesOn events

instance decidableGoesOn : (s : Session) → (events : List Event) → Decidable (s.GoesOn events)
  | _, [] => .isTrue trivial
  | s, event :: events =>
    have := decidableGoesOn (s.step event) events
    inferInstanceAs (Decidable (_ ∧ _ ∧ _))

/-- Whatever state a session is in, a failure stays until it is reported. -/
theorem step_keeps (s : Session) {event : Event} (hkeeps : event.KeepsOpen)
    (hreports : s.ReportsNothing event) :
    ((s.step event).store.worker.failure = none → s.store.worker.failure = none) ∧
      (s.step event).store.closed = s.store.closed := by
  have hdiscreet {α : Type} {x : StoreM α} (hx : Store.Discreet x) :
      ((s.after x).store.worker.failure = none → s.store.worker.failure = none) ∧
        (s.after x).store.closed = s.store.closed :=
    ⟨fun hnone => (hx s.store s.disk).1.symm.trans hnone, (hx s.store s.disk).2⟩
  cases event with
  | upsert e =>
    have hx := Store.discreet_upsert e s.store s.disk
    rw [← store_upsert] at hx
    exact ⟨fun hnone => hx.1.symm.trans hnone, hx.2⟩
  | flush => exact hdiscreet (Store.discreet_scheduleFlush.map _)
  | compact => exact hdiscreet (Store.discreet_scheduleCompaction.map _)
  | scheduleFlush => exact hdiscreet Store.discreet_scheduleFlush
  | scheduleCompaction => exact hdiscreet Store.discreet_scheduleCompaction
  | waitForBackground => exact Store.waitForBackground_keeps s.store s.disk
  | status =>
    obtain ⟨result, hresult, hdone⟩ := Store.status_eq s.store s.disk
    have hok : (Store.status s.store s.disk).1.1 = .ok () := hreports
    rw [hdone] at hok
    refine ⟨fun _ => hresult.mp hok, ?_⟩
    show (Store.status s.store s.disk).1.2.closed = _
    rw [hdone]
  | close => cases hkeeps
  | runNext =>
    refine ⟨?_, rfl⟩
    show (Store.runNext s.store s.disk).1.2.worker.failure = none → _
    cases htasks : s.store.worker.tasks with
    | nil =>
      rw [Store.runNext_of_idle htasks]
      exact id
    | cons task tasks =>
      obtain ⟨worker, hdone, -, -, -, hfailure⟩ := Store.runNext_eq s.store s.disk htasks
      rw [hdone]
      exact fun hnone => (hfailure.mp hnone).1
  | reopen process config => cases hkeeps

theorem run_keeps (s : Session) {events : List Event} (hgoes : s.GoesOn events) :
    ((s.run events).store.worker.failure = none → s.store.worker.failure = none) ∧
      (s.run events).store.closed = s.store.closed := by
  induction events generalizing s with
  | nil => exact ⟨id, rfl⟩
  | cons event events ih =>
    obtain ⟨hkeeps, hreports, hrest⟩ := hgoes
    obtain ⟨hstep, hclosed⟩ := s.step_keeps hkeeps hreports
    obtain ⟨hrun, hclosed'⟩ := ih (s.step event) hrest
    exact ⟨fun hnone => hstep (hrun hnone), hclosed'.trans hclosed⟩

end Session

namespace Layers

/-- An event after which the worker has no failure does to a session what it does to the layers. -/
theorem Describes.step_quietly (h : l.Describes start s dir place) (htruthful : start.Truthful)
    {event : Event} (hkeeps : event.KeepsOpen) (hwithin : s.StaysWithin event)
    (hquiet : (s.step event).store.worker.failure = none) :
    (l.step event).Describes start (s.step event) dir place := by
  cases event with
  | upsert e => exact h.upsert e
  | flush => exact h.flush
  | compact => exact h.compact
  | scheduleFlush => exact h.scheduleFlush
  | scheduleCompaction => exact h.scheduleCompaction
  | waitForBackground =>
    exact (h.waitForBackground htruthful hwithin).resolve_right fun hfail => hfail.1 hquiet
  | status => exact h.status
  | close => cases hkeeps
  | runNext => exact (h.runNext htruthful hwithin).resolve_right fun hfail => hfail.1 hquiet
  | reopen process config => cases hkeeps

/-- If the worker has no failure in the end, it never had one. -/
theorem Describes.run_quietly (h : l.Describes start s dir place) (htruthful : start.Truthful)
    {events : List Event} (hfits : s.Fits dir events) (hgoes : s.GoesOn events)
    (hquiet : (s.run events).store.worker.failure = none) :
    (l.run events).Describes start (s.run events) dir place := by
  induction events generalizing l s with
  | nil => exact h
  | cons event events ih =>
    obtain ⟨-, hwithin, hfits⟩ := hfits
    obtain ⟨hkeeps, -, hgoes⟩ := hgoes
    have hnone := ((s.step event).run_keeps hgoes).1 hquiet
    exact ih (h.step_quietly htruthful hkeeps hwithin hnone) hfits hgoes hquiet

end Layers

/-- Whatever strikes a store until it is closed for the first time: if closing succeeds, and no
status report has told of a failure before, then its folder opens again and the last writes are
read. -/
theorem close_loses_nothing {before events : List Event} (hstarts : s.StartsIn config d)
    (hbefore : s.Fits config.dir before)
    (hopened : (s.run before).store.closed = false) {plan : Nat → Option Fault}
    (htruthful : ((s.run before).disk.startedWith plan).Truthful)
    (hfits : ((s.run before).facing plan).Fits config.dir events)
    (hgoes : ((s.run before).facing plan).GoesOn events)
    (hwithin : (s.runFacing before plan events).StaysWithin .close)
    (hclose : (Store.close (s.runFacing before plan events).store
      (s.runFacing before plan events).disk).1.1 = .ok ())
    {other : Nat} {config' : Config} (hdir : config'.dir = config.dir)
    (hblock' : config'.blockSize ≤ UInt32.size) :
    ∃ store disk, Store.openIn other config'
        (((s.runFacing before plan events).step .close).disk.startedWith noFaults) =
          (.ok store, disk) ∧
      (store.core.Within disk →
        Session.ReadsLastWrites ⟨store, disk, (s.runFacing before plan events).writes⟩) := by
  obtain ⟨place, l, hdescribes₀, hright₀, hleft₀⟩ := hstarts.right hbefore
  have hstart := hdescribes₀.facing plan
  have hopen' : (s.runFacing before plan events).store.closed = false :=
    (Session.run_keeps _ hgoes).2.trans hopened
  -- if closing reports nothing, the worker had no failure, and then it never had one
  have hdescribes := hstart.run_quietly htruthful hfits hgoes (Store.close_reports hopen' hclose)
  have hclosed := (hdescribes.close htruthful hwithin).resolve_right fun hfail => hfail.1 hclose
  have hsane := hdescribes₀.sane.run events
  have hleft := Layers.left_run hleft₀ events
  have hright := hright₀.run hdescribes₀.sane hleft₀ events
  generalize l.run events = l at hdescribes hclosed hsane hleft hright
  have hshut : l.shut.closed = true := by
    rw [Layers.shut, if_neg]
    rw [← hdescribes.closed]
    exact Bool.not_eq_true _ ▸ hopen'
  obtain ⟨g, lock, disk, hreopened, hdone⟩ := (hclosed.facing noFaults).openIn
    (faultless_startedWith _) hshut other hdir hblock'
  refine ⟨_, disk, hreopened, fun hids => ?_⟩
  have hright' := (hright.shut hsane).reopened hsane.shut (Layers.left_step hleft .close)
    config'.flushThreshold
  rw [Layers.reopened, if_pos hshut] at hright'
  exact (hdone hids.ids).readsLastWrites hright'

/-- Nothing strikes before the store is closed. -/
theorem busyHistory_close_loses_nothing : ∃ store disk, Store.openIn 2 smallConfig
      (((newSession.runFacing (busyHistory.take 4) (stopsAfter 100)
        ((busyHistory.take 9).drop 4)).step .close).disk.startedWith noFaults) = (.ok store, disk) ∧
    (store.core.Within disk → Session.ReadsLastWrites ⟨store, disk,
      (newSession.runFacing (busyHistory.take 4) (stopsAfter 100)
        ((busyHistory.take 9).drop 4)).writes⟩) := by
  obtain ⟨hbefore, hopened, hfits, hgoes, hwithin, hclose⟩ :
      newSession.Fits smallConfig.dir (busyHistory.take 4) ∧
      (newSession.run (busyHistory.take 4)).store.closed = false ∧
      ((newSession.run (busyHistory.take 4)).facing (stopsAfter 100)).Fits smallConfig.dir
        ((busyHistory.take 9).drop 4) ∧
      ((newSession.run (busyHistory.take 4)).facing (stopsAfter 100)).GoesOn
        ((busyHistory.take 9).drop 4) ∧
      (newSession.runFacing (busyHistory.take 4) (stopsAfter 100)
        ((busyHistory.take 9).drop 4)).StaysWithin .close ∧
      (Store.close (newSession.runFacing (busyHistory.take 4) (stopsAfter 100)
          ((busyHistory.take 9).drop 4)).store
        (newSession.runFacing (busyHistory.take 4) (stopsAfter 100)
          ((busyHistory.take 9).drop 4)).disk).1.1 = .ok () := by
    decide +kernel
  exact close_loses_nothing newSession_startsIn hbefore hopened (truthful_stopsAfter 100 _) hfits
    hgoes hwithin hclose rfl (by decide)

/-- A flush that fails, a status report that says so, and one more write. -/
def reportedFailure : List Event :=
  [.upsert (.put [1] [10]), .flush, .runNext, .status, .upsert (.put [2] [20])]

/-- A fault strikes one operation. -/
def strikesAt (operation : Nat) : Nat → Option Fault :=
  fun n => if n = operation then some ⟨⟨5⟩, 0⟩ else none

/-- After the status report has told of the failed flush, closing succeeds without a flush of the
sealed layer or of the active one, and both writes are lost. -/
theorem reported_failure_is_forgotten :
    (Store.close ((newSession.facing (strikesAt 0)).run reportedFailure).store
        ((newSession.facing (strikesAt 0)).run reportedFailure).disk).1.1 = .ok () ∧
      ((newSession.facing (strikesAt 0)).run reportedFailure).writes.map Write.entry =
        [.put [2] [20], .put [1] [10]] ∧
      (match Store.openIn 2 smallConfig
          ((((newSession.facing (strikesAt 0)).run reportedFailure).step .close).disk.startedWith
            noFaults) with
        | (.ok store, disk) => some (store.entries disk .all)
        | (.error _, _) => none) = some [] := by
  decide +kernel

end LayeredStore
