import LayeredStore.Proofs.Opening

/-!
# Histories of one folder

Whatever happens to a store in a folder that had no runs, what is read is what was written:
`reads_last_writes` says so of every state that a session reaches, over any number of openings, if
no file operation fails.
-/

namespace LayeredStore

open Disk

variable {d start : Disk} {dir place : Path} {l : Layers} {s : Session} {config : Config}

namespace Session

/-- The session that starts when a process opens a store in a folder. -/
def openIn (process : Nat) (config : Config) (d : Disk) : Option Session :=
  match Store.openIn process config d with
  | (.ok store, disk) => some ⟨store, disk, []⟩
  | (.error _, _) => none

theorem openIn_eq_some {process : Nat} (h : openIn process config d = some s) :
    Store.openIn process config d = (.ok s.store, s.disk) ∧ s.writes = [] := by
  rw [openIn] at h
  split at h
  · next heq =>
    cases h
    exact ⟨heq, rfl⟩
  · cases h

/-- A session starts when a process opens a store on a disk without faults, in a folder that has no
runs. -/
structure StartsIn (s : Session) (config : Config) (d : Disk) : Prop where
  sound : d.Sound
  faultless : d.Faultless
  roomy : config.dir.Roomy
  blockSize_le : config.blockSize ≤ UInt32.size
  noRuns : (makeFolders config.dir d).2.HasNoRuns config.dir
  opened : ∃ process, openIn process config d = some s

/-- What is read of a key is the last write of it that was accepted, and what a scan gives are
the keys of its range whose last write is live, by ascending key. -/
structure ReadsLastWrites (s : Session) : Prop where
  get : ∀ key, s.store.get s.disk key = .ok (Log.read s.writes key)
  scan : ∀ range, ∃ entries, s.store.entries s.disk range = entries.map .ok ∧
    Ascending bytewise entries ∧
    ∀ e, e ∈ entries ↔ Log.read s.writes e.key = some e ∧ range.contains bytewise e.key = true

end Session

namespace Layers

theorem ShownBy.readsLastWrites (hshown : l.ShownBy s.store.core s.disk place) (hsane : l.Sane)
    (hright : l.Right) (hwrites : s.writes = l.writes) : s.ReadsLastWrites where
  get key := by rw [hshown.get_eq hsane, hright.all, hwrites]
  scan range := by
    obtain ⟨entries, heq, hasc, hmem⟩ := hshown.entries_eq hsane range
    refine ⟨entries, heq, hasc, fun e => ?_⟩
    rw [hmem, hright.all, hwrites]

theorem Describes.readsLastWrites (h : l.Describes start s dir place) (hright : l.Right) :
    s.ReadsLastWrites :=
  h.held.readsLastWrites h.sane hright h.writes

end Layers

/-- The layers of a session after some events are those of an empty store after these events. -/
theorem Session.StartsIn.describes (h : s.StartsIn config d) {events : List Event}
    (hfits : s.Fits config.dir events) :
    ∃ place, ((Layers.initial config.flushThreshold).run events).Describes d (s.run events)
      config.dir place := by
  obtain ⟨process, hopen⟩ := h.opened
  obtain ⟨hstore, hwrites⟩ := openIn_eq_some hopen
  obtain ⟨store, disk, writes⟩ := s
  cases hwrites
  obtain ⟨place, hinitial⟩ :=
    describes_opened h.sound h.faultless h.roomy h.blockSize_le h.noRuns hstore
  exact ⟨place, hinitial.run h.faultless hfits⟩

/-- After some events, what is read is right, and no merge is left in the folder. -/
theorem Session.StartsIn.right (h : s.StartsIn config d) {events : List Event}
    (hfits : s.Fits config.dir events) :
    ∃ (place : Path) (l : Layers), l.Describes d (s.run events) config.dir place ∧ l.Right ∧
      l.left = none := by
  obtain ⟨place, hdescribes⟩ := h.describes hfits
  have hleft : (Layers.initial config.flushThreshold).left = none := rfl
  exact ⟨place, _, hdescribes,
    (Layers.right_initial _).run (Layers.sane_initial _) hleft events, Layers.left_run hleft events⟩

/-- In every state of every history of a folder that had no runs, the last writes are read, and
the folder of a closed store opens again. -/
theorem reads_last_writes {events : List Event} (hstarts : s.StartsIn config d)
    (hfits : s.Fits config.dir events) :
    (s.run events).ReadsLastWrites ∧
      ((s.run events).store.closed = true → ∀ other (config' : Config),
        config'.dir = config.dir → config'.blockSize ≤ UInt32.size →
          ∃ store disk, Store.openIn other config' (s.run events).disk = (.ok store, disk)) := by
  obtain ⟨place, l, hdescribes, hright, -⟩ := hstarts.right hfits
  refine ⟨hdescribes.readsLastWrites hright, fun hclosed other config' hdir hblock' => ?_⟩
  obtain ⟨g, lock, disk, hopens, -⟩ :=
    hdescribes.openIn hstarts.faultless (hdescribes.closed ▸ hclosed) other hdir hblock'
  exact ⟨_, disk, hopens⟩

/-- Settings under which small histories have several blocks and runs. -/
def smallConfig : Config :=
  { Config.new ["db"] with flushThreshold := 64, blockSize := 32, syncWrites := false }

/-- A store that was just opened on an empty disk. -/
def newSession : Session := (Session.openIn 1 smallConfig .empty).get (by decide +kernel)

theorem newSession_startsIn : newSession.StartsIn smallConfig .empty where
  sound := sound_empty
  faultless _ _ := rfl
  roomy := Path.roomy_singleton (by decide) (by decide) (by decide)
  blockSize_le := by decide
  noRuns := hasNoRuns_of_names (by decide +kernel) _
  opened := ⟨1, (Option.some_get _).symm⟩

/-- A compaction that runs while a flush waits behind it, and one that has deletions to drop. -/
def busyHistory : List Event :=
  [.upsert (.put [1] [10]), .upsert (.put [2] [20]), .flush, .runNext, .upsert (.put [1] [11]),
    .compact, .scheduleFlush, .upsert (.put [3] [30]), .runNext, .runNext, .close,
    .reopen 2 smallConfig, .upsert (.tombstone [2]), .compact, .waitForBackground, .status,
    .close, .reopen 3 smallConfig]

theorem busyHistory_reads_last_writes : (newSession.run busyHistory).ReadsLastWrites :=
  (reads_last_writes newSession_startsIn (by decide +kernel)).1

end LayeredStore
