import LayeredStore.Buffer
import LayeredStore.Feed
import LayeredStore.Merge
import LayeredStore.Run.File

/-!
# The sources of a scan

A scan of a store merges the buffers and the runs. A `Source` is a scan of one of them. Buffers
are referred to by number, since a scan must see what is written to them while it is under way;
`Source.pull` is given the buffers as they are at each step, and the disk for the runs.

Newer data has a larger rank: a run has its number as rank, and the two buffers outrank all runs.
-/

namespace LayeredStore

/-- The rank of the buffer that takes writes: nothing is newer. -/
def activeRank : Nat := UInt64.size - 1

/-- The rank of the buffer that is being flushed: only the active buffer is newer. -/
def flushingRank : Nat := UInt64.size - 2

/-- A scan of one layer of a store. -/
inductive Source where
  /-- A scan of a buffer that may still change. -/
  | buffer (id : Nat) (cursor : Buffer.Cursor)
  /-- A scan of a run. -/
  | run (scan : Within RunFile.Cursor)
  /-- Items that are known already. -/
  | items (rest : List Item)

namespace Source

/-- The stream of a source, the buffers and the disk being as given. -/
def pull (buffers : Nat → Buffer) (d : Disk) : Pull Source where
  next
    | .buffer id cursor =>
      let (item, cursor) := (buffers id).pull.next cursor
      (item, .buffer id cursor)
    | .run scan =>
      let (item, scan) := (RunFile.pull d).next scan
      (item, .run scan)
    | .items rest =>
      let (item, rest) := Pull.items.next rest
      (item, .items rest)
  left
    | .buffer id cursor => (buffers id).pull.left cursor
    | .run scan => (RunFile.pull d).left scan
    | .items rest => Pull.items.left rest
  left_next := by
    intro source item source' h
    cases source with
    | buffer id cursor =>
      simp only [Prod.mk.injEq] at h
      obtain ⟨hitem, rfl⟩ := h
      exact (buffers id).pull.left_next (Prod.ext hitem rfl)
    | run scan =>
      simp only [Prod.mk.injEq] at h
      obtain ⟨hitem, rfl⟩ := h
      exact (RunFile.pull d).left_next (Prod.ext hitem rfl)
    | items rest =>
      simp only [Prod.mk.injEq] at h
      obtain ⟨hitem, rfl⟩ := h
      exact Pull.items.left_next (Prod.ext hitem rfl)

/-- The bound on what a source can give does not depend on the disk. -/
theorem left_pull (buffers : Nat → Buffer) (d d' : Disk) :
    (pull buffers d).left = (pull buffers d').left := by
  funext source
  cases source <;> rfl

/-- A scan of a range of a run. One that cannot start gives its error once. -/
def ofRun (d : Disk) (file : RunFile) (range : KeyRange) : Source :=
  match file.scan d range with
  | .ok scan => .run scan
  | .error e => .items [.error e]

/-- A scan of a range of a buffer. -/
def ofBuffer (id : Nat) (range : KeyRange) : Source := .buffer id (Buffer.scan range)

end Source

/-- A merge of sources under way. -/
abbrev Scan := Merge Source

namespace Scan

/-- The merge of ranked sources. -/
def ofSources (cmp : Comparator) (buffers : Nat → Buffer) (d : Disk)
    (sources : List (Nat × Source)) : Scan :=
  Merge.ofSources (Source.pull buffers d) cmp sources

/-- The entries of a scan, tombstones included, the buffers and the disk being as given. -/
def pull (cmp : Comparator) (buffers : Nat → Buffer) (d : Disk) : Pull Scan :=
  (Source.pull buffers d).merge cmp

/-- The live entries of a scan, drawn while the disk changes. -/
def feed (cmp : Comparator) (buffers : Nat → Buffer) : Feed Scan where
  on d := (pull cmp buffers d).live
  left_on d d' := by
    simpa only [pull, Pull.merge, Pull.live] using Merge.left_congr (Source.left_pull buffers d d')

end Scan

end LayeredStore
