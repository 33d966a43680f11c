import LayeredStore.Recovery
import LayeredStore.Worker

/-!
# The state of a store

The layers of a store are the buffer that takes writes, the sealed buffer that is being flushed,
if there is one, and the current generation of runs. `Core` holds them with two flags: one is
set while a flush is under way, so that there is never a second one, and one while a compaction
is queued.

Buffers and generations go on existing when they are no longer part of the state, because a scan
may still read from a buffer and a queued compaction may still refer to a generation. They are
numbered: the sealed buffers in the order of their sealing, with the active buffer after them, and
the generations in the order in which they were opened.
-/

namespace LayeredStore

/-- The layers of a store and what is under way on them. -/
structure Core where
  config : Config
  /-- The buffer that takes writes. -/
  active : Buffer
  /-- Every buffer that was sealed, oldest first. None of them changes any more. -/
  sealedBuffers : Array Buffer
  /-- The sealed buffer that still has to become a run. -/
  flushing : Option Nat
  /-- Every generation that was opened, oldest first. -/
  generations : Array Generation
  /-- The generation that is read. -/
  current : Nat
  /-- Whether a flush is under way. -/
  flushInFlight : Bool
  /-- Whether a compaction is queued. -/
  compactionPending : Bool
  current_lt : current < generations.size

/-- A program over the state of a store and its disk. -/
abbrev CoreM := ExceptT StoreError (StateT Core (StateM Disk))

namespace Core

/-- The state of a store that was just opened. -/
def ofGeneration (config : Config) (g : Generation) : Core where
  config := config
  active := .empty
  sealedBuffers := #[]
  flushing := none
  generations := #[g]
  current := 0
  flushInFlight := false
  compactionPending := false
  current_lt := by simp

/-- The number of the active buffer. -/
def activeId (c : Core) : Nat := c.sealedBuffers.size

/-- The buffers by their numbers. -/
def buffers (c : Core) (id : Nat) : Buffer :=
  if id = c.activeId then c.active else c.sealedBuffers.getD id .empty

/-- The buffer that still has to become a run. -/
def flushingBuffer? (c : Core) : Option Buffer := c.flushing.map c.buffers

/-- The generation that is read. -/
def generation (c : Core) : Generation :=
  have := c.current_lt
  c.generations[c.current]

/-- Whether the files of a generation still stand for its runs. -/
def isLive (c : Core) (generation : Nat) : Bool :=
  c.generations[generation]?.any Generation.live

/-! ## Writing -/

/-- Sets the flag of a flush under way. Only the one who finds it clear may start a flush. -/
def markFlush (c : Core) : Bool × Core := (!c.flushInFlight, { c with flushInFlight := true })

/-- Clears the flag of a flush under way. -/
def clearFlush (c : Core) : Core := { c with flushInFlight := false }

/-- Sets the flag of a queued compaction. Only the one who finds it clear may queue one. -/
def markCompaction (c : Core) : Bool × Core :=
  (!c.compactionPending, { c with compactionPending := true })

/-- Clears the flag of a queued compaction. -/
def clearCompaction (c : Core) : Core := { c with compactionPending := false }

/-- Writes an entry to the active buffer. The answer is whether that has made a flush due, which
the caller then has to start.

An entry that no run could hold is refused here, so that no flush fails on it. An entry that
would fill the active buffer is refused while the buffer before it is still waiting. -/
def upsert (c : Core) (e : Entry) : Except StoreError (Bool × Core) := do
  e.check
  if c.config.flushThreshold < c.active.bytes + e.size && c.flushInFlight && c.flushing.isSome then
    throw .overload
  let active ← c.active.put e
  let c := { c with active }
  if c.config.flushThreshold < active.bytes then return c.markFlush else return (false, c)

/-- Seals the active buffer and puts an empty one in its place. The answer is the number of the
sealed buffer, or nothing if there was nothing to seal. -/
def sealActive (c : Core) : Except StoreError (Option Nat × Core) := do
  if c.active.isEmpty then return (none, c)
  if c.flushing.isSome then
    throw (.invalidState "Cannot seal while another buffer is being flushed")
  let frozen ← c.active.freeze
  return (some c.activeId, { c with
    active := .empty
    sealedBuffers := c.sealedBuffers.push frozen
    flushing := some c.activeId })

/-! ## Generations -/

/-- Opens a generation beside the current one and gives its number. -/
def addGeneration (c : Core) (g : Generation) : Nat × Core :=
  (c.generations.size, { c with
    generations := c.generations.push g
    current_lt := by have := c.current_lt; simp only [Array.size_push]; omega })

/-- Makes a generation the one that is read. -/
def install (c : Core) (g : Generation) : Core :=
  { c with
    generations := c.generations.push g
    current := c.generations.size
    current_lt := by simp }

/-- Ends a flush: the generation that holds its run is read, and its buffer is given up. -/
def publishFlush (c : Core) (g : Generation) : Core :=
  { c.install g with flushing := none, flushInFlight := false }

/-- Ends a compaction: the generation that holds its run is read. The buffers stay; what of them
went into the run is older than they are. -/
def publishCompaction (c : Core) (g : Generation) : Core := c.install g

/-- A program over the disk as one over the state. -/
def onDisk {α : Type} (x : DiskM StoreError α) : CoreM α := fun c d =>
  let (r, d) := x d
  ((r, c), d)

/-- Removes the files of a generation, which is not live from then on. -/
def retire (generation : Nat) : CoreM Unit := do
  let c ← get
  match c.generations[generation]? with
  | none => throw .staleGeneration
  | some g =>
    let (outcome, g) ← onDisk g.retire
    modify fun c => { c with
      generations := c.generations.setIfInBounds generation g
      current_lt := by simpa using c.current_lt }
    onDisk fun d => (outcome, d)

/-! ## Background work -/

/-- Writes a sealed buffer as a run and has the generation that contains it read. If that fails
the buffer remains the one to be flushed and the flag remains set. -/
def flushBuffer (buffer : Nat) : CoreM Unit := do
  let c ← get
  discard <| onDisk (c.generation.persist ((c.buffers buffer).toList .all))
  let g ← onDisk (Generation.load c.config)
  modify (publishFlush · g)

/-- Merges all layers into one run and has the generation that consists of it read. Nothing is
done if there is nothing to merge. -/
def compactRuns : CoreM Unit := do
  let c ← get
  let g := c.generation
  let buffered := !c.active.isEmpty || c.flushingBuffer?.any (!·.isEmpty)
  if g.runs.isEmpty && !buffered then return ()
  let merged ← onDisk (g.writeMerged c.buffers c.activeId c.flushing)
  retire c.current
  if let some id := merged then
    onDisk (g.publish id)
  let next ← onDisk (Generation.load c.config)
  modify (publishCompaction · next)

end Core

/-- What the background worker of a store does. -/
inductive Task where
  /-- Writes a sealed buffer as a run. -/
  | flush (buffer : Nat)
  /-- Merges all layers into one run, unless the generation for which that was planned is no
  longer live. -/
  | compaction (planned : Nat)
  /-- Does nothing. It is done when all before it is done. -/
  | barrier
deriving DecidableEq, Repr

namespace Task

/-- What a task is called in reports. -/
def name : Task → String
  | .flush _ => "flush"
  | .compaction _ => "compaction"
  | .barrier => "barrier"

/-- Runs a task. However a compaction ends, the flag of a queued one is then clear. -/
def run : Task → CoreM Unit
  | .flush buffer => fun c d =>
    let ((r, c), d) := Core.flushBuffer buffer c d
    ((r.mapError .persistence, c), d)
  | .compaction planned => fun c d =>
    if c.isLive planned then
      let ((r, c), d) := Core.compactRuns c d
      ((r.mapError .compaction, c.clearCompaction), d)
    else ((.ok (), c.clearCompaction), d)
  | .barrier => return ()

/-- Runs a task as a job of the worker. -/
def execute (_ : Ticket) (task : Task) (s : Core × Disk) : Outcome × (Core × Disk) :=
  let ((r, c), d) := task.run s.1 s.2
  (.finished r, (c, d))

end Task

end LayeredStore
