import LayeredStore.Core
import LayeredStore.Disk.Lock

/-!
# The store

A `Store` is a key-value store in a folder that it owns. Writes go to a buffer in memory. A
buffer that has become too large is flushed by the background worker, and runs are merged when
that is asked for; a read looks through all layers, newest first.

The operations run in `StoreM`. Background work happens between them, one task at a time, when
`Store.runNext` is called; `Store.waitForBackground` and `Store.close` are the operations that
do not return before all of it is done. A scan is lazy and sees later writes that lie ahead of
it, so its items are drawn with `Store.pull` of the store and the disk as they are at that moment.
-/

namespace LayeredStore

/-- A store in a folder. -/
structure Store where
  core : Core
  worker : Worker Task
  /-- The lock of the folder, until it is given back. -/
  lock : Option Lock
  closed : Bool

/-- A program over a store and its disk. -/
abbrev StoreM := ExceptT StoreError (StateT Store (StateM Disk))

namespace Store

/-- The file whose lock the owner of a folder holds. -/
def lockName : String := "strata.lock"

/-- Opens the store in a folder for the process of the given number. The folder is made if it is
missing, locked, and brought into order; if any of that fails the lock is given back. -/
def openIn (process : Nat) (config : Config) : DiskM StoreError Store := do
  (Disk.makeFolders config.dir).plainly
  let lock ← (Lock.acquire process (config.dir.child lockName)).mapError .lock
  let generation ← tryCatch (Generation.openIn config) fun e => do
    lock.release
    throw e
  return {
    core := .ofGeneration config generation
    worker := .start
    lock := some lock
    closed := false }

/-- Opens the store in a folder, `thread` being the answer of the system to the wish for a thread
for the worker. If there is none the lock is given back. -/
def openStarting (thread : Except IoFailure Unit) (process : Nat) (config : Config) :
    DiskM StoreError Store := do
  let store ← openIn process config
  match thread with
  | .ok () => return store
  | .error cause => do
    if let some lock := store.lock then lock.release
    throw (.io cause)

/-! ## Reading -/

/-- The layers that a scan reads: the buffers alone if there are no runs. -/
def sources (s : Store) (d : Disk) (range : KeyRange) : List (Nat × Source) :=
  let c := s.core
  if c.generation.runs.isEmpty then
    (c.flushing.map fun id => (flushingRank, Source.ofBuffer id range)).toList ++
      [(activeRank, .ofBuffer c.activeId range)]
  else c.generation.sources d c.activeId c.flushing range

/-- The stream of the live entries of a scan, as the store and the disk are now. -/
def pull (s : Store) (d : Disk) : Pull Scan := (Scan.feed bytewise s.core.buffers).on d

/-- A scan of a range. -/
def scan (s : Store) (d : Disk) (range : KeyRange) : Scan :=
  .ofSources bytewise s.core.buffers d (s.sources d range)

/-- A scan of the keys from `first` on and before `last`. -/
def getRange (s : Store) (d : Disk) (first last : Option Bytes) : Scan :=
  s.scan d (.halfOpen first last)

/-- A scan of the keys that start with `start`. -/
def scanStartingWith (s : Store) (d : Disk) (start : Bytes) : Scan :=
  s.scan d (.startingWith start)

/-- The live entries of a range. -/
def entries (s : Store) (d : Disk) (range : KeyRange) : List Item :=
  (s.pull d).toList (s.scan d range)

/-- The newest entry that a buffer has for a key. -/
def buffered? (s : Store) (key : Bytes) : Option Entry :=
  s.core.active.get? key <|> s.core.flushingBuffer?.bind (·.get? key)

/-- The live entry of a key. The runs are asked for the first entry from the key on. -/
def get (s : Store) (d : Disk) (key : Bytes) : Except StoreError (Option Entry) :=
  match s.buffered? key with
  | some entry => .ok entry.live?
  | none =>
    let c := s.core
    if c.generation.runs.isEmpty then .ok none
    else
      let sources := c.generation.runSources d (.atLeast key)
      let scan := Scan.ofSources bytewise c.buffers d sources
      match ((Scan.pull bytewise c.buffers d).next scan).1 with
      | none => .ok none
      | some (.error e) => .error e
      | some (.ok entry) => .ok (if entry.key = key then entry.live? else none)

/-- What can be told of a store at one moment. -/
structure Metrics where
  activeBytes : Nat
  activeEntries : Nat
  flushingBytes : Option Nat
  runIds : List Nat
  runEntries : Nat
  flushInFlight : Bool
  compactionPending : Bool
deriving DecidableEq, Repr

/-- The number of runs. -/
def Metrics.runCount (m : Metrics) : Nat := m.runIds.length

/-- What can be told of the store now. -/
def metrics (s : Store) : Metrics :=
  let c := s.core
  { activeBytes := c.active.bytes
    activeEntries := c.active.length
    flushingBytes := c.flushingBuffer?.map Buffer.bytes
    runIds := c.generation.runs.map Run.id
    runEntries := c.generation.runs.foldl (fun count run => count + run.file.count) 0
    flushInFlight := c.flushInFlight
    compactionPending := c.compactionPending }

/-- The number of runs. -/
def runCount (s : Store) : Nat := s.core.generation.runs.length

/-! ## Background work -/

/-- Lets the worker do one task. -/
def runNext : StateT Store (StateM Disk) Unit := fun s d =>
  let (worker, core, d) := s.worker.step Task.execute (s.core, d)
  (((), { s with core, worker }), d)

/-- Lets the worker do all tasks that wait. -/
def runAll : StateT Store (StateM Disk) Unit := fun s d =>
  let (worker, core, d) := s.worker.drain Task.execute (s.core, d)
  (((), { s with core, worker }), d)

/-- Hands a task to the worker. -/
def submit (task : Task) : StoreM Ticket := fun s d =>
  let (outcome, worker) := s.worker.submit task.name task
  ((outcome, { s with worker }), d)

/-- An outcome as a program. -/
def ofExcept {α : Type} (x : Except StoreError α) : StoreM α := fun s d => ((x, s), d)

/-- The outcome of a program, which itself does not fail. -/
def attempt {α : Type} (x : StoreM α) : StoreM (Except StoreError α) := fun s d =>
  let ((r, s), d) := x s d
  ((.ok r, s), d)

/-- Waits for a task and gives its result. -/
def await (ticket : Ticket) : StoreM Unit := do
  runAll
  ofExcept ((← getThe Store).worker.result ticket)

/-- Waits until all that was handed to the worker is done. -/
def waitForBackground : StoreM Unit := do await (← submit .barrier)

/-- The oldest failure of the worker that was not reported. -/
def takeFailure : StateT Store (StateM Disk) (Option Failure) := fun s d =>
  let (failure, worker) := s.worker.takeFailure
  ((failure, { s with worker }), d)

/-- Reports the oldest failure of the worker that was not reported, as an error. -/
def status : StoreM Unit := do
  if let some failure ← takeFailure then throw failure.toError

/-- Refuses a store that was closed. -/
def ensureOpen : StoreM Unit := do
  if (← getThe Store).closed then throw .closed

/-- Changes the layers. -/
def modifyCore (change : Core → Core) : StoreM Unit := modify fun s =>
  { s with core := change s.core }

/-- Seals the active buffer and hands its flush to the worker. The caller holds the flag of a
flush under way; it is cleared again if there was nothing to seal. -/
def triggerFlush : StoreM (Option Ticket) := do
  match (← getThe Store).core.sealActive with
  | .ok (some buffer, core) =>
    modifyCore fun _ => core
    some <$> submit (.flush buffer)
  | .ok (none, _) =>
    modifyCore Core.clearFlush
    return none
  | .error e =>
    modifyCore Core.clearFlush
    throw e

/-- Starts a flush, unless there is nothing to flush or a flush is under way. -/
def startFlush : StoreM (Option Ticket) := do
  let c := (← getThe Store).core
  if c.active.isEmpty || c.flushing.isSome then return none
  let (mine, c) := c.markFlush
  modifyCore fun _ => c
  if mine then triggerFlush else return none

/-- Starts a flush, unless there is nothing to flush or a flush is under way. -/
def scheduleFlush : StoreM (Option Ticket) := do
  ensureOpen
  startFlush

/-- Queues a compaction, unless it would change nothing or one is queued. -/
def scheduleCompaction : StoreM (Option Ticket) := do
  ensureOpen
  let c := (← getThe Store).core
  if c.generation.runs.length ≤ 1 && c.active.isEmpty then return none
  let (mine, c') := c.markCompaction
  modifyCore fun _ => c'
  if !mine then return none
  tryCatch (some <$> submit (.compaction c.current)) fun e => do
    modifyCore Core.clearCompaction
    throw e

/-- Starts a flush if one is needed. -/
def flush : StoreM Unit := discard scheduleFlush

/-- Queues a compaction if one is needed. -/
def compact : StoreM Unit := discard scheduleCompaction

/-! ## Writing -/

/-- Writes an entry, and starts a flush if that makes one due. -/
def upsert (e : Entry) : StoreM Unit := do
  ensureOpen
  let (due, core) ← ofExcept ((← getThe Store).core.upsert e)
  modifyCore fun _ => core
  if due then
    discard triggerFlush

/-- Gives a key a value. -/
def set (key value : Bytes) : StoreM Unit := upsert (.put key value)

/-- Deletes a key. -/
def delete (key : Bytes) : StoreM Unit := upsert (.tombstone key)

/-! ## Closing -/

/-- Sees the worker off after all that waits is done. -/
def shutdown : StoreM Unit := fun s d =>
  let (outcome, worker, core, d) := s.worker.shutdown Task.execute (s.core, d)
  ((outcome, { s with core, worker }), d)

/-- Gives the folder's lock back. -/
def unlock : StateT Store (StateM Disk) Unit := fun s d =>
  match s.lock with
  | none => (((), s), d)
  | some lock =>
    let (_, d) := lock.release d
    (((), { s with lock := none }), d)

/-- Closes the store: what is under way is finished, the active buffer is flushed, and the folder
is given back whatever happened. Of several failures the first is reported. Closing a closed
store does nothing. -/
def close : StoreM Unit := do
  if (← getThe Store).closed then return ()
  modify fun s => { s with closed := true }
  let drained ← attempt waitForBackground
  let flushed ← attempt startFlush
  let stopped ← attempt shutdown
  let failure ← takeFailure
  unlock
  ofExcept drained
  discard <| ofExcept flushed
  ofExcept stopped
  if let some failure := failure then throw failure.toError

end Store

end LayeredStore
