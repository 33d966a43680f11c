import LayeredStore.Config
import LayeredStore.Run.Name
import LayeredStore.Source

/-!
# Generations of runs

A `Generation` is the set of runs that a folder held when it was loaded. It never gains or loses
a run: a flush or a compaction changes the files, and a new generation is then loaded from them.
The runs of an old generation stay readable for as long as it is in use, but once a compaction
has removed their files the generation is no longer `live`, and no compaction starts from it.

* `Generation.persist` writes a sorted stream as the next run.
* A compaction takes three steps, each of which leaves the folder in a state from which
  `recover` can go on: `Generation.writeMerged` writes the merge of all layers beside the runs,
  `Generation.retire` removes the runs, and `Generation.publish` gives the merge its final name.
-/

namespace LayeredStore

/-- A run and its number. A larger number holds newer data. -/
structure Run where
  id : Nat
  file : RunFile
deriving DecidableEq, Repr

/-- The runs of a folder at one moment. -/
structure Generation where
  dir : Path
  blockSize : Nat
  syncWrites : Bool
  /-- The runs by ascending number. -/
  runs : List Run
  /-- Whether the files of the runs still stand for them. -/
  live : Bool
deriving DecidableEq, Repr

namespace Generation

/-- Opens the runs of a folder. -/
def load (config : Config) : DiskM StoreError Generation := do
  let names ← (Disk.list config.dir).plainly
  let ids := (names.filterMap RunName.parse).filterMap fun name =>
    if name.kind = .finished then some name.id else none
  let runs ← (sortBy Nat.ble ids).mapM fun id => do
    let file ← RunFile.openAt ((RunName.mk .finished id).path config.dir)
    return { id, file : Run }
  return {
    dir := config.dir
    blockSize := config.blockSize
    syncWrites := config.syncWrites
    runs
    live := true }

/-- The number of the newest run. -/
def maxId? (g : Generation) : Option Nat := g.runs.getLast?.map Run.id

/-- The number that the next run gets. -/
def nextId (g : Generation) : Nat := (g.maxId?.map (· + 1)).getD 1

/-- Scans of a range of every run, oldest first. -/
def runSources (g : Generation) (d : Disk) (range : KeyRange) : List (Nat × Source) :=
  g.runs.map fun run => (run.id, .ofRun d run.file range)

/-- Scans of a range of the buffers and of every run. -/
def sources (g : Generation) (d : Disk) (active : Nat) (flushing : Option Nat)
    (range : KeyRange) : List (Nat × Source) :=
  (activeRank, .ofBuffer active range) ::
    ((flushing.map fun id => (flushingRank, Source.ofBuffer id range)).toList ++
      g.runSources d range)

/-- Forces the names in the folder to the device, if the settings ask for that. -/
def syncDir (g : Generation) : DiskM StoreError Unit := do
  if g.syncWrites then
    (Disk.syncFolder g.dir).writing "directory sync"

/-- Writes a sorted stream as the next run and gives the number of the run. The file gets its
name only when it is complete. -/
def persist (g : Generation) (items : List Item) : DiskM StoreError Nat := do
  let id := g.nextId
  let unfinished := (RunName.mk .unfinished id).path g.dir
  discard <| writeRun unfinished items g.blockSize g.syncWrites
  (Disk.rename unfinished ((RunName.mk .finished id).path g.dir)).writing "run rename"
  g.syncDir
  return id

/-- A scan of the buffers over the runs. -/
def scanAll (g : Generation) (buffers : Nat → Buffer) (d : Disk) (active : Nat)
    (flushing : Option Nat) : Scan :=
  .ofSources bytewise buffers d (g.sources d active flushing .all)

/-- Writes the live entries of all layers beside the runs and gives the number under which they
can be published: that of the newest run, or the first if there is none. Tombstones are left
out, since no older data is left that they could hide. Nothing is written if no entry is live. An
error in a run is passed on. -/
def writeMerged (g : Generation) (buffers : Nat → Buffer) (active : Nat)
    (flushing : Option Nat) : DiskM StoreError (Option Nat) := do
  if !g.live then throw .staleGeneration
  let id := g.maxId?.getD g.nextId
  let merged := (RunName.mk .merged id).path g.dir
  let scan := g.scanAll buffers (← get) active flushing
  let count ← writeRunFrom merged (Scan.feed bytewise buffers) scan g.blockSize g.syncWrites
  if count = 0 then
    (Disk.remove merged).plainly
    return none
  else return some id

/-- Removes the file of a run. That it is gone already is no error. -/
def removeRun (run : Run) : DiskM StoreError Unit :=
  tryCatch (Disk.remove run.file.path) (fun e => if e = .system .noEntry then return () else throw e)
    |>.writing "superseded run removal"

/-- Removes the files of a live generation, oldest run first, up to the first failure. -/
def removeRuns (g : Generation) : DiskM StoreError Unit := do
  if !g.live then throw .staleGeneration
  g.runs.forM removeRun

/-- Removes the files of a generation. It is no longer live afterwards, also when a removal
failed. -/
def retire (g : Generation) : StateM Disk (Except StoreError Unit × Generation) := do
  let outcome ← g.removeRuns.run
  return (outcome, { g with live := false })

/-- Gives a written merge the name of a run. -/
def publish (g : Generation) (id : Nat) : DiskM StoreError Unit := do
  let merged := (RunName.mk .merged id).path g.dir
  (Disk.rename merged ((RunName.mk .finished id).path g.dir)).writing "merged run rename"
  g.syncDir

end Generation

end LayeredStore
