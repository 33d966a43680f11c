import LayeredStore.Generation

/-!
# Recovery

A process that stops in the middle of a flush or of a compaction leaves a file behind that is no
run. `recover` brings the folder back to runs alone. An unfinished run is removed; nothing relies
on it. The output of a compaction is put to use if it is complete: it holds the merge of every
run up to its own number, so those runs are removed and it takes its place among the rest. An
incomplete one is removed, and the runs stay.
-/

namespace LayeredStore

namespace Recovery

/-- The numbers of the run files of one kind, in the order of their names. -/
def idsOf (kind : RunKind) (names : List RunName) : List Nat :=
  names.filterMap fun name => if name.kind = kind then some name.id else none

/-- Removes a run that a complete merge has taken the place of, if its file is there. -/
def removeSuperseded (dir : Path) (id : Nat) : DiskM StoreError Unit := do
  let path := (RunName.mk .finished id).path dir
  if ← Disk.isThere path then
    (Disk.remove path).plainly

/-- Deals with the outputs of compactions, oldest first, `runs` being the runs there are. -/
def settle (dir : Path) (runs : List Nat) : (merged : List Nat) → DiskM StoreError Unit
  | [] => return ()
  | id :: rest => do
    let path := (RunName.mk .merged id).path dir
    let complete ← tryCatch (do discard <| RunFile.openAt path; return true)
      fun _ => return false
    if complete then
      (runs.filter (· ≤ id)).forM (removeSuperseded dir)
      (Disk.rename path ((RunName.mk .finished id).path dir)).plainly
      settle dir (runs.filter (id < ·) ++ [id]) rest
    else
      (Disk.remove path).plainly
      settle dir runs rest

end Recovery

/-- Brings a folder back to runs alone. -/
def recover (dir : Path) : DiskM StoreError Unit := do
  let names := (← (Disk.list dir).plainly).filterMap RunName.parse
  (Recovery.idsOf .unfinished names).forM fun id =>
    (Disk.remove ((RunName.mk .unfinished id).path dir)).plainly
  Recovery.settle dir (Recovery.idsOf .finished names)
    (sortBy Nat.ble (Recovery.idsOf .merged names))

/-- Makes the folder if need be, brings it back to runs alone, and opens them. -/
def Generation.openIn (config : Config) : DiskM StoreError Generation := do
  (Disk.makeFolders config.dir).plainly
  recover config.dir
  Generation.load config

end LayeredStore
