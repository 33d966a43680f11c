import LayeredStore.Disk.Path

/-!
# Configuration

The settings of a store and their defaults.
-/

namespace LayeredStore

/-- The settings of a store. -/
structure Config where
  /-- The folder that holds the store's files. -/
  dir : Path
  /-- The size in bytes past which the active buffer is sealed and flushed. -/
  flushThreshold : Nat
  /-- The size in bytes at which a data block of a run is closed; never zero. -/
  blockSize : Nat
  /-- Whether files and folders are forced to the device before they are relied on. -/
  syncWrites : Bool
  /-- The name of the background worker. -/
  workerName : String
deriving DecidableEq, Repr

namespace Config

/-- The default settings for a store in `dir`. -/
def new (dir : Path) : Config where
  dir := dir
  flushThreshold := 64 * 1024 * 1024
  blockSize := 4096
  syncWrites := true
  workerName := "strata-worker"

/-- The settings of a store for which nothing was chosen. -/
def standard : Config := new (Path.ofString "./strata")

/-- The settings with another block size. A block holds at least one byte. -/
def withBlockSize (c : Config) (size : Nat) : Config := { c with blockSize := max size 1 }

end Config

end LayeredStore
