import LayeredStore.Block
import LayeredStore.Checksum
import LayeredStore.Feed
import LayeredStore.Index
import LayeredStore.Pieces

/-!
# Writing runs

A run file holds ascending entries in data blocks, then the index of the blocks, then a footer of
fixed length:

```text
block* index footer
footer = indexOffset:8 entryCount:8 indexChecksum:4 magic:4
```

A `RunWriter` takes the entries one by one; `writeRunFrom` writes a whole stream, and leaves no
file behind if that fails. What a writer emits is gathered and reaches the file in larger pieces.
-/

namespace LayeredStore

/-- The length of the footer of a run. -/
def footerLength : Nat := 24

/-- The number that ends every run. -/
def runMagic : Nat := 0x53545254

/-- A run file being written. -/
structure RunWriter where
  path : Path
  handle : Disk.Handle
  /-- What was emitted and has not reached the file. -/
  pending : Pieces := .empty
  /-- The blocks emitted so far, last one first. -/
  closed : List BlockRef := []
  /-- The block that is being filled. -/
  block : Block.Builder := {}
  /-- The key with which that block begins. -/
  firstKey : Option Bytes := none
  /-- The key of the last entry taken. -/
  lastKey : Option Bytes := none
  /-- The length of what was emitted. -/
  offset : Nat := 0
  /-- A block that has reached this size is closed. -/
  blockSize : Nat
  /-- The number of entries taken. -/
  count : Nat := 0

namespace RunWriter

/-- How many bytes are gathered before they go to the file. -/
def gatherLimit : Nat := 8192

/-- A writer for the file at a path, which is made or emptied. -/
def create (path : Path) (blockSize : Nat) : DiskM StoreError RunWriter := do
  let handle ← (Disk.create path).writing "run file"
  return { path, handle, blockSize := max blockSize 1 }

/-- Sends what was gathered to the file. -/
def flush (w : RunWriter) : DiskM IoFailure RunWriter := do
  if w.pending.isEmpty then return w
  else
    let handle ← Disk.write w.handle w.pending.bytes
    return { w with handle, pending := .empty }

/-- Emits some bytes. They are gathered if there is room for them, and go straight to the file if
there could never be. -/
def emit (w : RunWriter) (b : Bytes) : DiskM IoFailure RunWriter := do
  let w ← if gatherLimit < w.pending.length + b.length then w.flush else pure w
  if gatherLimit ≤ b.length then
    let handle ← Disk.write w.handle b
    return { w with handle }
  else
    return { w with pending := w.pending.push b }

/-- Emits the block that is being filled, if it has entries, and starts another. -/
def closeBlock (w : RunWriter) : DiskM StoreError RunWriter := do
  if w.block.isEmpty then return w
  else
    let data := w.block.finish
    let w ← (w.emit data).writing "data block"
    return { w with
      closed := ⟨w.firstKey.getD [], w.offset, data.length⟩ :: w.closed
      offset := w.offset + data.length
      block := {}
      firstKey := none }

/-- The writer with one more entry in its block. The entry is refused if its key does not follow
the last one, or if no run can hold it. -/
def accept (w : RunWriter) (e : Entry) : Except StoreError RunWriter :=
  if w.lastKey.any fun last => bytewise e.key last != .gt then
    .error (.keysOutOfOrder w.path.text)
  else
    (w.block.add e).map fun block =>
      { w with
        block
        firstKey := some (w.firstKey.getD e.key)
        lastKey := some e.key
        count := w.count + 1 }

/-- Takes an entry, and closes the block if that fills it. -/
def add (w : RunWriter) (e : Entry) : DiskM StoreError RunWriter := do
  let w ← liftExcept (w.accept e)
  if w.blockSize ≤ w.block.size then w.closeBlock else return w
where
  liftExcept {α : Type} (x : Except StoreError α) : DiskM StoreError α := fun d => (x, d)

/-- The footer of a run whose blocks take `offset` bytes. -/
def footer (offset count : Nat) (index : Bytes) : Bytes :=
  Bytes.ofNat 8 offset ++ Bytes.ofNat 8 count ++ Bytes.ofNat 4 (checksum index).toNat ++
    Bytes.ofNat 4 runMagic

/-- The index of the blocks emitted so far. -/
def index (w : RunWriter) : Index := w.closed.reverse

/-- Completes the file and gives the number of its entries. -/
def finish (w : RunWriter) (sync : Bool) : DiskM StoreError Nat := do
  let w ← w.closeBlock
  let index := w.index.encode
  let w ← DiskM.writing "index and footer" do
    let w ← w.emit index
    let w ← w.emit (footer w.offset w.count index)
    w.flush
  if sync then
    (Disk.syncFile w.handle).writing "run file sync"
  return w.count

/-- Gives a file up before it is complete. What was gathered still goes to it. -/
def abandon (w : RunWriter) : StateM Disk Unit := w.flush.ignoring

/-- A program that gives the file up if it fails. -/
def orAbandon {α : Type} (w : RunWriter) (x : DiskM StoreError α) : DiskM StoreError α :=
  tryCatch x fun e => do w.abandon; throw e

/-- Takes every item of a stream and completes the file. Each item is drawn when the one before it
has been taken. The first error of the stream, or of the writing, ends it and gives the file up. -/
def addAll {σ : Type} (p : Feed σ) (sync : Bool) (w : RunWriter) (s : σ) :
    DiskM StoreError Nat := fun d =>
  match _h : (p.on d).next s with
  | (none, _) => w.orAbandon (w.finish sync) d
  | (some (.error e), _) => w.orAbandon (throw e) d
  | (some (.ok entry), s') =>
    (do
      let w ← w.orAbandon (w.add entry)
      addAll p sync w s' : DiskM StoreError Nat) d
termination_by p.left s
decreasing_by exact p.left_next _h

end RunWriter

/-- Writes what a stream still gives as the run at a path and gives the number of the entries.
After a failure the file is removed, as far as that is possible. -/
def writeRunFrom {σ : Type} (path : Path) (p : Feed σ) (s : σ) (blockSize : Nat) (sync : Bool) :
    DiskM StoreError Nat :=
  tryCatch
    (do
      let w ← RunWriter.create path blockSize
      w.addAll p sync s)
    fun e => do
      (Disk.remove path).ignoring
      throw e

/-- Writes some items as the run at a path and gives the number of the entries. -/
def writeRun (path : Path) (items : List Item) (blockSize : Nat) (sync : Bool) :
    DiskM StoreError Nat :=
  writeRunFrom path .items items blockSize sync

end LayeredStore
