import LayeredStore.Disk

/-!
# Locks

One store owns a folder at a time. The owner holds the lock of a file in the folder, and the file
holds the number of the owner's process. A second owner is refused while the lock is held, and
the file is then left as it is. The lock belongs to the file, not to its name: one that was
removed and made anew can be locked beside it.
-/

namespace LayeredStore

/-- A lock that is held. -/
structure Lock where
  path : Path
  /-- The number of the locked file. -/
  file : Nat
  /-- Tells this lock from every other. -/
  token : Nat
deriving DecidableEq, Repr

namespace Lock

/-- What the file of a held lock contains: the owner's process number on a line. -/
def signature (process : Nat) : Bytes := (s!"{process}\n").toUTF8.toList

/-- Marks an open file as locked, unless it is. The time of that is the token of the lock. -/
def claim (h : Disk.Handle) : DiskM IoFailure Nat := Disk.operate fun d =>
  if (d.file h.file).holder.isSome then .error (.system .wouldBlock)
  else .ok (d.clock, d.alter h.file fun f => { f with holder := some d.clock })

/-- Gives a lock back; its file stays. -/
def release (lock : Lock) : StateM Disk Unit := modify fun d =>
  d.alter lock.file fun f => if f.holder = some lock.token then { f with holder := none } else f

/-- Locks the file at a path, which is made if it is missing, and signs it. What was in the file
is dropped only once the lock is held. -/
def acquire (process : Nat) (p : Path) : DiskM IoFailure Lock := do
  let handle ← Disk.openOrCreate p
  let lock : Lock := ⟨p, handle.file, ← claim handle⟩
  try
    Disk.setLength handle 0
    discard <| Disk.write handle (signature process)
    return lock
  catch e =>
    lock.release
    throw e

end Lock

end LayeredStore
