import LayeredStore.Bytes
import LayeredStore.Disk.Path
import LayeredStore.Error
import LayeredStore.SortBy

/-!
# The disk

The store works on a tree of files and folders. A `Disk` is such a tree as a value, and the
functions of this module are the file operations: each takes effect as a whole or fails with an
`IoFailure` and leaves the tree alone. A write that fails may leave a part of its bytes behind.

The tree knows its files and folders by their *places*, the plain names from the outermost folder
on. An operation is given a path as someone wrote it, and finds the place to which it leads
(`Disk.locate`), or for what is still to be made the `Slot` in which it ends (`Disk.slot`).

A file has a number of its own. It keeps the number when it is renamed, and who has the file open
refers to it by number: what is written to it under one name is read under another, and it can be
read on (`Disk.readAt`) and written to after its last name is gone.

A disk carries a plan of faults, one answer for each operation to come, so that what a program
does when its operations fail, or stop taking effect, can be stated of the program itself. On
`Disk.empty` no operation fails but for a reason that lies in the tree.
-/

namespace LayeredStore

/-- A file. -/
structure File where
  /-- The bytes of the file. -/
  data : Array UInt8 := #[]
  /-- The lock held on the file, if any. -/
  holder : Option Nat := none
deriving DecidableEq, Repr

namespace File

/-- The bytes of a file. -/
def content (f : File) : Bytes := f.data.toList

/-- Some bytes with `b` written over them from a position on; a gap is filled with zeros. -/
def overwritten (content : Bytes) (position : Nat) (b : Bytes) : Bytes :=
  content.take position ++ List.replicate (position - content.length) 0 ++ b ++
    content.drop (position + b.length)

/-- The file with some bytes written to it from a position on. -/
def overwrite (f : File) (position : Nat) (b : Bytes) : File :=
  { f with data :=
      if position = f.data.size then f.data ++ b
      else (overwritten f.content position b).toArray }

@[simp] theorem content_overwrite (f : File) (position : Nat) (b : Bytes) :
    (f.overwrite position b).content = overwritten f.content position b := by
  simp only [overwrite, content]
  split
  · next h =>
    rw [Array.toList_appendList, overwritten, List.take_of_length_le (by simp [h]),
      List.drop_of_length_le (by simp [h])]
    simp [h]
  · simp

/-- The file with another length: it is cut, or filled up with zeros. -/
def resize (f : File) (length : Nat) : File :=
  { f with data :=
      (f.content.take length ++ List.replicate (length - f.content.length) 0).toArray }

end File

/-- What is at a place. -/
inductive Node where
  /-- The file of a number. -/
  | file (id : Nat)
  | folder
deriving DecidableEq, Repr

/-- How an operation fails that the tree alone would let succeed. -/
structure Fault where
  error : SystemError
  /-- How many bytes of a failed write reach the file. -/
  kept : Nat := 0
deriving DecidableEq, Repr

/-- A tree of files and folders. -/
structure Disk where
  /-- The files and folders by their places. The outermost folder is always there. -/
  nodes : List (Path × Node)
  /-- Every file that was made, by its number. A file stays here when its last name is gone. -/
  files : Array File
  /-- The number of operations done so far. -/
  clock : Nat
  /-- The fault that strikes the operation of each number, if one does. -/
  faults : Nat → Option Fault

/-- A program over a disk, which fails with errors of type `ε`. -/
abbrev DiskM (ε : Type) := ExceptT ε (StateM Disk)

namespace Disk

/-- No file has bytes at this position or after it. -/
def positionLimit : Nat := UInt64.size / 2

/-- No buffer in memory has so many bytes. -/
def bufferLimit : Nat := UInt64.size / 2

/-- The disk that has nothing on it and no fault. -/
def empty : Disk := ⟨[], #[], 0, fun _ => none⟩

/-! ## The tree -/

/-- What is at a place. -/
def node? (d : Disk) (place : Path) : Option Node :=
  if place.isEmpty then some .folder else d.nodes.lookup place

/-- The tree without what is at a place. -/
def erase (d : Disk) (place : Path) : Disk :=
  { d with nodes := d.nodes.filter fun entry => entry.1 != place }

/-- The tree with `node` at a place. -/
def put (d : Disk) (place : Path) (node : Node) : Disk :=
  { d with nodes := (d.erase place).nodes ++ [(place, node)] }

/-- The file of a number. -/
def file (d : Disk) (id : Nat) : File := d.files.getD id {}

/-- The tree with one file changed. -/
def alter (d : Disk) (id : Nat) (change : File → File) : Disk :=
  { d with files := d.files.modify id change }

@[simp] theorem file_alter_of_ne (d : Disk) {id other : Nat} (change : File → File)
    (h : other ≠ id) : (d.alter id change).file other = d.file other := by
  simp [file, alter, Array.getElem?_modify, Ne.symm h]

/-- The `size` bytes at `offset` of a file. The buffer for them is made before the file is asked. -/
def readAt (d : Disk) (id offset size : Nat) : Except ReadFailure Bytes :=
  if bufferLimit ≤ size then .error .tooLarge
  else if size = 0 then .ok []
  else if positionLimit ≤ offset + size then .error (.io (.system .invalid))
  else
    let b := (d.file id).data.extract offset (offset + size)
    if b.size = size then .ok b.toList else .error (.io .unexpectedEnd)

theorem length_of_readAt {d : Disk} {id offset size : Nat} {b : Bytes}
    (h : d.readAt id offset size = .ok b) : b.length = size := by
  simp only [readAt] at h
  split at h
  · simp at h
  split at h
  · next hsize =>
    simp only [Except.ok.injEq] at h
    simp [← h, hsize]
  split at h
  · simp at h
  split at h
  · next hlength =>
    simp only [Except.ok.injEq] at h
    rw [← h, Array.length_toList, hlength]
  · simp at h

/-- Whether there can be a buffer is decided by the size alone. -/
theorem readAt_eq_tooLarge_iff {d : Disk} {id offset size : Nat} :
    d.readAt id offset size = .error .tooLarge ↔ bufferLimit ≤ size := by
  constructor
  · intro h
    refine Nat.le_of_not_lt fun hsize => ?_
    simp only [readAt, if_neg (Nat.not_le.mpr hsize)] at h
    split at h
    · cases h
    split at h
    · cases h
    split at h <;> cases h
  · exact fun hsize => if_pos hsize

/-- The names in the folder at a place, in order. -/
def names (d : Disk) (place : Path) : List String :=
  sortBy (fun a b => decide (a ≤ b))
    (d.nodes.filterMap fun (q, _) => if q.dropLast = place then q.getLast? else none)

/-! ## From paths to places -/

/-- The place to which names lead from another place, and what is there. Every name needs a folder
to start from. -/
def follow (d : Disk) (here : Path) : List String → Except IoFailure (Path × Node)
  | [] =>
    match d.node? here with
    | none => .error (.system .noEntry)
    | some node => .ok (here, node)
  | name :: rest =>
    match d.node? here with
    | none => .error (.system .noEntry)
    | some (.file _) => .error (.system .notFolder)
    | some .folder =>
      if Path.staysPut name then d.follow here rest
      else if name = Path.outward then d.follow here.dropLast rest
      else if Path.nameLimit < name.utf8ByteSize then .error (.system .nameTooLong)
      else d.follow (here ++ [name]) rest

/-- The place to which a path leads, and what is there. -/
def locate (d : Disk) (p : Path) : Except IoFailure (Path × Node) := do
  p.check
  d.follow [] p

/-- The bytes of the file to which a path leads. -/
def content? (d : Disk) (p : Path) : Option Bytes :=
  match d.locate p with
  | .ok (_, .file id) => some (d.file id).content
  | _ => none

/-- A name in a folder, whether or not there is anything of that name. -/
structure Slot where
  folder : Path
  name : String
  /-- Whether the name was written with a slash behind it, which suits a folder only. -/
  slashed : Bool
deriving DecidableEq, Repr

/-- The place of what is in a slot. -/
def Slot.place (slot : Slot) : Path := slot.folder ++ [slot.name]

/-- The slot in which a path ends. The folder of the slot must be there. A path that ends in no
name, but in a point or in nothing, is refused with the error `nameless`. -/
def slot (d : Disk) (p : Path) (nameless : SystemError) : Except IoFailure Slot := do
  p.check
  let names := p.withoutSlashes
  let (folder, node) ← d.follow [] names.dropLast
  if node ≠ .folder then throw (.system .notFolder)
  match names.getLast? with
  | none => throw (.system nameless)
  | some name =>
    if Path.staysPut name || name == Path.outward then throw (.system nameless)
    return { folder, name, slashed := names.length < p.length }

/-- What is in a slot. -/
def inSlot (d : Disk) (slot : Slot) : Except IoFailure (Option Node) :=
  if Path.nameLimit < slot.name.utf8ByteSize then .error (.system .nameTooLong)
  else .ok (d.node? slot.place)

/-! ## Operations -/

/-- Counts an operation and gives the fault that strikes it. -/
def tick : StateM Disk (Option Fault) := fun d =>
  (d.faults d.clock, { d with clock := d.clock + 1 })

/-- An operation that changes the tree as a whole, or not at all. -/
def operate {α : Type} (act : Disk → Except IoFailure (α × Disk)) : DiskM IoFailure α := do
  match ← tick with
  | some fault => throw (.system fault.error)
  | none =>
    match act (← get) with
    | .error e => throw e
    | .ok (a, d) => set d; return a

/-- Whether a path leads to anything that `wanted` holds of. A question that fails is answered
with no. -/
def leadsTo (wanted : Node → Bool) (p : Path) : StateM Disk Bool := do
  match ← tick with
  | some _ => return false
  | none =>
    let d ← get
    return (d.locate p).toOption.any fun found => wanted found.2

/-- Whether a path leads to a file or a folder. -/
def isThere (p : Path) : StateM Disk Bool := leadsTo (fun _ => true) p

/-- Whether a path leads to a folder. -/
def isFolder (p : Path) : StateM Disk Bool := leadsTo (· == .folder) p

/-- Makes the folder at a path. -/
def makeFolder (p : Path) : DiskM IoFailure Unit := operate fun d => do
  let slot ← d.slot p .alreadyExists
  match ← d.inSlot slot with
  | some _ => throw (.system .alreadyExists)
  | none => return ((), d.put slot.place .folder)

/-- Makes the folder at a path, unless it is there. -/
def ensureFolder (p : Path) : DiskM IoFailure Unit :=
  tryCatch (makeFolder p) fun e => do
    if ← isFolder p then return () else throw e

/-- Makes the folder at a path, `outer` being the paths of those in which it lies. They are made
only if it turns out that one of them is missing. -/
def ensureWithin (p : Path) : (outer : List Path) → DiskM IoFailure Unit
  | [] => ensureFolder p
  | next :: outer =>
    tryCatch (makeFolder p) fun e => do
      if e = .system .noEntry then
        ensureWithin next outer
        ensureFolder p
      else if ← isFolder p then return ()
      else throw e

/-- Makes the folder at a path and every missing folder on the way to it. Those that were made
stay if another cannot be made. -/
def makeFolders (p : Path) : DiskM IoFailure Unit := ensureWithin p p.ancestors

/-- The names in a folder, in order. -/
def list (p : Path) : DiskM IoFailure (List String) := operate fun d => do
  match ← d.locate p with
  | (place, .folder) => return (d.names place, d)
  | (_, .file _) => throw (.system .notFolder)

/-- Opens what is at a path for reading. -/
def openRead (p : Path) : DiskM IoFailure Node := operate fun d => do
  return ((← d.locate p).2, d)

/-- A file that is open for writing, and the position at which the next byte goes. -/
structure Handle where
  file : Nat
  position : Nat
deriving DecidableEq, Repr

/-- The slot for a file that is made unless it is there, and the number of the file that is
there. -/
def fileSlot (d : Disk) (p : Path) : Except IoFailure (Slot × Option Nat) := do
  let slot ← d.slot p .isFolder
  if slot.slashed then throw (.system .isFolder)
  match ← d.inSlot slot with
  | some .folder => throw (.system .isFolder)
  | some (.file id) => return (slot, some id)
  | none => return (slot, none)

/-- The tree with a new file in a slot. -/
def putNew (d : Disk) (slot : Slot) : Handle × Disk :=
  (⟨d.files.size, 0⟩, { d.put slot.place (.file d.files.size) with files := d.files.push {} })

/-- Opens the file at a path, or a new one, with its content as it is. -/
def openOrCreate (p : Path) : DiskM IoFailure Handle := operate fun d => do
  match ← d.fileSlot p with
  | (_, some id) => return (⟨id, 0⟩, d)
  | (slot, none) => return d.putNew slot

/-- Opens the file at a path, or a new one, and empties it. -/
def create (p : Path) : DiskM IoFailure Handle := operate fun d => do
  match ← d.fileSlot p with
  | (_, some id) => return (⟨id, 0⟩, d.alter id fun f => { f with data := #[] })
  | (slot, none) => return d.putNew slot

/-- Writes some bytes to an open file. -/
def write (h : Handle) (b : Bytes) : DiskM IoFailure Handle := do
  let put (b : Bytes) (d : Disk) : Disk :=
    d.alter h.file (·.overwrite h.position b)
  match ← tick with
  | some fault =>
    modify (put (b.take fault.kept))
    throw (.system fault.error)
  | none =>
    modify (put b)
    return { h with position := h.position + b.length }

/-- Gives an open file another length. -/
def setLength (h : Handle) (length : Nat) : DiskM IoFailure Unit := operate fun d =>
  .ok ((), d.alter h.file (·.resize length))

/-- Forces an open file to the device. -/
def syncFile (_ : Handle) : DiskM IoFailure Unit := operate fun d => .ok ((), d)

/-- Forces the names in a folder to the device. -/
def syncFolder (p : Path) : DiskM IoFailure Unit := operate fun d => do
  discard <| d.locate p
  return ((), d)

/-- Removes the file at a path. -/
def remove (p : Path) : DiskM IoFailure Unit := operate fun d => do
  let slot ← d.slot p .isFolder
  match ← d.inSlot slot with
  | some (.file _) =>
    if slot.slashed then throw (.system .notFolder)
    return ((), d.erase slot.place)
  | some .folder => throw (.system .isFolder)
  | none => throw (.system .noEntry)

/-- Removes the empty folder at a path. -/
def removeFolder (p : Path) : DiskM IoFailure Unit := operate fun d => do
  let slot ← d.slot p .invalid
  match ← d.inSlot slot with
  | some (.file _) => throw (.system .notFolder)
  | some .folder =>
    if (d.names slot.place).isEmpty then return ((), d.erase slot.place)
    else throw (.system .notEmpty)
  | none => throw (.system .noEntry)

/-- Removes what is at a path with all that is in it. -/
def removeAll (p : Path) : DiskM IoFailure Unit := operate fun d => do
  let (place, _) ← d.locate p
  return ((), { d with nodes := d.nodes.filter fun (q, _) => !place.isPrefixOf q })

/-- The tree with everything at and below the place `source` at and below `target` instead. -/
def moveTree (d : Disk) (source target : Path) : Disk :=
  let move (q : Path) : Path :=
    if source.isPrefixOf q then target ++ q.drop source.length else q
  { d with nodes := d.nodes.map fun (q, node) => (move q, node) }

/-- Gives the file or folder at `source` the path `target`. A file replaces a file, and a folder
an empty folder. -/
def rename (source target : Path) : DiskM IoFailure Unit := operate fun d => do
  let source ← d.slot source .busy
  let target ← d.slot target .busy
  match ← d.inSlot source, ← d.inSlot target with
  | none, _ => throw (.system .noEntry)
  | some (.file id), inTheWay =>
    if source.slashed || target.slashed then throw (.system .notFolder)
    if inTheWay = some .folder then throw (.system .isFolder)
    if source.place = target.place then return ((), d)
    return ((), (d.erase source.place).put target.place (.file id))
  | some .folder, inTheWay =>
    if source.place = target.place then return ((), d)
    if source.place.isPrefixOf target.place then throw (.system .invalid)
    match inTheWay with
    | some (.file _) => throw (.system .notFolder)
    | some .folder => if !(d.names target.place).isEmpty then throw (.system .notEmpty)
    | none => pure ()
    return ((), (d.erase target.place).moveTree source.place target.place)

end Disk

namespace DiskM

/-- The program with its errors put into other words. -/
def mapError {ε ε' α : Type} (f : ε → ε') (x : DiskM ε α) : DiskM ε' α :=
  fun d => let (r, d) := x d; (r.mapError f, d)

/-- The program with its failure reported as a failure to write `subject`. -/
def writing {α : Type} (subject : String) (x : DiskM IoFailure α) : DiskM StoreError α :=
  x.mapError (.write subject)

/-- The program with its failure reported as a failure to read `subject`. -/
def reading {α : Type} (subject : String) (x : DiskM IoFailure α) : DiskM StoreError α :=
  x.mapError (.read subject)

/-- The program with its failure reported as it is. -/
def plainly {α : Type} (x : DiskM IoFailure α) : DiskM StoreError α := x.mapError .io

/-- The program with its outcome put aside. -/
def ignoring {ε α : Type} (x : DiskM ε α) : StateM Disk Unit := fun d => ((), (x d).2)

end DiskM

end LayeredStore
