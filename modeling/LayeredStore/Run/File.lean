import LayeredStore.Block.Cursor
import LayeredStore.Checksum
import LayeredStore.Disk
import LayeredStore.Index
import LayeredStore.Run.Writer

/-!
# Reading runs

`RunFile.parse` checks the footer and the index of a run and makes a `RunFile` of it. The blocks
are read only when a scan comes to them: `RunFile.Cursor` goes through the blocks that the index
selects, and `RunFile.scan` cuts what they hold to a range. A block that cannot be read is
reported once and ends the scan; one for which there can be no buffer makes the scan panic. Since
the file may change while a scan is under way, each step is given the disk as it is then.
-/

namespace LayeredStore

/-- A run that was opened. It stays readable when its name is gone. -/
structure RunFile where
  path : Path
  /-- The number of the file. -/
  fileId : Nat
  index : Index
  /-- The number of entries, as the footer gives it. -/
  count : Nat
deriving DecidableEq, Repr

namespace RunFile

/-- A number as eight hexadecimal digits. -/
def hex8 (n : Nat) : String :=
  let digits := Nat.toDigits 16 n
  "0x" ++ String.ofList (List.replicate (8 - digits.length) '0' ++ digits)

/-- Checks the bytes of a run. -/
def parse (path : Path) (fileId : Nat) (content : Bytes) : Except StoreError RunFile :=
  if content.length < footerLength then
    .error (.corrupt s!"{path.text} is too short to hold a footer")
  else
    let body := content.length - footerLength
    let footer := content.drop body
    let offset := Bytes.toNat (footer.take 8)
    let count := Bytes.toNat ((footer.drop 8).take 8)
    let sum := Bytes.toNat ((footer.drop 16).take 4)
    let magic := Bytes.toNat (footer.drop 20)
    if magic ≠ runMagic then
      .error (.corrupt s!"{path.text} has a bad magic number {hex8 magic}")
    else if body < offset then
      .error (.corrupt s!"{path.text} index offset {offset} is past the end of the file")
    else
      let stored := (content.drop offset).take (body - offset)
      if (checksum stored).toNat ≠ sum then .error .checksumMismatch
      else (Index.decode stored).map fun index =>
        { path, fileId, index, count }

/-- Opens the run at a path. -/
def openAt (path : Path) : DiskM StoreError RunFile := do
  match ← (Disk.openRead path).reading "run file" with
  | .folder => throw (.read "footer" (.system .isFolder))
  | .file id => fun d => (parse path id (d.file id).content, d)

/-- A scan of some blocks of a run. -/
structure Cursor where
  fileId : Nat
  /-- The blocks that were not read yet. -/
  remaining : List BlockRef
  /-- The block that is being read. -/
  current : Option Block.Cursor
deriving DecidableEq, Repr

namespace Cursor

/-- Reads a block. -/
def load (d : Disk) (fileId : Nat) (block : BlockRef) : Except StoreError Block.Cursor :=
  match d.readAt fileId block.offset block.size with
  | .error failure => .error (failure.toError "data block")
  | .ok stored => (Block.parse stored).map Block.Cursor.start

/-- A block that was read has no more bytes to decode than the index says. -/
theorem length_of_load {d : Disk} {fileId : Nat} {block : BlockRef} {c : Block.Cursor}
    (h : load d fileId block = .ok c) : c.unread.length ≤ block.size := by
  simp only [load] at h
  split at h
  · simp at h
  · next stored hread =>
    have hsize := Disk.length_of_readAt hread
    cases hparse : Block.parse stored with
    | error e => simp [hparse, Except.map] at h
    | ok b =>
      simp only [hparse, Except.map, Except.ok.injEq] at h
      have hdata : b.data.length ≤ stored.length := by
        simp only [Block.parse] at hparse
        split at hparse
        · simp at hparse
        · split at hparse
          · simp at hparse
          · simp only [Except.ok.injEq] at hparse
            simp only [← hparse, List.length_take]
            omega
      simp only [← h, Block.Cursor.start, List.length_drop]
      omega

/-- The next entry of the block that is being read, or of the first block after it that has one. -/
def next (d : Disk) (c : Cursor) : Option Item × Cursor :=
  match c.current.map Block.Cursor.next with
  | some (some item, current) => (some item, { c with current := some current })
  | _ =>
    match _h : c.remaining with
    | [] => (none, { c with current := none })
    | block :: remaining =>
      match load d c.fileId block with
      | .error e => (some (.error e), { c with remaining := [], current := none })
      | .ok current => next d { c with remaining, current := some current }
termination_by c.remaining.length
decreasing_by simp [_h]

/-- No scan gives more items than this. -/
def left (c : Cursor) : Nat :=
  (c.current.map fun current => current.unread.length).getD 0 +
    c.remaining.foldr (fun block count => block.size + 1 + count) 0

theorem left_next {d : Disk} {c : Cursor} {item : Item} {c' : Cursor}
    (h : c.next d = (some item, c')) : c'.left < c.left := by
  fun_induction next d c with
  | case1 c found current hcurrent =>
    obtain ⟨old, hold, hnext⟩ := Option.map_eq_some_iff.mp hcurrent
    have := Block.Cursor.left_next hnext
    simp only [Prod.mk.injEq] at h
    obtain ⟨_, rfl⟩ := h
    simp only [left, hold, Option.map_some, Option.getD_some]
    omega
  | case2 => simp at h
  | case3 c block remaining hremaining =>
    simp only [Prod.mk.injEq] at h
    obtain ⟨_, rfl⟩ := h
    simp only [left, hremaining, List.foldr_nil, Option.map_none, Option.getD_none,
      List.foldr_cons]
    omega
  | case4 c block remaining hremaining current hload _ ih =>
    have := ih h
    have := length_of_load hload
    simp only [left, hremaining, Option.map_some, Option.getD_some, List.foldr_cons] at *
    omega

/-- The stream of a cursor, the disk being as given. -/
def pull (d : Disk) : Pull Cursor where
  next := next d
  left := left
  left_next := left_next

/-- Moves to the first entry of the first block whose key is not before `key`. -/
def seek (d : Disk) (c : Cursor) (key : Bytes) : Except StoreError Cursor :=
  match c.remaining with
  | [] => .ok c
  | block :: remaining =>
    match load d c.fileId block with
    | .error e => .error e
    | .ok current =>
      match current.seek key with
      | (.error e, _) => .error e
      | (.ok (), current) => .ok { c with remaining, current := some current }

end Cursor

/-- A scan of the entries in a range, tombstones included. -/
def scan (d : Disk) (run : RunFile) (range : KeyRange) : Except StoreError (Within Cursor) :=
  let cursor : Cursor := ⟨run.fileId, run.index.select range, none⟩
  let sought : Except StoreError Cursor := match range.lower with
    | .unbounded => .ok cursor
    | .included key | .excluded key => cursor.seek d key
  sought.map fun inner => { range, inner }

/-- The stream of a scan, the disk being as given. -/
def pull (d : Disk) : Pull (Within Cursor) := Pull.within bytewise (Cursor.pull d)

/-- All that a scan gives; a scan that cannot start gives its error alone. -/
def toList (d : Disk) (run : RunFile) (range : KeyRange) : List Item :=
  match run.scan d range with
  | .error e => [.error e]
  | .ok scan => (pull d).toList scan

end RunFile

end LayeredStore
