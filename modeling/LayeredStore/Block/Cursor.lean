import LayeredStore.Block
import LayeredStore.Pull

/-!
# Reading a block

A `Block.Cursor` gives the entries of a block in their stored order. It can be moved to the first
entry at or after a key: `Block.Cursor.seek` finds the restart point to begin at by bisection and
then reads on from there. A record that cannot be decoded is reported once and ends the block.

`Block.Cursor.pull` is the stream of a cursor. Each entry takes at least eight bytes of the block
(`Block.length_of_decodeRecord`), so reading ends on any bytes whatever.
-/

namespace LayeredStore

namespace Block

/-- A place in a block. -/
structure Cursor where
  block : Block
  /-- The bytes of the records that are still to be read. -/
  unread : Bytes
  /-- The key of the entry read last, which the next record refers to. -/
  lastKey : Bytes
deriving DecidableEq, Repr

namespace Cursor

/-- The place before the first entry of a block. -/
def start (b : Block) : Cursor := ⟨b, b.data.drop (b.restarts.headD 0), []⟩

/-- The position in the block at which the next record is read. -/
def offset (c : Cursor) : Nat := c.block.size - c.unread.length

/-- The next entry. -/
def next (c : Cursor) : Option Item × Cursor :=
  if c.unread.isEmpty then (none, c)
  else
    match decodeRecord c.lastKey c.unread with
    | .error e => (some (.error e), { c with unread := [] })
    | .ok (entry, unread) => (some (.ok entry), { c with unread, lastKey := entry.key })

theorem left_next {c : Cursor} {item : Item} {c' : Cursor} (h : c.next = (some item, c')) :
    c'.unread.length < c.unread.length := by
  simp only [next] at h
  split at h
  · simp at h
  · next hne =>
    have : c.unread.length ≠ 0 := by simpa using hne
    split at h
    · simp only [Prod.mk.injEq] at h
      obtain ⟨_, rfl⟩ := h
      simp only [List.length_nil]
      omega
    · next hdecode =>
      have := length_of_decodeRecord hdecode
      simp only [Prod.mk.injEq] at h
      obtain ⟨_, rfl⟩ := h
      simp only [headerLength] at this
      simp only
      omega

/-- The stream of a cursor. -/
def pull : Pull Cursor where
  next := next
  left c := c.unread.length
  left_next := left_next

/-- Moves on to the first entry whose key is not before `target`. -/
def advance (target : Bytes) (c : Cursor) : Except StoreError Unit × Cursor :=
  match h : c.next with
  | (none, c') => (.ok (), c')
  | (some (.error e), c') => (.error e, c')
  | (some (.ok entry), c') =>
    have : c'.unread.length < c.unread.length := left_next h
    if bytewise entry.key target == .lt then advance target c' else (.ok (), c)
termination_by c.unread.length

end Cursor

/-- The first number in `[low, high)` at which `before` fails, or `high`, found by bisection. The
numbers at which `before` holds must come first. A failing question ends the search. -/
def bisect (before : Nat → Except StoreError Bool) (low high : Nat) : Except StoreError Nat :=
  if low < high then
    let middle := low + (high - low) / 2
    match before middle with
    | .error e => .error e
    | .ok true => bisect before (middle + 1) high
    | .ok false => bisect before low middle
  else .ok low
termination_by high - low

namespace Cursor

/-- Whether the key at a restart point is before `target`. -/
def restartsBefore (b : Block) (target : Bytes) (point : Nat) : Except StoreError Bool :=
  (b.restartKey (b.restarts.getD point 0)).map fun key => bytewise key target == .lt

/-- Moves to the first entry whose key is not before `target`, from wherever the cursor is: first
to the last restart point with a key before `target`, or to the first restart point, and on from
there. -/
def seek (c : Cursor) (target : Bytes) : Except StoreError Unit × Cursor :=
  if c.block.restarts.isEmpty then (.ok (), { c with unread := [] })
  else
    match bisect (restartsBefore c.block target) 0 c.block.restarts.length with
    | .error e => (.error e, c)
    | .ok found =>
      let position := c.block.restarts.getD (found - 1) 0
      advance target ⟨c.block, c.block.data.drop position, []⟩

end Cursor

end Block

end LayeredStore
