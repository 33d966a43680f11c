import LayeredStore.Entry
import LayeredStore.KeyRange

/-!
# The index of a run

A run is a sequence of data blocks. Its index holds the first key, the position and the size of
each block, in key order. `Index.select` finds the blocks that a range can touch; `Index.encode`
and `Index.decode` are the stored form:

```text
entry = keyLength:2 key-bytes offset:8 size:8
```
-/

namespace LayeredStore

/-- Where a block is and with which key it begins. -/
structure BlockRef where
  firstKey : Bytes
  offset : Nat
  size : Nat
deriving DecidableEq, Repr

/-- The blocks of a run in key order. -/
abbrev Index := List BlockRef

namespace Index

/-- The place of the last block that begins at or before `key`, if it is one of the `size` blocks
from the place `first` on, and else `first`. It is found by halving, so the blocks have to be in
order; of blocks with one first key the last is found. -/
def placeWithin (index : Index) (key : Bytes) (first size : Nat) : Nat :=
  if size ≤ 1 then first
  else
    let middle := first + size / 2
    if index[middle]?.any fun block => bytewise block.firstKey key != .gt then
      placeWithin index key middle (size - size / 2)
    else placeWithin index key first (size - size / 2)
termination_by size

/-- The place of the last block that begins at or before `key`, or the first place. -/
def place (index : Index) (key : Bytes) : Nat := index.placeWithin key 0 index.length

/-- How many blocks there are up to the one at which `key` is placed. That block counts if
`included` holds of the order of its first key and `key`. -/
def upTo (index : Index) (key : Bytes) (included : Ordering → Bool) : Nat :=
  let place := index.place key
  if index[place]?.any fun block => included (bytewise block.firstKey key) then place + 1
  else place

/-- The blocks that can hold a key of the range. The first of them is the last block that begins
at or before the lower bound, since that block may reach beyond it. -/
def select (index : Index) (range : KeyRange) : List BlockRef :=
  let first := match range.lower with
    | .unbounded => 0
    | .included key | .excluded key => index.place key
  let last := match range.upper with
    | .unbounded => index.length
    | .included key => index.upTo key (· != .gt)
    | .excluded key => index.upTo key (· == .lt)
  (index.take last).drop first

/-- The stored form of one index entry. -/
def encodeRef (block : BlockRef) : Bytes :=
  Bytes.ofNat 2 block.firstKey.length ++ block.firstKey ++
    Bytes.ofNat 8 block.offset ++ Bytes.ofNat 8 block.size

/-- The stored form of an index. -/
def encode (index : Index) : Bytes := index.flatMap encodeRef

/-- The next `n` bytes of an index, which are its `subject`. -/
def readField (subject : String) (n : Nat) (b : Bytes) : Except StoreError (Bytes × Bytes) :=
  match Bytes.split? n b with
  | none => .error (.read s!"{subject} in index block" .unexpectedEnd)
  | some parts => .ok parts

theorem length_of_readField {subject : String} {n : Nat} {b field rest : Bytes}
    (h : readField subject n b = .ok (field, rest)) : rest.length + n = b.length := by
  simp only [readField] at h
  split at h
  · simp at h
  · next hsplit =>
    simp only [Except.ok.injEq] at h
    exact Bytes.length_of_split? (h ▸ hsplit)

/-- The index entry at the front of some bytes, and what follows it. -/
def decodeRef (b : Bytes) : Except StoreError (BlockRef × Bytes) :=
  match readField "key length" 2 b with
  | .error e => .error e
  | .ok (keyLength, b) =>
    match readField "key" (Bytes.toNat keyLength) b with
    | .error e => .error e
    | .ok (key, b) =>
      match readField "block offset" 8 b with
      | .error e => .error e
      | .ok (offset, b) =>
        match readField "block size" 8 b with
        | .error e => .error e
        | .ok (size, b) => .ok (⟨key, Bytes.toNat offset, Bytes.toNat size⟩, b)

theorem length_lt_of_decodeRef {b rest : Bytes} {block : BlockRef}
    (h : decodeRef b = .ok (block, rest)) : rest.length < b.length := by
  simp only [decodeRef] at h
  split at h
  · simp at h
  · next h₁ =>
    have h₁ := length_of_readField h₁
    split at h
    · simp at h
    · next h₂ =>
      have h₂ := length_of_readField h₂
      split at h
      · simp at h
      · next h₃ =>
        have h₃ := length_of_readField h₃
        split at h
        · simp at h
        · next h₄ =>
          have h₄ := length_of_readField h₄
          simp only [Except.ok.injEq, Prod.mk.injEq] at h
          obtain ⟨_, rfl⟩ := h
          omega

/-- Reads a stored index to its end. -/
def decode (b : Bytes) : Except StoreError Index :=
  if b.isEmpty then .ok []
  else
    match h : decodeRef b with
    | .error e => .error e
    | .ok (block, rest) =>
      have : rest.length < b.length := length_lt_of_decodeRef h
      (decode rest).map (block :: ·)
termination_by b.length

end Index

end LayeredStore
