import LayeredStore.Entry
import LayeredStore.Pieces

/-!
# Data blocks

A block stores entries one after the other. The key of an entry is stored without the start that
it shares with the key before it, except at the *restart points*, one for every sixteen entries,
where the whole key is stored. The positions of the restart points follow the entries, and their
number ends the block:

```text
record*  position:4 *  count:4
record = shared:2 unshared:2 valueLength:4 unshared-key-bytes value-bytes
```

All numbers are big-endian. A tombstone has the value length `Entry.tombstoneMark` and no value
bytes. `Block.Builder` writes blocks and `Block.parse` splits a stored block into its parts; the
records themselves are decoded one by one (`Block.decodeRecord`), each relative to the key before
it.
-/

namespace LayeredStore

/-- A block that was read: the bytes of its records, and the positions of its restart points. -/
structure Block where
  data : Bytes
  restarts : List Nat
deriving DecidableEq, Repr

namespace Block

/-- Every so many entries a key is stored whole. -/
def restartInterval : Nat := 16

/-- The length of what stands before the key bytes of a record. -/
def headerLength : Nat := 8

/-- A record whose key shares its first `shared` bytes with the key before it. -/
def encodeRecord (shared : Nat) (e : Entry) : Bytes :=
  Bytes.ofNat 2 shared ++ Bytes.ofNat 2 (e.key.length - shared) ++
    Bytes.ofNat 4 ((e.value.map List.length).getD Entry.tombstoneMark) ++
    e.key.drop shared ++ e.value.getD []

/-- A block being written. -/
structure Builder where
  /-- The records so far. -/
  data : Pieces := .empty
  /-- The positions of the restart points so far, last one first. -/
  restarts : List Nat := []
  /-- The number of entries so far. -/
  count : Nat := 0
  /-- The key of the last entry. -/
  lastKey : Bytes := []
deriving DecidableEq, Repr

namespace Builder

/-- The number of bytes that the records take. -/
def size (b : Builder) : Nat := b.data.length

/-- Whether a block has no entries. -/
def isEmpty (b : Builder) : Bool := b.count == 0

/-- The block with one more entry. An entry that cannot be stored is refused. -/
def add (b : Builder) (e : Entry) : Except StoreError Builder :=
  match e.check with
  | .error err => .error err
  | .ok () =>
    let restart := b.count % restartInterval == 0
    let shared := if restart then 0 else Bytes.sharedPrefix b.lastKey e.key
    .ok {
      data := b.data.push (encodeRecord shared e)
      restarts := if restart then b.size :: b.restarts else b.restarts
      count := b.count + 1
      lastKey := e.key }

/-- The stored form of the block. -/
def finish (b : Builder) : Bytes :=
  b.data.bytes ++ b.restarts.reverse.flatMap (Bytes.ofNat 4) ++ Bytes.ofNat 4 b.restarts.length

end Builder

/-- Four-byte numbers, one after the other; a shorter remainder is ignored. -/
def readPositions : Bytes → List Nat
  | a :: b :: c :: d :: rest => Bytes.toNat [a, b, c, d] :: readPositions rest
  | _ => []

/-- Splits a stored block into its records and its restart points. -/
def parse (stored : Bytes) : Except StoreError Block :=
  if stored.length < 4 then .error (.decode "block trailer" .tooShort)
  else
    let body := stored.length - 4
    let count := Bytes.toNat (stored.drop body)
    if body < count * 4 then .error (.decode "block restart positions" .tooShort)
    else
      let start := body - count * 4
      .ok {
        data := stored.take start
        restarts := readPositions ((stored.drop start).take (count * 4)) }

/-- The number of bytes that the records of a block take. -/
def size (b : Block) : Nat := b.data.length

/-- The numbers in front of a record. -/
structure Header where
  shared : Nat
  unshared : Nat
  valueLength : Nat
deriving DecidableEq, Repr

/-- The header at the front of some bytes, and what follows it. -/
def readHeader (b : Bytes) : Except StoreError (Header × Bytes) :=
  match Bytes.split? headerLength b with
  | none => .error (.decode "block entry header" .tooShort)
  | some (header, rest) =>
    .ok (⟨Bytes.toNat (header.take 2), Bytes.toNat ((header.drop 2).take 2),
      Bytes.toNat (header.drop 4)⟩, rest)

/-- A record does not fit into what is left of its block, or refers to more of the key before it
than there is. -/
def recordOutOfBounds : StoreError := .corrupt "Block entry out of bounds"

/-- The entry at the front of some bytes, given the key of the entry before it, and what follows
its record. -/
def decodeRecord (lastKey b : Bytes) : Except StoreError (Entry × Bytes) :=
  match readHeader b with
  | .error e => .error e
  | .ok (header, rest) =>
    if lastKey.length < header.shared then .error recordOutOfBounds
    else match Bytes.split? header.unshared rest with
      | none => .error recordOutOfBounds
      | some (suffix, rest) =>
        let key := lastKey.take header.shared ++ suffix
        if header.valueLength = Entry.tombstoneMark then .ok (.tombstone key, rest)
        else match Bytes.split? header.valueLength rest with
          | none => .error recordOutOfBounds
          | some (value, rest) => .ok (.put key value, rest)

/-- A record takes at least the bytes of its header. -/
theorem length_of_decodeRecord {lastKey b rest : Bytes} {e : Entry}
    (h : decodeRecord lastKey b = .ok (e, rest)) : rest.length + headerLength ≤ b.length := by
  simp only [decodeRecord] at h
  split at h
  · simp at h
  · next header rest₁ hheader =>
    have h₁ : rest₁.length + headerLength = b.length := by
      simp only [readHeader] at hheader
      split at hheader
      · simp at hheader
      · next hsplit =>
        simp only [Except.ok.injEq, Prod.mk.injEq] at hheader
        exact hheader.2 ▸ Bytes.length_of_split? hsplit
    split at h
    · simp at h
    · split at h
      · simp at h
      · next hsplit₂ =>
        have h₂ := Bytes.length_of_split? hsplit₂
        split at h
        · simp only [Except.ok.injEq, Prod.mk.injEq] at h
          obtain ⟨_, rfl⟩ := h
          omega
        · split at h
          · simp at h
          · next hsplit₃ =>
            have h₃ := Bytes.length_of_split? hsplit₃
            simp only [Except.ok.injEq, Prod.mk.injEq] at h
            obtain ⟨_, rfl⟩ := h
            omega

/-- The whole key stored at a restart point. -/
def restartKey (b : Block) (position : Nat) : Except StoreError Bytes :=
  match readHeader (b.data.drop position) with
  | .error e => .error e
  | .ok (header, rest) =>
    if header.shared ≠ 0 then .error (.corrupt "Restart point key has a shared prefix")
    else match Bytes.split? header.unshared rest with
      | none => .error (.corrupt "Entry out of bounds")
      | some (key, _) => .ok key

end Block

end LayeredStore
