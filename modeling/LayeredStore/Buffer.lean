import LayeredStore.EntryTree
import LayeredStore.Pull

/-!
# Write buffers

A buffer keeps the newest entry of every key written to it, in key order, and counts the bytes
of all writes it took, also of those that were overwritten. Freezing ends its time of writing.

A `Buffer.Cursor` scans a buffer that may still change: it remembers only the part of its range
that lies ahead, and looks at the buffer again at each step. So a write ahead of the cursor is
seen and a write behind it is not.
-/

namespace LayeredStore

/-- A sorted table of entries in memory. -/
structure Buffer where
  /-- The newest entry of each key. -/
  tree : EntryTree
  /-- The bytes of all writes taken. -/
  bytes : Nat
  /-- Whether the buffer refuses further writes. -/
  frozen : Bool
  ascending : Ascending bytewise tree.toList

namespace Buffer

/-- A buffer to which nothing was written. -/
def empty : Buffer := ⟨.leaf, 0, false, .nil⟩

instance : Inhabited Buffer := ⟨empty⟩

/-- The newest entry of each key, in key order. -/
def entries (b : Buffer) : List Entry := b.tree.toList

/-- Whether nothing was written to a buffer. -/
def isEmpty (b : Buffer) : Bool := b.tree.isEmpty

/-- The number of keys in a buffer. -/
def length (b : Buffer) : Nat := b.tree.size

/-- Writes an entry, unless the buffer is frozen. -/
def put (b : Buffer) (e : Entry) : Except StoreError Buffer :=
  if b.frozen then .error .frozen
  else .ok {
    tree := b.tree.insert e
    bytes := b.bytes + e.size
    frozen := false
    ascending := by
      rw [EntryTree.toList_insert b.ascending]
      exact ascending_insertEntry e b.ascending }

/-- The newest entry written under a key, a tombstone included. -/
def get? (b : Buffer) (key : Bytes) : Option Entry := b.tree.get? key

theorem get?_eq_find? (b : Buffer) (key : Bytes) :
    b.get? key = b.entries.find? fun e => e.key == key :=
  EntryTree.get?_eq_find? b.ascending

/-- Ends the writing; a second time is an error. -/
def freeze (b : Buffer) : Except StoreError Buffer :=
  if b.frozen then .error .frozen else .ok { b with frozen := true }

/-- A scan of a buffer under way. -/
structure Cursor where
  /-- The part of the scanned range that lies ahead. -/
  range : KeyRange
  /-- Whether the scan has come to its end; later writes do not revive it. -/
  exhausted : Bool := false
deriving DecidableEq, Repr

/-- A scan of a range. -/
def scan (range : KeyRange) : Cursor := { range }

/-- The first entry that is not before a range. -/
def firstFrom (b : Buffer) (range : KeyRange) : Option Entry :=
  b.tree.first? fun e => !range.isBefore bytewise e.key

theorem firstFrom_eq_find? (b : Buffer) (range : KeyRange) :
    b.firstFrom range = b.entries.find? fun e => !range.isBefore bytewise e.key := by
  refine EntryTree.first?_eq_find? b.ascending fun x y hlt hx => ?_
  cases hy : range.isBefore bytewise y.key with
  | false => rfl
  | true => simp [KeyRange.isBefore_of_lt hlt hy] at hx

/-- The first entry of the range ahead, as the buffer is now. -/
def Cursor.next (b : Buffer) (c : Cursor) : Option Item × Cursor :=
  if c.exhausted || c.range.isInverted then (none, { c with exhausted := true })
  else
    match b.firstFrom c.range with
    | none => (none, { c with exhausted := true })
    | some e =>
      if c.range.isAfter bytewise e.key then (none, { c with exhausted := true })
      else (some (.ok e), { c with range := c.range.after e.key })

/-- The number of entries that a cursor has ahead of it, whether in its range or after it. -/
def Cursor.left (b : Buffer) (c : Cursor) : Nat :=
  b.entries.countP fun e => !c.range.isBefore bytewise e.key

/-- Fewer members satisfy the stronger of two conditions, if one satisfies only the weaker. -/
private theorem countP_lt_countP {α : Type} {p q : α → Bool} {l : List α} {a : α}
    (h : ∀ x ∈ l, q x = true → p x = true) (ha : a ∈ l) (hp : p a = true) (hq : q a = false) :
    l.countP q < l.countP p := by
  obtain ⟨l₁, l₂, rfl⟩ := List.append_of_mem ha
  have h₁ : l₁.countP q ≤ l₁.countP p :=
    List.countP_mono_left fun x hx => h x (by simp [hx])
  have h₂ : l₂.countP q ≤ l₂.countP p :=
    List.countP_mono_left fun x hx => h x (by simp [hx])
  simp only [List.countP_append, List.countP_cons, hp, hq]
  simp
  omega

/-- The stream of a cursor over the buffer as it is now. -/
def pull (b : Buffer) : Pull Cursor where
  next := Cursor.next b
  left := Cursor.left b
  left_next := by
    intro c item c' h
    simp only [Cursor.next] at h
    split at h
    · simp at h
    · split at h
      · simp at h
      · next e hfind =>
        rw [firstFrom_eq_find?] at hfind
        split at h
        · simp at h
        · simp only [Prod.mk.injEq] at h
          obtain ⟨_, rfl⟩ := h
          have hmem := List.mem_of_find?_eq_some hfind
          have hahead : c.range.isBefore bytewise e.key = false := by
            simpa using List.find?_some hfind
          refine countP_lt_countP (fun x _ hx => ?_) hmem (by simp [hahead])
            (by simp [KeyRange.isBefore_after_self])
          cases hb : c.range.isBefore bytewise x.key with
          | false => rfl
          | true => simp [KeyRange.isBefore_after hahead hb] at hx

/-- The entries of a range. -/
def toList (b : Buffer) (range : KeyRange) : List Item := b.pull.toList (scan range)

end Buffer

end LayeredStore
