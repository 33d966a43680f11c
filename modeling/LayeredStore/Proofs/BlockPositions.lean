import LayeredStore.Proofs.BlockRoundTrip

/-!
# Reading a block by positions

A cursor holds the bytes of its block that are still to be read. A `Block.Reader` holds a position
in the block instead. It takes slices between two positions, which are there only while the
positions are within the bytes, and looks restart points up by their number; and it gives a loop up
after a fixed number of rounds. Where a slice, a restart point or a further round is missing, the
reader has no answer at all (`none`), not even an error.

This never happens, whatever the bytes are: on any block a reader answers any calls, as the cursor
does (`Reader.run_eq`), and the bytes that are left to the cursor are those from the reader's
position on.
-/

namespace LayeredStore

/-! ## Slices -/

/-- The part of some bytes between two positions. There is none unless the positions are in order
and the second one is not beyond the end. -/
def Bytes.slice? (b : Bytes) (first last : Nat) : Option Bytes :=
  if first ≤ last ∧ last ≤ b.length then some ((b.drop first).take (last - first)) else none

namespace Bytes

variable {b : Bytes} {first last : Nat}

theorem slice?_eq (h : first ≤ last) (hlast : last ≤ b.length) :
    b.slice? first last = some ((b.drop first).take (last - first)) := if_pos ⟨h, hlast⟩

theorem slice?_of_zero (h : last ≤ b.length) : b.slice? 0 last = some (b.take last) :=
  slice?_eq (Nat.zero_le _) h

theorem slice?_of_length (h : first ≤ last) (hlast : last = b.length) :
    b.slice? first last = some (b.drop first) := by
  rw [slice?_eq h (Nat.le_of_eq hlast), List.take_of_length_le]
  simp [hlast]

theorem slice?_eq_none (h : b.length < last) : b.slice? first last = none :=
  if_neg fun hbounds => by omega

/-- A slice that is there lies within the bytes. -/
theorem of_slice?_eq_some {part : Bytes} (h : b.slice? first last = some part) :
    last ≤ b.length ∧ part.length = last - first := by
  unfold slice? at h
  split at h
  · next hbounds =>
    cases h
    refine ⟨hbounds.2, ?_⟩
    simp only [List.length_take, List.length_drop]
    omega
  · cases h

/-- Cutting bytes off behind a position is taking the slice that begins there. -/
theorem split?_drop {n : Nat} (h : first ≤ b.length ∨ 0 < n) : split? n (b.drop first) =
    (b.slice? first (first + n)).map fun front => (front, b.drop (first + n)) := by
  by_cases hlast : first + n ≤ b.length
  · rw [slice?_eq (Nat.le_add_right _ _) hlast, Nat.add_sub_cancel_left]
    simp only [split?, Option.map_some, List.length_take, List.length_drop, List.drop_drop]
    rw [if_pos (by omega)]
  · rw [slice?_eq_none (by omega), Option.map_none, split?_eq_none_iff, List.length_drop]
    omega

end Bytes

namespace Block

/-- A bisection finds nothing beyond where it looks. -/
theorem bisect_le {before : Nat → Except StoreError Bool} {low high found : Nat} (hle : low ≤ high)
    (h : bisect before low high = .ok found) : found ≤ high := by
  fun_induction bisect before low high with
  | case1 low high hlt middle e hbefore => cases h
  | case2 low high hlt middle hbefore ih => exact ih (by omega) h
  | case3 low high hlt middle hbefore ih => exact (ih (by omega) h).trans (by omega)
  | case4 low high hlt =>
    cases h
    exact hle

/-! ## The reader -/

/-- A place in a block by its position, with the key of the entry read last. -/
structure Reader where
  block : Block
  position : Nat
  lastKey : Bytes
deriving DecidableEq, Repr

namespace Reader

/-- Splits a stored block into its records and its restart points. -/
def parse (stored : Bytes) : Option (Except StoreError Block) :=
  if stored.length < 4 then some (.error (.decode "block trailer" .tooShort))
  else do
    let body := stored.length - 4
    let count := Bytes.toNat (← stored.slice? body stored.length)
    if body < count * 4 then
      return .error (.decode "block restart positions" .tooShort)
    else
      let positions ← stored.slice? (body - count * 4) body
      let data ← stored.slice? 0 (body - count * 4)
      return .ok ⟨data, readPositions positions⟩

/-- The header of the record at a position. Whether it is there is asked before it is read. -/
def headerAt (b : Block) (position : Nat) : Option (Except StoreError Header) :=
  match b.data.slice? position (position + headerLength) with
  | none => some (.error (.decode "block entry header" .tooShort))
  | some header => do
    let shared ← header.slice? 0 2
    let unshared ← header.slice? 2 4
    let valueLength ← header.slice? 4 8
    return .ok ⟨Bytes.toNat shared, Bytes.toNat unshared, Bytes.toNat valueLength⟩

/-- The whole key stored at a position. Whether it is there is asked before it is read. -/
def restartKey (b : Block) (position : Nat) : Option (Except StoreError Bytes) := do
  match ← headerAt b position with
  | .error e => return .error e
  | .ok header =>
    if header.shared ≠ 0 then return .error (.corrupt "Restart point key has a shared prefix")
    else
      let first := position + headerLength
      match b.data.slice? first (first + header.unshared) with
      | none => return .error (.corrupt "Entry out of bounds")
      | some key => return .ok key

/-- The reader before the first entry of a block. -/
def start (b : Block) : Reader := ⟨b, b.restarts.headD 0, []⟩

/-- The entry at the position of the reader, and the reader behind it. -/
def decode (r : Reader) : Option (Except StoreError (Entry × Reader)) := do
  match ← headerAt r.block r.position with
  | .error e => return .error e
  | .ok header =>
    let first := r.position + headerLength
    let middle := first + header.unshared
    let last := middle +
      if header.valueLength = Entry.tombstoneMark then 0 else header.valueLength
    if r.lastKey.length < header.shared ∨ r.block.size < last then
      return .error recordOutOfBounds
    else
      let front ← r.lastKey.slice? 0 header.shared
      let back ← r.block.data.slice? first middle
      let key := front ++ back
      if header.valueLength = Entry.tombstoneMark then
        return .ok (.tombstone key, { r with position := last, lastKey := key })
      else
        let value ← r.block.data.slice? middle last
        return .ok (.put key value, { r with position := last, lastKey := key })

/-- The next entry. -/
def next (r : Reader) : Option (Option Item × Reader) :=
  if r.block.size ≤ r.position then some (none, r)
  else do
    match ← r.decode with
    | .error e => return (some (.error e), { r with position := r.block.size })
    | .ok (entry, r) => return (some (.ok entry), r)

/-- The number of the first restart point in `[low, high)` whose key is not before `target`, or
`high`. -/
def bisect (b : Block) (target : Bytes) : (rounds low high : Nat) → Option (Except StoreError Nat)
  | rounds, low, high =>
    if low < high then
      match rounds with
      | 0 => none
      | rounds + 1 => do
        let middle := low + (high - low) / 2
        match ← restartKey b (← b.restarts[middle]?) with
        | .error e => return .error e
        | .ok key =>
          if bytewise key target == .lt then bisect b target rounds (middle + 1) high
          else bisect b target rounds low middle
    else some (.ok low)

/-- Moves on to the first entry whose key is not before `target`. -/
def advance (target : Bytes) : (rounds : Nat) → Reader → Option (Except StoreError Unit × Reader)
  | 0, _ => none
  | rounds + 1, r => do
    match ← r.next with
    | (none, r') => return (.ok (), r')
    | (some (.error e), r') => return (.error e, r')
    | (some (.ok entry), r') =>
      if bytewise entry.key target == .lt then advance target rounds r'
      else return (.ok (), r)

/-- Moves to the first entry whose key is not before `target`. The search for a restart point takes
no more rounds than there are restart points, and to read on from there takes no more than there
can be records, and one. -/
def seek (r : Reader) (target : Bytes) : Option (Except StoreError Unit × Reader) :=
  if r.block.restarts.isEmpty then some (.ok (), { r with position := r.block.size })
  else do
    let restarts := r.block.restarts
    match ← bisect r.block target restarts.length 0 restarts.length with
    | .error e => return (.error e, r)
    | .ok found =>
      advance target (r.block.size / headerLength + 1)
        ⟨r.block, ← restarts[found - 1]?, []⟩

/-- A call to a reader. -/
def call (r : Reader) : Cursor.Call → Option (Cursor.Answer × Reader)
  | .next => r.next.map fun (answer, r) => (.item answer, r)
  | .seek target => (r.seek target).map fun (answer, r) => (.moved answer, r)

/-- Some calls to a reader, one after the other. -/
def run (r : Reader) : List Cursor.Call → Option (List Cursor.Answer × Reader)
  | [] => some ([], r)
  | call :: rest => do
    let (answer, r) ← r.call call
    let (answers, r) ← r.run rest
    return (answer :: answers, r)

/-! ## Slices that are there -/

/-- A stored block is split without a slice that is out of bounds. -/
theorem parse_eq (stored : Bytes) : parse stored = some (Block.parse stored) := by
  unfold parse Block.parse
  split
  · rfl
  · have hbody : stored.length - 4 ≤ stored.length := Nat.sub_le _ _
    simp only [Bytes.slice?_of_length hbody rfl, Option.bind_eq_bind, Option.bind_some]
    split
    · rfl
    · next hcount =>
      rw [Bytes.slice?_eq (Nat.sub_le _ _) hbody,
        Bytes.slice?_of_zero ((Nat.sub_le _ _).trans hbody),
        Nat.sub_sub_self (Nat.not_lt.mp hcount)]
      rfl

/-- The header at a position is that of the bytes from there on. -/
theorem headerAt_eq (b : Block) (position : Nat) :
    headerAt b position = some ((readHeader (b.data.drop position)).map Prod.fst) := by
  unfold headerAt readHeader
  rw [Bytes.split?_drop (.inr (by decide))]
  cases hheader : b.data.slice? position (position + headerLength) with
  | none => rfl
  | some header =>
    have hlength : 8 = header.length := by
      rw [(Bytes.of_slice?_eq_some hheader).2, Nat.add_sub_cancel_left]
      rfl
    have hshared : header.slice? 0 2 = _ := Bytes.slice?_of_zero (by omega)
    have hunshared : header.slice? 2 4 = _ := Bytes.slice?_eq (by decide) (by omega)
    have hvalueLength : header.slice? 4 8 = _ := Bytes.slice?_of_length (by decide) hlength
    simp only [hshared, hunshared, hvalueLength]
    rfl

/-- Where there is a header, it lies within the block, and what follows it is there. -/
theorem of_readHeader_drop {data rest : Bytes} {position : Nat} {header : Header}
    (h : readHeader (data.drop position) = .ok (header, rest)) :
    position + headerLength ≤ data.length ∧ rest = data.drop (position + headerLength) := by
  unfold readHeader at h
  rw [Bytes.split?_drop (.inr (by decide))] at h
  cases hheader : data.slice? position (position + headerLength) with
  | none =>
    rw [hheader] at h
    cases h
  | some front =>
    rw [hheader] at h
    cases h
    exact ⟨(Bytes.of_slice?_eq_some hheader).1, rfl⟩

/-- The key at a restart point is found without a slice that is out of bounds. -/
theorem restartKey_eq (b : Block) (position : Nat) :
    restartKey b position = some (b.restartKey position) := by
  unfold restartKey Block.restartKey
  rw [headerAt_eq]
  cases hheader : readHeader (b.data.drop position) with
  | error e => rfl
  | ok found =>
    obtain ⟨header, rest⟩ := found
    obtain ⟨hwithin, rfl⟩ := of_readHeader_drop hheader
    simp only [Except.map, Option.bind_eq_bind, Option.bind_some,
      Bytes.split?_drop (.inl hwithin)]
    split
    · rfl
    · cases b.data.slice? (position + headerLength) (position + headerLength + header.unshared) with
      | none => rfl
      | some key => rfl

/-- The cursor that stands where a reader stands. -/
def cursor (r : Reader) : Cursor := ⟨r.block, r.block.data.drop r.position, r.lastKey⟩

/-- A reader decodes the bytes from its position on. -/
theorem decode_eq (r : Reader) :
    r.decode.map (Except.map (Prod.map id cursor)) =
      some ((decodeRecord r.lastKey (r.block.data.drop r.position)).map fun (e, unread) =>
        (e, ⟨r.block, unread, e.key⟩)) := by
  unfold decode decodeRecord
  rw [headerAt_eq]
  cases hheader : readHeader (r.block.data.drop r.position) with
  | error e => rfl
  | ok found =>
    obtain ⟨header, rest⟩ := found
    obtain ⟨hfirst, rfl⟩ := of_readHeader_drop hheader
    simp only [Except.map, Option.bind_eq_bind, Option.bind_some, Bytes.split?_drop (.inl hfirst),
      size]
    by_cases hshared : r.lastKey.length < header.shared
    · rw [if_pos (.inl hshared), if_pos hshared]
      rfl
    rw [if_neg hshared, Bytes.slice?_of_zero (Nat.not_lt.mp hshared)]
    -- the reader asks once whether the whole record fits, the cursor asks for the key and the value
    by_cases hmiddle : r.position + headerLength + header.unshared ≤ r.block.data.length
    · rw [Bytes.slice?_eq (Nat.le_add_right _ _) hmiddle]
      by_cases htomb : header.valueLength = Entry.tombstoneMark
      · simp only [if_pos htomb, Nat.add_zero, hshared, Nat.not_lt.mpr hmiddle, or_self, if_false]
        rfl
      · simp only [if_neg htomb, Option.map_some, Bytes.split?_drop (.inl hmiddle)]
        by_cases hlast : r.position + headerLength + header.unshared + header.valueLength ≤
            r.block.data.length
        · rw [if_neg (by omega), Bytes.slice?_eq (Nat.le_add_right _ _) hlast]
          rfl
        · rw [if_pos (.inr (Nat.not_le.mp hlast)), Bytes.slice?_eq_none (Nat.not_le.mp hlast)]
          rfl
    · rw [if_pos (.inr (by omega)), Bytes.slice?_eq_none (Nat.not_le.mp hmiddle)]
      rfl

/-- An entry takes at least the bytes of its header, and all of them are bytes of the block. -/
theorem of_decode_eq_ok {r r' : Reader} {e : Entry} (h : r.decode = some (.ok (e, r'))) :
    r'.block = r.block ∧ r.position + headerLength ≤ r'.position ∧ r'.position ≤ r.block.size := by
  unfold decode at h
  rw [headerAt_eq] at h
  cases hheader : readHeader (r.block.data.drop r.position) with
  | error cause =>
    rw [hheader] at h
    cases h
  | ok found =>
    simp only [hheader, Except.map, Option.bind_eq_bind, Option.bind_some] at h
    -- a tombstone takes no bytes for a value; where the record ends is checked once for both
    generalize (if found.1.valueLength = Entry.tombstoneMark then 0 else found.1.valueLength) =
      valueLength at h
    split at h
    · cases h
    · next hwithin =>
      have hfirst : r.position + headerLength ≤
          r.position + headerLength + found.1.unshared + valueLength := by omega
      have hlast := Nat.not_lt.mp fun hlast => hwithin (.inr hlast)
      obtain ⟨front, -, h⟩ := Option.bind_eq_some_iff.mp h
      obtain ⟨back, -, h⟩ := Option.bind_eq_some_iff.mp h
      split at h
      · cases h
        exact ⟨rfl, hfirst, hlast⟩
      · obtain ⟨value, -, h⟩ := Option.bind_eq_some_iff.mp h
        cases h
        exact ⟨rfl, hfirst, hlast⟩

/-! ## The reader answers as the cursor -/

/-- The answer of a cursor, and the reader at the place to which the cursor comes. -/
theorem of_map_cursor {α : Type} {x : Option (α × Reader)} {y : α × Cursor}
    (h : x.map (Prod.map id cursor) = some y) : ∃ r, x = some (y.1, r) ∧ r.cursor = y.2 := by
  obtain ⟨⟨answer, r⟩, rfl, rfl⟩ := Option.map_eq_some_iff.mp h
  exact ⟨r, rfl, rfl⟩

theorem next_eq (r : Reader) : r.next.map (Prod.map id cursor) = some r.cursor.next := by
  unfold next Cursor.next
  have hempty : r.cursor.unread.isEmpty = true ↔ r.block.size ≤ r.position := by
    rw [cursor, List.isEmpty_iff, List.drop_eq_nil_iff, size]
  by_cases hend : r.block.size ≤ r.position
  · rw [if_pos hend, if_pos (hempty.mpr hend)]
    rfl
  · rw [if_neg hend, if_neg (mt hempty.mp hend)]
    obtain ⟨decoded, hdecode, hmap⟩ := Option.map_eq_some_iff.mp r.decode_eq
    have hrecord : decodeRecord r.cursor.lastKey r.cursor.unread =
      decodeRecord r.lastKey (r.block.data.drop r.position) := rfl
    rw [hdecode, hrecord]
    cases hfound : decodeRecord r.lastKey (r.block.data.drop r.position) with
    | error e =>
      rw [hfound] at hmap
      cases decoded with
      | error cause =>
        -- the reader goes to the end of its block, where the cursor has nothing left
        cases hmap
        simp [cursor, size]
      | ok found => cases hmap
    | ok found =>
      rw [hfound] at hmap
      cases decoded with
      | error cause => cases hmap
      | ok read =>
        obtain ⟨entry, r'⟩ := read
        obtain ⟨hentry, hcursor⟩ := Prod.mk.inj (Except.ok.inj hmap)
        obtain rfl : entry = found.1 := hentry
        exact congrArg (fun c => some (some (Except.ok found.1), c)) hcursor

/-- An item of a reader moves it on by a header or more, and not beyond the end of its block. -/
theorem of_next_eq_ok {r r' : Reader} {e : Entry} (h : r.next = some (some (.ok e), r')) :
    r'.block = r.block ∧ r.position + headerLength ≤ r'.position ∧ r'.position ≤ r.block.size := by
  unfold next at h
  split at h
  · cases h
  · obtain ⟨decoded, hdecode, h⟩ := Option.bind_eq_some_iff.mp h
    split at h
    · cases h
    · cases h
      exact of_decode_eq_ok hdecode

theorem bisect_eq (b : Block) (target : Bytes) {rounds low high : Nat}
    (hhigh : high ≤ b.restarts.length) (hrounds : high - low ≤ rounds) :
    bisect b target rounds low high =
      some (Block.bisect (Cursor.restartsBefore b target) low high) := by
  -- by induction on the rounds that are left, each of which makes the range shorter
  induction rounds generalizing low high with
  | zero =>
    unfold bisect Block.bisect
    rw [if_neg (by omega), if_neg (by omega)]
  | succ rounds ih =>
    unfold bisect Block.bisect
    by_cases hlt : low < high
    · have hmiddle : low + (high - low) / 2 < b.restarts.length := by omega
      simp only [if_pos hlt, List.getElem?_eq_getElem hmiddle, Option.bind_eq_bind,
        Option.bind_some, restartKey_eq, Cursor.restartsBefore, List.getD_eq_getElem?_getD,
        Option.getD_some]
      cases b.restartKey b.restarts[low + (high - low) / 2] with
      | error e => rfl
      | ok key =>
        simp only [Except.map]
        cases bytewise key target == .lt with
        | true => exact ih hhigh (by omega)
        | false => exact ih (by omega) (by omega)
    · rw [if_neg hlt, if_neg hlt]

theorem advance_eq (target : Bytes) {rounds : Nat} {r : Reader}
    (hrounds : (r.block.size - r.position) / headerLength < rounds) :
    (advance target rounds r).map (Prod.map id cursor) = some (r.cursor.advance target) := by
  -- there are more rounds left than headers fit behind the position
  induction rounds generalizing r with
  | zero => exact absurd hrounds (Nat.not_lt_zero _)
  | succ rounds ih =>
    obtain ⟨r', hnext, hcursor⟩ := of_map_cursor r.next_eq
    rw [advance, Cursor.advance.eq_def]
    split
    · next c' hanswer =>
      obtain rfl : r'.cursor = c' := by rw [hcursor, hanswer]
      rw [hnext, hanswer]
      rfl
    · next cause c' hanswer =>
      obtain rfl : r'.cursor = c' := by rw [hcursor, hanswer]
      rw [hnext, hanswer]
      rfl
    · next e c' hanswer =>
      obtain rfl : r'.cursor = c' := by rw [hcursor, hanswer]
      rw [hanswer] at hnext
      obtain ⟨hblock, hfrom, hto⟩ := of_next_eq_ok hnext
      simp only [hnext, Option.bind_eq_bind, Option.bind_some]
      split
      · refine ih ?_
        rw [hblock]
        simp only [headerLength] at *
        omega
      · rfl

theorem seek_eq (r : Reader) (target : Bytes) :
    (r.seek target).map (Prod.map id cursor) = some (r.cursor.seek target) := by
  unfold seek Cursor.seek
  by_cases hempty : r.block.restarts.isEmpty = true
  · rw [if_pos hempty, if_pos (show r.cursor.block.restarts.isEmpty = true from hempty)]
    simp [cursor, size]
  · rw [if_neg hempty, if_neg (show ¬r.cursor.block.restarts.isEmpty = true from hempty)]
    simp only [bisect_eq r.block target (Nat.le_refl _) (Nat.sub_le _ _), Option.bind_eq_bind,
      Option.bind_some]
    have hblock : r.cursor.block = r.block := rfl
    rw [hblock]
    cases hfound : Block.bisect (Cursor.restartsBefore r.block target) 0
        r.block.restarts.length with
    | error e => rfl
    | ok found =>
      have hle := bisect_le (Nat.zero_le _) hfound
      have hlt : found - 1 < r.block.restarts.length := by
        rw [List.isEmpty_iff_length_eq_zero] at hempty
        omega
      simp only [List.getElem?_eq_getElem hlt, List.getD_eq_getElem?_getD, Option.getD_some,
        Option.bind_some]
      exact advance_eq target (Nat.lt_succ_of_le (Nat.div_le_div_right (Nat.sub_le _ _)))

theorem call_eq (r : Reader) (call : Cursor.Call) :
    (r.call call).map (Prod.map id cursor) = some (r.cursor.call call) := by
  cases call with
  | next =>
    obtain ⟨r', hnext, hcursor⟩ := of_map_cursor r.next_eq
    rw [Reader.call, hnext, Cursor.call, ← hcursor]
    rfl
  | seek target =>
    obtain ⟨r', hseek, hcursor⟩ := of_map_cursor (r.seek_eq target)
    rw [Reader.call, hseek, Cursor.call, ← hcursor]
    rfl

/-- Whatever calls are made, a reader answers them all, and as the cursor does. -/
theorem run_eq (r : Reader) (calls : List Cursor.Call) :
    (r.run calls).map (Prod.map id cursor) = some (r.cursor.run calls) := by
  induction calls generalizing r with
  | nil => rfl
  | cons call rest ih =>
    obtain ⟨r₁, hcall, hcursor₁⟩ := of_map_cursor (r.call_eq call)
    obtain ⟨r₂, hrest, hcursor₂⟩ := of_map_cursor (ih r₁)
    rw [hcursor₁] at hrest hcursor₂
    rw [run, hcall]
    simp only [Option.bind_eq_bind, Option.bind_some, hrest, Cursor.run]
    exact congrArg (fun c => some (_, c)) hcursor₂

end Reader

end Block

end LayeredStore
