import LayeredStore.Block.Cursor
import LayeredStore.Proofs.Streams
import Mathlib.Algebra.GroupWithZero.Nat
import Mathlib.Data.List.Induction

/-!
# The records of a block

`Block.records` is the sequence of records that a list of entries takes in a block, and
`Block.restartPoints` the positions at which a key is stored whole. A `Block.Builder` that takes
the entries one by one ends with these (`Holds.add`), and what it finishes is read back
by `Block.parse` (`parse_stored`).

A cursor at the front of some records gives their entries (`gives_records`).
-/

namespace LayeredStore

/-! ## Numbers in fixed widths -/

/-- A number that fits its width reads back. -/
theorem Bytes.toNat_ofNat {width n : Nat} (h : n < 256 ^ width) : toNat (ofNat width n) = n := by
  induction width generalizing n with
  | zero => simp at h; subst h; rfl
  | succ width ih =>
    have hq : n / 256 < 256 ^ width := by
      rw [Nat.div_lt_iff_lt_mul (by decide)]
      simpa [Nat.pow_succ] using h
    rw [ofNat, toNat_concat, ih hq]
    simp only [UInt8.toNat_ofNat']
    omega

/-- Bytes are those of the number that they spell. -/
theorem Bytes.ofNat_toNat (b : Bytes) : ofNat b.length (toNat b) = b := by
  induction b using List.reverseRecOn with
  | nil => rfl
  | append_singleton b byte ih =>
    have hbyte := byte.toNat_lt
    have hfront : (toNat b * 256 + byte.toNat) / 256 = toNat b := by omega
    have hlast : UInt8.ofNat (toNat b * 256 + byte.toNat) = byte := by
      rw [← UInt8.toNat_inj, UInt8.toNat_ofNat']
      omega
    rw [List.length_append, List.length_singleton, ofNat, toNat_concat, hfront, hlast, ih]

/-- Byte strings of one length that spell the same number are the same. -/
theorem Bytes.toNat_inj {a b : Bytes} (hlength : a.length = b.length) (h : toNat a = toNat b) :
    a = b := by
  rw [← ofNat_toNat a, hlength, h, ofNat_toNat]

theorem Bytes.toNat_lt (b : Bytes) : toNat b < 256 ^ b.length := by
  induction b using List.reverseRecOn with
  | nil => decide
  | append_singleton b byte ih =>
    have hbyte := byte.toNat_lt
    rw [List.length_append, List.length_singleton, pow_succ, toNat_concat]
    omega

/-- Four-byte numbers are read back. -/
theorem Block.readPositions_flatMap {positions : List Nat} (h : ∀ n ∈ positions, n < UInt32.size) :
    readPositions (positions.flatMap (Bytes.ofNat 4)) = positions := by
  induction positions with
  | nil => rfl
  | cons n rest ih =>
    have hn : n < 256 ^ 4 := h n List.mem_cons_self
    have hlength := Bytes.length_ofNat 4 n
    rw [List.flatMap_cons]
    match hb : Bytes.ofNat 4 n, hlength with
    | [a, b, c, d], _ =>
      show Bytes.toNat [a, b, c, d] :: readPositions (rest.flatMap (Bytes.ofNat 4)) = _
      rw [← hb, Bytes.toNat_ofNat hn, ih fun m hm => h m (List.mem_cons_of_mem _ hm)]

/-- The stored length of the value of a storable entry fits four bytes. -/
theorem Entry.Storable.valueLength_lt {e : Entry} (h : e.Storable) :
    (e.value.map List.length).getD Entry.tombstoneMark < 256 ^ 4 := by
  cases hv : e.value with
  | none => decide
  | some v =>
    have hlt : v.length < Entry.tombstoneMark := h.2 v hv
    have hmark : Entry.tombstoneMark < 256 ^ 4 := by decide
    simpa using Nat.lt_trans hlt hmark

namespace Block

/-! ## One record -/

/-- A header is read back. -/
theorem readHeader_append {shared unshared valueLength : Nat} (hs : shared < 256 ^ 2)
    (hu : unshared < 256 ^ 2) (hv : valueLength < 256 ^ 4) (rest : Bytes) :
    readHeader (Bytes.ofNat 2 shared ++ Bytes.ofNat 2 unshared ++ Bytes.ofNat 4 valueLength ++
      rest) = .ok (⟨shared, unshared, valueLength⟩, rest) := by
  have hsplit : Bytes.split? headerLength
      (Bytes.ofNat 2 shared ++ Bytes.ofNat 2 unshared ++ Bytes.ofNat 4 valueLength ++ rest) =
        some (Bytes.ofNat 2 shared ++ Bytes.ofNat 2 unshared ++ Bytes.ofNat 4 valueLength, rest) := by
    have hlength : headerLength = (Bytes.ofNat 2 shared ++ Bytes.ofNat 2 unshared ++
        Bytes.ofNat 4 valueLength).length := by simp [headerLength]
    rw [hlength]
    exact Bytes.split?_append _ _
  have hlast : (Bytes.ofNat 2 shared ++ Bytes.ofNat 2 unshared ++ Bytes.ofNat 4 valueLength).drop 4 =
      Bytes.ofNat 4 valueLength := by
    rw [show 4 = (Bytes.ofNat 2 shared ++ Bytes.ofNat 2 unshared).length by simp, List.drop_left]
  rw [readHeader, hsplit]
  simp only [hlast, Bytes.toNat_ofNat hv]
  simp [Bytes.toNat_ofNat hs, Bytes.toNat_ofNat hu]

/-- A record is read back, given the key before it. -/
theorem decodeRecord_encodeRecord {lastKey : Bytes} {shared : Nat} {e : Entry}
    (he : e.Storable) (hlast : shared ≤ lastKey.length) (hkey : shared ≤ e.key.length)
    (hsame : lastKey.take shared = e.key.take shared) (rest : Bytes) :
    decodeRecord lastKey (encodeRecord shared e ++ rest) = .ok (e, rest) := by
  obtain ⟨key, value⟩ := e
  have hlimit : key.length < 256 ^ 2 := by
    have := he.1
    simp only [Entry.maxKeyLength, UInt16.size] at this
    omega
  have hparts : encodeRecord shared ⟨key, value⟩ ++ rest =
      Bytes.ofNat 2 shared ++ Bytes.ofNat 2 (key.length - shared) ++
        Bytes.ofNat 4 ((value.map List.length).getD Entry.tombstoneMark) ++
          (key.drop shared ++ (value.getD [] ++ rest)) := by
    simp [encodeRecord]
  simp only at hkey hsame
  have hsuffix : Bytes.split? (key.length - shared) (key.drop shared ++ (value.getD [] ++ rest)) =
      some (key.drop shared, value.getD [] ++ rest) := by
    rw [← List.length_drop]
    exact Bytes.split?_append _ _
  rw [hparts, decodeRecord, readHeader_append (by omega) (by omega) he.valueLength_lt]
  simp only [if_neg (Nat.not_lt.mpr hlast), hsuffix, hsame, List.take_append_drop]
  cases value with
  | none => simp [Entry.tombstone]
  | some v =>
    have hv : v.length ≠ Entry.tombstoneMark := Nat.ne_of_lt (he.2 v rfl)
    simp only [Option.map_some, Option.getD_some, if_neg hv, Bytes.split?_append]
    rfl

/-! ## The records of some entries -/

/-- How much of its key an entry leaves out, `count` being the number of entries before it. -/
def sharedAt (count : Nat) (lastKey : Bytes) (e : Entry) : Nat :=
  if count % restartInterval == 0 then 0 else Bytes.sharedPrefix lastKey e.key

/-- The records of entries that follow `count` others, of which the last has the key `lastKey`. -/
def records (count : Nat) (lastKey : Bytes) : List Entry → Bytes
  | [] => []
  | e :: rest => encodeRecord (sharedAt count lastKey e) e ++ records (count + 1) e.key rest

/-- The positions of the restart points among entries whose records begin at `position`. -/
def restartPoints (count position : Nat) (lastKey : Bytes) : List Entry → List Nat
  | [] => []
  | e :: rest =>
    (if count % restartInterval == 0 then [position] else []) ++
      restartPoints (count + 1) (position + (encodeRecord (sharedAt count lastKey e) e).length)
        e.key rest

/-- The key of the last of some entries, or `lastKey` if there are none. -/
def lastKeyFrom (lastKey : Bytes) (entries : List Entry) : Bytes :=
  (entries.getLast?.map Entry.key).getD lastKey

@[simp] theorem lastKeyFrom_cons (lastKey : Bytes) (e : Entry) (rest : List Entry) :
    lastKeyFrom lastKey (e :: rest) = lastKeyFrom e.key rest := by
  cases rest with
  | nil => rfl
  | cons x rest => simp [lastKeyFrom, List.getLast?_cons]

theorem sharedAt_le_last (count : Nat) (lastKey : Bytes) (e : Entry) :
    sharedAt count lastKey e ≤ lastKey.length := by
  unfold sharedAt
  split
  · exact Nat.zero_le _
  · exact Bytes.sharedPrefix_le_left _ _

theorem take_sharedAt (count : Nat) (lastKey : Bytes) (e : Entry) :
    lastKey.take (sharedAt count lastKey e) = e.key.take (sharedAt count lastKey e) := by
  unfold sharedAt
  split
  · simp
  · exact Bytes.take_sharedPrefix _ _

theorem sharedAt_le_key (count : Nat) (lastKey : Bytes) (e : Entry) :
    sharedAt count lastKey e ≤ e.key.length := by
  have hlength := congrArg List.length (take_sharedAt count lastKey e)
  have := sharedAt_le_last count lastKey e
  rw [List.length_take, List.length_take] at hlength
  omega

theorem headerLength_le_encodeRecord (shared : Nat) (e : Entry) :
    headerLength ≤ (encodeRecord shared e).length := by
  simp only [encodeRecord, headerLength, List.length_append, Bytes.length_ofNat]
  omega

theorem records_append (count : Nat) (lastKey : Bytes) (front rest : List Entry) :
    records count lastKey (front ++ rest) =
      records count lastKey front ++
        records (count + front.length) (lastKeyFrom lastKey front) rest := by
  induction front generalizing count lastKey with
  | nil => rfl
  | cons e front ih =>
    rw [List.cons_append, records, records, ih, lastKeyFrom_cons, List.length_cons]
    simp [Nat.add_comm, Nat.add_left_comm]

theorem restartPoints_append (count position : Nat) (lastKey : Bytes) (front rest : List Entry) :
    restartPoints count position lastKey (front ++ rest) =
      restartPoints count position lastKey front ++
        restartPoints (count + front.length) (position + (records count lastKey front).length)
          (lastKeyFrom lastKey front) rest := by
  induction front generalizing count position lastKey with
  | nil => simp [restartPoints, records, lastKeyFrom]
  | cons e front ih =>
    rw [List.cons_append, restartPoints, restartPoints, ih, lastKeyFrom_cons, records]
    simp [Nat.add_comm, Nat.add_left_comm]

/-- At a restart point the key before does not matter. -/
theorem records_eq_of_restart {count : Nat} (hcount : count % restartInterval = 0)
    (lastKey other : Bytes) (entries : List Entry) :
    records count lastKey entries = records count other entries := by
  cases entries with
  | nil => rfl
  | cons e rest => simp [records, sharedAt, hcount]

theorem length_le_records (count : Nat) (lastKey : Bytes) (entries : List Entry) :
    headerLength * entries.length ≤ (records count lastKey entries).length := by
  induction entries generalizing count lastKey with
  | nil => simp [records]
  | cons e rest ih =>
    have := headerLength_le_encodeRecord (sharedAt count lastKey e) e
    have := ih (count + 1) e.key
    rw [records, List.length_append, List.length_cons, Nat.mul_add]
    omega

theorem length_restartPoints_le (count position : Nat) (lastKey : Bytes) (entries : List Entry) :
    (restartPoints count position lastKey entries).length ≤ entries.length := by
  induction entries generalizing count position lastKey with
  | nil => simp [restartPoints]
  | cons e rest ih =>
    have := ih (count + 1) (position + (encodeRecord (sharedAt count lastKey e) e).length) e.key
    rw [restartPoints, List.length_append, List.length_cons]
    split <;> simp <;> omega

/-- The restart points lie among the records. -/
theorem le_of_mem_restartPoints {count position n : Nat} {lastKey : Bytes} {entries : List Entry}
    (h : n ∈ restartPoints count position lastKey entries) :
    n ≤ position + (records count lastKey entries).length := by
  induction entries generalizing count position lastKey with
  | nil => simp [restartPoints] at h
  | cons e rest ih =>
    rw [records, List.length_append]
    rcases List.mem_append.mp h with h | h
    · split at h
      · simp only [List.mem_singleton] at h
        omega
      · simp at h
    · have := ih h
      omega

/-! ## Stored blocks -/

/-- The stored form of the block of some entries. -/
def stored (entries : List Entry) : Bytes :=
  let points := restartPoints 0 0 [] entries
  records 0 [] entries ++ points.flatMap (Bytes.ofNat 4) ++ Bytes.ofNat 4 points.length

/-- The block of some entries. -/
def ofEntries (entries : List Entry) : Block :=
  ⟨records 0 [] entries, restartPoints 0 0 [] entries⟩

/-- The restart points of a block of these entries, and their number, fit four bytes. -/
def Fits (entries : List Entry) : Prop :=
  (∀ n ∈ restartPoints 0 0 [] entries, n < UInt32.size) ∧
    (restartPoints 0 0 [] entries).length < UInt32.size

instance (entries : List Entry) : Decidable (Fits entries) := inferInstanceAs (Decidable (_ ∧ _))

/-- A block fits if the records before its last one end within the range of four bytes. -/
theorem fits_concat {entries : List Entry} (e : Entry)
    (h : (records 0 [] entries).length < UInt32.size) : Fits (entries ++ [e]) := by
  have hcount := length_le_records 0 [] entries
  simp only [headerLength] at hcount
  constructor
  · intro n hn
    rw [restartPoints_append] at hn
    rcases List.mem_append.mp hn with hn | hn
    · have := le_of_mem_restartPoints hn
      omega
    · simp only [restartPoints, List.append_nil] at hn
      split at hn
      · simp only [List.mem_singleton] at hn
        omega
      · simp at hn
  · have := length_restartPoints_le 0 0 [] (entries ++ [e])
    rw [List.length_append, List.length_singleton] at this
    simp only [UInt32.size] at h ⊢
    omega

/-- A block fits if its records end within the range of four bytes. -/
theorem fits_of_records_lt {entries : List Entry}
    (h : (records 0 [] entries).length < UInt32.size) : Fits entries := by
  rcases List.eq_nil_or_concat entries with rfl | ⟨front, e, rfl⟩
  · decide
  · rw [List.concat_eq_append] at h ⊢
    rw [records_append, List.length_append] at h
    exact fits_concat e (by omega)

/-- What is stored of a block is read back. -/
theorem parse_stored {entries : List Entry} (h : Fits entries) :
    parse (stored entries) = .ok (ofEntries entries) := by
  obtain ⟨hpoints, hcount⟩ := h
  simp only [stored, ofEntries]
  generalize hdata : records 0 [] entries = data
  generalize hrestarts : restartPoints 0 0 [] entries = points at hpoints hcount ⊢
  have hlength : (points.flatMap (Bytes.ofNat 4)).length = points.length * 4 := by
    simp [List.length_flatMap, List.map_const']
  have htrailer : (data ++ points.flatMap (Bytes.ofNat 4) ++ Bytes.ofNat 4 points.length).length -
      4 = (data ++ points.flatMap (Bytes.ofNat 4)).length := by
    simp only [List.length_append, Bytes.length_ofNat]
    omega
  have hnumber : Bytes.toNat ((data ++ points.flatMap (Bytes.ofNat 4) ++
      Bytes.ofNat 4 points.length).drop (data ++ points.flatMap (Bytes.ofNat 4)).length) =
        points.length := by
    rw [List.drop_left, Bytes.toNat_ofNat hcount]
  have hbody : (data ++ points.flatMap (Bytes.ofNat 4)).length - points.length * 4 =
      data.length := by
    rw [List.length_append, hlength]
    omega
  have hpositions : List.take (points.length * 4) (points.flatMap (Bytes.ofNat 4) ++
      Bytes.ofNat 4 points.length) = points.flatMap (Bytes.ofNat 4) := by
    rw [← hlength, List.take_left]
  rw [parse, if_neg (by rw [List.length_append, Bytes.length_ofNat]; omega)]
  simp only [htrailer, hnumber]
  rw [if_neg (by rw [List.length_append, hlength]; omega)]
  simp only [hbody]
  rw [List.append_assoc, List.take_left, List.drop_left, hpositions,
    readPositions_flatMap hpoints]

/-! ## Building a block -/

namespace Builder

/-- The builder has taken these entries, and no others. -/
structure Holds (b : Builder) (entries : List Entry) : Prop where
  data : b.data.bytes = records 0 [] entries
  restarts : b.restarts.reverse = restartPoints 0 0 [] entries
  count : b.count = entries.length
  lastKey : b.lastKey = lastKeyFrom [] entries

theorem holds_new : Holds {} [] := ⟨rfl, rfl, rfl, rfl⟩

theorem Holds.size {b : Builder} {entries : List Entry} (h : b.Holds entries) :
    b.size = (records 0 [] entries).length := by
  rw [Builder.size, ← Pieces.length_bytes, h.data]

theorem Holds.isEmpty {b : Builder} {entries : List Entry} (h : b.Holds entries) :
    b.isEmpty = entries.isEmpty := by
  rw [Builder.isEmpty, h.count]
  cases entries <;> simp

theorem Holds.finish {b : Builder} {entries : List Entry} (h : b.Holds entries) :
    b.finish = stored entries := by
  rw [Builder.finish, h.data, h.restarts, ← List.length_reverse, h.restarts]
  rfl

/-- A builder takes an entry exactly if it is storable. -/
theorem Holds.add {b : Builder} {entries : List Entry} (h : b.Holds entries) {e : Entry}
    (he : e.Storable) : ∃ b', b.add e = .ok b' ∧ b'.Holds (entries ++ [e]) := by
  have hrecord : records 0 [] (entries ++ [e]) =
      records 0 [] entries ++ encodeRecord (sharedAt b.count b.lastKey e) e := by
    rw [records_append, h.count, h.lastKey]
    simp [records]
  have hpoints : restartPoints 0 0 [] (entries ++ [e]) = restartPoints 0 0 [] entries ++
      if b.count % restartInterval == 0 then [b.size] else [] := by
    rw [restartPoints_append, h.count, h.size]
    simp [restartPoints]
  unfold Builder.add
  rw [Entry.check_eq_ok_iff.mpr he]
  refine ⟨_, rfl, ?_, ?_, ?_, ?_⟩
  · rw [Pieces.bytes_push, h.data, hrecord]
    rfl
  · rw [hpoints, ← h.restarts]
    split <;> simp
  · simp [h.count]
  · simp [lastKeyFrom]

/-- A builder refuses an entry that is not storable. -/
theorem add_error {b : Builder} {e : Entry} {err : StoreError} (h : e.check = .error err) :
    b.add e = .error err := by
  unfold Builder.add
  rw [h]

end Builder

/-! ## Reading a block -/

theorem Cursor.pull_next : Cursor.pull.next = Cursor.next := rfl

/-- A cursor at its end stays where it is. -/
theorem Cursor.next_of_end {c : Cursor} (h : c.next.1 = none) : c.next.2 = c := by
  unfold next at h ⊢
  split
  · rfl
  · next hunread =>
    rw [if_neg hunread] at h
    split at h <;> cases h

/-- The cursor at the front of a block of entries. -/
theorem start_ofEntries (entries : List Entry) :
    Cursor.start (ofEntries entries) = ⟨ofEntries entries, records 0 [] entries, []⟩ := by
  cases entries <;> rfl

/-- A cursor at the front of the records of some entries gives these entries. -/
theorem gives_records {ι : Type} (b : Block) {entries : List Entry}
    (hstorable : ∀ e ∈ entries, e.Storable) (count : Nat) (lastKey : Bytes) :
    Pull.Gives (fun _ : ι => Cursor.pull) ⟨b, records count lastKey entries, lastKey⟩
      (entries.map .ok) := by
  induction entries generalizing count lastKey with
  | nil => exact .done fun _ => rfl
  | cons e rest ih =>
    refine .item (fun _ => ?_) (ih (fun x hx => hstorable x (List.mem_cons_of_mem _ hx))
      (count + 1) e.key)
    have hlength : (records count lastKey (e :: rest)).isEmpty = false := by
      have := length_le_records count lastKey (e :: rest)
      rw [List.isEmpty_eq_false_iff_exists_mem]
      apply List.exists_mem_of_length_pos
      rw [List.length_cons, headerLength] at this
      omega
    rw [Cursor.pull_next, Cursor.next, if_neg (by simp [hlength])]
    simp only [records]
    rw [decodeRecord_encodeRecord (hstorable e List.mem_cons_self) (sharedAt_le_last ..)
      (sharedAt_le_key ..) (take_sharedAt ..)]

end Block

end LayeredStore
