import LayeredStore.Index
import LayeredStore.Proofs.BlockRecords

/-!
# The stored form of an index

An index entry has one stored form, and only that form is read as the entry (`decodeRef_eq_ok_iff`). As
the forms of the entries follow each other without anything between them, the same holds of an index
(`decode_eq_ok_iff`): bytes are accepted just if they are what some index is stored as. `stored_form_exact`
draws the conclusions.
-/

namespace LayeredStore

namespace Index

variable {index other : Index} {ref : BlockRef} {b rest : Bytes}

/-! ## One entry -/

theorem readField_append (subject : String) (field rest : Bytes) :
    readField subject field.length (field ++ rest) = .ok (field, rest) := by
  rw [readField, Bytes.split?_append]

/-- The key length and the numbers of an index entry fit their fields. -/
structure RefFits (ref : BlockRef) : Prop where
  firstKey : ref.firstKey.length < 256 ^ 2
  offset : ref.offset < 256 ^ 8
  size : ref.size < 256 ^ 8

theorem decodeRef_encodeRef {ref : BlockRef} (h : RefFits ref) (rest : Bytes) :
    decodeRef (encodeRef ref ++ rest) = .ok (ref, rest) := by
  have field (subject : String) (width n : Nat) (b : Bytes) :
      readField subject width (Bytes.ofNat width n ++ b) = .ok (Bytes.ofNat width n, b) := by
    have := readField_append subject (Bytes.ofNat width n) b
    rwa [Bytes.length_ofNat] at this
  have hparts : encodeRef ref ++ rest = Bytes.ofNat 2 ref.firstKey.length ++ (ref.firstKey ++
      (Bytes.ofNat 8 ref.offset ++ (Bytes.ofNat 8 ref.size ++ rest))) := by
    simp [encodeRef]
  rw [hparts, decodeRef, field]
  simp only [Bytes.toNat_ofNat h.firstKey, readField_append, field, Bytes.toNat_ofNat h.offset,
    Bytes.toNat_ofNat h.size]

theorem eq_append_of_readField {subject : String} {n : Nat} {field : Bytes}
    (h : readField subject n b = .ok (field, rest)) : b = field ++ rest ∧ field.length = n := by
  unfold readField at h
  split at h
  · cases h
  · next parts hsplit =>
    obtain rfl := Except.ok.inj h
    exact Bytes.eq_append_of_split? hsplit

/-- Bytes start with an entry just if they start with its stored form. -/
theorem decodeRef_eq_ok_iff :
    decodeRef b = .ok (ref, rest) ↔ RefFits ref ∧ b = encodeRef ref ++ rest := by
  constructor
  · intro h
    unfold decodeRef at h
    split at h
    · cases h
    next length b₁ hlength =>
    split at h
    · cases h
    next key b₂ hkey =>
    split at h
    · cases h
    next offset b₃ hoffset =>
    split at h
    · cases h
    next size b₄ hsize =>
    obtain ⟨rfl, rfl⟩ := Prod.mk.inj (Except.ok.inj h)
    obtain ⟨rfl, hwidth⟩ := eq_append_of_readField hlength
    obtain ⟨rfl, hkeyWidth⟩ := eq_append_of_readField hkey
    obtain ⟨rfl, hoffsetWidth⟩ := eq_append_of_readField hoffset
    obtain ⟨rfl, hsizeWidth⟩ := eq_append_of_readField hsize
    -- each number was read from the bytes that it is written as
    have hwritten {field : Bytes} {width : Nat} (h : field.length = width) :
        Bytes.ofNat width (Bytes.toNat field) = field ∧ Bytes.toNat field < 256 ^ width := by
      subst h
      exact ⟨Bytes.ofNat_toNat field, Bytes.toNat_lt field⟩
    refine ⟨⟨?_, (hwritten hoffsetWidth).2, (hwritten hsizeWidth).2⟩, ?_⟩
    · rw [hkeyWidth]
      exact (hwritten hwidth).2
    · simp only [encodeRef, hkeyWidth, (hwritten hwidth).1, (hwritten hoffsetWidth).1,
        (hwritten hsizeWidth).1, List.append_assoc]
  · rintro ⟨hfits, rfl⟩
    exact decodeRef_encodeRef hfits rest

theorem length_encodeRef (ref : BlockRef) :
    (encodeRef ref).length = ref.firstKey.length + 18 := by
  simp only [encodeRef, List.length_append, Bytes.length_ofNat]
  omega

/-! ## An index -/

@[simp] theorem encode_nil : encode [] = [] := rfl

theorem encode_cons (ref : BlockRef) (index : Index) :
    encode (ref :: index) = encodeRef ref ++ encode index := rfl

theorem decode_of_decodeRef_ok (h : decodeRef b = .ok (ref, rest)) :
    decode b = (decode rest).map (ref :: ·) := by
  have hlt := length_lt_of_decodeRef h
  rw [decode, if_neg]
  · split
    · next hfail => simp [h] at hfail
    · next hread =>
      rw [h] at hread
      obtain ⟨rfl, rfl⟩ := Prod.mk.inj (Except.ok.inj hread)
      rfl
  · rintro hempty
    rw [List.isEmpty_iff.mp hempty] at hlt
    cases hlt

theorem decode_of_decodeRef_error {e : StoreError} (hb : b ≠ []) (h : decodeRef b = .error e) :
    decode b = .error e := by
  rw [decode, if_neg (by simpa using hb)]
  split
  · next hfail =>
    rw [h] at hfail
    rw [Except.error.inj hfail]
  · next hread => simp [h] at hread

/-- What is written of an index is read back. -/
theorem decode_encode {index : Index} (h : ∀ ref ∈ index, RefFits ref) :
    decode (encode index) = .ok index := by
  induction index with
  | nil =>
    rw [decode]
    rfl
  | cons ref rest ih =>
    obtain ⟨hfirst, hrest⟩ := List.forall_mem_cons.mp h
    rw [encode_cons, decode_of_decodeRef_ok (decodeRef_encodeRef hfirst _), ih hrest]
    rfl

/-- Bytes are an index just if they are what the index is stored as. -/
theorem decode_eq_ok_iff :
    decode b = .ok index ↔ (∀ ref ∈ index, RefFits ref) ∧ b = encode index := by
  constructor
  · intro h
    induction hn : b.length using Nat.strongRecOn generalizing b index with
    | _ n ih =>
      by_cases hb : b = []
      · subst hb
        rw [decode] at h
        obtain rfl : [] = index := Except.ok.inj h
        simp
      · cases hread : decodeRef b with
        | error e =>
          rw [decode_of_decodeRef_error hb hread] at h
          cases h
        | ok front =>
          obtain ⟨ref, rest⟩ := front
          rw [decode_of_decodeRef_ok hread] at h
          cases hrest : decode rest with
          | error e =>
            rw [hrest] at h
            cases h
          | ok tail =>
            rw [hrest] at h
            obtain rfl : ref :: tail = index := Except.ok.inj h
            obtain ⟨hfits, rfl⟩ := ih _ (hn ▸ length_lt_of_decodeRef hread) hrest rfl
            obtain ⟨hfirst, hb⟩ := decodeRef_eq_ok_iff.mp hread
            exact ⟨List.forall_mem_cons.mpr ⟨hfirst, hfits⟩, hb⟩
  · rintro ⟨hfits, rfl⟩
    exact decode_encode hfits

theorem encode_append (front rest : Index) :
    encode (front ++ rest) = encode front ++ encode rest := List.flatMap_append

/-- If what an index is stored as is the start of what another one is stored as, then the index is the
start of the other. -/
theorem isPrefix_of_encode (hindex : ∀ ref ∈ index, RefFits ref) (hother : ∀ ref ∈ other, RefFits ref)
    (h : encode other <+: encode index) : other <+: index := by
  induction other generalizing index with
  | nil => exact List.nil_prefix
  | cons ref rest ih =>
    obtain ⟨hfirst, hrest⟩ := List.forall_mem_cons.mp hother
    obtain ⟨b, hb⟩ := h
    rw [encode_cons, List.append_assoc] at hb
    have hread := decodeRef_encodeRef hfirst (encode rest ++ b)
    rw [hb] at hread
    cases index with
    | nil => cases hread
    | cons ref' index =>
      -- both begin with one entry, as what is read is unique
      obtain ⟨hfirst', hindex'⟩ := List.forall_mem_cons.mp hindex
      rw [encode_cons, decodeRef_encodeRef hfirst'] at hread
      obtain ⟨rfl, hsame⟩ := Prod.mk.inj (Except.ok.inj hread)
      exact List.cons_prefix_cons.mpr ⟨rfl, ih hindex' hrest ⟨b, hsame.symm⟩⟩

/-- Of a stored index that is cut off somewhere, an index is read just if the cut is behind one of the
entries, and then it is that of the entries before the cut. -/
theorem decode_take_eq_ok_iff (hindex : ∀ ref ∈ index, RefFits ref) {n : Nat}
    (hn : n ≤ (encode index).length) : decode ((encode index).take n) = .ok other ↔
      ∃ k ≤ index.length, other = index.take k ∧ n = (encode other).length := by
  constructor
  · intro h
    obtain ⟨hother, htake⟩ := decode_eq_ok_iff.mp h
    have hstart := isPrefix_of_encode hindex hother (htake ▸ List.take_prefix n _)
    refine ⟨other.length, hstart.length_le, List.prefix_iff_eq_take.mp hstart, ?_⟩
    rw [← htake, List.length_take, Nat.min_eq_left hn]
  · rintro ⟨k, -, rfl, rfl⟩
    have hsplit : encode index = encode (index.take k) ++ encode (index.drop k) := by
      rw [← encode_append, List.take_append_drop]
    rw [hsplit, List.take_left]
    exact decode_encode fun ref href => hindex ref (List.mem_of_mem_take href)

/-! ## The loop -/

/-- The reading of an index as a loop that goes at most so many times around; nothing if that is too
few. -/
def decodeWithin : (rounds : Nat) → Bytes → Option (Except StoreError Index)
  | 0, _ => none
  | rounds + 1, b =>
    if b.isEmpty then some (.ok [])
    else
      match decodeRef b with
      | .error e => some (.error e)
      | .ok (ref, rest) => (decodeWithin rounds rest).map (Except.map (ref :: ·))

/-- Each round but the last reads an entry, which has at least 18 bytes. -/
theorem decodeWithin_eq {rounds : Nat} (h : b.length / 18 < rounds) :
    decodeWithin rounds b = some (decode b) := by
  induction rounds generalizing b with
  | zero => omega
  | succ rounds ih =>
    rw [decodeWithin]
    by_cases hb : b = []
    · subst hb
      rw [decode]
      rfl
    · rw [if_neg (by simpa using hb)]
      cases hread : decodeRef b with
      | error e => rw [decode_of_decodeRef_error hb hread]
      | ok front =>
        obtain ⟨ref, rest⟩ := front
        obtain ⟨-, hparts⟩ := decodeRef_eq_ok_iff.mp hread
        have hlength := congrArg List.length hparts
        rw [List.length_append, length_encodeRef] at hlength
        dsimp only
        rw [ih (by omega), decode_of_decodeRef_ok hread]
        rfl

/-- An index with keys of at most 65535 bytes is read back from what it is stored as. Bytes that are read
as an index are what this index is stored as. A stored index that is cut off is read just if the cut is
behind one of its entries, and then as these entries. Whatever is read, the loop ends. -/
theorem stored_form_exact (h : ∀ ref ∈ index,
    ref.firstKey.length ≤ 65535 ∧ ref.offset < 2 ^ 64 ∧ ref.size < 2 ^ 64) :
    decode (encode index) = .ok index ∧
      (∀ b other, decode b = .ok other → encode other = b) ∧
      (∀ n ≤ (encode index).length, ∀ other, decode ((encode index).take n) = .ok other ↔
        ∃ k ≤ index.length, other = index.take k ∧ n = (encode other).length) ∧
      ∀ b, decodeWithin (b.length / 18 + 1) b = some (decode b) := by
  have hfits : ∀ ref ∈ index, RefFits ref := fun ref href =>
    ⟨Nat.lt_succ_of_le (h ref href).1, (h ref href).2.1, (h ref href).2.2⟩
  refine ⟨decode_encode hfits, fun b other hread => ?_, fun n hn other => ?_, fun b => ?_⟩
  · exact (decode_eq_ok_iff.mp hread).2.symm
  · exact decode_take_eq_ok_iff hfits hn
  · exact decodeWithin_eq (Nat.lt_succ_self _)

/-- Two blocks, the second of which begins with a key of no bytes. -/
def twoRefs : Index := [⟨[97], 0, 100⟩, ⟨[], 100, 2 ^ 64 - 1⟩]

/-- The entries take 19 and 18 bytes, and cut anywhere else the index is not read. -/
theorem stored_form_twoRefs :
    (∀ ref ∈ twoRefs, ref.firstKey.length ≤ 65535 ∧ ref.offset < 2 ^ 64 ∧ ref.size < 2 ^ 64) ∧
      decode ((encode twoRefs).take 19) = .ok [⟨[97], 0, 100⟩] ∧
      ∀ n ≤ 37, n ∉ [0, 19, 37] → ∀ other, decode ((encode twoRefs).take n) ≠ .ok other := by
  have hfits : ∀ ref ∈ twoRefs,
      ref.firstKey.length ≤ 65535 ∧ ref.offset < 2 ^ 64 ∧ ref.size < 2 ^ 64 := by decide
  obtain ⟨-, -, hcut, -⟩ := stored_form_exact hfits
  have hlength : (encode twoRefs).length = 37 := rfl
  have hends : ∀ k ≤ twoRefs.length, (encode (twoRefs.take k)).length ∈ [0, 19, 37] := by decide
  rw [hlength] at hcut
  refine ⟨hfits, (hcut 19 (by decide) _).mpr ⟨1, by decide, rfl, rfl⟩, fun n hn hnot other h => ?_⟩
  obtain ⟨k, hk, rfl, rfl⟩ := (hcut n hn other).mp h
  exact hnot (hends k hk)

end Index

end LayeredStore
