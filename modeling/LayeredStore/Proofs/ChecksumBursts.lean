import LayeredStore.Checksum
import LayeredStore.Proofs.BlockRecords
import Mathlib.Logic.Function.Iterate

/-!
# What a checksum detects

A step of the division is linear in exclusive or (`shift_xor`) and loses nothing
(`shift_injective`), so the register tells what went in first: after equal bytes different registers
stay different (`update_injective`). Up to four bytes go into the register as one number, least
significant byte first (`update_eq`). So where two byte strings are different within four
consecutive bytes and are else the same, their checksums are different (`checksum_ne`).
-/

namespace LayeredStore

namespace Checksum

/-! ## One step of the division -/

theorem shift_xor (a b : UInt32) : shift (a ^^^ b) = shift a ^^^ shift b := by
  rw [← UInt32.toBitVec_inj, UInt32.toBitVec_xor]
  simp only [toBitVec_shift, UInt32.toBitVec_xor, BitVec.getLsbD_xor,
    BitVec.ushiftRight_xor_distrib]
  generalize a.toBitVec >>> 1 = x
  generalize b.toBitVec >>> 1 = y
  cases a.toBitVec.getLsbD 0 <;> cases b.toBitVec.getLsbD 0
  · rfl
  · exact BitVec.xor_assoc x y _
  · show x ^^^ y ^^^ _ = x ^^^ _ ^^^ y
    rw [BitVec.xor_assoc, BitVec.xor_assoc, BitVec.xor_comm y]
  · -- the polynomial is taken off twice
    show x ^^^ y = x ^^^ polynomial.toBitVec ^^^ (y ^^^ polynomial.toBitVec)
    rw [BitVec.xor_assoc, BitVec.xor_comm y, ← BitVec.xor_assoc polynomial.toBitVec,
      BitVec.xor_self, BitVec.zero_xor]

/-- The polynomial shows in the highest bit, which moving down leaves empty. -/
theorem eq_zero_of_shift {register : UInt32} (h : shift register = 0) : register = 0 := by
  rw [← UInt32.toBitVec_inj, toBitVec_shift] at h
  rw [← UInt32.toBitVec_inj]
  cases hlow : register.toBitVec.getLsbD 0 with
  | true =>
    rw [hlow, if_pos rfl] at h
    have hhigh := congrArg (BitVec.getLsbD · 31) h
    simp [polynomial] at hhigh
  | false =>
    rw [hlow, if_neg (by decide)] at h
    refine BitVec.eq_of_getLsbD_eq fun i hi => ?_
    cases i with
    | zero => simpa using hlow
    | succ i =>
      have hnext := congrArg (BitVec.getLsbD · i) h
      simpa [Nat.add_comm] using hnext

theorem shift_injective : Function.Injective shift := by
  intro a b h
  rw [← UInt32.xor_eq_zero_iff]
  refine eq_zero_of_shift ?_
  rw [shift_xor, h, UInt32.xor_self]

theorem iterate_shift_xor (n : Nat) (a b : UInt32) :
    shift^[n] (a ^^^ b) = shift^[n] a ^^^ shift^[n] b := by
  induction n generalizing a b with
  | zero => rfl
  | succ n ih => rw [Function.iterate_succ_apply, shift_xor, ih]; rfl

/-- What is even is halved. -/
theorem shift_ofNat {n : Nat} (h : 2 * n < UInt32.size) :
    shift (UInt32.ofNat (2 * n)) = UInt32.ofNat n := by
  rw [UInt32.size] at h
  have hn : n < 2 ^ 32 := by omega
  rw [shift, if_pos]
  · rw [← UInt32.toNat_inj, UInt32.toNat_shiftRight, UInt32.toNat_ofNat', UInt32.toNat_ofNat',
      Nat.mod_eq_of_lt h, Nat.mod_eq_of_lt hn]
    show (2 * n) >>> 1 = n
    rw [Nat.shiftRight_one]
    omega
  · rw [← UInt32.toNat_inj, UInt32.toNat_and, UInt32.toNat_ofNat', Nat.mod_eq_of_lt h]
    show 2 * n &&& 1 = 0
    rw [Nat.and_one_is_mod]
    omega

theorem iterate_shift_ofNat {k n : Nat} (h : 2 ^ k * n < UInt32.size) :
    shift^[k] (UInt32.ofNat (2 ^ k * n)) = UInt32.ofNat n := by
  induction k with
  | zero => rw [pow_zero, Nat.one_mul]; rfl
  | succ k ih =>
    rw [pow_succ', Nat.mul_assoc] at h ⊢
    rw [Function.iterate_succ_apply, shift_ofNat h, ih (by omega)]

/-! ## Bytes -/

theorem step_eq (register : UInt32) (byte : UInt8) :
    step register byte = shift^[8] (register ^^^ byte.toUInt32) := rfl

theorem update_cons (register : UInt32) (byte : UInt8) (b : Bytes) :
    update register (byte :: b) = update (step register byte) b := rfl

theorem update_append (register : UInt32) (front rest : Bytes) :
    update register (front ++ rest) = update (update register front) rest := List.foldl_append

/-- The same bytes take different registers to different registers. -/
theorem update_injective (b : Bytes) : Function.Injective (update · b) := by
  induction b with
  | nil => exact Function.injective_id
  | cons byte b ih =>
    intro r r' h
    have hstep : step r byte = step r' byte := ih h
    exact (UInt32.xor_left_inj _).mp (shift_injective.iterate 8 hstep)

/-- Some bytes as one number, least significant byte first. -/
def word (b : Bytes) : UInt32 := UInt32.ofNat (Bytes.toNat b.reverse)

theorem toNat_reverse_lt (b : Bytes) : Bytes.toNat b.reverse < 256 ^ b.length := by
  have hlt := Bytes.toNat_lt b.reverse
  rwa [List.length_reverse] at hlt

theorem word_inj {b b' : Bytes} (hlength : b.length = b'.length) (hshort : b.length ≤ 4)
    (h : word b = word b') : b = b' := by
  have hfits : 256 ^ b.length ≤ UInt32.size := Nat.pow_le_pow_right (by decide) hshort
  have hb := (toNat_reverse_lt b).trans_le hfits
  have hb' := (toNat_reverse_lt b').trans_le (hlength ▸ hfits)
  have hnumber := congrArg UInt32.toNat h
  rw [word, word, UInt32.toNat_ofNat', UInt32.toNat_ofNat', Nat.mod_eq_of_lt hb,
    Nat.mod_eq_of_lt hb'] at hnumber
  exact List.reverse_inj.mp (Bytes.toNat_inj (by simpa using hlength) hnumber)

/-- A number moved up by a byte, and the byte. -/
theorem add_eq_xor (n : Nat) {byte : Nat} (h : byte < 2 ^ 8) :
    n * 256 + byte = byte ^^^ 2 ^ 8 * n := by
  refine Nat.eq_of_testBit_eq fun i => ?_
  rw [Nat.mul_comm, ← show 2 ^ 8 = 256 from rfl, Nat.testBit_two_pow_mul_add n h, Nat.testBit_xor,
    Nat.testBit_two_pow_mul]
  by_cases hi : i < 8
  · simp [hi, Nat.not_le.mpr hi]
  · have hbyte : byte.testBit i = false :=
      Nat.testBit_lt_two_pow (h.trans_le (Nat.pow_le_pow_right (by decide) (Nat.not_lt.mp hi)))
    simp [hi, Nat.not_lt.mp hi, hbyte]

theorem word_cons (byte : UInt8) (b : Bytes) :
    word (byte :: b) = byte.toUInt32 ^^^ UInt32.ofNat (2 ^ 8 * Bytes.toNat b.reverse) := by
  have hbyte : UInt32.ofNat byte.toNat = byte.toUInt32 := by
    rw [← UInt32.toNat_inj]
    simp
  rw [word, List.reverse_cons, Bytes.toNat_concat, add_eq_xor _ byte.toNat_lt,
    UInt32.ofNat_xor, hbyte]

/-- No more bytes than fit into the register go into it as one number. -/
theorem update_eq {b : Bytes} (h : b.length ≤ 4) (register : UInt32) :
    update register b = shift^[8 * b.length] (register ^^^ word b) := by
  induction b generalizing register with
  | nil => exact UInt32.xor_zero.symm
  | cons byte b ih =>
    have hrest : b.length ≤ 3 := Nat.le_of_succ_le_succ h
    have hfits : 2 ^ 8 * Bytes.toNat b.reverse < UInt32.size := by
      have hlt := (toNat_reverse_lt b).trans_le (Nat.pow_le_pow_right (by decide) hrest)
      rw [UInt32.size]
      omega
    -- the bytes that follow come to the lowest places while the first one is divided
    have hmoved : shift^[8] (UInt32.ofNat (2 ^ 8 * Bytes.toNat b.reverse)) = word b :=
      iterate_shift_ofNat hfits
    rw [update_cons, ih (hrest.trans (by decide)), List.length_cons, Nat.mul_succ,
      Function.iterate_add_apply, word_cons, ← UInt32.xor_assoc, iterate_shift_xor 8, ← step_eq,
      hmoved]

/-- Two strings that are different within four bytes only have different checksums. -/
theorem checksum_ne {front rest old new : Bytes} (hlength : old.length = new.length)
    (hshort : old.length ≤ 4) (hne : old ≠ new) :
    checksum (front ++ (old ++ rest)) ≠ checksum (front ++ (new ++ rest)) := by
  intro heq
  have hregister := UInt32.not_inj.mp heq
  simp only [update_append] at hregister
  have hburst := update_injective rest hregister
  generalize update 0xFFFFFFFF front = register at hburst
  rw [update_eq hshort, update_eq (hlength ▸ hshort), hlength] at hburst
  exact hne (word_inj hlength hshort
    ((UInt32.xor_right_inj _).mp (shift_injective.iterate _ hburst)))

end Checksum

end LayeredStore
