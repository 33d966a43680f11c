import LayeredStore.Bytes

/-!
# Checksum

The checksum of an index is CRC-32C: the remainder of the bytes, taken as a polynomial over the
two-element field, by Castagnoli's polynomial. Bits are taken lowest first, the register starts
with all bits set, and the result is inverted.
-/

namespace LayeredStore

namespace Checksum

/-- Castagnoli's polynomial without its leading term, lowest power in the highest bit. -/
def polynomial : UInt32 := 0x82F63B78

/-- One step of the division: the register moves down a place, and the polynomial is taken off
when a bit falls out. -/
def shift (register : UInt32) : UInt32 :=
  if register &&& 1 = 0 then register >>> 1 else (register >>> 1) ^^^ polynomial

theorem and_one_eq_zero_iff (register : UInt32) :
    register &&& 1 = 0 ↔ register.toBitVec.getLsbD 0 = false := by
  rw [← UInt32.toBitVec_inj]
  constructor
  · intro h
    simpa using congrArg (BitVec.getLsbD · 0) h
  · intro h
    ext i hi
    by_cases h0 : i = 0
    · subst h0
      simpa using h
    · simp [BitVec.getElem_one, h0]

/-- The step on the bits of the register. -/
theorem toBitVec_shift (register : UInt32) :
    (shift register).toBitVec =
      if register.toBitVec.getLsbD 0 then (register.toBitVec >>> 1) ^^^ polynomial.toBitVec
      else register.toBitVec >>> 1 := by
  by_cases h : register &&& 1 = 0
  · rw [if_neg (by rw [(and_one_eq_zero_iff register).mp h]; simp)]
    simp [shift, h]
  · rw [if_pos (eq_true_of_ne_false fun low => h ((and_one_eq_zero_iff register).mpr low))]
    simp [shift, h]

/-- The register after one byte. -/
def step (register : UInt32) (byte : UInt8) : UInt32 :=
  Nat.repeat shift 8 (register ^^^ byte.toUInt32)

/-- The register after some bytes. -/
def update (register : UInt32) (b : Bytes) : UInt32 := b.foldl step register

end Checksum

/-- The CRC-32C of a byte string. -/
def checksum (b : Bytes) : UInt32 := ~~~Checksum.update 0xFFFFFFFF b

/-- The check value of the definition of CRC-32C: the nine digits 123456789. -/
example : checksum [0x31, 0x32, 0x33, 0x34, 0x35, 0x36, 0x37, 0x38, 0x39] = 0xE3069283 := by
  decide +kernel

end LayeredStore
