import LayeredStore.KeyRange

/-!
# The keys that start alike

`KeyRange.startingWith start` is a range with bounds, while what is asked for are the keys that start
with some bytes. The two are the same (`KeyRange.contains_startingWith`). The upper bound is computed
from the back of the start, where the bytes 255 are dropped; `KeyRange.following` computes it from
the front, which is how keys are compared.
-/

namespace LayeredStore

theorem bytewise_cons (x y : UInt8) (a b : Bytes) :
    bytewise (x :: a) (y :: b) = (compare x y).then (bytewise a b) := by
  simp [bytewise, List.compare_eq_compareLex]

namespace KeyRange

/-- The first string after all those that start with some bytes, if there is one. -/
def following : Bytes → Option Bytes
  | [] => none
  | byte :: rest =>
    match following rest with
    | some last => some (byte :: last)
    | none => if byte = 255 then none else some [byte + 1]

theorem startingWith_eq (start : Bytes) :
    startingWith start = ⟨.included start, (following start).elim .unbounded .excluded⟩ := by
  rw [startingWith]
  congr 1
  induction start with
  | nil => rfl
  | cons byte rest ih =>
    rw [List.reverse_cons, List.dropWhile_append, following]
    cases hdrop : rest.reverse.dropWhile (· == 255) with
    | nil =>
      rw [hdrop] at ih
      cases hrest : following rest with
      | some last => simp [hrest] at ih
      | none => by_cases hbyte : byte = 255 <;> simp [hbyte]
    | cons last front =>
      rw [hdrop] at ih
      cases hrest : following rest with
      | some other =>
        rw [hrest] at ih
        simp only [Option.elim_some, Bound.excluded.injEq] at ih
        simp [← ih]
      | none => simp [hrest] at ih

/-- What comes before the next byte does not come after the byte. -/
theorem bytewise_next_byte {byte : UInt8} (hbyte : byte ≠ 255) (first : UInt8) (key : Bytes) :
    bytewise (first :: key) [byte + 1] = .lt ↔ compare first byte ≠ .gt := by
  have hnext : compare first (byte + 1) = .lt ↔ compare first byte ≠ .gt := by
    have hsize : byte.toNat ≠ 255 := fun h => hbyte (UInt8.toNat.inj h)
    rw [Std.compare_eq_lt, Ne, Std.compare_eq_gt, UInt8.lt_iff_toNat_lt, UInt8.lt_iff_toNat_lt,
      UInt8.toNat_add]
    have := byte.toNat_lt
    have : (byte.toNat + 1) % 2 ^ 8 = byte.toNat + 1 := Nat.mod_eq_of_lt (by omega)
    simp only [UInt8.reduceToNat, this]
    omega
  rw [← hnext, bytewise_cons]
  cases compare first (byte + 1) with
  | lt => simp
  | eq => cases key <;> simp [bytewise]
  | gt => simp

/-- A string starts with some bytes if it is neither before them nor at what follows them. -/
theorem isPrefix_iff (start key : Bytes) : start <+: key ↔ bytewise key start ≠ .lt ∧
    ∀ last, following start = some last → bytewise key last = .lt := by
  induction start generalizing key with
  | nil => cases key <;> simp [following, bytewise]
  | cons byte rest ih =>
    cases key with
    | nil => simp [bytewise, List.compare_eq_compareLex]
    | cons first key =>
      rw [List.cons_prefix_cons, bytewise_cons, ih, following]
      -- the first byte decides unless it is the same, and then the rest does
      cases hcmp : compare first byte with
      | lt =>
        have hlt : first < byte := Std.compare_eq_lt.mp hcmp
        simp [(UInt8.ne_of_lt hlt).symm]
      | gt =>
        have hlt : byte < first := Std.compare_eq_gt.mp hcmp
        have hbyte : byte ≠ 255 := by
          rintro rfl
          have := UInt8.lt_iff_toNat_lt.mp hlt
          have := first.toNat_lt
          simp only [UInt8.reduceToNat] at *
          omega
        cases following rest with
        | some last => simp [bytewise_cons, hcmp, UInt8.ne_of_lt hlt]
        | none => simp [bytewise_next_byte hbyte, hcmp, hbyte, UInt8.ne_of_lt hlt]
      | eq =>
        obtain rfl : first = byte := Std.LawfulEqCmp.eq_of_compare hcmp
        cases following rest with
        | some last => simp [bytewise_cons]
        | none =>
          by_cases hbyte : first = 255
          · simp [hbyte]
          · simp [hbyte, bytewise_next_byte hbyte]

/-- A key lies in the range if it starts as it should. -/
theorem contains_startingWith (start key : Bytes) :
    (startingWith start).contains bytewise key = true ↔ start <+: key := by
  rw [isPrefix_iff, startingWith_eq, contains, isBefore, isAfter, Bool.and_eq_true]
  cases following start <;> simp

end KeyRange

end LayeredStore
