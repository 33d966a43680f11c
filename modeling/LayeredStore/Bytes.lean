/-!
# Byte strings

Keys, values and file contents are lists of bytes. This module holds the cuts and the
big-endian numbers from which every stored format is built:

* `Bytes.split?` takes a fixed number of bytes off the front, or fails;
* `Bytes.ofNat` and `Bytes.toNat` write and read a number in a fixed width.
-/

namespace LayeredStore

/-- A string of bytes. -/
abbrev Bytes := List UInt8

namespace Bytes

/-- The first `n` bytes and the rest; nothing when there are fewer than `n`. -/
def split? (n : Nat) (b : Bytes) : Option (Bytes × Bytes) :=
  let front := b.take n
  if front.length = n then some (front, b.drop n) else none

/-- A cut succeeds on any input that starts with `n` bytes, and leaves what follows them. -/
theorem split?_append (front rest : Bytes) :
    split? front.length (front ++ rest) = some (front, rest) := by
  simp [split?]

/-- A cut loses nothing: the two parts are the input, and the first has the asked length. -/
theorem eq_append_of_split? {n : Nat} {b front rest : Bytes}
    (h : split? n b = some (front, rest)) : b = front ++ rest ∧ front.length = n := by
  simp only [split?] at h
  split at h
  · next hlen =>
    simp only [Option.some.injEq, Prod.mk.injEq] at h
    obtain ⟨rfl, rfl⟩ := h
    exact ⟨(List.take_append_drop n b).symm, hlen⟩
  · exact absurd h (by simp)

/-- A cut fails exactly when the input is too short. -/
theorem split?_eq_none_iff {n : Nat} {b : Bytes} : split? n b = none ↔ b.length < n := by
  simp only [split?]
  split
  · next h => simp only [List.length_take] at h; simp; omega
  · next h => simp only [List.length_take] at h; simp; omega

/-- What a cut leaves is shorter by what it took. -/
theorem length_of_split? {n : Nat} {b front rest : Bytes}
    (h : split? n b = some (front, rest)) : rest.length + n = b.length := by
  obtain ⟨rfl, rfl⟩ := eq_append_of_split? h
  simp [Nat.add_comm]

/-- The number `n` in `width` bytes, most significant first. Higher digits are dropped. -/
def ofNat : (width : Nat) → (n : Nat) → Bytes
  | 0, _ => []
  | width + 1, n => ofNat width (n / 256) ++ [UInt8.ofNat n]

/-- The number that a byte string spells, most significant byte first. -/
def toNat (b : Bytes) : Nat :=
  b.foldl (fun n byte => n * 256 + byte.toNat) 0

@[simp] theorem length_ofNat (width n : Nat) : (ofNat width n).length = width := by
  induction width generalizing n with
  | zero => rfl
  | succ width ih => simp [ofNat, ih]

theorem toNat_concat (b : Bytes) (byte : UInt8) :
    toNat (b ++ [byte]) = toNat b * 256 + byte.toNat := by
  simp [toNat]

/-- The length of the longest common start of two byte strings. -/
def sharedPrefix (a b : Bytes) : Nat :=
  ((a.zip b).takeWhile fun pair => pair.1 == pair.2).length

theorem sharedPrefix_cons (x y : UInt8) (a b : Bytes) :
    sharedPrefix (x :: a) (y :: b) = if x = y then sharedPrefix a b + 1 else 0 := by
  simp only [sharedPrefix, List.zip_cons_cons, List.takeWhile_cons, beq_iff_eq]
  split <;> simp

theorem sharedPrefix_le_left (a b : Bytes) : sharedPrefix a b ≤ a.length := by
  induction a generalizing b with
  | nil => simp [sharedPrefix]
  | cons x a ih =>
    cases b with
    | nil => simp [sharedPrefix]
    | cons y b =>
      rw [sharedPrefix_cons, List.length_cons]
      split
      · exact Nat.succ_le_succ (ih b)
      · exact Nat.zero_le _

/-- The shared start is the same in both strings. -/
theorem take_sharedPrefix (a b : Bytes) :
    a.take (sharedPrefix a b) = b.take (sharedPrefix a b) := by
  induction a generalizing b with
  | nil => simp [sharedPrefix]
  | cons x a ih =>
    cases b with
    | nil => simp [sharedPrefix]
    | cons y b =>
      rw [sharedPrefix_cons]
      split
      · next h => simp [h, ih b]
      · simp

end Bytes

end LayeredStore
