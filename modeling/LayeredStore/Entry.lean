import LayeredStore.Bytes
import LayeredStore.Error

/-!
# Entries

An entry is a key with a value, or with none: a *tombstone*, which records that the key was
deleted. A run file stores key and value lengths in fixed widths, so not every entry can be
stored; `Entry.check` says which can.
-/

namespace LayeredStore

/-- A key with its value; without a value, the mark that the key was deleted. -/
structure Entry where
  key : Bytes
  value : Option Bytes
deriving DecidableEq, Repr

namespace Entry

/-- The entry that gives `key` a value. -/
def put (key value : Bytes) : Entry := ⟨key, some value⟩

/-- The entry that deletes `key`. -/
def tombstone (key : Bytes) : Entry := ⟨key, none⟩

/-- Whether an entry deletes its key. -/
def isTombstone (e : Entry) : Bool := e.value.isNone

/-- The bytes that an entry counts for in a buffer: those of its key and of its value. -/
def size (e : Entry) : Nat := e.key.length + (e.value.map List.length).getD 0

/-- The entry itself, unless it is a tombstone. -/
def live? (e : Entry) : Option Entry := if e.isTombstone then none else some e

theorem live?_eq_some_iff {e x : Entry} : e.live? = some x ↔ e.isTombstone = false ∧ e = x := by
  rw [live?]
  split
  · next hdead => simp [hdead]
  · next hlive => simp [hlive]

/-- The longest key that a run can hold: key lengths take two bytes. -/
def maxKeyLength : Nat := UInt16.size - 1

/-- The stored value length that marks a tombstone; a value is shorter than this. -/
def tombstoneMark : Nat := UInt32.size - 1

/-- Refuses an entry that no run can hold. Of two faults the key's is reported. -/
def check (e : Entry) : Except StoreError Unit :=
  if maxKeyLength < e.key.length then
    .error (.keyTooLong e.key.length)
  else match e.value with
    | some v => if tombstoneMark ≤ v.length then .error (.valueTooLong v.length) else .ok ()
    | none => .ok ()

/-- An entry that a run can hold. -/
def Storable (e : Entry) : Prop :=
  e.key.length ≤ maxKeyLength ∧ ∀ v, e.value = some v → v.length < tombstoneMark

instance (e : Entry) : Decidable e.Storable := inferInstanceAs
  (Decidable (e.key.length ≤ maxKeyLength ∧ ∀ v ∈ e.value, v.length < tombstoneMark))

theorem check_eq_ok_iff {e : Entry} : e.check = .ok () ↔ e.Storable := by
  obtain ⟨key, value⟩ := e
  simp only [check, Storable, ← Nat.not_lt]
  split
  · next h => simp [h]
  · next h =>
    cases value with
    | none => simp [h]
    | some v =>
      simp only [Option.some.injEq, forall_eq', h, not_false_eq_true, true_and]
      split
      · next hv => simp only [reduceCtorEq, false_iff]; omega
      · next hv => simp only [true_iff]; omega

/-- An entry that no run can hold is refused as an operation that nothing allows. -/
theorem of_check_eq_error {e : Entry} {cause : StoreError} (h : e.check = .error cause) :
    ¬ e.Storable ∧ ∃ text, cause = .invalidOperation text := by
  constructor
  · intro hstorable
    rw [check_eq_ok_iff.mpr hstorable] at h
    cases h
  · unfold check at h
    split at h
    · cases h
      exact ⟨_, rfl⟩
    split at h
    · split at h
      · cases h
        exact ⟨_, rfl⟩
      · cases h
    · cases h

end Entry

/-- What a stream of entries gives at each step: an entry, or the report that it broke. -/
abbrev Item := Except StoreError Entry

end LayeredStore
