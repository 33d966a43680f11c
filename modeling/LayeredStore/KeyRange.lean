import LayeredStore.Bytes

/-!
# Key order and key ranges

Keys are compared by a `Comparator`; the store itself uses `bytewise`, the lexicographic order of
byte strings. A `KeyRange` has a bound on each side, and every scan is asked for one.

The half of a range that a key misses matters to a scan: it skips keys before the range
(`KeyRange.isBefore`) and stops at the first key after it (`KeyRange.isAfter`).
-/

namespace LayeredStore

/-- How the keys of a stream are ordered. -/
abbrev Comparator := Bytes → Bytes → Ordering

/-- The lexicographic order of byte strings; a proper start of a string is before it. -/
def bytewise : Comparator := compare

instance : Std.TransCmp bytewise := inferInstanceAs (Std.TransCmp (compare : Bytes → Bytes → _))

instance : Std.LawfulEqCmp bytewise :=
  inferInstanceAs (Std.LawfulEqCmp (compare : Bytes → Bytes → _))

/-- One side of a range of keys. -/
inductive Bound where
  | unbounded
  | included (key : Bytes)
  | excluded (key : Bytes)
deriving DecidableEq, Repr

/-- A range of keys. -/
structure KeyRange where
  lower : Bound
  upper : Bound
deriving DecidableEq, Repr

namespace KeyRange

/-- Every key. -/
def all : KeyRange := ⟨.unbounded, .unbounded⟩

/-- The keys from `first` on and before `last`; a side that is not given has no bound. -/
def halfOpen (first last : Option Bytes) : KeyRange :=
  ⟨first.elim .unbounded .included, last.elim .unbounded .excluded⟩

/-- The keys from `first` on. -/
def atLeast (first : Bytes) : KeyRange := ⟨.included first, .unbounded⟩

/-- The keys that start with `start`. The first key after all of them is `start` without its
trailing bytes 255 and with the byte before those raised by one; there is none when `start`
consists of bytes 255 alone. -/
def startingWith (start : Bytes) : KeyRange :=
  ⟨.included start,
    match start.reverse.dropWhile (· == 255) with
    | [] => .unbounded
    | byte :: front => .excluded (front.reverse ++ [byte + 1])⟩

/-- Whether a key lies before the range. -/
def isBefore (cmp : Comparator) (range : KeyRange) (key : Bytes) : Bool :=
  match range.lower with
  | .unbounded => false
  | .included first => cmp key first == .lt
  | .excluded first => cmp key first != .gt

/-- Whether a key lies after the range. -/
def isAfter (cmp : Comparator) (range : KeyRange) (key : Bytes) : Bool :=
  match range.upper with
  | .unbounded => false
  | .included last => cmp key last == .gt
  | .excluded last => cmp key last != .lt

/-- Whether a key lies in the range. -/
def contains (cmp : Comparator) (range : KeyRange) (key : Bytes) : Bool :=
  !range.isBefore cmp key && !range.isAfter cmp key

/-- Whether the bounds of a range cross, so that no key can lie between them. -/
def isInverted (range : KeyRange) : Bool :=
  match range.lower, range.upper with
  | .included first, .included last => bytewise first last == .gt
  | .included first, .excluded last
  | .excluded first, .included last
  | .excluded first, .excluded last => bytewise first last != .lt
  | _, _ => false

/-- What comes before a key before a range is before it too. -/
theorem isBefore_of_lt {range : KeyRange} {key other : Bytes} (hlt : bytewise key other = .lt)
    (h : range.isBefore bytewise other = true) : range.isBefore bytewise key = true := by
  simp only [isBefore] at h ⊢
  split at h
  · exact absurd h (by simp)
  · next first _ =>
    have : bytewise key first = .lt := Std.TransCmp.lt_trans hlt (by simpa using h)
    simp [this]
  · next first _ =>
    have : bytewise key first = .lt := by
      refine Std.TransCmp.lt_of_lt_of_isLE hlt ?_
      cases ho : bytewise other first <;> simp_all
    simp [this]

/-- The part of a range that lies after a key. -/
def after (range : KeyRange) (key : Bytes) : KeyRange := { range with lower := .excluded key }

/-- A key before a range is before the part of it that lies after one of its keys. -/
theorem isBefore_after {range : KeyRange} {key other : Bytes}
    (hkey : range.isBefore bytewise key = false) (h : range.isBefore bytewise other = true) :
    (range.after key).isBefore bytewise other = true := by
  suffices bytewise other key = .lt by simp [isBefore, after, this]
  simp only [isBefore] at hkey h
  split at h
  · exact absurd h (by simp)
  · next first _ =>
    refine Std.TransCmp.lt_of_lt_of_isLE (b := first) (by simpa using h) ?_
    rw [@Std.OrientedCmp.eq_swap _ bytewise]
    cases hk : bytewise key first <;> simp_all
  · next first _ =>
    refine Std.TransCmp.lt_of_isLE_of_lt (b := first) ?_ ?_
    · cases ho : bytewise other first <;> simp_all
    · rw [@Std.OrientedCmp.eq_swap _ bytewise]
      cases hk : bytewise key first <;> simp_all

/-- A key is before the part of a range that lies after it. -/
theorem isBefore_after_self (range : KeyRange) (key : Bytes) :
    (range.after key).isBefore bytewise key = true := by
  have : bytewise key key = .eq := Std.ReflCmp.compare_self
  simp [isBefore, after, this]

end KeyRange

end LayeredStore
