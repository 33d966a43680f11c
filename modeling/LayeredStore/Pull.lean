import LayeredStore.Entry
import LayeredStore.KeyRange

/-!
# Pull streams

Every scan of the store is lazy: it is a state that gives one item at a time. A `Pull σ` is how
states of type `σ` do so. It carries a bound on the items that a state can still give, and the
proof that each item lowers the bound; so every loop over a stream ends, whatever the stream
reads from.

* `Pull.items` gives the items of a list.
* `Pull.drain` collects what is left, `Pull.take` calls a stream a number of times.
* `Pull.find` skips items; `Pull.within` keeps the entries of a key range and `Pull.live` drops
  tombstones. Errors pass through both.
-/

namespace LayeredStore

/-- A way to draw items from states of type `σ`. -/
structure Pull (σ : Type) where
  /-- The next item, if there is one, and the state after it. -/
  next : σ → Option Item × σ
  /-- A bound on the number of items that a state can still give. -/
  left : σ → Nat
  /-- Each item lowers the bound. -/
  left_next : ∀ {s : σ} {item : Item} {s' : σ}, next s = (some item, s') → left s' < left s

namespace Pull

variable {σ : Type}

/-- The items of a list, front to back. -/
def items : Pull (List Item) where
  next
    | [] => (none, [])
    | item :: rest => (some item, rest)
  left := List.length
  left_next := by
    intro s item s' h
    cases s <;> simp_all

/-- All that a state still gives, and the state in which it ends. -/
def drain (p : Pull σ) (s : σ) : List Item × σ :=
  match h : p.next s with
  | (none, s') => ([], s')
  | (some item, s') =>
    have : p.left s' < p.left s := p.left_next h
    let (rest, last) := p.drain s'
    (item :: rest, last)
termination_by p.left s

/-- All that a state still gives. -/
def toList (p : Pull σ) (s : σ) : List Item := (p.drain s).1

/-- The answers to `n` calls, and the state after them. -/
def take (p : Pull σ) : (n : Nat) → (s : σ) → List (Option Item) × σ
  | 0, s => ([], s)
  | n + 1, s =>
    let (answer, s') := p.next s
    let (answers, last) := p.take n s'
    (answer :: answers, last)

/-- The next item that is not to be skipped. -/
def find (p : Pull σ) (skip : Item → Bool) (s : σ) : Option Item × σ :=
  match h : p.next s with
  | (none, s') => (none, s')
  | (some item, s') =>
    have : p.left s' < p.left s := p.left_next h
    if skip item then p.find skip s' else (some item, s')
termination_by p.left s

theorem left_find (p : Pull σ) (skip : Item → Bool) {s : σ} {item : Item} {s' : σ}
    (h : p.find skip s = (some item, s')) : p.left s' < p.left s := by
  fun_induction p.find skip s with
  | case1 => simp at h
  | case2 s found next hnext hlt _ ih => exact Nat.lt_trans (ih h) hlt
  | case3 s found next hnext hlt _ =>
    simp only [Prod.mk.injEq] at h
    exact h.2 ▸ hlt

/-- Drops tombstones. This is the last step of every scan of a store. -/
def live (p : Pull σ) : Pull σ where
  next := p.find fun
    | .ok entry => entry.isTombstone
    | .error _ => false
  left := p.left
  left_next := p.left_find _

end Pull

/-- A stream cut to a key range. It is `done` once a key after the range has been seen. -/
structure Within (σ : Type) where
  range : KeyRange
  inner : σ
  done : Bool := false

namespace Pull

variable {σ : Type}

/-- Skips the entries before the range and ends at the first entry after it. The stream must be
sorted by the same order for this to give all entries of the range. -/
def within (cmp : Comparator) (p : Pull σ) : Pull (Within σ) where
  next w :=
    if w.done then (none, w)
    else
      let skip : Item → Bool
        | .ok entry => w.range.isBefore cmp entry.key && !w.range.isAfter cmp entry.key
        | .error _ => false
      match p.find skip w.inner with
      | (none, inner) => (none, { w with inner })
      | (some (.error e), inner) => (some (.error e), { w with inner })
      | (some (.ok entry), inner) =>
        if w.range.isAfter cmp entry.key then (none, { w with inner, done := true })
        else (some (.ok entry), { w with inner })
  left w := p.left w.inner
  left_next := by
    intro w item w' h
    simp only at h
    split at h
    · simp at h
    · split at h
      · simp at h
      · next hfind =>
        simp only [Prod.mk.injEq] at h
        exact h.2 ▸ p.left_find _ hfind
      · next hfind =>
        split at h
        · simp at h
        · simp only [Prod.mk.injEq] at h
          exact h.2 ▸ p.left_find _ hfind

end Pull

end LayeredStore
