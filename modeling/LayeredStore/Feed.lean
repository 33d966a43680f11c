import LayeredStore.Disk
import LayeredStore.Pull

/-!
# Streams over a changing disk

What a scan reads from files depends on the disk at that moment. A `Feed` is a stream for every
disk, all with one bound on the items that are left, so that a program which draws from it and
changes the disk between two items comes to an end.
-/

namespace LayeredStore

/-- A way to draw items from states of type `σ` while the disk changes. -/
structure Feed (σ : Type) where
  /-- The stream while the disk is as given. -/
  on : Disk → Pull σ
  /-- The bound does not depend on the disk. -/
  left_on : ∀ d d', (on d).left = (on d').left

namespace Feed

variable {σ : Type}

/-- The items of a list, whatever the disk. -/
def items : Feed (List Item) where
  on _ := Pull.items
  left_on _ _ := rfl

/-- A bound on the number of items that a state can still give. -/
def left (p : Feed σ) (s : σ) : Nat := (p.on .empty).left s

theorem left_next (p : Feed σ) {d : Disk} {s : σ} {item : Item} {s' : σ}
    (h : (p.on d).next s = (some item, s')) : p.left s' < p.left s := by
  have := (p.on d).left_next h
  rwa [p.left_on d .empty] at this

end Feed

end LayeredStore
