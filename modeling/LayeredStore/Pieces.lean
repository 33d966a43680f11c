import LayeredStore.Bytes

/-!
# Bytes gathered piece by piece

A byte string that only grows at its end is kept as the pieces of which it was made, so that
adding one does not copy what was there before. `Pieces.bytes` is the string; `bytes_push` says
what an addition does to it.
-/

namespace LayeredStore

/-- A byte string in pieces. -/
structure Pieces where
  /-- The pieces, last one first. -/
  reversed : List Bytes
  /-- The length of the whole. -/
  length : Nat
  length_eq : length = reversed.flatten.length
deriving DecidableEq, Repr

namespace Pieces

/-- No bytes. -/
def empty : Pieces := ⟨[], 0, rfl⟩

/-- A byte string in one piece. -/
def ofBytes (b : Bytes) : Pieces := ⟨[b], b.length, by simp⟩

/-- The bytes with a piece added at the end. -/
def push (p : Pieces) (piece : Bytes) : Pieces where
  reversed := piece :: p.reversed
  length := piece.length + p.length
  length_eq := by simp [p.length_eq]

/-- The whole string. -/
def bytes (p : Pieces) : Bytes := p.reversed.reverse.flatten

/-- Whether there are no bytes. -/
def isEmpty (p : Pieces) : Bool := p.length == 0

@[simp] theorem bytes_empty : empty.bytes = [] := rfl

@[simp] theorem bytes_ofBytes (b : Bytes) : (ofBytes b).bytes = b := by simp [ofBytes, bytes]

@[simp] theorem bytes_push (p : Pieces) (piece : Bytes) :
    (p.push piece).bytes = p.bytes ++ piece := by
  simp [push, bytes]

@[simp] theorem length_bytes (p : Pieces) : p.bytes.length = p.length := by
  simp [bytes, p.length_eq, List.length_flatten, List.sum_reverse]

end Pieces

end LayeredStore
