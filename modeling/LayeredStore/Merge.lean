import LayeredStore.Heap
import LayeredStore.Pull

/-!
# Recency merge

Several sorted streams are merged into one. Every source has a rank, and a larger rank is newer
data: of the entries with one key only that of the highest rank is given, tombstones included,
and the others are skipped. A source that reports an error is dropped; its error is given at the
next step, before any further entry.

A `Merge` holds the first entry of every source that has one (`Merge.heads`) and the errors not
given yet. `Pull.merge` is the stream of a merge whose sources are drawn from by `p`. The heads
are kept in a heap. Ranks are meant to differ; of entries with one key and one rank the heap
settles which is given.
-/

namespace LayeredStore

/-- A source of a merge whose next entry is known. -/
structure Head (σ : Type) where
  entry : Entry
  rank : Nat
  rest : σ

/-- Whether `a` is to be given before `b`: a smaller key first, and of one key the newer entry. -/
def Head.precedes {σ : Type} (cmp : Comparator) (a b : Head σ) : Bool :=
  match cmp a.entry.key b.entry.key with
  | .lt => true
  | .gt => false
  | .eq => decide (b.rank < a.rank)

/-- A merge under way. -/
structure Merge (σ : Type) where
  /-- The sources that are not exhausted. -/
  heads : Heap (Head σ)
  /-- The errors that are still to be reported, oldest first. -/
  errors : List StoreError

namespace Merge

variable {σ : Type}

/-- The number of items that a merge can still give because of some heads is at most this. -/
def leftFrom (p : Pull σ) (heads : List (Head σ)) : Nat :=
  heads.foldr (fun head count => p.left head.rest + 1 + count) 0

theorem leftFrom_perm (p : Pull σ) {heads heads' : List (Head σ)} (h : heads.Perm heads') :
    leftFrom p heads = leftFrom p heads' := by
  rw [leftFrom, leftFrom]
  exact h.foldr_eq' (fun _ _ _ _ _ => by omega) 0

theorem leftFrom_cons (p : Pull σ) (head : Head σ) (heads : List (Head σ)) :
    leftFrom p (head :: heads) = p.left head.rest + 1 + leftFrom p heads := rfl

/-- The number of items that a merge can still give is at most this. -/
def left (p : Pull σ) (m : Merge σ) : Nat := m.errors.length + leftFrom p m.heads.toList

theorem left_congr {p q : Pull σ} (h : p.left = q.left) : left p = left q := by
  funext m
  simp only [left, leftFrom, h]

/-- A merge in words: how many sources have an entry waiting, and how many errors wait. -/
def describe (m : Merge σ) : String :=
  s!"MergeIterator \x7b heads: {m.heads.size}, pending_errors: {m.errors.length} \x7d"

/-- Draws the next entry of a source into the merge. -/
def draw (p : Pull σ) (cmp : Comparator) (m : Merge σ) (rank : Nat) (source : σ) : Merge σ :=
  match p.next source with
  | (some (.ok entry), rest) =>
    { m with heads := m.heads.push (Head.precedes cmp) ⟨entry, rank, rest⟩ }
  | (some (.error e), _) => { m with errors := m.errors ++ [e] }
  | (none, _) => m

/-- The merge of ranked sources, drawn from in the order of the list. -/
def ofSources (p : Pull σ) (cmp : Comparator) (sources : List (Nat × σ)) : Merge σ :=
  sources.foldl (fun m source => m.draw p cmp source.1 source.2) ⟨.empty, []⟩

theorem left_of_pop (p : Pull σ) {cmp : Comparator} {m : Merge σ} {heads : Heap (Head σ)}
    {best : Head σ} (h : m.heads.pop (Head.precedes cmp) = some (best, heads)) :
    m.left p = left p ⟨heads, m.errors⟩ + (p.left best.rest + 1) := by
  have := leftFrom_perm p (Heap.toList_pop h)
  rw [leftFrom_cons] at this
  simp only [left]
  omega

theorem left_draw_le (p : Pull σ) (cmp : Comparator) (m : Merge σ) (rank : Nat) (source : σ) :
    (m.draw p cmp rank source).left p ≤ m.left p + p.left source := by
  simp only [draw]
  split
  · next entry rest hnext =>
    have := p.left_next hnext
    have := leftFrom_perm p (Heap.toList_push (Head.precedes cmp) ⟨entry, rank, rest⟩ m.heads)
    simp only [leftFrom_cons] at this
    simp only [left]
    omega
  · next hnext =>
    have := p.left_next hnext
    simp only [left, List.length_append, List.length_cons, List.length_nil]
    omega
  · omega

/-- Skips every head whose key is `key` in the sense of the comparator. -/
def skipKey (p : Pull σ) (cmp : Comparator) (key : Bytes) (m : Merge σ) : Merge σ :=
  match h : m.heads.pop (Head.precedes cmp) with
  | none => m
  | some (best, heads) =>
    if cmp best.entry.key key == .eq then
      have : ((Merge.mk heads m.errors).draw p cmp best.rank best.rest).left p < m.left p := by
        have := left_of_pop p h
        have := left_draw_le p cmp ⟨heads, m.errors⟩ best.rank best.rest
        omega
      ((Merge.mk heads m.errors).draw p cmp best.rank best.rest).skipKey p cmp key
    else m
termination_by m.left p

theorem left_skipKey_le (p : Pull σ) (cmp : Comparator) (key : Bytes) (m : Merge σ) :
    (m.skipKey p cmp key).left p ≤ m.left p := by
  fun_induction m.skipKey p cmp key with
  | case1 => exact Nat.le_refl _
  | case2 m best heads h _ hlt ih => exact Nat.le_of_lt (Nat.lt_of_le_of_lt ih hlt)
  | case3 => exact Nat.le_refl _

/-- The next item: an error that is waiting, or else the first entry of all heads, whose older
versions are skipped. -/
def next (p : Pull σ) (cmp : Comparator) (m : Merge σ) : Option Item × Merge σ :=
  match m.errors with
  | e :: errors => (some (.error e), { m with errors })
  | [] =>
    match m.heads.pop (Head.precedes cmp) with
    | none => (none, m)
    | some (best, heads) =>
      let rest := (Merge.mk heads m.errors).draw p cmp best.rank best.rest
      (some (.ok best.entry), rest.skipKey p cmp best.entry.key)

end Merge

/-- The stream of a merge. -/
def Pull.merge {σ : Type} (cmp : Comparator) (p : Pull σ) : Pull (Merge σ) where
  next := Merge.next p cmp
  left := Merge.left p
  left_next := by
    intro m item m' h
    simp only [Merge.next] at h
    split at h
    · next e errors herrors =>
      simp only [Prod.mk.injEq] at h
      obtain ⟨_, rfl⟩ := h
      simp only [Merge.left, herrors, List.length_cons]
      omega
    · split at h
      · simp at h
      · next best heads hpop =>
        simp only [Prod.mk.injEq] at h
        obtain ⟨_, rfl⟩ := h
        have hskip := Merge.left_skipKey_le p cmp best.entry.key
          ((Merge.mk heads m.errors).draw p cmp best.rank best.rest)
        have := Merge.left_draw_le p cmp ⟨heads, m.errors⟩ best.rank best.rest
        have := Merge.left_of_pop p hpop
        omega

end LayeredStore
