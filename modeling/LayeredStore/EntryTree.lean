import LayeredStore.Ascending

/-!
# Search trees of entries

An ascending list of entries that is to be searched and written to often is kept as a binary
tree, in which the heights of the two sides of a node differ by one at most. `EntryTree.toList`
is the list, and the operations are stated by what they do to it:

* `toList_insert`: an insertion into the tree is `insertEntry` on the list;
* `get?_eq_find?` and `first?_eq_find?`: a search of the tree finds what a search of the list
  finds, in the latter case for a condition that holds of all entries from some point on.
-/

namespace LayeredStore

/-- A binary tree of entries, with the height of each part. -/
inductive EntryTree where
  | leaf
  | node (height : Nat) (left : EntryTree) (entry : Entry) (right : EntryTree)
deriving DecidableEq, Repr

namespace EntryTree

/-- The entries from left to right. -/
def toList : EntryTree → List Entry
  | .leaf => []
  | .node _ left entry right => left.toList ++ entry :: right.toList

/-- The number of entries. -/
def size : EntryTree → Nat
  | .leaf => 0
  | .node _ left _ right => left.size + right.size + 1

@[simp] theorem length_toList (t : EntryTree) : t.toList.length = t.size := by
  induction t with
  | leaf => rfl
  | node height left entry right ihl ihr =>
    simp only [toList, size, List.length_append, List.length_cons, ihl, ihr]
    omega

/-- Whether there are no entries. -/
def isEmpty : EntryTree → Bool
  | .leaf => true
  | .node _ _ _ _ => false

@[simp] theorem isEmpty_toList (t : EntryTree) : t.toList.isEmpty = t.isEmpty := by
  cases t <;> simp [toList, isEmpty]

/-- The length of the longest way down. -/
def height : EntryTree → Nat
  | .leaf => 0
  | .node height _ _ _ => height

/-- The tree of an entry and what lies on both sides of it. -/
def join (left : EntryTree) (entry : Entry) (right : EntryTree) : EntryTree :=
  .node (max left.height right.height + 1) left entry right

@[simp] theorem toList_join (left : EntryTree) (entry : Entry) (right : EntryTree) :
    (join left entry right).toList = left.toList ++ entry :: right.toList := rfl

/-- The tree of an entry and what lies on both sides of it, the left side being too high by one.
An entry from the left side becomes the top. -/
def leanRight (left : EntryTree) (entry : Entry) (right : EntryTree) : EntryTree :=
  match left with
  | .leaf => join left entry right
  | .node _ ll le lr =>
    if lr.height ≤ ll.height then join ll le (join lr entry right)
    else
      match lr with
      | .leaf => join left entry right
      | .node _ lrl lre lrr => join (join ll le lrl) lre (join lrr entry right)

/-- The tree of an entry and what lies on both sides of it, the right side being too high by one.
An entry from the right side becomes the top. -/
def leanLeft (left : EntryTree) (entry : Entry) (right : EntryTree) : EntryTree :=
  match right with
  | .leaf => join left entry right
  | .node _ rl re rr =>
    if rl.height ≤ rr.height then join (join left entry rl) re rr
    else
      match rl with
      | .leaf => join left entry right
      | .node _ rll rle rlr => join (join left entry rll) rle (join rlr re rr)

/-- The tree of an entry and what lies on both sides of it, one of which may be too high by
one. -/
def balance (left : EntryTree) (entry : Entry) (right : EntryTree) : EntryTree :=
  if right.height + 1 < left.height then leanRight left entry right
  else if left.height + 1 < right.height then leanLeft left entry right
  else join left entry right

theorem toList_leanRight (left : EntryTree) (entry : Entry) (right : EntryTree) :
    (leanRight left entry right).toList = left.toList ++ entry :: right.toList := by
  unfold leanRight
  split
  · rfl
  · split
    · simp [toList]
    · split <;> simp [toList]

theorem toList_leanLeft (left : EntryTree) (entry : Entry) (right : EntryTree) :
    (leanLeft left entry right).toList = left.toList ++ entry :: right.toList := by
  unfold leanLeft
  split
  · rfl
  · split
    · simp [toList]
    · split <;> simp [toList]

/-- Balancing keeps the entries and their order. -/
@[simp] theorem toList_balance (left : EntryTree) (entry : Entry) (right : EntryTree) :
    (balance left entry right).toList = left.toList ++ entry :: right.toList := by
  unfold balance
  split
  · exact toList_leanRight ..
  · split
    · exact toList_leanLeft ..
    · rfl

/-- Adds an entry, or puts it in the place of the one with its key. -/
def insert (e : Entry) : EntryTree → EntryTree
  | .leaf => join .leaf e .leaf
  | .node height left entry right =>
    match bytewise e.key entry.key with
    | .lt => balance (left.insert e) entry right
    | .eq => .node height left e right
    | .gt => balance left entry (right.insert e)

/-- The entries of a tree that ascends, seen from its top. -/
theorem ascending_node {height : Nat} {left right : EntryTree} {entry : Entry}
    (h : Ascending bytewise (node height left entry right).toList) :
    Ascending bytewise left.toList ∧ Ascending bytewise right.toList ∧
      (∀ x ∈ left.toList, bytewise x.key entry.key = .lt) ∧
      (∀ x ∈ right.toList, bytewise entry.key x.key = .lt) := by
  obtain ⟨hleft, hright, hcross⟩ := List.pairwise_append.mp h
  obtain ⟨habove, hright⟩ := List.pairwise_cons.mp hright
  exact ⟨hleft, hright, fun x hx => hcross x hx entry List.mem_cons_self, habove⟩

/-- In a tree that ascends, an insertion is one into the list of the entries. -/
theorem toList_insert {e : Entry} {t : EntryTree} (h : Ascending bytewise t.toList) :
    (t.insert e).toList = insertEntry e t.toList := by
  induction t with
  | leaf => rfl
  | node height left entry right ihl ihr =>
    obtain ⟨hleft, hright, hbelow, habove⟩ := ascending_node h
    simp only [insert]
    split
    · next hlt =>
      simp only [toList_balance, ihl hleft, toList]
      exact (insertEntry_append_of_lt hlt).symm
    · next heq =>
      simp only [toList]
      rw [insertEntry_append_of_forall_lt fun x hx => ?_]
      · simp [insertEntry, heq]
      · exact (Std.LawfulEqCmp.eq_of_compare heq) ▸ hbelow x hx
    · next hgt =>
      simp only [toList_balance, ihr hright, toList]
      rw [insertEntry_append_of_forall_lt fun x hx => ?_]
      · simp [insertEntry, hgt]
      · exact Std.TransCmp.lt_trans (hbelow x hx) (Std.OrientedCmp.lt_of_gt hgt)

/-- The entry with a key. -/
def get? (key : Bytes) : EntryTree → Option Entry
  | .leaf => none
  | .node _ left entry right =>
    match bytewise key entry.key with
    | .lt => left.get? key
    | .eq => some entry
    | .gt => right.get? key

theorem get?_eq_find? {key : Bytes} {t : EntryTree} (h : Ascending bytewise t.toList) :
    t.get? key = t.toList.find? fun e => e.key == key := by
  induction t with
  | leaf => rfl
  | node height left entry right ihl ihr =>
    obtain ⟨hleft, hright, hbelow, habove⟩ := ascending_node h
    have ne_of_lt {a b : Bytes} (hlt : bytewise a b = .lt) : (a == b) = false := by
      rw [beq_eq_false_iff_ne]
      rintro rfl
      simp [Std.ReflCmp.compare_self] at hlt
    have skip (entries : List Entry) (hne : ∀ x ∈ entries, (x.key == key) = false) :
        entries.find? (fun e => e.key == key) = none := by simpa using hne
    simp only [get?, toList, List.find?_append, List.find?_cons]
    split
    · next hlt =>
      have hnot {b : Bytes} (h : bytewise key b = .lt) : (b == key) = false := by
        rw [BEq.comm]
        exact ne_of_lt h
      rw [ihl hleft, hnot hlt,
        skip right.toList fun x hx => hnot (Std.TransCmp.lt_trans hlt (habove x hx))]
      simp
    · next heq =>
      obtain rfl := Std.LawfulEqCmp.eq_of_compare heq
      rw [skip left.toList fun x hx => ne_of_lt (hbelow x hx)]
      simp
    · next hgt =>
      have hlt := Std.OrientedCmp.lt_of_gt hgt
      rw [ihr hright, ne_of_lt hlt,
        skip left.toList fun x hx => ne_of_lt (Std.TransCmp.lt_trans (hbelow x hx) hlt)]
      simp

/-- The first entry of which a condition holds that holds of all entries after it too. -/
def first? (p : Entry → Bool) : EntryTree → Option Entry
  | .leaf => none
  | .node _ left entry right =>
    if p entry then (left.first? p).or (some entry) else right.first? p

theorem first?_eq_find? {p : Entry → Bool} {t : EntryTree} (h : Ascending bytewise t.toList)
    (hp : ∀ a b, bytewise a.key b.key = .lt → p a = true → p b = true) :
    t.first? p = t.toList.find? p := by
  induction t with
  | leaf => rfl
  | node height left entry right ihl ihr =>
    obtain ⟨hleft, hright, hbelow, _⟩ := ascending_node h
    simp only [first?, toList, List.find?_append, List.find?_cons]
    split
    · next hentry => simp [ihl hleft, hentry]
    · next hentry =>
      have hnone : left.toList.find? p = none := by
        rw [List.find?_eq_none]
        exact fun x hx hpx => hentry (hp x entry (hbelow x hx) hpx)
      simp [ihr hright, hentry, hnone]

end EntryTree

end LayeredStore
