/-!
# Heaps

A `Heap` gives its members back one by one, each time one that no other precedes. It is a binary
tree in which no member precedes the one above it, and which is filled level by level from the
left: `Heap.way n` leads to the place that is filled when `n` places are.

Which of several members that tie is given first is settled by how members move. A member rises
only past one that it precedes (`Heap.push`). When the top is taken, the earlier of its two
children takes its place, the right one if neither is earlier, and so on down; the last member
fills the gap that is left at the bottom, and rises from there (`Heap.pop`).

`Heap.toList` gives the members, and `Heap.toList_push` and `Heap.toList_pop` say that neither
operation loses or adds any.
-/

namespace LayeredStore

/-- A binary tree of members. -/
inductive Heap (α : Type) where
  | empty
  | node (top : α) (left right : Heap α)

namespace Heap

variable {α : Type}

/-- The members, each before those below it. -/
def toList : Heap α → List α
  | .empty => []
  | .node top left right => top :: (left.toList ++ right.toList)

/-- The number of members. -/
def size : Heap α → Nat
  | .empty => 0
  | .node _ left right => left.size + right.size + 1

@[simp] theorem length_toList (h : Heap α) : h.toList.length = h.size := by
  induction h with
  | empty => rfl
  | node top left right ihl ihr => simp [toList, size, ihl, ihr]

/-- The member at the top. -/
def top? : Heap α → Option α
  | .empty => none
  | .node top _ _ => some top

/-- The turns from the top to a place, where the places are counted level by level from the left
and `true` is a turn to the right. -/
def way : Nat → List Bool
  | 0 => []
  | n + 1 => way (n / 2) ++ [n % 2 == 1]

/-- A tree whose left part has a new top, which changes places with `top` if it precedes it. -/
def raiseLeft (before : α → α → Bool) (top : α) (left right : Heap α) : Heap α :=
  match left with
  | .empty => .node top .empty right
  | .node a ll lr =>
    if before a top then .node a (.node top ll lr) right else .node top (.node a ll lr) right

/-- A tree whose right part has a new top, which changes places with `top` if it precedes it. -/
def raiseRight (before : α → α → Bool) (top : α) (left right : Heap α) : Heap α :=
  match right with
  | .empty => .node top left .empty
  | .node a rl rr =>
    if before a top then .node a left (.node top rl rr) else .node top left (.node a rl rr)

theorem toList_raiseLeft (before : α → α → Bool) (top : α) (left right : Heap α) :
    (raiseLeft before top left right).toList.Perm (top :: (left.toList ++ right.toList)) := by
  unfold raiseLeft
  split
  · exact .refl _
  · split
    · exact .swap ..
    · exact .refl _

theorem toList_raiseRight (before : α → α → Bool) (top : α) (left right : Heap α) :
    (raiseRight before top left right).toList.Perm (top :: (left.toList ++ right.toList)) := by
  unfold raiseRight
  split
  · exact .refl _
  · split
    · exact ((List.perm_middle.cons _).trans (.swap ..)).trans (List.perm_middle.symm.cons _)
    · exact .refl _

/-- Puts a member at the end of a way and lets it rise. -/
def pushAt (before : α → α → Bool) (a : α) : List Bool → Heap α → Heap α
  | _, .empty => .node a .empty .empty
  | [], .node top left right => raiseLeft before top (pushAt before a [] left) right
  | false :: way, .node top left right =>
    raiseLeft before top (pushAt before a way left) right
  | true :: way, .node top left right =>
    raiseRight before top left (pushAt before a way right)

theorem toList_pushAt (before : α → α → Bool) (a : α) (way : List Bool) (h : Heap α) :
    (pushAt before a way h).toList.Perm (a :: h.toList) := by
  fun_induction pushAt before a way h with
  | case1 => exact .refl _
  | case2 top left right ih | case3 way top left right ih =>
    exact (toList_raiseLeft ..).trans (((ih.append_right _).cons _).trans (.swap ..))
  | case4 way top left right ih =>
    exact (toList_raiseRight ..).trans
      ((((ih.append_left _).trans List.perm_middle).cons _).trans (.swap ..))

/-- Adds a member. -/
def push (before : α → α → Bool) (a : α) (h : Heap α) : Heap α :=
  pushAt before a (way h.size) h

/-- The members after an addition are those before it and the new one. -/
theorem toList_push (before : α → α → Bool) (a : α) (h : Heap α) :
    (h.push before a).toList.Perm (a :: h.toList) :=
  toList_pushAt ..

/-- Takes out the member at the end of a way. Where the way leads out of the tree, the member is
taken on the other side, and where there is no further way, from the left. -/
def takeAt : List Bool → Heap α → Option (α × Heap α)
  | _, .empty => none
  | true :: way, .node top left right =>
    match takeAt way right with
    | some (a, right) => some (a, .node top left right)
    | none =>
      match takeAt way left with
      | some (a, left) => some (a, .node top left right)
      | none => some (top, .empty)
  | way, .node top left right =>
    match takeAt way.tail left with
    | some (a, left) => some (a, .node top left right)
    | none =>
      match takeAt way.tail right with
      | some (a, right) => some (a, .node top left right)
      | none => some (top, .empty)

theorem takeAt_eq_none {way : List Bool} {h : Heap α} (hnone : takeAt way h = none) :
    h = .empty := by
  cases h with
  | empty => rfl
  | node top left right =>
    unfold takeAt at hnone
    grind

theorem toList_takeAt {way : List Bool} {h rest : Heap α} {a : α}
    (htake : takeAt way h = some (a, rest)) : h.toList.Perm (a :: rest.toList) := by
  fun_induction takeAt way h generalizing a rest with
  | case1 => simp at htake
  | case2 way top left right b right' hright ih =>
    obtain ⟨rfl, rfl⟩ := by simpa using htake
    exact perm_right (ih hright)
  | case3 way top left right _ b left' hleft _ ih =>
    obtain ⟨rfl, rfl⟩ := by simpa using htake
    exact perm_left (ih hleft)
  | case4 way top left right hright hleft =>
    obtain ⟨rfl, rfl⟩ := by simpa using htake
    simp [takeAt_eq_none hleft, takeAt_eq_none hright, toList]
  | case5 way top left right _ b left' hleft ih =>
    obtain ⟨rfl, rfl⟩ := by simpa using htake
    exact perm_left (ih hleft)
  | case6 way top left right _ _ b right' hright _ ih =>
    obtain ⟨rfl, rfl⟩ := by simpa using htake
    exact perm_right (ih hright)
  | case7 way top left right _ hleft hright =>
    obtain ⟨rfl, rfl⟩ := by simpa using htake
    simp [takeAt_eq_none hleft, takeAt_eq_none hright, toList]
where
  perm_left {top b : α} {left left' right : Heap α}
      (h : left.toList.Perm (b :: left'.toList)) :
      (node top left right).toList.Perm (b :: (node top left' right).toList) :=
    ((h.append_right _).cons _).trans (.swap ..)
  perm_right {top b : α} {left right right' : Heap α}
      (h : right.toList.Perm (b :: right'.toList)) :
      (node top left right).toList.Perm (b :: (node top left right').toList) :=
    (((h.append_left _).trans List.perm_middle).cons _).trans (.swap ..)

/-- The tree without its top: the earlier child takes its place, and so on down. The gap at the
bottom is filled with `a`, which rises from there. -/
def replaceTop (before : α → α → Bool) (a : α) : Heap α → Heap α
  | .empty => .node a .empty .empty
  | .node _ left right =>
    match left.top?, right.top? with
    | none, none => .node a .empty .empty
    | some x, none => raiseLeft before x (replaceTop before a left) right
    | none, some y => raiseRight before y left (replaceTop before a right)
    | some x, some y =>
      if before x y then raiseLeft before x (replaceTop before a left) right
      else raiseRight before y left (replaceTop before a right)

/-- The members other than the top. -/
def others (h : Heap α) : List α := h.toList.tail

theorem toList_of_top? {h : Heap α} {x : α} (htop : h.top? = some x) :
    h.toList = x :: h.others := by
  cases h with
  | empty => simp [top?] at htop
  | node top left right =>
    obtain rfl : top = x := by simpa [top?] using htop
    rfl

theorem toList_of_top?_eq_none {h : Heap α} (htop : h.top? = none) : h.toList = [] := by
  cases h with
  | empty => rfl
  | node top left right => simp [top?] at htop

theorem toList_replaceTop (before : α → α → Bool) (a : α) (h : Heap α) :
    (replaceTop before a h).toList.Perm (a :: h.others) := by
  induction h with
  | empty => exact .refl _
  | node top left right ihl ihr =>
    have hleft {x : α} (hx : left.top? = some x) :
        (raiseLeft before x (replaceTop before a left) right).toList.Perm
          (a :: (left.toList ++ right.toList)) := by
      refine (toList_raiseLeft ..).trans (((ihl.append_right _).cons _).trans ?_)
      rw [toList_of_top? hx]
      exact .swap ..
    have hright {y : α} (hy : right.top? = some y) :
        (raiseRight before y left (replaceTop before a right)).toList.Perm
          (a :: (left.toList ++ right.toList)) := by
      refine (toList_raiseRight ..).trans (((ihr.append_left _).cons _).trans ?_)
      rw [toList_of_top? hy]
      exact ((List.perm_middle.cons _).trans (.swap ..)).trans (List.perm_middle.symm.cons _)
    unfold replaceTop
    split
    · next hl hr => simp [toList_of_top?_eq_none hl, toList_of_top?_eq_none hr, toList, others]
    · next hl _ => exact hleft hl
    · next _ hr => exact hright hr
    · next hl hr =>
      split
      · exact hleft hl
      · exact hright hr

/-- Takes out the top. -/
def pop (before : α → α → Bool) (h : Heap α) : Option (α × Heap α) :=
  match takeAt (way (h.size - 1)) h with
  | none => none
  | some (last, rest) =>
    match rest.top? with
    | none => some (last, .empty)
    | some top => some (top, replaceTop before last rest)

/-- Only an empty heap has nothing to give. -/
theorem pop_eq_none_iff {before : α → α → Bool} {h : Heap α} :
    h.pop before = none ↔ h = .empty := by
  constructor
  · intro hpop
    unfold pop at hpop
    split at hpop
    · next htake => exact takeAt_eq_none htake
    · split at hpop <;> simp at hpop
  · rintro rfl
    rfl

/-- The members are the one that is taken out and those that stay. -/
theorem toList_pop {before : α → α → Bool} {h rest : Heap α} {a : α}
    (hpop : h.pop before = some (a, rest)) : h.toList.Perm (a :: rest.toList) := by
  unfold pop at hpop
  split at hpop
  · simp at hpop
  · next last left htake =>
    have htaken := toList_takeAt htake
    split at hpop <;> obtain ⟨rfl, rfl⟩ := by simpa using hpop
    · next htop => simpa [toList_of_top?_eq_none htop, toList] using htaken
    · next htop =>
      rw [toList_of_top? htop] at htaken
      exact htaken.trans ((List.Perm.swap ..).trans ((toList_replaceTop ..).symm.cons _))

end Heap

end LayeredStore
