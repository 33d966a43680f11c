import LayeredStore.Heap

/-!
# The order of a heap

`Heap.Ordered` says that no member of a heap precedes one above it. Both operations keep it:

* `Heap.Ordered.push` for an addition;
* `Heap.Ordered.pop` for taking the top out, and no member that stays precedes the one taken.

What is asked of `before` is that it is a strict order up to ties (`Precedence`).
-/

namespace LayeredStore

namespace Heap

variable {α : Type} {before : α → α → Bool}

/-- `before` orders its arguments up to ties. -/
structure Precedence (before : α → α → Bool) : Prop where
  asymm : ∀ {a b}, before a b = true → before b a = false
  trans : ∀ {a b c}, before b a = false → before c b = false → before c a = false

/-- No member precedes one above it. -/
def Ordered (before : α → α → Bool) : Heap α → Prop
  | .empty => True
  | .node top left right =>
    (∀ x ∈ left.toList ++ right.toList, before x top = false) ∧
      left.Ordered before ∧ right.Ordered before

/-- Only one member `a` of the left part may precede the top for it to be raised in order. -/
theorem ordered_raiseLeft (hb : Precedence before) {top a : α} {rest : List α}
    {left right : Heap α} (hleft : left.Ordered before) (hright : right.Ordered before)
    (hperm : left.toList.Perm (a :: rest)) (hrest : ∀ x ∈ rest, before x top = false)
    (habove : ∀ x ∈ right.toList, before x top = false) :
    (raiseLeft before top left right).Ordered before := by
  cases left with
  | empty => exact absurd hperm.length_eq (by simp [toList])
  | node b ll lr =>
    obtain ⟨hbelow, hll, hlr⟩ := hleft
    simp only [raiseLeft]
    by_cases hswap : before b top = true
    · rw [if_pos hswap]
      -- whatever is raised is the one member that may precede the top
      have hba : b = a := by
        rcases List.mem_cons.mp (hperm.mem_iff.mp (by simp [toList] : b ∈ _)) with h | h
        · exact h
        · simp [hrest b h] at hswap
      subst hba
      have hsub : (ll.toList ++ lr.toList).Perm rest := (List.perm_cons b).mp hperm
      refine ⟨?_, ⟨fun x hx => hrest x (hsub.mem_iff.mp hx), hll, hlr⟩, hright⟩
      intro x hx
      rcases List.mem_append.mp hx with hx | hx
      · rcases List.mem_cons.mp hx with rfl | hx
        · exact hb.asymm hswap
        · exact hbelow x hx
      · exact hb.trans (hb.asymm hswap) (habove x hx)
    · rw [if_neg hswap]
      have hbt : before b top = false := by simpa using hswap
      refine ⟨?_, ⟨hbelow, hll, hlr⟩, hright⟩
      intro x hx
      rcases List.mem_append.mp hx with hx | hx
      · rcases List.mem_cons.mp hx with rfl | hx
        · exact hbt
        · exact hb.trans hbt (hbelow x hx)
      · exact habove x hx

/-- Raising on the right is raising on the left of the mirrored tree. -/
theorem ordered_raiseRight (hb : Precedence before) {top a : α} {rest : List α}
    {left right : Heap α} (hleft : left.Ordered before) (hright : right.Ordered before)
    (hperm : right.toList.Perm (a :: rest)) (hrest : ∀ x ∈ rest, before x top = false)
    (habove : ∀ x ∈ left.toList, before x top = false) :
    (raiseRight before top left right).Ordered before := by
  have mirror {t : α} {l r : Heap α} (h : (node t l r).Ordered before) :
      (node t r l).Ordered before :=
    ⟨fun x hx => h.1 x (List.perm_append_comm.mem_iff.mp hx), h.2.2, h.2.1⟩
  have hraised := ordered_raiseLeft hb hright hleft hperm hrest habove
  cases right with
  | empty => exact mirror hraised
  | node b rl rr =>
    simp only [raiseLeft] at hraised
    simp only [raiseRight]
    by_cases hswap : before b top = true
    · rw [if_pos hswap] at hraised ⊢
      exact mirror hraised
    · rw [if_neg hswap] at hraised ⊢
      exact mirror hraised

theorem ordered_pushAt (hb : Precedence before) (a : α) (way : List Bool) {h : Heap α}
    (hord : h.Ordered before) : (pushAt before a way h).Ordered before := by
  fun_induction pushAt before a way h with
  | case1 => exact ⟨by simp [toList], trivial, trivial⟩
  | case2 top left right ih | case3 way top left right ih =>
    obtain ⟨hbelow, hl, hr⟩ := hord
    exact ordered_raiseLeft hb (ih hl) hr (toList_pushAt ..)
      (fun x hx => hbelow x (List.mem_append_left _ hx))
      (fun x hx => hbelow x (List.mem_append_right _ hx))
  | case4 way top left right ih =>
    obtain ⟨hbelow, hl, hr⟩ := hord
    exact ordered_raiseRight hb hl (ih hr) (toList_pushAt ..)
      (fun x hx => hbelow x (List.mem_append_right _ hx))
      (fun x hx => hbelow x (List.mem_append_left _ hx))

/-- An addition keeps a heap in order. -/
theorem Ordered.push (hb : Precedence before) (a : α) {h : Heap α} (hord : h.Ordered before) :
    (h.push before a).Ordered before :=
  ordered_pushAt hb a _ hord

/-- A part taken out of a tree leaves the order of the others. -/
theorem ordered_takeAt {way : List Bool} {h rest : Heap α} {a : α}
    (htake : takeAt way h = some (a, rest)) (hord : h.Ordered before) :
    rest.Ordered before := by
  have keepLeft {top b : α} {left left' right : Heap α}
      (hord : (node top left right).Ordered before) (hleft' : left'.Ordered before)
      (hperm : left.toList.Perm (b :: left'.toList)) :
      (node top left' right).Ordered before := by
    refine ⟨fun x hx => hord.1 x ?_, hleft', hord.2.2⟩
    rcases List.mem_append.mp hx with hx | hx
    · exact List.mem_append_left _ (hperm.mem_iff.mpr (List.mem_cons_of_mem _ hx))
    · exact List.mem_append_right _ hx
  have keepRight {top b : α} {left right right' : Heap α}
      (hord : (node top left right).Ordered before) (hright' : right'.Ordered before)
      (hperm : right.toList.Perm (b :: right'.toList)) :
      (node top left right').Ordered before := by
    refine ⟨fun x hx => hord.1 x ?_, hord.2.1, hright'⟩
    rcases List.mem_append.mp hx with hx | hx
    · exact List.mem_append_left _ hx
    · exact List.mem_append_right _ (hperm.mem_iff.mpr (List.mem_cons_of_mem _ hx))
  fun_induction takeAt way h generalizing a rest with
  | case1 => simp at htake
  | case2 way top left right b right' hright ih =>
    obtain ⟨rfl, rfl⟩ := by simpa using htake
    exact keepRight hord (ih hright hord.2.2) (toList_takeAt hright)
  | case3 way top left right _ b left' hleft _ ih =>
    obtain ⟨rfl, rfl⟩ := by simpa using htake
    exact keepLeft hord (ih hleft hord.2.1) (toList_takeAt hleft)
  | case4 | case7 =>
    obtain ⟨rfl, rfl⟩ := by simpa using htake
    exact trivial
  | case5 way top left right _ b left' hleft ih =>
    obtain ⟨rfl, rfl⟩ := by simpa using htake
    exact keepLeft hord (ih hleft hord.2.1) (toList_takeAt hleft)
  | case6 way top left right _ _ b right' hright _ ih =>
    obtain ⟨rfl, rfl⟩ := by simpa using htake
    exact keepRight hord (ih hright hord.2.2) (toList_takeAt hright)

/-- What is taken out is not the top unless nothing is left. -/
theorem top?_of_takeAt {way : List Bool} {h rest : Heap α} {a t : α}
    (htake : takeAt way h = some (a, rest)) (htop : rest.top? = some t) : h.top? = some t := by
  cases h with
  | empty => simp [takeAt] at htake
  | node top left right =>
    unfold takeAt at htake
    grind [top?]

/-- No member precedes the top. -/
theorem Ordered.top {h : Heap α} {t : α} (hord : h.Ordered before) (htop : h.top? = some t) :
    ∀ x ∈ h.others, before x t = false := by
  cases h with
  | empty => simp [top?] at htop
  | node top left right =>
    obtain rfl : top = t := by simpa [top?] using htop
    exact hord.1

theorem ordered_replaceTop (hb : Precedence before) (a : α) {h : Heap α}
    (hord : h.Ordered before) : (replaceTop before a h).Ordered before := by
  induction h with
  | empty => exact ⟨by simp [toList], trivial, trivial⟩
  | node top left right ihl ihr =>
    obtain ⟨-, hl, hr⟩ := hord
    have above {x y : α} {h : Heap α} (hx : before y x = false) (hord : h.Ordered before)
        (htop : h.top? = some y) : ∀ z ∈ h.toList, before z x = false := by
      intro z hz
      rw [toList_of_top? htop] at hz
      rcases List.mem_cons.mp hz with rfl | hz
      · exact hx
      · exact hb.trans hx (hord.top htop z hz)
    unfold replaceTop
    split
    · exact ⟨by simp [toList], trivial, trivial⟩
    · next x htop hnone =>
      exact ordered_raiseLeft hb (ihl hl) hr (toList_replaceTop ..) (hl.top htop)
        (by simp [toList_of_top?_eq_none hnone])
    · next y hnone htop =>
      exact ordered_raiseRight hb hl (ihr hr) (toList_replaceTop ..) (hr.top htop)
        (by simp [toList_of_top?_eq_none hnone])
    · next x y hx hy =>
      -- the one that is raised precedes the other, and with it all that is below the other
      by_cases hxy : before x y = true
      · rw [if_pos hxy]
        exact ordered_raiseLeft hb (ihl hl) hr (toList_replaceTop ..) (hl.top hx)
          (above (hb.asymm hxy) hr hy)
      · rw [if_neg hxy]
        exact ordered_raiseRight hb hl (ihr hr) (toList_replaceTop ..) (hr.top hy)
          (above (by simpa using hxy) hl hx)

/-- Taking the top out keeps a heap in order, and no member that stays precedes the one taken. -/
theorem Ordered.pop (hb : Precedence before) {h rest : Heap α} {a : α}
    (hord : h.Ordered before) (hpop : h.pop before = some (a, rest)) :
    rest.Ordered before ∧ ∀ x ∈ rest.toList, before x a = false := by
  unfold Heap.pop at hpop
  split at hpop
  · simp at hpop
  · next last left htake =>
    have hleft := ordered_takeAt htake hord
    split at hpop <;> obtain ⟨rfl, rfl⟩ := by simpa using hpop
    · exact ⟨trivial, by simp [toList]⟩
    · next htop =>
      refine ⟨ordered_replaceTop hb last hleft, fun x hx => ?_⟩
      rcases List.mem_cons.mp ((toList_replaceTop ..).mem_iff.mp hx) with rfl | hx
      · -- the member that fills the gap was below the top before
        have htaken := toList_takeAt htake
        rw [toList_of_top? (top?_of_takeAt htake htop), toList_of_top? htop] at htaken
        have hothers := (List.perm_cons _).mp (htaken.trans (.swap ..))
        exact hord.top (top?_of_takeAt htake htop) x (hothers.mem_iff.mpr List.mem_cons_self)
      · exact hleft.top htop x hx

end Heap

end LayeredStore
