/-!
# Sorting

`sortBy` puts a list in order by insertion from its end, which takes one look for each element of
a list that is in order already. The names in a folder mostly are.
-/

namespace LayeredStore

variable {α : Type}

/-- A list with an element put before the first one that it does not come after. -/
def insertBy (le : α → α → Bool) (a : α) : List α → List α
  | [] => [a]
  | b :: rest => if le a b then a :: b :: rest else b :: insertBy le a rest

/-- The elements of a list in order. -/
def sortBy (le : α → α → Bool) (elements : List α) : List α :=
  elements.foldr (insertBy le) []

theorem insertBy_perm (le : α → α → Bool) (a : α) (elements : List α) :
    (insertBy le a elements).Perm (a :: elements) := by
  fun_induction insertBy le a elements with
  | case1 => exact .refl _
  | case2 => exact .refl _
  | case3 b rest _ ih => exact (ih.cons b).trans (.swap a b rest)

/-- Sorting neither loses nor adds anything. -/
theorem sortBy_perm (le : α → α → Bool) (elements : List α) :
    (sortBy le elements).Perm elements := by
  induction elements with
  | nil => exact .refl _
  | cons a rest ih => exact (insertBy_perm le a _).trans (ih.cons a)

theorem pairwise_insertBy {le : α → α → Bool} (trans : ∀ a b c, le a b → le b c → le a c)
    (total : ∀ a b, le a b || le b a) (a : α) {elements : List α}
    (h : elements.Pairwise fun x y => le x y) :
    (insertBy le a elements).Pairwise fun x y => le x y := by
  fun_induction insertBy le a elements with
  | case1 => simp
  | case2 b rest hab =>
    refine .cons (fun y hy => ?_) h
    rcases List.mem_cons.mp hy with rfl | hy
    · exact hab
    · exact trans a b y hab (List.rel_of_pairwise_cons h hy)
  | case3 b rest hab ih =>
    refine .cons (fun y hy => ?_) (ih h.of_cons)
    rcases List.mem_cons.mp ((insertBy_perm le a rest).mem_iff.mp hy) with rfl | hy
    · simpa [hab] using total b y
    · exact List.rel_of_pairwise_cons h hy

/-- What was sorted is in order. -/
theorem pairwise_sortBy {le : α → α → Bool} (trans : ∀ a b c, le a b → le b c → le a c)
    (total : ∀ a b, le a b || le b a) (elements : List α) :
    (sortBy le elements).Pairwise fun x y => le x y := by
  induction elements with
  | nil => exact .nil
  | cons a rest ih => exact pairwise_insertBy trans total a ih

end LayeredStore
