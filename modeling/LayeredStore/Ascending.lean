import LayeredStore.Entry
import LayeredStore.KeyRange

/-!
# Ascending lists of entries

A buffer, a run and the answer to a scan are all lists of entries whose keys ascend strictly, so
that each key occurs at most once. `insertEntry` keeps such a list ascending while it adds or
replaces an entry.
-/

namespace LayeredStore

/-- The keys of a list of entries ascend strictly. -/
def Ascending (cmp : Comparator) (entries : List Entry) : Prop :=
  entries.Pairwise fun a b => cmp a.key b.key = .lt

instance (cmp : Comparator) (entries : List Entry) : Decidable (Ascending cmp entries) :=
  inferInstanceAs (Decidable (entries.Pairwise _))

/-- An ascending list with an entry added, or put in the place of the one with its key. -/
def insertEntry (e : Entry) : List Entry → List Entry
  | [] => [e]
  | x :: rest =>
    match bytewise e.key x.key with
    | .lt => e :: x :: rest
    | .eq => e :: rest
    | .gt => x :: insertEntry e rest

/-- What an insertion leaves in the list was there before or is the new entry. -/
theorem mem_of_mem_insertEntry {e x : Entry} {entries : List Entry}
    (h : x ∈ insertEntry e entries) : x = e ∨ x ∈ entries := by
  induction entries with
  | nil => simpa [insertEntry] using h
  | cons y rest ih =>
    simp only [insertEntry] at h
    split at h
    · simpa using h
    · rcases List.mem_cons.mp h with h | h
      · exact .inl h
      · exact .inr (List.mem_cons_of_mem _ h)
    · rcases List.mem_cons.mp h with h | h
      · exact .inr (h ▸ List.mem_cons_self)
      · exact (ih h).imp id (List.mem_cons_of_mem _)

/-- An entry is inserted after all entries with smaller keys. -/
theorem insertEntry_append_of_forall_lt {e : Entry} {front rest : List Entry}
    (h : ∀ x ∈ front, bytewise x.key e.key = .lt) :
    insertEntry e (front ++ rest) = front ++ insertEntry e rest := by
  induction front with
  | nil => rfl
  | cons x front ih =>
    have hgt : bytewise e.key x.key = .gt :=
      Std.OrientedCmp.gt_of_lt (h x List.mem_cons_self)
    simp [insertEntry, hgt, ih fun y hy => h y (List.mem_cons_of_mem _ hy)]

/-- An entry is inserted before the first entry with a larger key. -/
theorem insertEntry_append_of_lt {e x : Entry} {front rest : List Entry}
    (h : bytewise e.key x.key = .lt) :
    insertEntry e (front ++ x :: rest) = insertEntry e front ++ x :: rest := by
  induction front with
  | nil => simp [insertEntry, h]
  | cons y front ih =>
    simp only [insertEntry, List.cons_append]
    split
    · rfl
    · rfl
    · simp [ih]

theorem ascending_insertEntry (e : Entry) {entries : List Entry}
    (h : Ascending bytewise entries) : Ascending bytewise (insertEntry e entries) := by
  induction entries with
  | nil => simp [insertEntry, Ascending]
  | cons y rest ih =>
    have ⟨hy, hrest⟩ := List.pairwise_cons.mp h
    simp only [insertEntry]
    split
    · next hlt =>
      refine List.pairwise_cons.mpr ⟨fun a ha => ?_, h⟩
      rcases List.mem_cons.mp ha with rfl | ha
      · exact hlt
      · exact Std.TransCmp.lt_trans hlt (hy a ha)
    · next heq =>
      have : e.key = y.key := Std.LawfulEqCmp.eq_of_compare heq
      exact List.pairwise_cons.mpr ⟨fun a ha => this ▸ hy a ha, hrest⟩
    · next hgt =>
      refine List.pairwise_cons.mpr ⟨fun a ha => ?_, ih hrest⟩
      rcases mem_of_mem_insertEntry ha with rfl | ha
      · exact Std.OrientedCmp.lt_of_gt hgt
      · exact hy a ha

end LayeredStore
