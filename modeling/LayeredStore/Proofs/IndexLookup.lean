import LayeredStore.Index
import LayeredStore.Proofs.BlockRecords
import Mathlib.Data.List.Forall2

/-!
# Looking up an index

The index of a run holds the first keys of its blocks. `Index.place` finds the last block that
begins at or before a key (`place_spec`), and `Index.select` the blocks of a range: no block that
it leaves out has a key in the range (`cut_flatten_select`).
-/

namespace LayeredStore

namespace Index

/-! ## Places -/

/-- The first keys of an index ascend. -/
def Sorted (index : Index) : Prop :=
  index.Pairwise fun a b => bytewise a.firstKey b.firstKey = .lt

variable {index : Index} {key : Bytes}

/-- Whether the block at a place begins at or before a key. -/
def beginsBy (index : Index) (key : Bytes) (i : Nat) : Bool :=
  index[i]?.any fun block => bytewise block.firstKey key != .gt

/-- Blocks before one that begins at or before a key begin at or before it too. -/
theorem beginsBy_of_le (hsorted : index.Sorted) {i j : Nat} (hij : i ≤ j)
    (h : index.beginsBy key j = true) : index.beginsBy key i = true := by
  simp only [beginsBy, Option.any_eq_true, bne_iff_ne, ne_eq] at h ⊢
  obtain ⟨block, hblock, hkey⟩ := h
  obtain ⟨hj, rfl⟩ := List.getElem?_eq_some_iff.mp hblock
  have hi : i < index.length := by omega
  refine ⟨index[i], List.getElem?_eq_getElem hi, fun hgt => ?_⟩
  rcases Nat.lt_or_eq_of_le hij with hlt | rfl
  · have hfirst := List.pairwise_iff_getElem.mp hsorted i j hi hj hlt
    have : bytewise key index[j].firstKey = .lt :=
      Std.TransCmp.lt_trans (Std.OrientedCmp.lt_of_gt hgt) hfirst
    exact hkey (Std.OrientedCmp.gt_of_lt this)
  · exact hkey hgt

theorem placeWithin_spec (hsorted : index.Sorted) {first size : Nat} (hsize : 0 < size)
    (hbound : first + size ≤ index.length) (hfirst : first = 0 ∨ index.beginsBy key first = true)
    (hafter : ∀ i, first + size ≤ i → index.beginsBy key i = false) :
    index.placeWithin key first size < index.length ∧
      (index.placeWithin key first size = 0 ∨
        index.beginsBy key (index.placeWithin key first size) = true) ∧
      ∀ i, index.placeWithin key first size < i → index.beginsBy key i = false := by
  fun_induction placeWithin index key first size with
  | case1 first size hle =>
    have : size = 1 := by omega
    subst this
    exact ⟨by omega, hfirst, fun i hi => hafter i (by omega)⟩
  | case2 first size hsize₁ middle hmiddle ih =>
    exact ih (by omega) (by omega) (.inr hmiddle) (fun i hi => hafter i (by omega))
  | case3 first size hsize₁ middle hmiddle ih =>
    have hmiddle : index.beginsBy key middle = false := eq_false_of_ne_true hmiddle
    refine ih (by omega) (by omega) hfirst fun i hi => ?_
    by_cases him : index.beginsBy key i = true
    · have := beginsBy_of_le hsorted (by omega : middle ≤ i) him
      simp [hmiddle] at this
    · exact eq_false_of_ne_true him

/-- The place of a key: the block there begins at or before it unless it is the first, and no
block after it does. -/
theorem place_spec (hsorted : index.Sorted) (key : Bytes) :
    (index.place key = 0 ∨ index.beginsBy key (index.place key) = true) ∧
      ∀ i, index.place key < i → index.beginsBy key i = false := by
  have hout : ∀ i, index.length ≤ i → index.beginsBy key i = false := by
    intro i hi
    simp [beginsBy, List.getElem?_eq_none hi]
  by_cases hempty : index.length = 0
  · have hplace : index.place key = 0 := by
      rw [place, hempty, placeWithin, if_pos (by omega)]
    exact ⟨.inl hplace, fun i _ => hout i (by omega)⟩
  · have h := placeWithin_spec hsorted (by omega : 0 < index.length)
      (by omega) (.inl rfl) (fun i hi => hout i (by omega))
    exact h.2

end Index

/-! ## Blocks of a range -/

/-- A block of entries is described by an index entry with its first key. -/
def BlockRef.Heads (ref : BlockRef) (block : List Entry) : Prop :=
  block.head?.map Entry.key = some ref.firstKey

/-- If nothing at the front and nothing from some point on lies in a range, then the part between
holds all that does. -/
theorem KeyRange.cut_flatten_slice {range : KeyRange} {blocks : List (List Entry)}
    {first last : Nat} (hfront : ∀ block ∈ blocks.take first, range.cut block = [])
    (hback : ∀ block ∈ blocks.drop last, range.cut block = []) :
    range.cut blocks.flatten = range.cut ((blocks.take last).drop first).flatten := by
  have hnil {list : List (List Entry)} (h : ∀ block ∈ list, range.cut block = []) :
      range.cut list.flatten = [] := by
    induction list with
    | nil => rfl
    | cons block list ih =>
      rw [List.flatten_cons, cut_append, h block List.mem_cons_self,
        ih fun b hb => h b (List.mem_cons_of_mem _ hb)]
      rfl
  have hfront' : ∀ block ∈ (blocks.take last).take first, range.cut block = [] := by
    intro block hblock
    rw [List.take_take] at hblock
    exact hfront block (List.take_subset_take_left _ (Nat.min_le_left _ _) hblock)
  calc range.cut blocks.flatten
      = range.cut (blocks.take last).flatten ++ range.cut (blocks.drop last).flatten := by
        rw [← cut_append, ← List.flatten_append, List.take_append_drop]
    _ = range.cut (blocks.take last).flatten := by rw [hnil hback, List.append_nil]
    _ = range.cut ((blocks.take last).take first).flatten ++
          range.cut ((blocks.take last).drop first).flatten := by
        rw [← cut_append, ← List.flatten_append, List.take_append_drop]
    _ = range.cut ((blocks.take last).drop first).flatten := by
        rw [hnil hfront', List.nil_append]

namespace Index

variable {index : Index} {blocks : List (List Entry)}

/-- The first keys of blocks that ascend as a whole ascend. -/
theorem sorted_of_ascending (hrefs : List.Forall₂ BlockRef.Heads index blocks)
    (hasc : Ascending bytewise blocks.flatten) : index.Sorted := by
  induction hrefs with
  | nil => exact .nil
  | @cons ref block index blocks hhead hrest ih =>
    rw [List.flatten_cons] at hasc
    obtain ⟨-, hasc', hcross⟩ := List.pairwise_append.mp hasc
    refine .cons (fun other hother => ?_) (ih hasc')
    obtain ⟨i, hi, rfl⟩ := List.getElem_of_mem hother
    have hi' : i < blocks.length := hrest.length_eq ▸ hi
    have hother : (index[i]).Heads blocks[i] := List.Forall₂.get hrest hi hi'
    simp only [BlockRef.Heads, Option.map_eq_some_iff] at hhead hother
    obtain ⟨e, he, hkey⟩ := hhead
    obtain ⟨e', he', hkey'⟩ := hother
    rw [← hkey, ← hkey']
    exact hcross e (List.mem_of_head? he) e'
      (List.mem_flatten.mpr ⟨_, List.getElem_mem hi', List.mem_of_head? he'⟩)

/-- What comes before a block that begins at or before a key comes before the key. -/
theorem lt_of_mem_take (hrefs : List.Forall₂ BlockRef.Heads index blocks)
    (hasc : Ascending bytewise blocks.flatten) {key : Bytes} {first : Nat}
    (hfirst : first = 0 ∨ index.beginsBy key first = true) :
    ∀ block ∈ blocks.take first, ∀ e ∈ block, bytewise e.key key = .lt := by
  intro block hblock e he
  rcases hfirst with rfl | hfirst
  · simp at hblock
  · simp only [beginsBy, Option.any_eq_true, bne_iff_ne, ne_eq] at hfirst
    obtain ⟨ref, href, hkey⟩ := hfirst
    obtain ⟨hlt, rfl⟩ := List.getElem?_eq_some_iff.mp href
    have hlt' : first < blocks.length := hrefs.length_eq ▸ hlt
    have hhead : (index[first]).Heads blocks[first] := List.Forall₂.get hrefs hlt hlt'
    simp only [BlockRef.Heads, Option.map_eq_some_iff] at hhead
    obtain ⟨e', he', hkey'⟩ := hhead
    have hsplit : blocks = blocks.take first ++ blocks[first] :: blocks.drop (first + 1) := by
      rw [← List.drop_eq_getElem_cons, List.take_append_drop]
    rw [hsplit, List.flatten_append, List.flatten_cons] at hasc
    have hcross := (List.pairwise_append.mp hasc).2.2 e (List.mem_flatten.mpr ⟨_, hblock, he⟩) e'
      (List.mem_append_left _ (List.mem_of_head? he'))
    rw [hkey'] at hcross
    refine Std.TransCmp.lt_of_lt_of_isLE hcross ?_
    cases hc : bytewise index[first].firstKey key with
    | lt => rfl
    | eq => rfl
    | gt => exact absurd hc hkey

/-- The first key of a block is not after any key of the block. -/
theorem firstKey_le (hrefs : List.Forall₂ BlockRef.Heads index blocks)
    (hasc : Ascending bytewise blocks.flatten) {i : Nat} (hi : i < index.length)
    (hi' : i < blocks.length) {e : Entry} (he : e ∈ blocks[i]) :
    (bytewise index[i].firstKey e.key).isLE := by
  have hhead : (index[i]).Heads blocks[i] := List.Forall₂.get hrefs hi hi'
  simp only [BlockRef.Heads, Option.map_eq_some_iff] at hhead
  obtain ⟨e', he', hkey'⟩ := hhead
  have hblock : Ascending bytewise blocks[i] :=
    List.Pairwise.sublist (List.sublist_flatten_of_mem (List.getElem_mem hi')) hasc
  cases hb : blocks[i] with
  | nil => simp [hb] at he
  | cons x rest =>
    rw [hb] at he he' hblock
    obtain rfl : x = e' := by simpa using he'
    rw [← hkey']
    rcases List.mem_cons.mp he with rfl | he
    · have : bytewise e.key e.key = .eq := Std.ReflCmp.compare_self
      rw [this]
      rfl
    · rw [(List.pairwise_cons.mp hblock).1 e he]
      rfl

/-- The blocks from `upTo` on hold no key that the upper bound lets in. -/
theorem notBefore_of_mem_drop (hrefs : List.Forall₂ BlockRef.Heads index blocks)
    (hasc : Ascending bytewise blocks.flatten) {key : Bytes} {included : Ordering → Bool}
    (hlt : included .lt = true) (hgt : included .gt = false) :
    ∀ block ∈ blocks.drop (index.upTo key included), ∀ e ∈ block,
      included (bytewise e.key key) = false := by
  have hsorted := sorted_of_ascending hrefs hasc
  obtain ⟨-, hafter⟩ := place_spec hsorted key
  intro block hblock e he
  obtain ⟨i, hfrom, hi, rfl⟩ : ∃ i, index.upTo key included ≤ i ∧
      ∃ hi : i < blocks.length, blocks[i] = block := by
    obtain ⟨j, hj, hget⟩ := List.mem_drop_iff_getElem.mp hblock
    exact ⟨_, by omega, by omega, hget⟩
  have hi' : i < index.length := hrefs.length_eq ▸ hi
  -- the first key of the block is not let in
  have hfirst : included (bytewise index[i].firstKey key) = false := by
    by_cases hplace : index.place key < i
    · have := hafter i hplace
      simp only [beginsBy, List.getElem?_eq_getElem hi', Option.any_some, bne_eq_false_iff_eq] at this
      rw [this, hgt]
    · simp only [upTo] at hfrom
      split at hfrom
      · omega
      · next hnot =>
        have : i = index.place key := by omega
        subst this
        simpa [List.getElem?_eq_getElem hi'] using hnot
  have hle := firstKey_le hrefs hasc hi' hi he
  -- nor is any key from there on
  cases hk : bytewise e.key key with
  | gt => exact hgt
  | lt =>
    have := Std.TransCmp.lt_of_isLE_of_lt hle hk
    simp [this, hlt] at hfirst
  | eq =>
    cases hf : bytewise index[i].firstKey key with
    | lt => simp [hf, hlt] at hfirst
    | eq => rwa [hf] at hfirst
    | gt =>
      have := Std.TransCmp.isLE_trans hle (by rw [hk]; rfl : (bytewise e.key key).isLE)
      simp [hf] at this

/-- The place of the first block that a range selects. -/
def firstPlace (index : Index) (range : KeyRange) : Nat :=
  match range.lower with
  | .unbounded => 0
  | .included key | .excluded key => index.place key

/-- The place after the last block that a range selects. -/
def lastPlace (index : Index) (range : KeyRange) : Nat :=
  match range.upper with
  | .unbounded => index.length
  | .included key => index.upTo key (· != .gt)
  | .excluded key => index.upTo key (· == .lt)

theorem select_eq (index : Index) (range : KeyRange) :
    index.select range = (index.take (index.lastPlace range)).drop (index.firstPlace range) := rfl

/-- What comes before the first selected block lies before the range. -/
theorem isBefore_of_mem_take (hrefs : List.Forall₂ BlockRef.Heads index blocks)
    (hasc : Ascending bytewise blocks.flatten) (range : KeyRange) :
    ∀ block ∈ blocks.take (index.firstPlace range), ∀ e ∈ block,
      range.isBefore bytewise e.key = true := by
  have hlt (key : Bytes) := lt_of_mem_take hrefs hasc
    (place_spec (sorted_of_ascending hrefs hasc) key).1
  intro block hblock e he
  unfold firstPlace at hblock
  cases hlower : range.lower with
  | unbounded => simp [hlower] at hblock
  | included key =>
    rw [hlower] at hblock
    simp [KeyRange.isBefore, hlower, hlt key block hblock e he]
  | excluded key =>
    rw [hlower] at hblock
    simp [KeyRange.isBefore, hlower, hlt key block hblock e he]

/-- What comes after the last selected block lies after the range. -/
theorem isAfter_of_mem_drop (hrefs : List.Forall₂ BlockRef.Heads index blocks)
    (hasc : Ascending bytewise blocks.flatten) (range : KeyRange) :
    ∀ block ∈ blocks.drop (index.lastPlace range), ∀ e ∈ block,
      range.isAfter bytewise e.key = true := by
  intro block hblock e he
  unfold lastPlace at hblock
  cases hupper : range.upper with
  | unbounded =>
    rw [hupper] at hblock
    dsimp only at hblock
    rw [hrefs.length_eq, List.drop_length] at hblock
    cases hblock
  | included key =>
    rw [hupper] at hblock
    have hnot := notBefore_of_mem_drop hrefs hasc rfl rfl block hblock e he
    simpa [KeyRange.isAfter, hupper] using hnot
  | excluded key =>
    rw [hupper] at hblock
    have hnot := notBefore_of_mem_drop hrefs hasc rfl rfl block hblock e he
    simpa [KeyRange.isAfter, hupper] using hnot

/-- No block that a range does not select holds a key of the range. -/
theorem cut_flatten_select (hrefs : List.Forall₂ BlockRef.Heads index blocks)
    (hasc : Ascending bytewise blocks.flatten) (range : KeyRange) :
    ∃ first last, index.select range = (index.take last).drop first ∧
      range.cut blocks.flatten = range.cut ((blocks.take last).drop first).flatten := by
  refine ⟨_, _, index.select_eq range, KeyRange.cut_flatten_slice ?_ ?_⟩
  · intro block hblock
    refine List.filter_eq_nil_iff.mpr fun e he => ?_
    simp [KeyRange.contains, isBefore_of_mem_take hrefs hasc range block hblock e he]
  · intro block hblock
    refine List.filter_eq_nil_iff.mpr fun e he => ?_
    simp [KeyRange.contains, isAfter_of_mem_drop hrefs hasc range block hblock e he]

end Index

end LayeredStore
