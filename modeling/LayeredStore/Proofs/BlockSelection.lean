import LayeredStore.Proofs.LayerScans
import Mathlib.Data.List.TakeDrop

/-!
# The blocks that a range selects

An index has only the first key of each block, so of the first selected block it is not known where the
range begins in it, nor where it ends in the last one. `select_blocks` says that this is all that is left
open: the selected blocks lie together, every other block lies outside the range, and all but the first
and the last lie in it. A range whose bounds cross may select blocks too, but a scan cuts what they hold
to the range (`Pull.contains_of_mem_within`), where nothing is left.
-/

namespace LayeredStore

/-! ## Cuts to a range -/

namespace Pull

variable {σ : Type} {p : Pull σ}

theorem not_skipped_of_find {skip : Item → Bool} {s s' : σ} {item : Item}
    (h : p.find skip s = (some item, s')) : skip item = false := by
  fun_induction p.find skip s with
  | case1 => cases h
  | case2 s found next hnext _ hskip ih => exact ih h
  | case3 s found next hnext _ hskip =>
    obtain ⟨rfl, -⟩ : found = item ∧ next = s' := by simpa using h
    simpa using hskip

/-- A step of a cut gives an entry of the range, or an error, and goes on with the same range. -/
theorem contains_of_within_next {w w' : Within σ} {item : Item}
    (h : (p.within bytewise).next w = (some item, w')) : w'.range = w.range ∧
      ∀ e, item = .ok e → w.range.contains bytewise e.key = true := by
  obtain ⟨range, inner, done⟩ := w
  cases done with
  | true => cases h
  | false =>
    rw [within_next] at h
    split at h
    · cases h
    · simp only [Prod.mk.injEq, Option.some.injEq] at h
      obtain ⟨rfl, rfl⟩ := h
      refine ⟨rfl, fun x hx => ?_⟩
      cases hx
    · next e inner' hfind =>
      split at h
      · cases h
      · next hafter =>
        simp only [Prod.mk.injEq, Option.some.injEq] at h
        obtain ⟨rfl, rfl⟩ := h
        refine ⟨rfl, fun x hx => ?_⟩
        obtain rfl := Except.ok.inj hx
        -- it was not skipped, so it does not lie before the range either
        have hskip : skips range e = false := not_skipped_of_find hfind
        have hafter : range.isAfter bytewise e.key = false := by simpa using hafter
        simpa [skips, KeyRange.contains, hafter] using hskip

/-- What a cut to a range gives lies in the range, whatever is cut. -/
theorem contains_of_mem_within {w : Within σ} {e : Entry}
    (h : .ok e ∈ (p.within bytewise).toList w) : w.range.contains bytewise e.key = true := by
  have hgives := gives_toList (p.within bytewise) w
  generalize (p.within bytewise).toList w = items at h hgives
  induction hgives with
  | done => cases h
  | @item w w' item items hnext _ ih =>
    obtain ⟨hrange, hin⟩ := contains_of_within_next (hnext ())
    rcases List.mem_cons.mp h with hfirst | hrest
    · exact hin e hfirst.symm
    · exact hrange ▸ ih hrest

end Pull

namespace RunFile

variable {run : RunFile} {d : Disk} {range : KeyRange}

theorem range_of_scan {w : Within Cursor} (h : run.scan d range = .ok w) : w.range = range := by
  have hsought {sought : Except StoreError Cursor}
      (h : (sought.map fun inner => Within.mk range inner false) = .ok w) : w.range = range := by
    cases sought with
    | error cause => cases h
    | ok inner => exact Except.ok.inj h ▸ rfl
  exact hsought h

/-- A scan of a run gives entries of its range only, whatever the index and the blocks are. -/
theorem contains_of_mem_toList {e : Entry} (h : .ok e ∈ run.toList d range) :
    range.contains bytewise e.key = true := by
  unfold toList at h
  cases hscan : run.scan d range with
  | error cause => simp [hscan] at h
  | ok w =>
    rw [hscan] at h
    exact range_of_scan hscan ▸ Pull.contains_of_mem_within h

end RunFile

/-! ## The slice -/

namespace Index

variable {index : Index} {blocks : List (List Entry)}

/-- What comes after the first selected block does not lie before the range. -/
theorem notBefore_of_mem_drop_succ (hrefs : List.Forall₂ BlockRef.Heads index blocks)
    (hasc : Ascending bytewise blocks.flatten) (range : KeyRange) :
    ∀ block ∈ blocks.drop (index.firstPlace range + 1), ∀ e ∈ block,
      range.isBefore bytewise e.key = false := by
  have hlater (key : Bytes) : ∀ block ∈ blocks.drop (index.place key + 1), ∀ e ∈ block,
      bytewise e.key key = .gt := by
    intro block hblock e he
    obtain ⟨i, hi, rfl⟩ := List.mem_drop_iff_getElem.mp hblock
    have hlt : index.place key + 1 + i < index.length := by
      have := hrefs.length_eq
      omega
    -- the block begins after the key
    have hnot := (place_spec (sorted_of_ascending hrefs hasc) key).2 _
      (by omega : index.place key < index.place key + 1 + i)
    simp only [beginsBy, List.getElem?_eq_getElem hlt, Option.any_some,
      bne_eq_false_iff_eq] at hnot
    have hle := firstKey_le hrefs hasc hlt (by omega) he
    exact Std.OrientedCmp.gt_of_lt
      (Std.TransCmp.lt_of_lt_of_isLE (Std.OrientedCmp.lt_of_gt hnot) hle)
  intro block hblock e he
  unfold firstPlace at hblock
  cases hlower : range.lower with
  | unbounded => simp [KeyRange.isBefore, hlower]
  | included key =>
    rw [hlower] at hblock
    simp [KeyRange.isBefore, hlower, hlater key block hblock e he]
  | excluded key =>
    rw [hlower] at hblock
    simp [KeyRange.isBefore, hlower, hlater key block hblock e he]

theorem upTo_le (index : Index) (key : Bytes) (included : Ordering → Bool) :
    index.upTo key included ≤ index.place key + 1 := by
  unfold upTo
  dsimp only
  split <;> omega

/-- What comes before the last selected block does not lie after the range. -/
theorem notAfter_of_mem_take_pred (hrefs : List.Forall₂ BlockRef.Heads index blocks)
    (hasc : Ascending bytewise blocks.flatten) (range : KeyRange) :
    ∀ block ∈ blocks.take (index.lastPlace range - 1), ∀ e ∈ block,
      range.isAfter bytewise e.key = false := by
  have hearlier (key : Bytes) (included : Ordering → Bool) :
      ∀ block ∈ blocks.take (index.upTo key included - 1), ∀ e ∈ block,
        bytewise e.key key = .lt := by
    intro block hblock
    have hle := index.upTo_le key included
    exact lt_of_mem_take hrefs hasc (place_spec (sorted_of_ascending hrefs hasc) key).1 block
      (List.take_subset_take_left _ (by omega) hblock)
  intro block hblock e he
  unfold lastPlace at hblock
  cases hupper : range.upper with
  | unbounded => simp [KeyRange.isAfter, hupper]
  | included key =>
    rw [hupper] at hblock
    simp [KeyRange.isAfter, hupper, hearlier key _ block hblock e he]
  | excluded key =>
    rw [hupper] at hblock
    simp [KeyRange.isAfter, hupper, hearlier key _ block hblock e he]

/-- Of blocks whose keys ascend, an index of their first keys selects for a range some that lie together.
The others hold no key of the range; of these, only the first can hold keys before the range and only
the last keys after it. If the bounds of the range cross, no scan of any run gives an entry. -/
theorem select_blocks (hrefs : List.Forall₂ BlockRef.Heads index blocks)
    (hasc : Ascending bytewise blocks.flatten) (range : KeyRange) :
    ∃ front chosen back, blocks = front ++ chosen ++ back ∧
      (∃ left right, index = left ++ index.select range ++ right ∧ left.length = front.length ∧
        List.Forall₂ BlockRef.Heads (index.select range) chosen) ∧
      (∀ block ∈ front ++ back, ∀ e ∈ block, range.contains bytewise e.key = false) ∧
      (∀ block ∈ chosen.tail, ∀ e ∈ block, range.isBefore bytewise e.key = false) ∧
      (∀ block ∈ chosen.dropLast, ∀ e ∈ block, range.isAfter bytewise e.key = false) ∧
      (range.isInverted = true → ∀ (d : Disk) (run : RunFile) (e : Entry),
        .ok e ∉ run.toList d range) := by
  let first := index.firstPlace range
  let last := index.lastPlace range
  have hslices {α : Type} (list : List α) :
      list = (list.take last).take first ++ (list.take last).drop first ++ list.drop last := by
    rw [List.take_append_drop, List.take_append_drop]
  refine ⟨_, _, _, hslices blocks, ⟨_, _, hslices index, ?_, ?_⟩, ?_, ?_, ?_, ?_⟩
  · simp only [List.length_take, hrefs.length_eq]
  · exact List.forall₂_drop first (List.forall₂_take last hrefs)
  · intro block hblock e he
    rcases List.mem_append.mp hblock with hfront | hback
    · rw [List.take_take] at hfront
      have hbefore := isBefore_of_mem_take hrefs hasc range block
        (List.take_subset_take_left _ (Nat.min_le_left _ _) hfront) e he
      simp [KeyRange.contains, hbefore]
    · have hafter := isAfter_of_mem_drop hrefs hasc range block hback e he
      simp [KeyRange.contains, hafter]
  · intro block hblock
    rw [List.tail_drop] at hblock
    exact notBefore_of_mem_drop_succ hrefs hasc range block
      ((List.take_sublist last blocks).drop _ |>.subset hblock)
  · intro block hblock
    refine notAfter_of_mem_take_pred hrefs hasc range block ?_
    rw [List.dropLast_drop_eq_drop_dropLast] at hblock
    have hfront := List.mem_of_mem_drop hblock
    rw [List.dropLast_eq_take, List.take_take] at hfront
    have hle : min ((blocks.take last).length - 1) last ≤ last - 1 := by
      rw [List.length_take]
      omega
    exact List.take_subset_take_left _ hle hfront
  · intro hinverted d run e he
    have hin := RunFile.contains_of_mem_toList he
    rw [KeyRange.contains_of_isInverted hinverted] at hin
    cases hin

/-- Three blocks of a run. -/
def threeBlocks : List (List Entry) :=
  [[.put [2] [], .tombstone [4]], [.put [6] []], [.put [8] [], .put [9] []]]

/-- A range that begins within the first block and ends before the third, and one whose bounds cross
although it selects a block. -/
theorem select_threeBlocks :
    let index := RunImage.indexFrom 0 threeBlocks
    (List.Forall₂ BlockRef.Heads index threeBlocks ∧ Ascending bytewise threeBlocks.flatten) ∧
      index.select ⟨.included [5], .excluded [8]⟩ = index.take 2 ∧
      (∃ front chosen back, threeBlocks = front ++ chosen ++ back ∧
        List.Forall₂ BlockRef.Heads (index.take 2) chosen ∧
        ∀ block ∈ front ++ back, ∀ e ∈ block,
          KeyRange.contains bytewise ⟨.included [5], .excluded [8]⟩ e.key = false) ∧
      index.select ⟨.excluded [9], .excluded [9]⟩ = index.drop 2 ∧
      ∀ (d : Disk) (run : RunFile) (e : Entry),
        .ok e ∉ run.toList d ⟨.excluded [9], .excluded [9]⟩ := by
  intro index
  have hrefs : List.Forall₂ BlockRef.Heads index threeBlocks :=
    .cons rfl (.cons rfl (.cons rfl .nil))
  have hasc : Ascending bytewise threeBlocks.flatten := by decide
  have hwithin : index.select ⟨.included [5], .excluded [8]⟩ = index.take 2 := by decide +kernel
  have hcrossed : index.select ⟨.excluded [9], .excluded [9]⟩ = index.drop 2 := by decide +kernel
  obtain ⟨front, chosen, back, hblocks, ⟨_, _, -, -, hchosen⟩, houtside, -⟩ :=
    select_blocks hrefs hasc ⟨.included [5], .excluded [8]⟩
  obtain ⟨_, _, _, -, -, -, -, -, hnothing⟩ :=
    select_blocks hrefs hasc ⟨.excluded [9], .excluded [9]⟩
  rw [hwithin] at hchosen
  exact ⟨⟨hrefs, hasc⟩, hwithin, ⟨front, chosen, back, hblocks, hchosen, houtside⟩, hcrossed,
    hnothing rfl⟩

end Index

end LayeredStore
