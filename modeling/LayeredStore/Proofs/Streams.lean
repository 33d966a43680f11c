import LayeredStore.Ascending
import LayeredStore.Pull
import Mathlib.Data.List.TakeWhile

/-!
# What a stream gives

A stream is asked for its items one at a time, and between two items the disk from which it reads
may have changed. `Pull.Gives p s items` says that the state `s` gives `items` and then nothing,
whichever stream of the family `p` answers each step. A family of one member is a stream that does
not change.

* `Gives.find`, `Gives.live` and `Gives.within` say what the filters make of what a stream gives;
* `Gives.toList_eq` turns it into the list that `Pull.toList` collects;
* `Fused.endsAfter` says how the calls are answered one by one, also those after the end.
-/

namespace LayeredStore

/-! ## Keys after a range -/

/-- What comes after a key after a range is after it too. -/
theorem KeyRange.isAfter_of_lt {range : KeyRange} {key other : Bytes}
    (hlt : bytewise key other = .lt) (h : range.isAfter bytewise key = true) :
    range.isAfter bytewise other = true := by
  simp only [isAfter] at h ⊢
  split at h
  · exact absurd h (by simp)
  · next last _ =>
    have hgt : bytewise key last = .gt := by simpa using h
    have : bytewise last other = .lt :=
      Std.TransCmp.lt_trans (Std.OrientedCmp.lt_of_gt hgt) hlt
    simp [Std.OrientedCmp.gt_of_lt this]
  · next last _ =>
    have hle : (bytewise last key).isLE := by
      rw [@Std.OrientedCmp.eq_swap _ bytewise]
      cases hk : bytewise key last <;> simp_all
    have : bytewise last other = .lt := Std.TransCmp.lt_of_isLE_of_lt hle hlt
    simp [Std.OrientedCmp.gt_of_lt this]

theorem KeyRange.contains_eq_false_of_isAfter {range : KeyRange} {key : Bytes}
    (h : range.isAfter bytewise key = true) : range.contains bytewise key = false := by
  simp [contains, h]

@[simp] theorem KeyRange.contains_all (key : Bytes) : KeyRange.all.contains bytewise key = true :=
  rfl

/-! ## Parts of a list of entries -/

/-- The entries whose keys lie in a range. -/
def KeyRange.cut (range : KeyRange) (entries : List Entry) : List Entry :=
  entries.filter fun e => range.contains bytewise e.key

theorem KeyRange.mem_cut {range : KeyRange} {entries : List Entry} {e : Entry} :
    e ∈ range.cut entries ↔ e ∈ entries ∧ range.contains bytewise e.key = true := by
  simp [cut]

theorem KeyRange.cut_append (range : KeyRange) (front rest : List Entry) :
    range.cut (front ++ rest) = range.cut front ++ range.cut rest := by
  simp [cut]

theorem KeyRange.cut_cons (range : KeyRange) (e : Entry) (rest : List Entry) :
    range.cut (e :: rest) =
      if range.contains bytewise e.key = true then e :: range.cut rest else range.cut rest := by
  rw [cut, List.filter_cons]
  rfl

@[simp] theorem KeyRange.cut_all (entries : List Entry) : KeyRange.all.cut entries = entries := by
  simp [cut]

/-- The entries that are no tombstones. -/
def liveEntries (entries : List Entry) : List Entry := entries.filter fun e => !e.isTombstone

theorem mem_liveEntries {entries : List Entry} {e : Entry} :
    e ∈ liveEntries entries ↔ e ∈ entries ∧ e.isTombstone = false := by
  simp [liveEntries]

theorem Ascending.cut {entries : List Entry} (h : Ascending bytewise entries)
    (range : KeyRange) : Ascending bytewise (range.cut entries) :=
  List.Pairwise.filter _ h

theorem Ascending.live {cmp : Comparator} {entries : List Entry} (h : Ascending cmp entries) :
    Ascending cmp (liveEntries entries) :=
  List.Pairwise.filter _ h

namespace Pull

variable {σ ι : Type}

/-- The state gives the items and then nothing, whichever stream of the family is asked at each
step. -/
inductive Gives (p : ι → Pull σ) : σ → List Item → Prop
  | done {s : σ} (h : ∀ i, ((p i).next s).1 = none) : Gives p s []
  | item {s s' : σ} {item : Item} {items : List Item}
      (h : ∀ i, (p i).next s = (some item, s')) (rest : Gives p s' items) :
      Gives p s (item :: items)

variable {p : ι → Pull σ} {s : σ} {items : List Item}

theorem toList_of_next_none {p : Pull σ} (h : (p.next s).1 = none) : p.toList s = [] := by
  unfold toList
  rw [drain.eq_def]
  split
  · rfl
  · next hnext => simp [hnext] at h

theorem toList_of_next_some {p : Pull σ} {item : Item} {s' : σ}
    (h : p.next s = (some item, s')) : p.toList s = item :: p.toList s' := by
  unfold toList
  rw [drain.eq_def]
  split
  · next hnext => simp [h] at hnext
  · next hnext =>
    rw [h] at hnext
    simp only [Prod.mk.injEq, Option.some.injEq] at hnext
    obtain ⟨rfl, rfl⟩ := hnext
    rfl

/-- States at which a stream answers alike give the same. -/
theorem toList_of_next_eq {p : Pull σ} {s s' : σ} (h : p.next s = p.next s') :
    p.toList s = p.toList s' := by
  cases hnext : p.next s with
  | mk answer t =>
    have hnext' : p.next s' = (answer, t) := h.symm.trans hnext
    cases answer with
    | none => rw [toList_of_next_none (by rw [hnext]), toList_of_next_none (by rw [hnext'])]
    | some item => rw [toList_of_next_some hnext, toList_of_next_some hnext']

theorem Gives.toList_eq (h : Gives p s items) (i : ι) : (p i).toList s = items := by
  induction h with
  | done hnone => exact toList_of_next_none (hnone i)
  | item hsome _ ih => rw [toList_of_next_some (hsome i), ih]

/-- A stream gives what is collected from it. -/
theorem gives_toList (p : Pull σ) (s : σ) : Gives (fun _ : Unit => p) s (p.toList s) := by
  generalize hn : p.left s = n
  induction n using Nat.strongRecOn generalizing s with
  | _ n ih =>
    cases hnext : p.next s with
    | mk answer s' =>
      cases answer with
      | none =>
        have hnone : (p.next s).1 = none := by rw [hnext]
        rw [toList_of_next_none hnone]
        exact .done fun _ => hnone
      | some item =>
        have hlt : p.left s' < n := hn ▸ p.left_next hnext
        rw [toList_of_next_some hnext]
        exact .item (fun _ => hnext) (ih _ hlt s' rfl)

/-- The calls to a stream are answered with some items, and with nothing ever after. -/
def EndsAfter (p : Pull σ) (s : σ) (items : List Item) : Prop :=
  ∀ n, (p.take (items.length + n) s).1 = items.map some ++ List.replicate n none

/-- A stream that has come to its end stays there. -/
def Fused (p : Pull σ) : Prop := ∀ s, (p.next s).1 = none → (p.next (p.next s).2).1 = none

theorem Fused.take_of_end {p : Pull σ} (h : p.Fused) {s : σ} (hs : (p.next s).1 = none) (n : Nat) :
    (p.take n s).1 = List.replicate n none := by
  induction n generalizing s with
  | zero => rfl
  | succ n ih =>
    rw [take, List.replicate_succ, ← ih (h s hs)]
    exact congrArg (· :: _) hs

/-- The calls to such a stream are answered with what it gives. -/
theorem Fused.endsAfter {p : Pull σ} (h : p.Fused) (s : σ) : p.EndsAfter s (p.toList s) := by
  intro n
  have hgives := gives_toList p s
  generalize p.toList s = items at hgives
  induction hgives with
  | done hnone => rw [List.length_nil, Nat.zero_add, h.take_of_end (hnone ()) n]; rfl
  | @item s s' item items hsome _ ih =>
    rw [List.length_cons, Nat.add_right_comm, take, hsome ()]
    simp only [ih, List.map_cons, List.cons_append]

/-- The entries that a state still gives. -/
def rest (p : Pull σ) (s : σ) : List Entry := (p.toList s).filterMap Except.toOption

theorem rest_of_none {p : Pull σ} (h : (p.next s).1 = none) : p.rest s = [] := by
  unfold rest
  rw [toList_of_next_none h]
  rfl

theorem rest_of_ok {p : Pull σ} {e : Entry} {s' : σ} (h : p.next s = (some (.ok e), s')) :
    p.rest s = e :: p.rest s' := by
  unfold rest
  rw [toList_of_next_some h]
  rfl

theorem rest_of_error {p : Pull σ} {cause : StoreError} {s' : σ}
    (h : p.next s = (some (.error cause), s')) : p.rest s = p.rest s' := by
  unfold rest
  rw [toList_of_next_some h]
  rfl

theorem rest_of_toList {p : Pull σ} {entries : List Entry} (h : p.toList s = entries.map .ok) :
    p.rest s = entries := by
  unfold rest
  rw [h, List.filterMap_map]
  exact List.filterMap_some

theorem Gives.rest_eq {entries : List Entry} (h : Gives p s (entries.map .ok)) (i : ι) :
    (p i).rest s = entries := rest_of_toList (h.toList_eq i)

/-- The rest of what a stream gives does not depend on which member of the family answered. -/
theorem Gives.tail {item : Item} (h : Gives p s (item :: items)) :
    ∃ s', (∀ i, (p i).next s = (some item, s')) ∧ Gives p s' items := by
  cases h with
  | item hsome rest => exact ⟨_, hsome, rest⟩

theorem Gives.nil (h : Gives p s []) (i : ι) : ((p i).next s).1 = none := by
  cases h with
  | done hnone => exact hnone i

/-- A family of streams that answer as another family does, on states that are seen, gives the
same. -/
theorem Gives.comap {κ : Type} (f : κ → ι) (h : Gives p s items) :
    Gives (fun k => p (f k)) s items := by
  induction h with
  | done hnone => exact .done fun k => hnone (f k)
  | item hsome _ ih => exact .item (fun k => hsome (f k)) ih

/-- The items of a list. -/
theorem gives_items (list : List Item) : Gives (fun _ : ι => Pull.items) list list := by
  induction list with
  | nil => exact .done fun _ => rfl
  | cons item rest ih => exact .item (fun _ => rfl) ih

@[simp] theorem toList_items (list : List Item) : Pull.items.toList list = list :=
  (gives_items (ι := Unit) list).toList_eq ()

/-! ## Filters -/

theorem find_of_none {p : Pull σ} {skip : Item → Bool} (h : (p.next s).1 = none) :
    p.find skip s = p.next s := by
  rw [find.eq_def]
  split
  · next hnext => rw [hnext]
  · next hnext => simp [hnext] at h

theorem find_of_some {p : Pull σ} {skip : Item → Bool} {item : Item} {s' : σ}
    (h : p.next s = (some item, s')) :
    p.find skip s = if skip item then p.find skip s' else (some item, s') := by
  rw [find.eq_def]
  split
  · next hnext => simp [h] at hnext
  · next hnext =>
    rw [h] at hnext
    simp only [Prod.mk.injEq, Option.some.injEq] at hnext
    obtain ⟨rfl, rfl⟩ := hnext
    rfl

/-- What no step of a stream breaks, a search does not break. -/
theorem find_keeps {p : Pull σ} {P : σ → Prop} (h : ∀ s, P s → P (p.next s).2) (skip : Item → Bool)
    (hs : P s) : P (p.find skip s).2 := by
  fun_induction p.find skip s with
  | case1 s s' hnext =>
    have hkept := h s hs
    rwa [hnext] at hkept
  | case2 s item s' hnext _ _ ih =>
    have hkept := h s hs
    rw [hnext] at hkept
    exact ih hkept
  | case3 s item s' hnext _ _ =>
    have hkept := h s hs
    rwa [hnext] at hkept

/-- A search gives nothing if every item is to be skipped. -/
theorem Gives.find_eq_none {skip : Item → Bool} (h : Gives p s items)
    (hskip : items.dropWhile skip = []) (i : ι) : ((p i).find skip s).1 = none := by
  induction h with
  | done hnone => rw [find_of_none (hnone i), hnone i]
  | @item s s' item items hsome _ ih =>
    rw [find_of_some (hsome i)]
    by_cases hitem : skip item = true
    · rw [if_pos hitem]
      exact ih (by simpa [List.dropWhile_cons, hitem] using hskip)
    · simp [hitem] at hskip

/-- A search gives the first item that is not to be skipped, and what follows stays. -/
theorem Gives.find_eq_some {skip : Item → Bool} {found : Item} {rest : List Item}
    (h : Gives p s items) (hskip : items.dropWhile skip = found :: rest) :
    ∃ s', (∀ i, (p i).find skip s = (some found, s')) ∧ Gives p s' rest := by
  induction h with
  | done hnone => simp at hskip
  | @item s s' item items hsome htail ih =>
    by_cases hitem : skip item = true
    · obtain ⟨t, hfind, hgives⟩ := ih (by simpa [List.dropWhile_cons, hitem] using hskip)
      refine ⟨t, fun i => ?_, hgives⟩
      rw [find_of_some (hsome i), if_pos hitem, hfind i]
    · have hitem : skip item = false := by simpa using hitem
      simp only [List.dropWhile_cons, hitem] at hskip
      obtain ⟨rfl, rfl⟩ := List.cons.inj hskip
      exact ⟨s', fun i => by rw [find_of_some (hsome i), if_neg (by simp [hitem])], htail⟩

/-- A stream without the items that are to be skipped. -/
def skipping (p : Pull σ) (skip : Item → Bool) : Pull σ where
  next := p.find skip
  left := p.left
  left_next := p.left_find skip

/-- Skipping some items drops them from what is given. -/
theorem Gives.skipping (skip : Item → Bool) (h : Gives p s items) :
    Gives (fun i => (p i).skipping skip) s (items.filter (!skip ·)) := by
  generalize hn : items.length = n
  induction n using Nat.strongRecOn generalizing s items with
  | _ n ih =>
    cases hdrop : items.dropWhile skip with
    | nil =>
      have hnone : items.filter (!skip ·) = [] := by
        rw [List.filter_eq_nil_iff]
        intro item hitem
        simpa using List.dropWhile_eq_nil_iff.mp hdrop item hitem
      rw [hnone]
      exact .done fun i => h.find_eq_none hdrop i
    | cons found rest =>
      obtain ⟨s', hfind, hrest⟩ := h.find_eq_some hdrop
      -- one step passes over what is skipped in front; what it leaves is shorter
      have hsplit : items = items.takeWhile skip ++ found :: rest := by
        rw [← hdrop, List.takeWhile_append_dropWhile]
      have hfound : skip found = false := by
        have := List.head?_dropWhile_not skip items
        rw [hdrop] at this
        simpa using this
      have hskipped : (items.takeWhile skip).filter (!skip ·) = [] := by
        rw [List.filter_eq_nil_iff]
        intro item hitem
        simpa using List.mem_takeWhile_imp hitem
      have hlist : items.filter (!skip ·) = found :: rest.filter (!skip ·) := by
        rw [hsplit, List.filter_append, hskipped, List.nil_append,
          List.filter_cons_of_pos (by simp [hfound])]
      rw [hlist]
      refine .item hfind (ih rest.length ?_ hrest rfl)
      have := congrArg List.length hsplit
      simp only [List.length_append, List.length_cons] at this
      omega

/-- Whether an item is a tombstone. -/
def isTombstoneItem : Item → Bool
  | .ok entry => entry.isTombstone
  | .error _ => false

/-- Dropping tombstones drops them from what is given. -/
theorem Gives.live (h : Gives p s items) :
    Gives (fun i => (p i).live) s (items.filter (!isTombstoneItem ·)) :=
  h.skipping isTombstoneItem

/-- Of error-free entries the live ones are given. -/
theorem Gives.live_map {entries : List Entry} (h : Gives p s (entries.map .ok)) :
    Gives (fun i => (p i).live) s ((liveEntries entries).map .ok) := by
  have hlive := h.live
  rwa [List.filter_map] at hlive

/-- Whether an entry lies before a range but not after it, so that a cut to the range skips it. -/
def skips (range : KeyRange) (e : Entry) : Bool :=
  range.isBefore bytewise e.key && !range.isAfter bytewise e.key

theorem contains_eq_false_of_skips {range : KeyRange} {e : Entry} (h : skips range e = true) :
    range.contains bytewise e.key = false := by
  simp only [skips, Bool.and_eq_true] at h
  simp [KeyRange.contains, h.1]

/-- Whether an item is skipped by a cut to a range. -/
def skipsItem (range : KeyRange) : Item → Bool
  | .ok e => skips range e
  | .error _ => false

theorem within_next (p : Pull σ) (range : KeyRange) (s : σ) :
    (p.within bytewise).next ⟨range, s, false⟩ =
      match p.find (skipsItem range) s with
      | (none, inner) => (none, ⟨range, inner, false⟩)
      | (some (.error e), inner) => (some (.error e), ⟨range, inner, false⟩)
      | (some (.ok e), inner) =>
        if range.isAfter bytewise e.key then (none, ⟨range, inner, true⟩)
        else (some (.ok e), ⟨range, inner, false⟩) := rfl

/-- Cutting ascending entries to a range leaves those that lie in it. -/
theorem Gives.within {entries : List Entry} (range : KeyRange)
    (hasc : Ascending bytewise entries) (h : Gives p s (entries.map .ok)) :
    Gives (fun i => (p i).within bytewise) ⟨range, s, false⟩
      ((range.cut entries).map .ok) := by
  generalize hn : entries.length = n
  induction n using Nat.strongRecOn generalizing s entries with
  | _ n ih =>
    have hdrop : (entries.map (Except.ok (ε := StoreError))).dropWhile
        (skipsItem range) = (entries.dropWhile (skips range)).map .ok := by
      rw [List.dropWhile_map]
      rfl
    have hsplit : entries = entries.takeWhile (skips range) ++ entries.dropWhile (skips range) :=
      List.takeWhile_append_dropWhile.symm
    have hskipped : range.cut (entries.takeWhile (skips range)) = [] := by
      rw [KeyRange.cut, List.filter_eq_nil_iff]
      intro e he
      simp [contains_eq_false_of_skips (List.mem_takeWhile_imp he)]
    rw [hsplit, KeyRange.cut_append, hskipped, List.nil_append]
    cases hcase : entries.dropWhile (skips range) with
    | nil =>
      refine .done fun i => ?_
      have hnone := h.find_eq_none (hdrop.trans (by rw [hcase]; rfl)) i
      rw [within_next]
      split
      · rfl
      · next hfind => simp [hfind] at hnone
      · next hfind => simp [hfind] at hnone
    | cons e rest =>
      obtain ⟨s', hfind, hrest⟩ := h.find_eq_some (hdrop.trans (by rw [hcase]; rfl))
      have hne : skips range e = false := by
        have := List.head?_dropWhile_not (skips range) entries
        rw [hcase] at this
        simpa using this
      have htail : Ascending bytewise (e :: rest) :=
        hcase ▸ List.Pairwise.sublist (List.dropWhile_sublist _) hasc
      by_cases hafter : range.isAfter bytewise e.key = true
      · -- `e` ends the cut, and all that follows lies after the range too
        have hnone : range.cut (e :: rest) = [] := by
          rw [KeyRange.cut, List.filter_eq_nil_iff]
          intro x hx
          rcases List.mem_cons.mp hx with rfl | hx
          · simp [KeyRange.contains_eq_false_of_isAfter hafter]
          · have hlt := (List.pairwise_cons.mp htail).1 x hx
            simp [KeyRange.contains_eq_false_of_isAfter (KeyRange.isAfter_of_lt hlt hafter)]
        rw [hnone]
        refine .done fun i => ?_
        rw [within_next, hfind i]
        simp [hafter]
      · have hbefore : range.isBefore bytewise e.key = false := by
          simpa [skips, hafter] using hne
        have hin : range.contains bytewise e.key = true := by
          simp [KeyRange.contains, hafter, hbefore]
        rw [KeyRange.cut_cons, if_pos hin, List.map_cons]
        have hlength : rest.length < n := by
          have := congrArg List.length hsplit
          rw [hcase, List.length_append, List.length_cons] at this
          omega
        refine .item (fun i => ?_) (ih rest.length hlength (htail.of_cons) hrest rfl)
        rw [within_next, hfind i]
        simp [hafter]

end Pull

end LayeredStore
