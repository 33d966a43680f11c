import LayeredStore.Merge
import LayeredStore.Proofs.HeapOrder
import LayeredStore.Proofs.Streams
import Mathlib.Algebra.GroupWithZero.Nat
import Mathlib.Data.List.Forall2
import Mathlib.Data.List.Nodup

/-!
# What a merge gives

A merge of error-free sources, each ascending under the comparator, gives of every key that some
source holds one entry that nothing outranks, in ascending order (`gives_ofSources_merges`). If the
ranks of the sources differ, then there is just one such entry of each key, that of the source with
the highest rank (`gives_ofSources`); of sources with one rank the merge chooses.

The proof keeps `Merge.Sound` from item to item: the heads are in order, and every source still
has ascending entries to give. `Merge.Held` is what the merge still has, by rank; the entries of
one key are taken out of it together (`Sound.skipKey`), and nothing outranks the first of them
(`Sound.first`).
-/

namespace LayeredStore

variable {σ ι : Type} {p : ι → Pull σ} {cmp : Comparator}

/-- Heads are ordered by key, and of one key by rank. -/
theorem Head.precedence [Std.TransCmp cmp] :
    Heap.Precedence (Head.precedes (σ := σ) cmp) where
  asymm := by
    intro a b h
    simp only [precedes] at h ⊢
    rw [@Std.OrientedCmp.eq_swap _ cmp]
    cases hk : cmp a.entry.key b.entry.key <;> simp_all
    omega
  trans := by
    intro a b c hba hcb
    simp only [precedes] at hba hcb ⊢
    cases hca : cmp c.entry.key a.entry.key with
    | gt => rfl
    | lt =>
      cases hb : cmp b.entry.key a.entry.key with
      | lt => simp [hb] at hba
      | eq =>
        have : cmp c.entry.key b.entry.key = .lt :=
          Std.TransCmp.lt_of_lt_of_eq hca (Std.OrientedCmp.eq_symm hb)
        simp [this] at hcb
      | gt =>
        have : cmp c.entry.key b.entry.key = .lt :=
          Std.TransCmp.lt_trans hca (Std.OrientedCmp.lt_of_gt hb)
        simp [this] at hcb
    | eq =>
      cases hb : cmp b.entry.key a.entry.key with
      | lt => simp [hb] at hba
      | eq =>
        have : cmp c.entry.key b.entry.key = .eq :=
          Std.TransCmp.eq_trans hca (Std.OrientedCmp.eq_symm hb)
        simp only [hb, this, decide_eq_false_iff_not, Nat.not_lt] at hba hcb ⊢
        omega
      | gt =>
        have : cmp c.entry.key b.entry.key = .lt :=
          Std.TransCmp.lt_of_eq_of_lt hca (Std.OrientedCmp.lt_of_gt hb)
        simp [this] at hcb

/-- Of ascending entries only one has a key. -/
theorem Ascending.eq_of_cmp_eq [Std.TransCmp cmp] {entries : List Entry} {e e' : Entry}
    (h : Ascending cmp entries) (he' : e' ∈ entries) (he : e ∈ entries)
    (hk : cmp e'.key e.key = .eq) : e' = e := by
  induction entries with
  | nil => simp at he
  | cons x rest ih =>
    obtain ⟨hx, hrest⟩ := List.pairwise_cons.mp h
    rcases List.mem_cons.mp he' with hfirst' | hrest'
    · rcases List.mem_cons.mp he with hfirst | hmem
      · rw [hfirst', hfirst]
      · rw [hfirst', hx e hmem] at hk
        simp at hk
    · rcases List.mem_cons.mp he with hfirst | hmem
      · rw [hfirst, Std.OrientedCmp.gt_of_lt (hx e' hrest')] at hk
        simp at hk
      · exact ih hrest hrest' hmem

/-- What ascends is determined by its members. -/
theorem Ascending.ext [Std.TransCmp cmp] {entries others : List Entry} (h : Ascending cmp entries)
    (h' : Ascending cmp others) (hmem : ∀ e, e ∈ entries ↔ e ∈ others) : entries = others := by
  have hne {l : List Entry} (hl : Ascending cmp l) : l.Nodup := by
    refine List.Pairwise.imp ?_ hl
    rintro a b hlt rfl
    have heq : cmp a.key a.key = .eq := Std.ReflCmp.compare_self
    rw [heq] at hlt
    cases hlt
  refine List.Perm.eq_of_pairwise ?_ h h' ((List.perm_ext_iff_of_nodup (hne h) (hne h')).mpr hmem)
  intro a b _ _ hab hba
  rw [Std.OrientedCmp.gt_of_lt hba] at hab
  cases hab

/-- The entry of `e`'s key from the highest of some ranked layers. -/
def IsNewest (cmp : Comparator) (layers : List (Nat × List Entry)) (e : Entry) : Prop :=
  ∃ layer ∈ layers, e ∈ layer.2 ∧
    ∀ other ∈ layers, ∀ e' ∈ other.2, cmp e'.key e.key = .eq → other.1 ≤ layer.1

/-- A newest entry for every key of some ranked layers, by ascending key. -/
structure Merges (cmp : Comparator) (layers : List (Nat × List Entry)) (out : List Entry) : Prop where
  ascending : Ascending cmp out
  newest : ∀ e ∈ out, IsNewest cmp layers e
  covers : ∀ layer ∈ layers, ∀ e ∈ layer.2, ∃ x ∈ out, cmp x.key e.key = .eq

/-- Where ranks differ there is one newest entry of a key, so every newest entry is given. -/
theorem Merges.mem_iff [Std.TransCmp cmp] {layers : List (Nat × List Entry)} {out : List Entry}
    (h : Merges cmp layers out) (hasc : ∀ layer ∈ layers, Ascending cmp layer.2)
    (hranks : (layers.map Prod.fst).Nodup) (e : Entry) : e ∈ out ↔ IsNewest cmp layers e := by
  refine ⟨h.newest e, fun ⟨layer, hlayer, he, hnewest⟩ => ?_⟩
  obtain ⟨x, hx, hkey⟩ := h.covers layer hlayer e he
  obtain ⟨other, hother, hmem, htop⟩ := h.newest x hx
  have hle := hnewest other hother x hmem hkey
  have hge := htop layer hlayer e he (Std.OrientedCmp.eq_symm hkey)
  -- of one layer, and of one key in it: the same entry
  obtain rfl : other = layer :=
    List.inj_on_of_nodup_map hranks hother hlayer (Nat.le_antisymm hle hge)
  rwa [← (hasc other hother).eq_of_cmp_eq hmem he hkey]

namespace Merge

variable {content : σ → List Entry} {m : Merge σ}

/-- A source with this rank still has this entry to give. -/
def Held (content : σ → List Entry) (m : Merge σ) (rank : Nat) (e : Entry) : Prop :=
  ∃ head ∈ m.heads.toList, head.rank = rank ∧ e ∈ head.entry :: content head.rest

/-- The number of entries that the sources still have to give. -/
def weight (content : σ → List Entry) (m : Merge σ) : Nat :=
  (m.heads.toList.map fun head => (content head.rest).length + 1).sum

/-- A merge whose sources are free of errors and ascend, `content` being what a source still
gives. -/
structure Sound (p : ι → Pull σ) (cmp : Comparator) (content : σ → List Entry)
    (m : Merge σ) : Prop where
  no_errors : m.errors = []
  ordered : m.heads.Ordered (Head.precedes cmp)
  gives : ∀ head ∈ m.heads.toList, Pull.Gives p head.rest ((content head.rest).map .ok)
  ascending : ∀ head ∈ m.heads.toList, Ascending cmp (head.entry :: content head.rest)

theorem sound_empty : Sound p cmp content ⟨.empty, []⟩ where
  no_errors := rfl
  ordered := trivial
  gives := by simp [Heap.toList]
  ascending := by simp [Heap.toList]

/-- Drawing from a source adds what it has to what the merge has. -/
theorem Sound.draw [Std.TransCmp cmp] (hm : Sound p cmp content m) {rank : Nat} {s : σ}
    {entries : List Entry} (hs : Pull.Gives p s (entries.map .ok))
    (hcontent : ∀ s' rest, Pull.Gives p s' (rest.map .ok) → content s' = rest)
    (hasc : Ascending cmp entries) :
    ∃ m', (∀ i, m.draw (p i) cmp rank s = m') ∧ Sound p cmp content m' ∧
      (∀ r e, Held content m' r e ↔ Held content m r e ∨ (r = rank ∧ e ∈ entries)) ∧
      weight content m' = weight content m + entries.length := by
  cases entries with
  | nil =>
    refine ⟨m, fun i => ?_, hm, by simp, by simp⟩
    unfold Merge.draw
    split
    · next hnext => simpa [hnext] using hs.nil i
    · next hnext => simpa [hnext] using hs.nil i
    · rfl
  | cons e rest =>
    obtain ⟨s', hnext, hrest⟩ := hs.tail
    have hcontent' : content s' = rest := hcontent s' rest hrest
    have hperm := Heap.toList_push (Head.precedes cmp) ⟨e, rank, s'⟩ m.heads
    refine ⟨{ m with heads := m.heads.push (Head.precedes cmp) ⟨e, rank, s'⟩ },
      fun i => by simp [Merge.draw, hnext i], ⟨hm.no_errors, hm.ordered.push Head.precedence _,
        ?_, ?_⟩, ?_, ?_⟩
    · intro head hhead
      rcases List.mem_cons.mp (hperm.mem_iff.mp hhead) with rfl | hhead
      · rwa [hcontent']
      · exact hm.gives head hhead
    · intro head hhead
      rcases List.mem_cons.mp (hperm.mem_iff.mp hhead) with rfl | hhead
      · rwa [hcontent']
      · exact hm.ascending head hhead
    · intro r x
      constructor
      · rintro ⟨head, hhead, hr, hx⟩
        rcases List.mem_cons.mp (hperm.mem_iff.mp hhead) with rfl | hhead
        · rw [hcontent'] at hx
          exact .inr ⟨hr.symm, hx⟩
        · exact .inl ⟨head, hhead, hr, hx⟩
      · rintro (⟨head, hhead, hr, hx⟩ | ⟨hr, hx⟩)
        · exact ⟨head, hperm.mem_iff.mpr (List.mem_cons_of_mem _ hhead), hr, hx⟩
        · refine ⟨⟨e, rank, s'⟩, hperm.mem_iff.mpr List.mem_cons_self, hr.symm, ?_⟩
          rwa [hcontent']
    · have hsum := (hperm.map fun head => (content head.rest).length + 1).sum_nat
      simp only [List.map_cons, List.sum_cons, hcontent'] at hsum
      simp only [weight, List.length_cons, hsum]
      omega

/-- Taking the first head leaves the merge with what the other heads have. -/
theorem Sound.pop [Std.TransCmp cmp] (hm : Sound p cmp content m) {best : Head σ}
    {heads : Heap (Head σ)} (hpop : m.heads.pop (Head.precedes cmp) = some (best, heads)) :
    Sound p cmp content ⟨heads, []⟩ ∧ best ∈ m.heads.toList ∧
      (∀ r e, Held content m r e ↔
        Held content ⟨heads, []⟩ r e ∨ (r = best.rank ∧ e ∈ best.entry :: content best.rest)) ∧
      weight content m = weight content ⟨heads, []⟩ + (content best.rest).length + 1 := by
  have hperm := Heap.toList_pop hpop
  have hmem : best ∈ m.heads.toList := hperm.mem_iff.mpr List.mem_cons_self
  have hsub {head : Head σ} (h : head ∈ heads.toList) : head ∈ m.heads.toList :=
    hperm.mem_iff.mpr (List.mem_cons_of_mem _ h)
  refine ⟨⟨rfl, (hm.ordered.pop Head.precedence hpop).1, fun head h => hm.gives head (hsub h),
      fun head h => hm.ascending head (hsub h)⟩, hmem, ?_, ?_⟩
  · intro r e
    constructor
    · rintro ⟨head, hhead, hr, he⟩
      rcases List.mem_cons.mp (hperm.mem_iff.mp hhead) with rfl | hhead
      · exact .inr ⟨hr.symm, he⟩
      · exact .inl ⟨head, hhead, hr, he⟩
    · rintro (⟨head, hhead, hr, he⟩ | ⟨hr, he⟩)
      · exact ⟨head, hsub hhead, hr, he⟩
      · exact ⟨best, hmem, hr.symm, he⟩
  · have hsum := (hperm.map fun head => (content head.rest).length + 1).sum_nat
    simp only [List.map_cons, List.sum_cons] at hsum
    simp only [weight, hsum]
    omega

/-- Nothing that the merge has comes before the first head, and nothing of its key outranks it. -/
theorem Sound.first [Std.TransCmp cmp] (hm : Sound p cmp content m) {best : Head σ}
    {heads : Heap (Head σ)} (hpop : m.heads.pop (Head.precedes cmp) = some (best, heads)) {r : Nat}
    {e : Entry} (he : Held content m r e) : cmp e.key best.entry.key ≠ .lt ∧
      (cmp e.key best.entry.key = .eq → r ≤ best.rank) := by
  obtain ⟨head, hhead, rfl, he⟩ := he
  -- what a head still has comes after it, so only heads can tie with the best one
  have hgt {a b : Bytes} (h : cmp a b = .lt) : cmp b a = .gt := Std.OrientedCmp.gt_of_lt h
  have hafter := (List.pairwise_cons.mp (hm.ascending head hhead)).1
  rcases List.mem_cons.mp ((Heap.toList_pop hpop).mem_iff.mp hhead) with rfl | hrest
  · rcases List.mem_cons.mp he with rfl | he
    · simp [Std.ReflCmp.compare_self]
    · simp [hgt (hafter e he)]
  · have hprec := (hm.ordered.pop Head.precedence hpop).2 head hrest
    simp only [Head.precedes] at hprec
    rcases List.mem_cons.mp he with rfl | he
    · cases hk : cmp head.entry.key best.entry.key with
      | lt => simp [hk] at hprec
      | gt => simp
      | eq =>
        simp only [hk, decide_eq_false_iff_not, Nat.not_lt] at hprec
        exact ⟨by simp, fun _ => hprec⟩
    · have hlt := hafter e he
      have : cmp e.key best.entry.key = .gt := by
        apply hgt
        cases hk : cmp head.entry.key best.entry.key with
        | lt => simp [hk] at hprec
        | eq => exact Std.TransCmp.lt_of_eq_of_lt (Std.OrientedCmp.eq_symm hk) hlt
        | gt => exact Std.TransCmp.lt_trans (Std.OrientedCmp.lt_of_gt hk) hlt
      simp [this]

/-- Taking the first head and drawing what comes behind it takes just its entry away. -/
theorem Sound.redraw [Std.TransCmp cmp]
    (hcontent : ∀ s' rest, Pull.Gives p s' (rest.map .ok) → content s' = rest)
    (hm : Sound p cmp content m) {best : Head σ} {heads : Heap (Head σ)}
    (hpop : m.heads.pop (Head.precedes cmp) = some (best, heads)) :
    ∃ m', (∀ i, (Merge.mk heads m.errors).draw (p i) cmp best.rank best.rest = m') ∧
      Sound p cmp content m' ∧ weight content m' < weight content m ∧
      ∀ r e, Held content m r e ↔ Held content m' r e ∨ (r = best.rank ∧ e = best.entry) := by
  obtain ⟨hrest, hmem, hheld, hweight⟩ := hm.pop hpop
  obtain ⟨m', hdraw, hm', hheld', hweight'⟩ :=
    hrest.draw (hm.gives best hmem) hcontent (hm.ascending best hmem).of_cons
  refine ⟨m', fun i => hm.no_errors ▸ hdraw i, hm', by omega, fun r e => ?_⟩
  rw [hheld, hheld', List.mem_cons, and_or_left, or_assoc, or_comm (a := r = best.rank ∧ _)]

theorem skipKey_of_none {q : Pull σ} {key : Bytes}
    (h : m.heads.pop (Head.precedes cmp) = none) : m.skipKey q cmp key = m := by
  rw [Merge.skipKey.eq_def]
  split
  · rfl
  · next hsome => simp [h] at hsome

theorem skipKey_of_pop {q : Pull σ} {key : Bytes} {best : Head σ} {heads : Heap (Head σ)}
    (h : m.heads.pop (Head.precedes cmp) = some (best, heads)) :
    m.skipKey q cmp key = if cmp best.entry.key key == .eq then
      ((Merge.mk heads m.errors).draw q cmp best.rank best.rest).skipKey q cmp key else m := by
  rw [Merge.skipKey.eq_def]
  split
  · next hnone => simp [h] at hnone
  · next hsome =>
    rw [h] at hsome
    obtain ⟨rfl, rfl⟩ := Prod.mk.inj (Option.some.inj hsome)
    rfl

/-- The heads that hold a key are all taken past it: what is left are the other entries. -/
theorem Sound.skipKey [Std.TransCmp cmp]
    (hcontent : ∀ s' rest, Pull.Gives p s' (rest.map .ok) → content s' = rest) {key : Bytes}
    (hm : Sound p cmp content m) (hfrom : ∀ r e, Held content m r e → cmp e.key key ≠ .lt) :
    ∃ m', (∀ i, m.skipKey (p i) cmp key = m') ∧ Sound p cmp content m' ∧
      (∀ r e, Held content m' r e ↔ Held content m r e ∧ cmp e.key key ≠ .eq) ∧
      weight content m' ≤ weight content m := by
  generalize hn : weight content m = n
  induction n using Nat.strongRecOn generalizing m with
  | _ n ih =>
    cases hpop : m.heads.pop (Head.precedes cmp) with
    | none =>
      refine ⟨m, fun i => skipKey_of_none hpop, hm, ?_, by omega⟩
      have hempty := Heap.pop_eq_none_iff.mp hpop
      simp [Held, hempty, Heap.toList]
    | some taken =>
      obtain ⟨best, heads⟩ := taken
      obtain ⟨m₁, hdraw, hm₁, hweight₁, hheld₁⟩ := hm.redraw hcontent hpop
      by_cases hkey : cmp best.entry.key key = .eq
      · obtain ⟨m', hskip, hm', hheld', hweight'⟩ := ih _ (by omega) hm₁
          (fun r e he => hfrom r e ((hheld₁ r e).mpr (.inl he))) rfl
        refine ⟨m', fun i => ?_, hm', fun r e => ?_, by omega⟩
        · rw [skipKey_of_pop hpop, if_pos (by simp [hkey]), hdraw i, hskip i]
        · -- only the entry that is passed over is gone, and it has the key
          rw [hheld', hheld₁]
          constructor
          · rintro ⟨h, hne⟩
            exact ⟨.inl h, hne⟩
          · rintro ⟨h | ⟨-, rfl⟩, hne⟩
            · exact ⟨h, hne⟩
            · exact absurd hkey hne
      · refine ⟨m, fun i => ?_, hm, fun r e => ?_, by omega⟩
        · rw [skipKey_of_pop hpop, if_neg (by simpa using hkey)]
        · -- the first key lies after the one to be passed over, hence all keys do
          refine ⟨fun he => ⟨he, fun heq => ?_⟩, fun h => h.1⟩
          have hbestKey : cmp best.entry.key key = .gt := by
            have := hfrom best.rank best.entry ((hheld₁ _ _).mpr (.inr ⟨rfl, rfl⟩))
            cases hk : cmp best.entry.key key with
            | lt => exact absurd hk this
            | eq => exact absurd hk hkey
            | gt => rfl
          have hlt : cmp e.key best.entry.key = .lt :=
            Std.TransCmp.lt_of_eq_of_lt heq (Std.OrientedCmp.lt_of_gt hbestKey)
          exact (hm.first hpop he).1 hlt

/-- One step of a merge: it gives an entry of the first key that nothing outranks, and is left with
the entries of the other keys. -/
theorem Sound.next [Std.TransCmp cmp]
    (hcontent : ∀ s' rest, Pull.Gives p s' (rest.map .ok) → content s' = rest)
    (hm : Sound p cmp content m) :
    ((∀ i, (Merge.next (p i) cmp m).1 = none) ∧ ∀ r e, ¬Held content m r e) ∨
      ∃ rank e m', (∀ i, Merge.next (p i) cmp m = (some (.ok e), m')) ∧ Sound p cmp content m' ∧
        Held content m rank e ∧ weight content m' < weight content m ∧
        (∀ r x, Held content m r x → cmp x.key e.key ≠ .lt ∧ (cmp x.key e.key = .eq → r ≤ rank)) ∧
        ∀ r x, Held content m' r x ↔ Held content m r x ∧ cmp x.key e.key ≠ .eq := by
  cases hpop : m.heads.pop (Head.precedes cmp) with
  | none =>
    have hempty := Heap.pop_eq_none_iff.mp hpop
    refine .inl ⟨fun i => ?_, by simp [Held, hempty, Heap.toList]⟩
    simp only [Merge.next, hm.no_errors, hpop]
  | some taken =>
    obtain ⟨best, heads⟩ := taken
    obtain ⟨m₁, hdraw, hm₁, hweight₁, hheld₁⟩ := hm.redraw hcontent hpop
    obtain ⟨m', hskip, hm', hheld', hweight'⟩ := hm₁.skipKey hcontent fun r x hx =>
      (hm.first hpop ((hheld₁ r x).mpr (.inl hx))).1
    refine .inr ⟨best.rank, best.entry, m', fun i => ?_, hm',
      (hheld₁ _ _).mpr (.inr ⟨rfl, rfl⟩), by omega, fun r x hx => hm.first hpop hx, fun r x => ?_⟩
    · rw [hm.no_errors] at hdraw
      simp only [Merge.next, hm.no_errors, hpop, hdraw i, hskip i]
    · rw [hheld', hheld₁]
      constructor
      · rintro ⟨h, hne⟩
        exact ⟨.inl h, hne⟩
      · rintro ⟨h | ⟨-, rfl⟩, hne⟩
        · exact ⟨h, hne⟩
        · exact absurd Std.ReflCmp.compare_self hne

/-- A sound merge gives, in ascending order, an entry of every key that it has, and nothing that it
has of the key outranks that entry. -/
theorem Sound.gives_merge [Std.TransCmp cmp]
    (hcontent : ∀ s' rest, Pull.Gives p s' (rest.map .ok) → content s' = rest)
    (hm : Sound p cmp content m) :
    ∃ out : List Entry, Pull.Gives (fun i => (p i).merge cmp) m (out.map .ok) ∧
      Ascending cmp out ∧
      (∀ e ∈ out, ∃ r, Held content m r e ∧
        ∀ r' e', Held content m r' e' → cmp e'.key e.key = .eq → r' ≤ r) ∧
      ∀ r e, Held content m r e → ∃ x ∈ out, cmp x.key e.key = .eq := by
  generalize hn : weight content m = n
  induction n using Nat.strongRecOn generalizing m with
  | _ n ih =>
    rcases hm.next hcontent with ⟨hnone, hheld⟩ | ⟨rank, e, m', hnext, hm', hmem, hlt, hbest, hheld⟩
    · exact ⟨[], .done hnone, .nil, by simp, fun r e he => absurd he (hheld r e)⟩
    · obtain ⟨out, hgives, hasc, hnewest, hcovers⟩ := ih _ (hn ▸ hlt) hm' rfl
      have hafter : ∀ x ∈ out, cmp e.key x.key = .lt := by
        intro x hx
        obtain ⟨r, hr, -⟩ := hnewest x hx
        obtain ⟨hr, hne⟩ := (hheld r x).mp hr
        have hge := (hbest r x hr).1
        apply Std.OrientedCmp.lt_of_gt
        cases hk : cmp x.key e.key <;> simp_all
      refine ⟨e :: out, .item hnext hgives, List.pairwise_cons.mpr ⟨hafter, hasc⟩, fun x hx => ?_,
        fun r x hx => ?_⟩
      · rcases List.mem_cons.mp hx with rfl | hx
        · exact ⟨rank, hmem, fun r' e' h' => (hbest r' e' h').2⟩
        · obtain ⟨r, hr, htop⟩ := hnewest x hx
          obtain ⟨hr, hne⟩ := (hheld r x).mp hr
          refine ⟨r, hr, fun r' e' h' hk => htop r' e' ((hheld r' e').mpr ⟨h', fun hk' => ?_⟩) hk⟩
          exact hne (Std.TransCmp.eq_trans (Std.OrientedCmp.eq_symm hk) hk')
      · by_cases hk : cmp x.key e.key = .eq
        · exact ⟨e, List.mem_cons_self, Std.OrientedCmp.eq_symm hk⟩
        · obtain ⟨y, hy, hyx⟩ := hcovers r x ((hheld r x).mpr ⟨hx, hk⟩)
          exact ⟨y, List.mem_cons_of_mem _ hy, hyx⟩

end Merge

/-! ## The merge of some sources -/

/-- Drawing from sources one after the other keeps a merge sound, and adds what they have. -/
theorem Merge.Sound.ofSources [Std.TransCmp cmp] {content : σ → List Entry}
    (hcontent : ∀ s' rest, Pull.Gives p s' (rest.map .ok) → content s' = rest)
    {sources : List (Nat × σ)} {layers : List (Nat × List Entry)}
    (hlayers : List.Forall₂ (fun source layer => source.1 = layer.1 ∧
      Pull.Gives p source.2 (layer.2.map .ok)) sources layers)
    (hasc : ∀ layer ∈ layers, Ascending cmp layer.2) {m : Merge σ} (hm : Sound p cmp content m) :
    ∃ m', (∀ i, sources.foldl (fun m source => m.draw (p i) cmp source.1 source.2) m = m') ∧
      Sound p cmp content m' ∧
      ∀ r e, Held content m' r e ↔
        Held content m r e ∨ ∃ layer ∈ layers, layer.1 = r ∧ e ∈ layer.2 := by
  induction hlayers generalizing m with
  | nil => exact ⟨m, fun _ => rfl, hm, by simp⟩
  | @cons source layer sources layers hfirst hrest ih =>
    obtain ⟨hrank, hgives⟩ := hfirst
    obtain ⟨m₁, hdraw, hm₁, hheld₁, -⟩ :=
      hm.draw hgives hcontent (hasc layer List.mem_cons_self)
    obtain ⟨m', hfold, hm', hheld'⟩ := ih (fun l hl => hasc l (List.mem_cons_of_mem _ hl)) hm₁
    refine ⟨m', fun i => by rw [List.foldl_cons, hdraw i, hfold i], hm', fun r e => ?_⟩
    rw [hheld', hheld₁, hrank]
    simp only [List.exists_mem_cons_iff, or_assoc]
    constructor
    · rintro (h | ⟨hr, he⟩ | h)
      · exact .inl h
      · exact .inr (.inl ⟨hr.symm, he⟩)
      · exact .inr (.inr h)
    · rintro (h | ⟨hr, he⟩ | h)
      · exact .inl h
      · exact .inr (.inl ⟨hr.symm, he⟩)
      · exact .inr (.inr h)

/-- A merge of error-free ascending sources gives a newest entry of every key, in ascending order. -/
theorem gives_ofSources_merges [Std.TransCmp cmp] [Nonempty ι]
    {sources : List (Nat × σ)} {layers : List (Nat × List Entry)}
    (hlayers : List.Forall₂ (fun source layer => source.1 = layer.1 ∧
      Pull.Gives p source.2 (layer.2.map .ok)) sources layers)
    (hasc : ∀ layer ∈ layers, Ascending cmp layer.2) :
    ∃ m, (∀ i, Merge.ofSources (p i) cmp sources = m) ∧
      ∃ out : List Entry, Pull.Gives (fun i => (p i).merge cmp) m (out.map .ok) ∧
        Merges cmp layers out := by
  let content := (p (Classical.arbitrary ι)).rest
  have hcontent : ∀ s' rest, Pull.Gives p s' (rest.map .ok) → content s' = rest :=
    fun _ _ h => h.rest_eq _
  obtain ⟨m, hfold, hm, hheld⟩ := Merge.Sound.ofSources hcontent hlayers hasc Merge.sound_empty
  obtain ⟨out, hgives, hascending, hnewest, hcovers⟩ := hm.gives_merge hcontent
  have hempty : ∀ r e, ¬Merge.Held content ⟨.empty, []⟩ r e := by simp [Merge.Held, Heap.toList]
  simp only [hheld, hempty, false_or] at hnewest hcovers
  refine ⟨m, hfold, out, hgives, hascending, fun e he => ?_, fun layer hlayer e he =>
    hcovers layer.1 e ⟨layer, hlayer, rfl, he⟩⟩
  obtain ⟨r, ⟨layer, hlayer, rfl, hmem⟩, htop⟩ := hnewest e he
  exact ⟨layer, hlayer, hmem, fun other hother x hx =>
    htop other.1 x ⟨other, hother, rfl, hx⟩⟩

/-- A merge of error-free ascending sources with different ranks gives the newest entry of every
key, in ascending order. -/
theorem gives_ofSources [Std.TransCmp cmp] [Nonempty ι]
    {sources : List (Nat × σ)} {layers : List (Nat × List Entry)}
    (hlayers : List.Forall₂ (fun source layer => source.1 = layer.1 ∧
      Pull.Gives p source.2 (layer.2.map .ok)) sources layers)
    (hasc : ∀ layer ∈ layers, Ascending cmp layer.2) (hranks : (layers.map Prod.fst).Nodup) :
    ∃ m, (∀ i, Merge.ofSources (p i) cmp sources = m) ∧
      ∃ out : List Entry, Pull.Gives (fun i => (p i).merge cmp) m (out.map .ok) ∧
        Ascending cmp out ∧ ∀ e, e ∈ out ↔ IsNewest cmp layers e := by
  obtain ⟨m, hm, out, hgives, hmerges⟩ := gives_ofSources_merges hlayers hasc
  exact ⟨m, hm, out, hgives, hmerges.ascending, hmerges.mem_iff hasc hranks⟩

end LayeredStore
