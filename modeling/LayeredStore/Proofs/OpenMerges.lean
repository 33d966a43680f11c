import LayeredStore.Proofs.LayerScans

/-!
# Merges of layers that are written to

A merge may be under way while writes go to the layers that it reads, so that it gives neither the
layers as they were nor as they are. What can be said is how far it has come: `ahead` is the part of
the range that it has not passed. `Merge.Follows` says that of every key ahead that a layer had when
the merge was started the merge still has an entry of the layer's rank, and that what it has was in
that layer or was written since.

Each step keeps that, and gives an entry which was the newest of its key at the start or was written
since, without passing over a key that was live at the start (`Follows.next`, `Follows.live`).
-/

namespace LayeredStore

/-! ## What is left of a range -/

/-- A part of a range that reaches to its end. -/
structure KeyRange.IsRest (ahead range : KeyRange) : Prop where
  upper : ahead.upper = range.upper
  within : ∀ {key : Bytes}, ahead.contains bytewise key = true → range.contains bytewise key = true

namespace KeyRange

variable {ahead middle range : KeyRange} {key other : Bytes}

theorem IsRest.refl (range : KeyRange) : range.IsRest range := ⟨rfl, id⟩

theorem IsRest.trans (h : ahead.IsRest middle) (h' : middle.IsRest range) : ahead.IsRest range :=
  ⟨h.upper.trans h'.upper, fun hkey => h'.within (h.within hkey)⟩

/-- The keys after one of the keys of a range. -/
theorem contains_after_iff (hkey : range.contains bytewise key = true) :
    (range.after key).contains bytewise other = true ↔
      bytewise key other = .lt ∧ range.contains bytewise other = true := by
  rw [contains_after hkey, Bool.and_eq_true, beq_iff_eq]

theorem isRest_after (hkey : range.contains bytewise key = true) :
    (range.after key).IsRest range :=
  ⟨rfl, fun hother => ((contains_after_iff hkey).mp hother).2⟩

/-- From one of its keys on, what is left of a range is all of the range. -/
theorem IsRest.contains_later (h : ahead.IsRest range) (hkey : ahead.contains bytewise key = true)
    (hlt : bytewise key other = .lt) (hother : range.contains bytewise other = true) :
    ahead.contains bytewise other = true := by
  have hafter : ahead.isAfter bytewise other = range.isAfter bytewise other := by
    rw [isAfter, isAfter, h.upper]
  have hbefore : ahead.isBefore bytewise other = false := by
    rw [← Bool.not_eq_true]
    intro hout
    rw [contains, isBefore_of_lt hlt hout] at hkey
    cases hkey
  rw [contains, Bool.and_eq_true] at hother
  rw [contains, hbefore, hafter, hother.2]
  rfl

end KeyRange

/-! ## Layers as they were -/

/-- Layers that can be merged, newest first. -/
structure Ranked (layers : List (Nat × List Entry)) : Prop where
  ranks : layers.Pairwise fun a b => b.1 < a.1
  ascending : ∀ layer ∈ layers, Ascending bytewise layer.2

/-- The newest entry of a key in some ranked layers, unless it deletes the key. -/
def liveIn (layers : List (Nat × List Entry)) (key : Bytes) : Option Entry :=
  (overlay (layers.map Prod.snd) key).bind Entry.live?

theorem overlay_eq_none_iff {layers : List (Nat × List Entry)} {key : Bytes} :
    overlay (layers.map Prod.snd) key = none ↔ ∀ layer ∈ layers, ∀ e ∈ layer.2, e.key ≠ key := by
  simp only [overlay, List.findSome?_eq_none_iff, List.forall_mem_map, entryOf_eq_none_iff]

namespace Merge

variable {σ : Type} {p q : Pull σ} {cmp : Comparator} {m m' : Merge σ} {content : σ → List Entry}
  {layers : List (Nat × List Entry)} {since : List Entry} {ahead : KeyRange}

/-! ## The heads of a merge -/

/-- A property of the heads of a merge that is passed on when a source gives its next entry. -/
def Drawn (p : Pull σ) (Q : Head σ → Prop) : Prop :=
  ∀ {head : Head σ} {e : Entry} {rest : σ}, Q head → p.next head.rest = (some (.ok e), rest) →
    Q ⟨e, head.rank, rest⟩

variable {Q : Head σ → Prop}

theorem heads_draw {rank : Nat} {s : σ} (hm : ∀ head ∈ m.heads.toList, Q head)
    (hnew : ∀ {e rest}, p.next s = (some (.ok e), rest) → Q ⟨e, rank, rest⟩) :
    ∀ head ∈ (m.draw p cmp rank s).heads.toList, Q head := by
  rw [draw]
  split
  · next e rest hnext =>
    intro head hhead
    rcases List.mem_cons.mp ((Heap.toList_push _ _ m.heads).mem_iff.mp hhead) with rfl | hhead
    · exact hnew hnext
    · exact hm head hhead
  · exact hm
  · exact hm

theorem heads_pop (hm : ∀ head ∈ m.heads.toList, Q head) {best : Head σ} {heads : Heap (Head σ)}
    (hpop : m.heads.pop (Head.precedes cmp) = some (best, heads)) :
    Q best ∧ ∀ head ∈ heads.toList, Q head := by
  have hperm := Heap.toList_pop hpop
  exact ⟨hm best (hperm.mem_iff.mpr List.mem_cons_self), fun head hhead =>
    hm head (hperm.mem_iff.mpr (List.mem_cons_of_mem _ hhead))⟩

theorem heads_skipKey (hQ : Drawn p Q) (key : Bytes) (hm : ∀ head ∈ m.heads.toList, Q head) :
    ∀ head ∈ (m.skipKey p cmp key).heads.toList, Q head := by
  fun_induction m.skipKey p cmp key with
  | case1 => exact hm
  | case2 m best heads hpop _ _ ih =>
    obtain ⟨hbest, hheads⟩ := heads_pop hm hpop
    exact ih (heads_draw hheads fun hnext => hQ hbest hnext)
  | case3 => exact hm

theorem heads_next (hQ : Drawn p Q) (hm : ∀ head ∈ m.heads.toList, Q head) :
    ∀ head ∈ (Merge.next p cmp m).2.heads.toList, Q head := by
  rw [Merge.next]
  split
  · exact hm
  · cases hpop : m.heads.pop (Head.precedes cmp) with
    | none => exact hm
    | some taken =>
      obtain ⟨hbest, hheads⟩ := heads_pop hm hpop
      exact heads_skipKey hQ _ (heads_draw hheads fun hnext => hQ hbest hnext)

/-- Whatever a merge passes over, its heads keep what is passed on from head to head. -/
theorem heads_live (hQ : Drawn p Q) (hm : ∀ head ∈ m.heads.toList, Q head) :
    ∀ head ∈ ((p.merge cmp).live.next m).2.heads.toList, Q head :=
  @Pull.find_keeps (Merge σ) m (p.merge cmp) (fun m => ∀ head ∈ m.heads.toList, Q head)
    (fun _ hm => heads_next hQ hm) Pull.isTombstoneItem hm

theorem heads_ofSources {sources : List (Nat × σ)}
    (hnew : ∀ source ∈ sources, ∀ {e rest}, p.next source.2 = (some (.ok e), rest) →
      Q ⟨e, source.1, rest⟩) : ∀ head ∈ (ofSources p cmp sources).heads.toList, Q head := by
  suffices hfold : ∀ m : Merge σ, (∀ head ∈ m.heads.toList, Q head) →
      ∀ head ∈ (sources.foldl (fun m source => m.draw p cmp source.1 source.2) m).heads.toList,
        Q head from hfold ⟨.empty, []⟩ (by simp [Heap.toList])
  intro m hm
  induction sources generalizing m with
  | nil => exact hm
  | cons source sources ih =>
    exact ih (fun other hother => hnew other (List.mem_cons_of_mem _ hother)) _
      (heads_draw hm (hnew source List.mem_cons_self))

/-! ## The end of a merge -/

theorem next_of_none (h : (Merge.next p cmp m).1 = none) (q : Pull σ) :
    Merge.next p cmp m = (none, m) ∧ Merge.next q cmp m = (none, m) := by
  rw [Merge.next, Merge.next] at *
  split
  · next herrors => simp [herrors] at h
  · next herrors =>
    rw [herrors] at h
    cases hpop : m.heads.pop (Head.precedes cmp) with
    | none => exact ⟨rfl, rfl⟩
    | some taken => simp [hpop] at h

/-- A merge that has come to its end stays there, whatever its sources are then. -/
theorem live_of_none (h : (p.merge cmp).live.next m = (none, m')) (q : Pull σ) :
    (q.merge cmp).live.next m' = (none, m') := by
  have hend : ∀ m : Merge σ, ((p.merge cmp).find Pull.isTombstoneItem m).1 = none →
      (q.merge cmp).next ((p.merge cmp).find Pull.isTombstoneItem m).2 =
        (none, ((p.merge cmp).find Pull.isTombstoneItem m).2) := by
    intro m hnone
    fun_induction (p.merge cmp).find Pull.isTombstoneItem m with
    | case1 m m' hnext =>
      obtain ⟨hsame, hother⟩ := next_of_none (congrArg Prod.fst hnext) q
      obtain rfl : m = m' := congrArg Prod.snd (hsame.symm.trans hnext)
      exact hother
    | case2 m item m' _ _ _ ih => exact ih hnone
    | case3 => cases hnone
  have hnext := hend m (congrArg Prod.fst h)
  rw [show (p.merge cmp).find Pull.isTombstoneItem m = (none, m') from h] at hnext
  exact (Pull.find_of_none (congrArg Prod.fst hnext)).trans hnext

/-! ## Steps of a merge -/

/-- What a merge still has of the part of its range ahead, when entries were written since it was
started: an entry for every key that a layer had, and nothing but what the layers had or what was
written. -/
structure Follows (layers : List (Nat × List Entry)) (since : List Entry) (ahead : KeyRange)
    (content : σ → List Entry) (m : Merge σ) : Prop where
  covers : ∀ layer ∈ layers, ∀ e ∈ layer.2, ahead.contains bytewise e.key = true →
    ∃ e', e'.key = e.key ∧ m.Held content layer.1 e'
  ahead : ∀ {rank e}, m.Held content rank e → ahead.contains bytewise e.key = true
  known : ∀ {rank e}, m.Held content rank e →
    (∃ layer ∈ layers, layer.1 = rank ∧ e ∈ layer.2) ∨ e ∈ since

/-- An entry was the newest of its key in the layers, or it was written since. -/
def Current (layers : List (Nat × List Entry)) (since : List Entry) (e : Entry) : Prop :=
  overlay (layers.map Prod.snd) e.key = some e ∨ e ∈ since

/-- Nothing that outranks an entry is held for its key only if it is the newest one. -/
theorem Follows.current (h : m.Follows layers since ahead content) (hranked : Ranked layers)
    {rank : Nat} {e : Entry} (he : m.Held content rank e)
    (hbest : ∀ r x, m.Held content r x → bytewise x.key e.key = .eq → r ≤ rank) :
    Current layers since e := by
  rcases h.known he with ⟨layer, hlayer, rfl, hmem⟩ | hsince
  · left
    refine (isNewest_iff_overlay hranked.ranks hranked.ascending).mp ⟨layer, hlayer, hmem, ?_⟩
    intro other hother x hx hkey
    have hsame : x.key = e.key := Std.LawfulEqCmp.eq_of_compare hkey
    obtain ⟨x', hx', hheld⟩ := h.covers other hother x hx (hsame ▸ h.ahead he)
    exact hbest _ x' hheld (hx' ▸ hkey)
  · exact .inr hsince

/-- One step of a merge that is under way. -/
theorem Follows.next (h : m.Follows layers since ahead p.rest) (hranked : Ranked layers)
    (hm : Sound (fun _ : Unit => p) bytewise p.rest m) :
    (Merge.next p bytewise m = (none, m) ∧ ∀ key, ahead.contains bytewise key = true →
        overlay (layers.map Prod.snd) key = none) ∨
      ∃ e m', Merge.next p bytewise m = (some (.ok e), m') ∧
        Sound (fun _ : Unit => p) bytewise p.rest m' ∧
        m'.Follows layers since (ahead.after e.key) p.rest ∧
        weight p.rest m' < weight p.rest m ∧ ahead.contains bytewise e.key = true ∧
        Current layers since e ∧
        ∀ key, ahead.contains bytewise key = true → bytewise key e.key = .lt →
          overlay (layers.map Prod.snd) key = none := by
  rcases hm.next fun _ _ hgives => hgives.rest_eq () with
    ⟨hnone, hnot⟩ | ⟨rank, e, m', hnext, hm', he, hlt, hbest, hheld⟩
  · refine .inl ⟨(next_of_none (hnone ()) p).1, fun key hkey => ?_⟩
    rw [overlay_eq_none_iff]
    rintro layer hlayer x hx rfl
    obtain ⟨x', -, hx'⟩ := h.covers layer hlayer x hx hkey
    exact hnot _ _ hx'
  have hahead := h.ahead he
  refine .inr ⟨e, m', hnext (), hm', ?_, hlt, hahead,
    h.current hranked he fun r x hx => (hbest r x hx).2, ?_⟩
  · refine ⟨fun layer hlayer x hx hafter => ?_, fun {r x} hx => ?_, fun {r x} hx => ?_⟩
    · obtain ⟨hlt, hin⟩ := (KeyRange.contains_after_iff hahead).mp hafter
      obtain ⟨x', hkey, hx'⟩ := h.covers layer hlayer x hx hin
      refine ⟨x', hkey, (hheld _ _).mpr ⟨hx', ?_⟩⟩
      simp [hkey, Std.OrientedCmp.gt_of_lt hlt]
    · obtain ⟨hx, hne⟩ := (hheld r x).mp hx
      refine (KeyRange.contains_after_iff hahead).mpr ⟨Std.OrientedCmp.lt_of_gt ?_, h.ahead hx⟩
      cases hcmp : bytewise x.key e.key with
      | lt => exact absurd hcmp (hbest r x hx).1
      | eq => exact absurd hcmp hne
      | gt => rfl
    · exact h.known ((hheld r x).mp hx).1
  · intro key hkey hbefore
    rw [overlay_eq_none_iff]
    rintro layer hlayer x hx rfl
    obtain ⟨x', hsame, hx'⟩ := h.covers layer hlayer x hx hkey
    exact (hbest _ x' hx').1 (hsame ▸ hbefore)

/-- Nothing is live of the keys of the range that come before a key or are it, the keys apart that
were written since. -/
def PassedOver (layers : List (Nat × List Entry)) (since : List Entry) (ahead : KeyRange)
    (reached : Bytes → Prop) : Prop :=
  ∀ key, ahead.contains bytewise key = true → reached key → (∀ x ∈ since, x.key ≠ key) →
    liveIn layers key = none

/-- What was live at the start and is not passed over before an entry is given is that entry, or comes
after it. -/
theorem PassedOver.given_or_after {e x : Entry}
    (h : PassedOver layers since ahead fun key => bytewise key e.key = .lt)
    (hin : ahead.contains bytewise e.key = true) (hcurrent : Current layers since e)
    (hahead : ahead.contains bytewise x.key = true) (hlive : liveIn layers x.key = some x)
    (hunwritten : ∀ y ∈ since, y.key ≠ x.key) :
    x = e ∨ (ahead.after e.key).contains bytewise x.key = true := by
  cases hcmp : bytewise x.key e.key with
  | lt =>
    rw [h x.key hahead hcmp hunwritten] at hlive
    cases hlive
  | eq =>
    have hkey : x.key = e.key := Std.LawfulEqCmp.eq_of_compare hcmp
    rcases hcurrent with hnewest | hsince
    · rw [hkey, liveIn, hnewest, Option.bind_some, Entry.live?_eq_some_iff] at hlive
      exact .inl hlive.2.symm
    · exact absurd hkey.symm (hunwritten e hsince)
  | gt => exact .inr ((KeyRange.contains_after_iff hin).mpr ⟨Std.OrientedCmp.lt_of_gt hcmp, hahead⟩)

/-- One step of a merge that drops tombstones. It ends where nothing is left that was live at the
start, or it gives a live entry and has passed over none. -/
theorem Follows.live (h : m.Follows layers since ahead p.rest) (hranked : Ranked layers)
    (hm : Sound (fun _ : Unit => p) bytewise p.rest m) :
    (∃ m' rest, (p.merge bytewise).live.next m = (none, m') ∧
        Sound (fun _ : Unit => p) bytewise p.rest m' ∧ m'.Follows layers since rest p.rest ∧
        rest.IsRest ahead ∧ PassedOver layers since ahead fun _ => True) ∨
      ∃ e m', (p.merge bytewise).live.next m = (some (.ok e), m') ∧
        Sound (fun _ : Unit => p) bytewise p.rest m' ∧
        m'.Follows layers since (ahead.after e.key) p.rest ∧
        ahead.contains bytewise e.key = true ∧ e.isTombstone = false ∧ Current layers since e ∧
        PassedOver layers since ahead fun key => bytewise key e.key = .lt := by
  -- by induction on what the merge has: each tombstone that is skipped makes it less
  generalize hn : weight p.rest m = n
  induction n using Nat.strongRecOn generalizing m ahead with
  | _ n ih =>
    have hdead {key : Bytes} (hnone : overlay (layers.map Prod.snd) key = none) :
        liveIn layers key = none := by rw [liveIn, hnone]; rfl
    rcases h.next hranked hm with ⟨hend, hpassed⟩ |
      ⟨e, m₁, hnext, hm₁, h₁, hlt, hahead, hcurrent, hpassed⟩
    · exact .inl ⟨m, ahead, (Pull.find_of_none (congrArg Prod.fst hend)).trans hend, hm, h, .refl ahead,
        fun key hkey _ _ => hdead (hpassed key hkey)⟩
    have hfind : (p.merge bytewise).find Pull.isTombstoneItem m =
        if Pull.isTombstoneItem (.ok e) then (p.merge bytewise).find Pull.isTombstoneItem m₁
        else (some (.ok e), m₁) := Pull.find_of_some hnext
    by_cases htomb : e.isTombstone = true
    swap
    · rw [Bool.not_eq_true] at htomb
      refine .inr ⟨e, m₁, ?_, hm₁, h₁, hahead, htomb, hcurrent,
        fun key hkey hbefore _ => hdead (hpassed key hkey hbefore)⟩
      exact hfind.trans (if_neg (by simp [Pull.isTombstoneItem, htomb]))
    have hskip : (p.merge bytewise).live.next m = (p.merge bytewise).live.next m₁ :=
      hfind.trans (if_pos htomb)
    -- what the tombstone hides is dead, and what comes before it is not there
    have hover {key : Bytes} (hkey : ahead.contains bytewise key = true)
        (hunwritten : ∀ x ∈ since, x.key ≠ key) :
        liveIn layers key = none ∨ (ahead.after e.key).contains bytewise key = true := by
      cases hcmp : bytewise key e.key with
      | lt => exact .inl (hdead (hpassed key hkey hcmp))
      | eq =>
        obtain rfl : key = e.key := Std.LawfulEqCmp.eq_of_compare hcmp
        rcases hcurrent with hnewest | hsince
        · left
          rw [liveIn, hnewest, Option.bind_some, Entry.live?, if_pos htomb]
        · exact absurd rfl (hunwritten e hsince)
      | gt =>
        exact .inr ((KeyRange.contains_after_iff hahead).mpr ⟨Std.OrientedCmp.lt_of_gt hcmp, hkey⟩)
    rw [hskip]
    rcases ih _ (hn ▸ hlt) h₁ hm₁ rfl with ⟨m', rest, hnone, hm', h', hrest, hpassed'⟩ |
      ⟨x, m', hsome, hm', h', hx, hlive, hcurrent', hpassed'⟩
    · refine .inl ⟨m', rest, hnone, hm', h', hrest.trans (KeyRange.isRest_after hahead), ?_⟩
      intro key hkey _ hunwritten
      exact (hover hkey hunwritten).elim id fun hafter => hpassed' key hafter trivial hunwritten
    · refine .inr ⟨x, m', hsome, hm', h', (KeyRange.isRest_after hahead).within hx, hlive,
        hcurrent', ?_⟩
      intro key hkey hbefore hunwritten
      exact (hover hkey hunwritten).elim id fun hafter => hpassed' key hafter hbefore hunwritten

end Merge

end LayeredStore
