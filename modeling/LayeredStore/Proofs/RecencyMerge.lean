import LayeredStore.SortBy
import LayeredStore.Proofs.Recency
import Mathlib.Data.List.MinMax

/-!
# Merging by recency

`recencyMerge cmp layers` is what is meant by the merge of ranked layers: of every key that some
layer holds the entry of the highest such layer, by ascending key. It is written without regard to
how a merge goes about it, and the layers may come in any order (`recencyMerge_perm`).

Streams are merged to just that (`toList_ofSources`), provided that they give no errors, that each
ascends and that no two have one rank. Keys may tie under the comparator without being the same;
`merge_by_recency` says of such keys that they count as one.
-/

namespace LayeredStore

variable {σ : Type} {cmp : Comparator} {layers others : List (Nat × List Entry)} {e : Entry}

/-! ## The merge of lists -/

/-- Whether a layer of a higher rank has the key of an entry. -/
def isOutranked (cmp : Comparator) (layers : List (Nat × List Entry)) (rank : Nat)
    (e : Entry) : Bool :=
  layers.any fun other => rank < other.1 && other.2.any fun x => cmp x.key e.key == .eq

/-- Of each key the entry of the highest layer that has it, by ascending key. -/
def recencyMerge (cmp : Comparator) (layers : List (Nat × List Entry)) : List Entry :=
  sortBy (fun a b => (cmp a.key b.key).isLE)
    (layers.flatMap fun layer => layer.2.filter fun e => !isOutranked cmp layers layer.1 e)

theorem isOutranked_eq_false_iff {rank : Nat} : isOutranked cmp layers rank e = false ↔
    ∀ other ∈ layers, ∀ x ∈ other.2, cmp x.key e.key = .eq → other.1 ≤ rank := by
  unfold isOutranked
  constructor
  · intro h other hother x hx hkey
    have hnot := List.any_eq_false.mp h other hother
    by_contra hlt
    refine hnot ?_
    have hmatch : (other.2.any fun x => cmp x.key e.key == .eq) = true :=
      List.any_eq_true.mpr ⟨x, hx, by simp [hkey]⟩
    rw [hmatch, Bool.and_true, decide_eq_true_eq]
    omega
  · intro h
    refine List.any_eq_false.mpr fun other hother houtranks => ?_
    rw [Bool.and_eq_true, decide_eq_true_eq, List.any_eq_true] at houtranks
    obtain ⟨hlt, x, hx, hkey⟩ := houtranks
    have hle := h other hother x hx (by simpa using hkey)
    omega

theorem mem_recencyMerge : e ∈ recencyMerge cmp layers ↔ IsNewest cmp layers e := by
  unfold recencyMerge IsNewest
  rw [(sortBy_perm _ _).mem_iff, List.mem_flatMap]
  refine exists_congr fun layer => and_congr_right fun _ => ?_
  rw [List.mem_filter, Bool.not_eq_true', isOutranked_eq_false_iff]

/-- A merge of layers that ascend and differ in rank ascends, and so it has no key twice. -/
theorem ascending_recencyMerge [Std.TransCmp cmp] (hasc : ∀ layer ∈ layers, Ascending cmp layer.2)
    (hranks : (layers.map Prod.fst).Nodup) : Ascending cmp (recencyMerge cmp layers) := by
  have hsymm {a b : Entry} (h : cmp a.key b.key ≠ .eq) : cmp b.key a.key ≠ .eq :=
    fun hba => h (Std.OrientedCmp.eq_symm hba)
  -- before they are sorted, no two of the entries have one key
  have hapart : (layers.flatMap fun layer => layer.2.filter fun e =>
      !isOutranked cmp layers layer.1 e).Pairwise fun a b => cmp a.key b.key ≠ .eq := by
    refine List.pairwise_flatMap.mpr ⟨fun layer hlayer => ?_, ?_⟩
    · refine List.Pairwise.imp ?_ (List.Pairwise.filter _ (hasc layer hlayer))
      intro a b hlt
      simp [hlt]
    · have hdistinct : layers.Pairwise fun a b => a.1 ≠ b.1 := List.pairwise_map.mp hranks
      refine hdistinct.imp_of_mem fun {a b} ha hb hne x hx y hy hkey => ?_
      obtain ⟨hxa, hxtop⟩ := List.mem_filter.mp hx
      obtain ⟨hyb, hytop⟩ := List.mem_filter.mp hy
      rw [Bool.not_eq_true', isOutranked_eq_false_iff] at hxtop hytop
      have hba := hxtop b hb y hyb (Std.OrientedCmp.eq_symm hkey)
      have hab := hytop a ha x hxa hkey
      omega
  have hsorted := @pairwise_sortBy _ (fun a b : Entry => (cmp a.key b.key).isLE)
    (fun _ _ _ hab hbc => Std.TransCmp.isLE_trans hab hbc) (fun a b => ?_)
    (layers.flatMap fun layer => layer.2.filter fun e => !isOutranked cmp layers layer.1 e)
  · have hdistinct := ((sortBy_perm (fun a b : Entry => (cmp a.key b.key).isLE) _).pairwise_iff
      hsymm).mpr hapart
    refine (hsorted.and hdistinct).imp fun {a b} h => ?_
    obtain ⟨hle, hne⟩ := h
    cases hk : cmp a.key b.key with
    | lt => rfl
    | eq => exact absurd hk hne
    | gt => simp [hk] at hle
  · rw [@Std.OrientedCmp.eq_swap _ cmp _ b.key]
    cases cmp a.key b.key <;> rfl

/-- What ascends and has the newest entries is the merge. -/
theorem eq_recencyMerge [Std.TransCmp cmp] (hasc : ∀ layer ∈ layers, Ascending cmp layer.2)
    (hranks : (layers.map Prod.fst).Nodup) {out : List Entry} (hout : Ascending cmp out)
    (hmem : ∀ e, e ∈ out ↔ IsNewest cmp layers e) : out = recencyMerge cmp layers :=
  hout.ext (ascending_recencyMerge hasc hranks) fun e => (hmem e).trans mem_recencyMerge.symm

/-- The order in which layers come does not matter to their merge. -/
theorem recencyMerge_perm [Std.TransCmp cmp] (hasc : ∀ layer ∈ layers, Ascending cmp layer.2)
    (hranks : (layers.map Prod.fst).Nodup) (hperm : others.Perm layers) :
    recencyMerge cmp others = recencyMerge cmp layers := by
  have hasc' : ∀ layer ∈ others, Ascending cmp layer.2 := fun layer hlayer =>
    hasc layer (hperm.mem_iff.mp hlayer)
  have hranks' : (others.map Prod.fst).Nodup := (hperm.map Prod.fst).nodup_iff.mpr hranks
  refine eq_recencyMerge hasc hranks (ascending_recencyMerge hasc' hranks') fun e => ?_
  rw [mem_recencyMerge]
  unfold IsNewest
  simp only [hperm.mem_iff]

/-- Whether a layer has an entry with a key. -/
def hasKey (cmp : Comparator) (key : Bytes) (layer : Nat × List Entry) : Bool :=
  layer.2.any fun e => cmp e.key key == .eq

theorem hasKey_iff {key : Bytes} {layer : Nat × List Entry} :
    hasKey cmp key layer = true ↔ ∃ e ∈ layer.2, cmp e.key key = .eq := by
  simp [hasKey]

/-- Every key that a layer has is in the merge. -/
theorem exists_mem_recencyMerge [Std.TransCmp cmp] {key : Bytes} :
    (∃ e ∈ recencyMerge cmp layers, cmp e.key key = .eq) ↔
      ∃ layer ∈ layers, ∃ e ∈ layer.2, cmp e.key key = .eq := by
  constructor
  · rintro ⟨e, he, hkey⟩
    obtain ⟨layer, hlayer, hmem, -⟩ := mem_recencyMerge.mp he
    exact ⟨layer, hlayer, e, hmem, hkey⟩
  · rintro ⟨layer, hlayer, e, he, hkey⟩
    -- of the layers that have the key, one has the highest rank
    have hlayer' : layer ∈ layers.filter (hasKey cmp key) :=
      List.mem_filter.mpr ⟨hlayer, hasKey_iff.mpr ⟨e, he, hkey⟩⟩
    obtain ⟨top, htop⟩ : ∃ top, top ∈ (layers.filter (hasKey cmp key)).argmax Prod.fst := by
      refine Option.ne_none_iff_exists'.mp fun hnone => ?_
      rw [List.argmax_eq_none.mp hnone] at hlayer'
      cases hlayer'
    obtain ⟨hmem, hhas⟩ := List.mem_filter.mp (List.argmax_mem htop)
    obtain ⟨x, hx, hxkey⟩ := hasKey_iff.mp hhas
    refine ⟨x, mem_recencyMerge.mpr ⟨top, hmem, hx, fun other hother y hy hyx => ?_⟩, hxkey⟩
    have hother' : other ∈ layers.filter (hasKey cmp key) :=
      List.mem_filter.mpr ⟨hother, hasKey_iff.mpr ⟨y, hy, Std.TransCmp.eq_trans hyx hxkey⟩⟩
    exact List.le_of_mem_argmax hother' htop

/-! ## The merge of streams -/

namespace Pull

variable {p : Pull σ} {s : σ} {sources : List (Nat × σ)}

/-- What some sources have to give, with their ranks. -/
def layersOf (p : Pull σ) (sources : List (Nat × σ)) : List (Nat × List Entry) :=
  sources.map fun source => (source.1, p.rest source.2)

theorem mem_layersOf {layer : Nat × List Entry} :
    layer ∈ p.layersOf sources ↔ ∃ source ∈ sources, (source.1, p.rest source.2) = layer :=
  List.mem_map

theorem map_fst_layersOf : (p.layersOf sources).map Prod.fst = sources.map Prod.fst := by
  unfold layersOf
  rw [List.map_map]
  rfl

theorem ascending_layersOf (hasc : ∀ source ∈ sources, Ascending cmp (p.rest source.2)) :
    ∀ layer ∈ p.layersOf sources, Ascending cmp layer.2 := by
  intro layer hlayer
  obtain ⟨source, hsource, rfl⟩ := mem_layersOf.mp hlayer
  exact hasc source hsource

theorem nodup_layersOf (hranks : (sources.map Prod.fst).Nodup) :
    ((p.layersOf sources).map Prod.fst).Nodup := by
  rw [map_fst_layersOf]
  exact hranks

/-- A stream that gives no error. -/
def ErrorFree (p : Pull σ) (s : σ) : Prop := ∀ cause, Except.error cause ∉ p.toList s

/-- A stream that gives no error gives its entries. -/
theorem ErrorFree.toList_eq (h : p.ErrorFree s) : p.toList s = (p.rest s).map .ok := by
  unfold ErrorFree at h
  unfold rest
  generalize p.toList s = items at h
  induction items with
  | nil => rfl
  | cons item items ih =>
    have hrest := ih fun cause hmem => h cause (List.mem_cons_of_mem _ hmem)
    cases item with
    | error cause => exact absurd List.mem_cons_self (h cause)
    | ok e => exact congrArg (Except.ok e :: ·) hrest

theorem errorFree_of_toList {entries : List Entry} (h : p.toList s = entries.map .ok) :
    p.ErrorFree s := by
  intro cause hmem
  rw [h] at hmem
  obtain ⟨e, -, he⟩ := List.mem_map.mp hmem
  cases he

theorem ErrorFree.gives (h : p.ErrorFree s) :
    Gives (fun _ : Unit => p) s ((p.rest s).map .ok) := by
  rw [← h.toList_eq]
  exact gives_toList p s

end Pull

/-- Streams that give no errors are merged to the merge of what they give. -/
theorem toList_ofSources [Std.TransCmp cmp] {p : Pull σ} {sources : List (Nat × σ)}
    (hfree : ∀ source ∈ sources, p.ErrorFree source.2)
    (hasc : ∀ source ∈ sources, Ascending cmp (p.rest source.2))
    (hranks : (sources.map Prod.fst).Nodup) :
    (p.merge cmp).toList (.ofSources p cmp sources) =
      (recencyMerge cmp (p.layersOf sources)).map .ok := by
  have hlayers : List.Forall₂ (fun source layer => source.1 = layer.1 ∧
      Pull.Gives (fun _ : Unit => p) source.2 (layer.2.map .ok)) sources (p.layersOf sources) := by
    unfold Pull.layersOf
    rw [List.forall₂_map_right_iff, List.forall₂_same]
    exact fun source hsource => ⟨rfl, (hfree source hsource).gives⟩
  have hasc' := Pull.ascending_layersOf hasc
  have hranks' : ((p.layersOf sources).map Prod.fst).Nodup := Pull.nodup_layersOf hranks
  obtain ⟨m, hm, out, hgives, hout, hmem⟩ := gives_ofSources hlayers hasc' hranks'
  rw [hm (), hgives.toList_eq (), eq_recencyMerge hasc' hranks' hout hmem]

/-- A merge of streams that give no errors, that ascend and that differ in rank ascends too. It has
one entry for each key that a stream has, up to ties of the comparator, namely that of the stream of
the highest rank, be it a tombstone or not. In which order the streams are listed does not matter. -/
theorem merge_by_recency [Std.TransCmp cmp] {p : Pull σ} {sources : List (Nat × σ)}
    (hfree : ∀ source ∈ sources, p.ErrorFree source.2)
    (hasc : ∀ source ∈ sources, Ascending cmp (p.rest source.2))
    (hranks : (sources.map Prod.fst).Nodup) :
    ∃ out : List Entry,
      (∀ listed, listed.Perm sources →
        (p.merge cmp).toList (.ofSources p cmp listed) = out.map .ok) ∧
      Ascending cmp out ∧
      (∀ key, (∃ e ∈ out, cmp e.key key = .eq) ↔
        ∃ source ∈ sources, ∃ e ∈ p.rest source.2, cmp e.key key = .eq) ∧
      ∀ e ∈ out, ∃ source ∈ sources, e ∈ p.rest source.2 ∧
        ∀ other ∈ sources, ∀ x ∈ p.rest other.2, cmp x.key e.key = .eq → other.1 ≤ source.1 := by
  have hasc' := Pull.ascending_layersOf hasc
  have hranks' : ((p.layersOf sources).map Prod.fst).Nodup := Pull.nodup_layersOf hranks
  refine ⟨recencyMerge cmp (p.layersOf sources), fun listed hperm => ?_,
    ascending_recencyMerge hasc' hranks', fun key => ?_, fun e he => ?_⟩
  · rw [toList_ofSources (fun source hsource => hfree source (hperm.mem_iff.mp hsource))
      (fun source hsource => hasc source (hperm.mem_iff.mp hsource))
      ((hperm.map Prod.fst).nodup_iff.mpr hranks)]
    exact congrArg (List.map Except.ok) (recencyMerge_perm hasc' hranks' (hperm.map _))
  · rw [exists_mem_recencyMerge]
    constructor
    · rintro ⟨layer, hlayer, e, he, hkey⟩
      obtain ⟨source, hsource, rfl⟩ := Pull.mem_layersOf.mp hlayer
      exact ⟨source, hsource, e, he, hkey⟩
    · rintro ⟨source, hsource, hhas⟩
      exact ⟨_, Pull.mem_layersOf.mpr ⟨source, hsource, rfl⟩, hhas⟩
  · obtain ⟨layer, hlayer, hmem, hnewest⟩ := mem_recencyMerge.mp he
    obtain ⟨source, hsource, rfl⟩ := Pull.mem_layersOf.mp hlayer
    exact ⟨source, hsource, hmem, fun other hother x hx hkey =>
      hnewest _ (Pull.mem_layersOf.mpr ⟨other, hother, rfl⟩) x hx hkey⟩

/-- Keys by their length alone, so that all keys of one length tie. -/
def byLength : Comparator := compareOn List.length

instance : Std.TransCmp byLength := inferInstanceAs (Std.TransCmp (compareOn List.length))

/-- Three sources with keys of one byte, the newest of which is a tombstone. -/
def tiedSources : List (Nat × List Item) :=
  [(2, [.ok (.put [1] [10]), .ok (.put [1, 1] [11])]), (7, [.ok (.tombstone [9])]),
    (4, [.ok (.put [] [40]), .ok (.put [5] [50])])]

/-- Of the keys of one byte the tombstone is left, however the sources are listed. -/
theorem tiedSources_merge_by_recency :
    ((∀ source ∈ tiedSources, Pull.items.ErrorFree source.2) ∧
      (∀ source ∈ tiedSources, Ascending byLength (Pull.items.rest source.2)) ∧
      (tiedSources.map Prod.fst).Nodup) ∧
    ∀ listed, listed.Perm tiedSources →
      (Pull.items.merge byLength).toList (.ofSources Pull.items byLength listed) =
        [.ok (.put [] [40]), .ok (.tombstone [9]), .ok (.put [1, 1] [11])] := by
  have hfree : ∀ source ∈ tiedSources, Pull.items.ErrorFree source.2 := by
    intro source hsource cause
    rw [Pull.toList_items]
    revert cause
    revert source
    simp [tiedSources]
  have hasc : ∀ source ∈ tiedSources, Ascending byLength (Pull.items.rest source.2) := by
    unfold Pull.rest
    simp only [Pull.toList_items]
    decide
  have hranks : (tiedSources.map Prod.fst).Nodup := by decide
  refine ⟨⟨hfree, hasc, hranks⟩, fun listed hperm => ?_⟩
  obtain ⟨out, hlisted, -⟩ := merge_by_recency hfree hasc hranks
  rw [hlisted listed hperm, ← hlisted tiedSources (.refl _)]
  decide +kernel

end LayeredStore
