import LayeredStore.Generation
import LayeredStore.Proofs.RecencyMerge
import LayeredStore.Proofs.RunImage

/-!
# Scans of layers

The layers of a store are lists of entries that ascend. A merge of ranked scans of a range of the
layers gives the part of their merge that lies in the range (`gives_ofSources_cut`).

`overlay layers key` is what layers, newest first, have for a key: the entry of the first layer that
has one. If newer layers have larger ranks, the merge has the entries of the overlay
(`mem_recencyMerge_iff_overlay`).

A buffer that stays as it is, and a run whose file does, are layers to scan
(`Source.gives_buffer`, `Source.gives_run`).
-/

namespace LayeredStore

/-! ## Buffers -/

theorem isLE_of_ne_lt {a b : Bytes} (h : bytewise b a ≠ .lt) : (bytewise a b).isLE = true := by
  have hswap : bytewise a b = (bytewise b a).swap := Std.OrientedCmp.eq_swap
  rw [hswap]
  cases hba : bytewise b a with
  | lt => exact absurd hba h
  | eq => rfl
  | gt => rfl

theorem isLE_of_ne_gt {a b : Bytes} (h : bytewise a b ≠ .gt) : (bytewise a b).isLE = true := by
  cases hab : bytewise a b with
  | lt => rfl
  | eq => rfl
  | gt => exact absurd hab h

/-- An inverted range has no key. -/
theorem KeyRange.contains_of_isInverted {range : KeyRange} (h : range.isInverted = true)
    (key : Bytes) : range.contains bytewise key = false := by
  by_contra hcontains
  obtain ⟨hbefore, hafter⟩ : range.isBefore bytewise key = false ∧
      range.isAfter bytewise key = false := by
    simpa [contains] using hcontains
  obtain ⟨lower, upper⟩ := range
  simp only [isBefore, isAfter, isInverted] at hbefore hafter h
  cases lower with
  | unbounded => simp at h
  | included first =>
    have hfirst : (bytewise first key).isLE = true := isLE_of_ne_lt (by simpa using hbefore)
    cases upper with
    | unbounded => simp at h
    | included last =>
      have hlast : (bytewise key last).isLE = true := isLE_of_ne_gt (by simpa using hafter)
      have hle := Std.TransCmp.isLE_trans hfirst hlast
      rw [show bytewise first last = .gt by simpa using h] at hle
      cases hle
    | excluded last =>
      have hlast : bytewise key last = .lt := by simpa using hafter
      have hlt := Std.TransCmp.lt_of_isLE_of_lt hfirst hlast
      exact absurd hlt (by simpa using h)
  | excluded first =>
    have hfirst : bytewise first key = .lt := Std.OrientedCmp.lt_of_gt (by simpa using hbefore)
    cases upper with
    | unbounded => simp at h
    | included last =>
      have hlast : (bytewise key last).isLE = true := isLE_of_ne_gt (by simpa using hafter)
      have hlt := Std.TransCmp.lt_of_lt_of_isLE hfirst hlast
      exact absurd hlt (by simpa using h)
    | excluded last =>
      have hlast : bytewise key last = .lt := by simpa using hafter
      have hlt : bytewise first last = .lt := Std.TransCmp.lt_trans hfirst hlast
      exact absurd hlt (by simpa using h)

/-- The part of a range after one of its keys. -/
theorem KeyRange.contains_after {range : KeyRange} {key : Bytes}
    (hkey : range.contains bytewise key = true) (other : Bytes) :
    (range.after key).contains bytewise other =
      (bytewise key other == .lt && range.contains bytewise other) := by
  have hafter : (range.after key).isAfter bytewise other = range.isAfter bytewise other := rfl
  have hbefore : (range.after key).isBefore bytewise other = (bytewise other key != .gt) := rfl
  have hswap : bytewise key other = (bytewise other key).swap := Std.OrientedCmp.eq_swap
  rw [contains, contains, hafter, hbefore]
  cases hother : bytewise other key with
  | lt => simp [hswap, hother]
  | eq => simp [hswap, hother]
  | gt =>
    -- what is after a key of the range is not before the range
    cases hout : range.isBefore bytewise other with
    | false => simp [hswap, hother]
    | true =>
      have hlt : bytewise key other = .lt := Std.OrientedCmp.lt_of_gt hother
      have := isBefore_of_lt hlt hout
      simp [contains, this] at hkey

namespace Buffer

variable {ι : Type}

theorem entries_eq_nil_iff {b : Buffer} : b.entries = [] ↔ b.isEmpty = true := by
  rw [isEmpty, ← EntryTree.isEmpty_toList, List.isEmpty_iff]
  rfl

/-- The next entry of a scan is the first one in the range ahead. -/
theorem next_of_cut_nil {b : Buffer} {range : KeyRange} (h : range.cut b.entries = []) :
    (Cursor.next b ⟨range, false⟩).1 = none := by
  rw [Cursor.next]
  by_cases hinverted : (false || range.isInverted) = true
  · rw [if_pos hinverted]
  · rw [if_neg hinverted, firstFrom_eq_find?]
    cases hfind : b.entries.find? fun e => !range.isBefore bytewise e.key with
    | none => rfl
    | some e =>
      have hbefore : range.isBefore bytewise e.key = false := by
        simpa using List.find?_some hfind
      by_cases hafter : range.isAfter bytewise e.key = true
      · simp [hafter]
      · have hmem : e ∈ range.cut b.entries :=
          KeyRange.mem_cut.mpr ⟨List.mem_of_find?_eq_some hfind, by simp [KeyRange.contains, hbefore,
            hafter]⟩
        rw [h] at hmem
        cases hmem

theorem next_of_cut_cons {b : Buffer} {range : KeyRange} {e : Entry} {rest : List Entry}
    (h : range.cut b.entries = e :: rest) :
    Cursor.next b ⟨range, false⟩ = (some (.ok e), ⟨range.after e.key, false⟩) ∧
      (range.after e.key).cut b.entries = rest := by
  obtain ⟨front, tail, hsplit, hfront, he, htail⟩ := List.filter_eq_cons_iff.mp h
  have hasc : Ascending bytewise (front ++ e :: tail) := by
    rw [← hsplit]
    exact b.ascending
  obtain ⟨-, hasctail, hlt⟩ := List.pairwise_append.mp hasc
  have hcontains : range.contains bytewise e.key = true := he
  obtain ⟨hbefore, hafter⟩ : range.isBefore bytewise e.key = false ∧
      range.isAfter bytewise e.key = false := by
    simpa [KeyRange.contains] using hcontains
  -- nothing of the front is in the range or after it, since `e` is not after it
  have hskip : ∀ x ∈ front, range.isBefore bytewise x.key = true := by
    intro x hx
    by_contra hnot
    have hx' := hfront x hx
    have hxafter : range.isAfter bytewise x.key = true := by
      have himp : range.isBefore bytewise x.key = false → range.isAfter bytewise x.key = true := by
        simpa [KeyRange.contains] using hx'
      exact himp (by simpa using hnot)
    have := KeyRange.isAfter_of_lt (hlt x hx e List.mem_cons_self) hxafter
    rw [hafter] at this
    cases this
  constructor
  · have hinverted : range.isInverted = false := by
      by_contra hinv
      have := KeyRange.contains_of_isInverted (by simpa using hinv) e.key
      rw [hcontains] at this
      cases this
    have hfind : b.firstFrom range = some e := by
      rw [firstFrom_eq_find?, hsplit, List.find?_append]
      have hnone : front.find? (fun e => !range.isBefore bytewise e.key) = none := by
        rw [List.find?_eq_none]
        intro x hx
        simp [hskip x hx]
      rw [hnone]
      simp [hbefore]
    rw [Cursor.next]
    simp [hinverted, hfind, hafter]
  · rw [hsplit, KeyRange.cut_append, KeyRange.cut_cons]
    have hself : (range.after e.key).contains bytewise e.key = false := by
      simp [KeyRange.contains, KeyRange.isBefore_after_self]
    have hnil : (range.after e.key).cut front = [] := by
      refine List.filter_eq_nil_iff.mpr fun x hx => ?_
      simp [KeyRange.contains, KeyRange.isBefore_after hbefore (hskip x hx)]
    rw [hnil, hself, List.nil_append, if_neg (by simp), ← htail]
    refine List.filter_congr fun x hx => ?_
    have hxlt : bytewise e.key x.key = .lt := List.rel_of_pairwise_cons hasctail hx
    simp [KeyRange.contains_after hcontains, hxlt]

/-- A scan of a buffer that stays as it is gives its entries in the range. -/
theorem gives_scan (b : Buffer) (range : KeyRange) :
    Pull.Gives (fun _ : ι => b.pull) (Buffer.scan range) ((range.cut b.entries).map .ok) := by
  show Pull.Gives (fun _ : ι => b.pull) (⟨range, false⟩ : Cursor) _
  generalize hcut : range.cut b.entries = entries
  induction entries generalizing range with
  | nil => exact .done fun _ => next_of_cut_nil hcut
  | cons e rest ih =>
    obtain ⟨hnext, hrest⟩ := next_of_cut_cons hcut
    exact .item (fun _ => hnext) (ih _ hrest)

/-- The entries of a buffer, as a flush writes them. -/
theorem toList_all (b : Buffer) : b.toList .all = b.entries.map .ok := by
  have hgives := (b.gives_scan (ι := Unit) .all).toList_eq ()
  rwa [KeyRange.cut_all] at hgives

end Buffer

/-! ## Sources -/

namespace Source

variable {ι : Type} {buffers : Nat → Buffer} {disks : ι → Disk}

theorem gives_buffer (buffers : Nat → Buffer) (disks : ι → Disk) (id : Nat) (range : KeyRange) :
    Pull.Gives (fun i => Source.pull buffers (disks i)) (.ofBuffer id range)
      ((range.cut (buffers id).entries).map .ok) := by
  have hgives := (buffers id).gives_scan (ι := ι) range
  rw [ofBuffer]
  generalize Buffer.scan range = cursor at hgives
  generalize (range.cut (buffers id).entries).map Except.ok = items at hgives
  induction hgives with
  | done hnone => exact .done hnone
  | item hsome _ ih => exact .item (fun i => by rw [pull]; simp only [hsome i]) ih

/-- A scan of a run is not concerned with the buffers. -/
theorem gives_scanned {scan : Within RunFile.Cursor} {items : List Item}
    (h : Pull.Gives (fun i => RunFile.pull (disks i)) scan items) (buffers : Nat → Buffer) :
    Pull.Gives (fun i => Source.pull buffers (disks i)) (.run scan) items := by
  induction h with
  | done hnone => exact .done hnone
  | item hsome _ ih => exact .item (fun i => by rw [pull]; simp only [hsome i]) ih

theorem gives_run {run : RunFile} {entries : List Entry} (h : run.Reads disks entries)
    (buffers : Nat → Buffer) (range : KeyRange) :
    ∃ source, (∀ i, Source.ofRun (disks i) run range = source) ∧
      Pull.Gives (fun i => Source.pull buffers (disks i)) source
        ((range.cut entries).map .ok) := by
  obtain ⟨scan, hscan, hgives⟩ := h.gives_scan range
  exact ⟨.run scan, fun i => by rw [ofRun, hscan i], gives_scanned hgives buffers⟩

end Source

/-! ## Overlays -/

/-- What a list of entries has for a key. -/
def entryOf (entries : List Entry) (key : Bytes) : Option Entry :=
  entries.find? fun e => e.key == key

/-- What layers have for a key, the newest layer being first. -/
def overlay (layers : List (List Entry)) (key : Bytes) : Option Entry :=
  layers.findSome? fun entries => entryOf entries key

@[simp] theorem overlay_nil (key : Bytes) : overlay [] key = none := rfl

theorem overlay_cons (entries : List Entry) (rest : List (List Entry)) (key : Bytes) :
    overlay (entries :: rest) key = (entryOf entries key <|> overlay rest key) := by
  rw [overlay, List.findSome?_cons]
  cases entryOf entries key <;> rfl

theorem overlay_append (upper lower : List (List Entry)) (key : Bytes) :
    overlay (upper ++ lower) key = (overlay upper key <|> overlay lower key) := by
  rw [overlay, List.findSome?_append]
  cases hupper : overlay upper key <;> rw [← overlay, hupper] <;> rfl

theorem key_of_entryOf {entries : List Entry} {key : Bytes} {e : Entry}
    (h : entryOf entries key = some e) : e.key = key := by
  simpa using List.find?_some h

theorem mem_of_entryOf {entries : List Entry} {key : Bytes} {e : Entry}
    (h : entryOf entries key = some e) : e ∈ entries := List.mem_of_find?_eq_some h

/-- An ascending list has at most one entry for a key. -/
theorem entryOf_eq_some_iff {entries : List Entry} (hasc : Ascending bytewise entries) {e : Entry} :
    entryOf entries e.key = some e ↔ e ∈ entries := by
  refine ⟨mem_of_entryOf, fun hmem => ?_⟩
  cases hfind : entryOf entries e.key with
  | none =>
    have := List.find?_eq_none.mp hfind e hmem
    simp at this
  | some x =>
    have hkey := key_of_entryOf hfind
    have heq : bytewise x.key e.key = .eq := by
      rw [hkey]
      exact Std.ReflCmp.compare_self
    rw [hasc.eq_of_cmp_eq (mem_of_entryOf hfind) hmem heq]

theorem entryOf_eq_none_iff {entries : List Entry} {key : Bytes} :
    entryOf entries key = none ↔ ∀ e ∈ entries, e.key ≠ key := by
  simp [entryOf, List.find?_eq_none]

/-- An entry is newest if the layer that outranks the others has it, or does not have its key and the
entry is newest in the others. -/
theorem isNewest_cons {first : Nat × List Entry} {rest : List (Nat × List Entry)}
    (htop : ∀ layer ∈ rest, layer.1 < first.1) (hasc : Ascending bytewise first.2) {e : Entry} :
    IsNewest bytewise (first :: rest) e ↔
      e ∈ first.2 ∨ (∀ x ∈ first.2, x.key ≠ e.key) ∧ IsNewest bytewise rest e := by
  constructor
  · rintro ⟨layer, hlayer, he, hnewest⟩
    rcases List.mem_cons.mp hlayer with rfl | hlayer
    · exact .inl he
    · refine .inr ⟨fun x hx hkey => ?_, layer, hlayer, he, fun other hother =>
        hnewest other (List.mem_cons_of_mem _ hother)⟩
      have hsame : bytewise x.key e.key = .eq := by
        rw [hkey]
        exact Std.ReflCmp.compare_self
      have hle := hnewest first List.mem_cons_self x hx hsame
      have hlt := htop layer hlayer
      omega
  · rintro (he | ⟨hnot, layer, hlayer, he, hnewest⟩)
    · refine ⟨first, List.mem_cons_self, he, fun other hother x hx hkey => ?_⟩
      rcases List.mem_cons.mp hother with rfl | hother
      · exact Nat.le_refl _
      · exact Nat.le_of_lt (htop other hother)
    · refine ⟨layer, List.mem_cons_of_mem _ hlayer, he, fun other hother x hx hkey => ?_⟩
      rcases List.mem_cons.mp hother with rfl | hother
      · exact absurd (Std.LawfulEqCmp.eq_of_compare hkey) (hnot x hx)
      · exact hnewest other hother x hx hkey

/-- Of layers whose ranks descend, the entries of the overlay are the newest ones. -/
theorem isNewest_iff_overlay {layers : List (Nat × List Entry)}
    (hranks : layers.Pairwise fun a b => b.1 < a.1)
    (hasc : ∀ layer ∈ layers, Ascending bytewise layer.2) {e : Entry} :
    IsNewest bytewise layers e ↔ overlay (layers.map Prod.snd) e.key = some e := by
  induction layers with
  | nil => simp [IsNewest]
  | cons first rest ih =>
    obtain ⟨htop, hrest⟩ := List.pairwise_cons.mp hranks
    have hascFirst := hasc first List.mem_cons_self
    have hrestIff := ih hrest fun layer hl => hasc layer (List.mem_cons_of_mem _ hl)
    rw [isNewest_cons htop hascFirst, hrestIff, List.map_cons, overlay_cons]
    cases hfind : entryOf first.2 e.key with
    | none =>
      -- the first layer has nothing for the key, so that it has no say
      have hnot := entryOf_eq_none_iff.mp hfind
      constructor
      · rintro (he | ⟨-, hoverlay⟩)
        · exact absurd rfl (hnot e he)
        · exact hoverlay
      · exact fun hoverlay => .inr ⟨hnot, hoverlay⟩
    | some x =>
      have hx := mem_of_entryOf hfind
      have hkey := key_of_entryOf hfind
      rw [show (some x <|> overlay (rest.map Prod.snd) e.key) = some x from rfl, Option.some.injEq]
      constructor
      · rintro (he | ⟨hnot, -⟩)
        · exact Option.some.inj (hfind.symm.trans ((entryOf_eq_some_iff hascFirst).mpr he))
        · exact absurd hkey (hnot x hx)
      · rintro rfl
        exact .inl hx

/-- Only which layers there are, and with which ranks, matters to the newest entries. -/
theorem isNewest_congr {layers layers' : List (Nat × List Entry)}
    (h : ∀ layer, layer ∈ layers ↔ layer ∈ layers') {e : Entry} :
    IsNewest bytewise layers e ↔ IsNewest bytewise layers' e := by
  simp only [IsNewest, h]

theorem entryOf_cut {range : KeyRange} {key : Bytes} (hkey : range.contains bytewise key = true)
    (entries : List Entry) : entryOf (range.cut entries) key = entryOf entries key := by
  unfold entryOf KeyRange.cut
  rw [List.find?_filter]
  congr 1
  funext e
  by_cases he : e.key = key
  · simp [he, hkey]
  · simp [he]

/-! ## Merges of ranges -/

/-- The parts of some layers that lie in a range. -/
def KeyRange.cutLayers (range : KeyRange) (layers : List (Nat × List Entry)) :
    List (Nat × List Entry) :=
  layers.map fun layer => (layer.1, range.cut layer.2)

theorem KeyRange.mem_cutLayers {range : KeyRange} {layers : List (Nat × List Entry)}
    {layer : Nat × List Entry} :
    layer ∈ range.cutLayers layers ↔ ∃ whole ∈ layers, (whole.1, range.cut whole.2) = layer :=
  List.mem_map

@[simp] theorem KeyRange.map_fst_cutLayers (range : KeyRange) (layers : List (Nat × List Entry)) :
    (range.cutLayers layers).map Prod.fst = layers.map Prod.fst := by
  simp [cutLayers, Function.comp_def]

theorem KeyRange.ascending_cutLayers {layers : List (Nat × List Entry)}
    (hasc : ∀ layer ∈ layers, Ascending bytewise layer.2) (range : KeyRange) :
    ∀ layer ∈ range.cutLayers layers, Ascending bytewise layer.2 := by
  intro layer hlayer
  obtain ⟨whole, hwhole, rfl⟩ := KeyRange.mem_cutLayers.mp hlayer
  exact (hasc whole hwhole).cut range

theorem isNewest_cutLayers {layers : List (Nat × List Entry)} {range : KeyRange} {e : Entry} :
    IsNewest bytewise (range.cutLayers layers) e ↔
      IsNewest bytewise layers e ∧ range.contains bytewise e.key = true := by
  constructor
  · rintro ⟨layer, hlayer, he, hnewest⟩
    obtain ⟨whole, hwhole, rfl⟩ := KeyRange.mem_cutLayers.mp hlayer
    obtain ⟨he, hin⟩ := KeyRange.mem_cut.mp he
    refine ⟨⟨whole, hwhole, he, fun other hother x hx hkey => ?_⟩, hin⟩
    have hsame : x.key = e.key := Std.LawfulEqCmp.eq_of_compare hkey
    exact hnewest (other.1, range.cut other.2) (KeyRange.mem_cutLayers.mpr ⟨other, hother, rfl⟩) x
      (KeyRange.mem_cut.mpr ⟨hx, hsame ▸ hin⟩) hkey
  · rintro ⟨⟨layer, hlayer, he, hnewest⟩, hin⟩
    refine ⟨_, KeyRange.mem_cutLayers.mpr ⟨layer, hlayer, rfl⟩, KeyRange.mem_cut.mpr ⟨he, hin⟩, ?_⟩
    intro other hother x hx hkey
    obtain ⟨whole, hwhole, rfl⟩ := KeyRange.mem_cutLayers.mp hother
    exact hnewest whole hwhole x (KeyRange.mem_cut.mp hx).1 hkey

/-- The part of a merge that lies in a range is the merge of the parts of the layers. -/
theorem recencyMerge_cutLayers {layers : List (Nat × List Entry)}
    (hasc : ∀ layer ∈ layers, Ascending bytewise layer.2) (hnodup : (layers.map Prod.fst).Nodup)
    (range : KeyRange) :
    recencyMerge bytewise (range.cutLayers layers) = range.cut (recencyMerge bytewise layers) := by
  refine (eq_recencyMerge (range.ascending_cutLayers hasc) ?_
    ((ascending_recencyMerge hasc hnodup).cut range) fun e => ?_).symm
  · rw [range.map_fst_cutLayers]
    exact hnodup
  · rw [KeyRange.mem_cut, mem_recencyMerge, isNewest_cutLayers]

/-- A merge of the scans of a range of ranked layers gives the part of their merge that lies in the
range. -/
theorem gives_ofSources_cut {ι σ : Type} [Nonempty ι] {p : ι → Pull σ}
    {sources : List (Nat × σ)} {layers : List (Nat × List Entry)} {range : KeyRange}
    (hsources : List.Forall₂ (fun source layer => source.1 = layer.1 ∧
      Pull.Gives p source.2 ((range.cut layer.2).map .ok)) sources layers)
    (hasc : ∀ layer ∈ layers, Ascending bytewise layer.2) (hnodup : (layers.map Prod.fst).Nodup) :
    ∃ m, (∀ i, Merge.ofSources (p i) bytewise sources = m) ∧
      Pull.Gives (fun i => (p i).merge bytewise) m
        ((range.cut (recencyMerge bytewise layers)).map .ok) := by
  have hcut : List.Forall₂ (fun source layer => source.1 = layer.1 ∧
      Pull.Gives p source.2 (layer.2.map .ok)) sources (range.cutLayers layers) :=
    List.forall₂_map_right_iff.mpr hsources
  have hnodup' : ((range.cutLayers layers).map Prod.fst).Nodup := by
    rw [range.map_fst_cutLayers]
    exact hnodup
  have hasc' := range.ascending_cutLayers hasc
  obtain ⟨m, hm, out, hgives, hout, hmem⟩ := gives_ofSources hcut hasc' hnodup'
  obtain rfl := eq_recencyMerge hasc' hnodup' hout hmem
  rw [recencyMerge_cutLayers hasc hnodup] at hgives
  exact ⟨m, hm, hgives⟩

/-- Of layers whose ranks descend, whatever the order in which they are given, the merge is the
overlay. -/
theorem mem_recencyMerge_iff_overlay {given layers : List (Nat × List Entry)}
    (hgiven : given.Perm layers) (hranks : layers.Pairwise fun a b => b.1 < a.1)
    (hasc : ∀ layer ∈ layers, Ascending bytewise layer.2) {e : Entry} :
    e ∈ recencyMerge bytewise given ↔ overlay (layers.map Prod.snd) e.key = some e := by
  rw [mem_recencyMerge, isNewest_congr fun layer => hgiven.mem_iff, isNewest_iff_overlay hranks hasc]

/-! ## Generations -/

namespace Generation

variable {ι : Type} {g : Generation} {disks : ι → Disk} {runs : List (Nat × List Entry)}

/-- On each of some disks, the runs of a generation read as some entries. -/
def Reads (disks : ι → Disk) (g : Generation) (runs : List (Nat × List Entry)) : Prop :=
  List.Forall₂ (fun run r => run.id = r.1 ∧ run.file.Reads disks r.2) g.runs runs

/-- The scans that are started on the runs are the same on every disk. -/
theorem gives_runSources {opened : List Run}
    (h : List.Forall₂ (fun run r => run.id = r.1 ∧ run.file.Reads disks r.2) opened runs)
    (buffers : Nat → Buffer) (range : KeyRange) :
    ∃ sources, (∀ i, opened.map (fun run =>
        (run.id, Source.ofRun (disks i) run.file range)) = sources) ∧
      List.Forall₂ (fun source r => source.1 = r.1 ∧
        Pull.Gives (fun i => Source.pull buffers (disks i)) source.2
          ((range.cut r.2).map .ok)) sources runs := by
  induction h with
  | nil => exact ⟨[], fun _ => rfl, .nil⟩
  | @cons run r opened runs hfirst hrest ih =>
    obtain ⟨sources, hsources, hgives⟩ := ih
    obtain ⟨source, hsource, hfirstGives⟩ := Source.gives_run hfirst.2 buffers range
    exact ⟨(run.id, source) :: sources, fun i => by rw [List.map_cons, hsource i, hsources i],
      .cons ⟨hfirst.1, hfirstGives⟩ hgives⟩

theorem Reads.ascending (h : g.Reads disks runs) : ∀ r ∈ runs, Ascending bytewise r.2 := by
  intro r hr
  obtain ⟨n, hn, rfl⟩ := List.getElem_of_mem hr
  have hlt : n < g.runs.length := h.length_eq ▸ hn
  exact (List.Forall₂.get h hlt hn).2.ascending

/-- Scans of some buffers and of the runs of a generation give the entries of these layers. -/
theorem Reads.gives_layers (h : g.Reads disks runs) (buffers : Nat → Buffer)
    (ids : List (Nat × Nat)) (range : KeyRange) :
    ∃ sources, (∀ i, ids.map (fun b => (b.1, Source.ofBuffer b.2 range)) ++
        g.runSources (disks i) range = sources) ∧
      List.Forall₂ (fun source layer => source.1 = layer.1 ∧
        Pull.Gives (fun i => Source.pull buffers (disks i)) source.2 ((range.cut layer.2).map .ok))
        sources (ids.map (fun b => (b.1, (buffers b.2).entries)) ++ runs) := by
  obtain ⟨sources, hsources, hgives⟩ := gives_runSources h buffers range
  refine ⟨_, fun i => by rw [runSources, hsources i], List.rel_append ?_ hgives⟩
  rw [List.forall₂_map_left_iff, List.forall₂_map_right_iff, List.forall₂_same]
  exact fun b _ => ⟨rfl, Source.gives_buffer buffers disks b.2 range⟩

theorem Reads.ascending_layers (h : g.Reads disks runs) {buffers : Nat → Buffer}
    {ids : List (Nat × Nat)} {ranked : List (Nat × List Entry)}
    (hperm : (ids.map (fun b => (b.1, (buffers b.2).entries)) ++ runs).Perm ranked) :
    ∀ layer ∈ ranked, Ascending bytewise layer.2 := by
  intro layer hlayer
  rcases List.mem_append.mp (hperm.mem_iff.mpr hlayer) with hbuffer | hrun
  · obtain ⟨b, -, rfl⟩ := List.mem_map.mp hbuffer
    exact (buffers b.2).ascending
  · exact h.ascending layer hrun

/-- A scan of some buffers and of the runs of a generation gives the merge of them all in the range,
whatever the order in which they are given. -/
theorem Reads.gives_scan [Nonempty ι] (h : g.Reads disks runs) (buffers : Nat → Buffer)
    (ids : List (Nat × Nat)) {ranked : List (Nat × List Entry)}
    (hperm : (ids.map (fun b => (b.1, (buffers b.2).entries)) ++ runs).Perm ranked)
    (hnodup : (ranked.map Prod.fst).Nodup) (range : KeyRange) :
    ∃ m, (∀ i, Scan.ofSources bytewise buffers (disks i)
        (ids.map (fun b => (b.1, Source.ofBuffer b.2 range)) ++ g.runSources (disks i) range) = m) ∧
      Pull.Gives (fun i => Scan.pull bytewise buffers (disks i)) m
        ((range.cut (recencyMerge bytewise ranked)).map .ok) := by
  obtain ⟨sources, hsources, hgives⟩ := h.gives_layers buffers ids range
  have hasc := h.ascending_layers hperm
  obtain ⟨m, hm, hmerged⟩ := gives_ofSources_cut hgives
    (fun layer hlayer => hasc layer (hperm.mem_iff.mp hlayer))
    ((hperm.map Prod.fst).nodup_iff.mpr hnodup)
  rw [recencyMerge_perm hasc hnodup hperm] at hmerged
  refine ⟨m, fun i => ?_, hmerged⟩
  rw [hsources i]
  exact hm i

end Generation

end LayeredStore
