import LayeredStore.Proofs.KeyPrefixes
import LayeredStore.Proofs.Snapshots

/-!
# Scans of the keys that start alike

`Store.scanStartingWith s d start` scans from `start` on and before a bound that is computed from it.
Between the two lie just the keys that start with `start`, so the scan gives the live entries of these
keys and nothing else (`scanStartingWith_exact`).

Nothing is asked of the ranks of the layers, although a run may have the rank of a buffer, as the ranks of
the buffers are run numbers too, and two runs may have one number. Layers of one rank may both have a
newest entry for a key, of which the scan takes one; where the ranks differ there is no choice, and what
is scanned is a part of the merge of all layers.
-/

namespace LayeredStore

variable {layers others : List (Nat × List Entry)} {out : List Entry}

/-! ## Merges of a part of the layers -/

theorem Merges.of_perm (h : Merges bytewise others out) (hperm : others.Perm layers) :
    Merges bytewise layers out where
  ascending := h.ascending
  newest e he := (isNewest_congr fun _ => hperm.mem_iff).mp (h.newest e he)
  covers layer hlayer := h.covers layer (hperm.mem_iff.mpr hlayer)

/-- A merge of what the layers have of a range. -/
theorem Merges.of_cutLayers {range : KeyRange} (h : Merges bytewise (range.cutLayers layers) out) :
    (∀ e ∈ out, range.contains bytewise e.key = true ∧ IsNewest bytewise layers e) ∧
      ∀ layer ∈ layers, ∀ e ∈ layer.2, range.contains bytewise e.key = true →
        ∃ x ∈ out, x.key = e.key := by
  refine ⟨fun e he => (isNewest_cutLayers.mp (h.newest e he)).symm, fun layer hlayer e he hin => ?_⟩
  obtain ⟨x, hx, hkey⟩ := h.covers _ (KeyRange.mem_cutLayers.mpr ⟨layer, hlayer, rfl⟩) e
    (KeyRange.mem_cut.mpr ⟨he, hin⟩)
  exact ⟨x, hx, Std.LawfulEqCmp.eq_of_compare hkey⟩

/-! ## Scans -/

namespace Store

variable {s : Store} {d : Disk} {runs : List (Nat × List Entry)}

/-- A scan merges what the buffers and the runs have of its range, whatever their ranks are. -/
theorem gives_scan_merges (hreads : s.core.generation.Reads (fun _ : Unit => d) runs)
    (range : KeyRange) :
    ∃ out : List Entry,
      Pull.Gives (fun _ : Unit => Scan.pull bytewise s.core.buffers d) (s.scan d range)
        (out.map .ok) ∧
      Merges bytewise (range.cutLayers
        (rankedLayers s.core.buffers s.core.activeId s.core.flushing runs)) out := by
  obtain ⟨ids, hids, hscan⟩ := s.scan_eq d range
  have hperm := ((hids.map fun b => (b.1, (s.core.buffers b.2).entries)).append_right runs).trans
    (Generation.perm_rankedLayers s.core.buffers s.core.activeId s.core.flushing runs)
  obtain ⟨sources, hsources, hgives⟩ := hreads.gives_layers s.core.buffers ids range
  have hasc := range.ascending_cutLayers (hreads.ascending_layers hperm)
  obtain ⟨m, hm, out, hmerged, hmerges⟩ := gives_ofSources_merges
    (List.forall₂_map_right_iff.mpr hgives) fun layer hlayer =>
      hasc layer ((hperm.map _).mem_iff.mp hlayer)
  have hstarted : s.scan d range = m := by
    rw [hscan, hsources ()]
    exact hm ()
  rw [hstarted]
  exact ⟨out, hmerged, hmerges.of_perm (hperm.map _)⟩

end Store

/-- A key lies between the bounds of a scan of the keys that start with `start` just if it starts so.
What the scan gives are the live ones among some entries: of every key of a layer that starts so they
have one, which is a newest entry of the key, they have no others, and they come by ascending key. If no
two layers have one rank, these are the entries of the merge of all layers whose keys start so. -/
theorem scanStartingWith_exact {s : Store} {d : Disk} {runs : List (Nat × List Entry)}
    (hruns : List.Forall₂ (fun run r => run.id = r.1 ∧ run.file.OpenedFrom d r.2)
      s.core.generation.runs runs) (start : Bytes) :
    let layers := rankedLayers s.core.buffers s.core.activeId s.core.flushing runs
    (∀ key, (KeyRange.startingWith start).contains bytewise key = true ↔ start <+: key) ∧
      ∃ newest : List Entry,
        (s.pull d).toList (s.scanStartingWith d start) = (liveEntries newest).map .ok ∧
        Ascending bytewise newest ∧
        (∀ e ∈ newest, start <+: e.key ∧ IsNewest bytewise layers e) ∧
        (∀ layer ∈ layers, ∀ e ∈ layer.2, start <+: e.key → ∃ x ∈ newest, x.key = e.key) ∧
        ((layers.map Prod.fst).Nodup →
          newest = (s.merged runs).filter fun e => start.isPrefixOf e.key) := by
  intro layers
  have hreads : s.core.generation.Reads (fun _ : Unit => d) runs :=
    hruns.imp fun _ _ hrun => ⟨hrun.1, hrun.2.reads⟩
  have hasc : ∀ layer ∈ layers, Ascending bytewise layer.2 :=
    hreads.ascending_layers (Generation.perm_rankedLayers _ _ _ _)
  have hstart := KeyRange.contains_startingWith start
  obtain ⟨newest, hgives, hmerges⟩ := Store.gives_scan_merges hreads (.startingWith start)
  obtain ⟨hfound, hcovers⟩ := hmerges.of_cutLayers
  refine ⟨hstart, newest, hgives.live_map.toList_eq (), hmerges.ascending, fun e he => ?_,
    fun layer hlayer e he hkey => hcovers layer hlayer e he ((hstart e.key).mpr hkey),
    fun hranks => ?_⟩
  · obtain ⟨hin, hnewest⟩ := hfound e he
    exact ⟨(hstart e.key).mp hin, hnewest⟩
  · have hranks' : (((KeyRange.startingWith start).cutLayers layers).map Prod.fst).Nodup := by
      rwa [KeyRange.map_fst_cutLayers]
    have hasc' := (KeyRange.startingWith start).ascending_cutLayers hasc
    calc newest
        = recencyMerge bytewise ((KeyRange.startingWith start).cutLayers layers) :=
          eq_recencyMerge hasc' hranks' hmerges.ascending (hmerges.mem_iff hasc' hranks')
      _ = (KeyRange.startingWith start).cut (s.merged runs) :=
          recencyMerge_cutLayers hasc hranks _
      _ = (s.merged runs).filter fun e => start.isPrefixOf e.key := by
          refine List.filter_congr fun e _ => ?_
          rw [Bool.eq_iff_iff, hstart, List.isPrefixOf_iff_prefix]

/-- The blocks of a run whose keys lie close to the bounds of scans for bytes 255. -/
def borderBlocks : List (List Entry) :=
  [[.put [1, 254, 9] [1], .put [1, 255] [2], .put [1, 255, 0] [3]],
    [.put [1, 255, 255] [4], .put [2] [5], .put [255, 254] [6]],
    [.put [255, 255] [7], .put [255, 255, 255, 0] [8]]]

/-- A disk with the run. -/
def borderDisk : Disk :=
  { Disk.empty with files := #[{ data := (RunImage.bytes borderBlocks).toArray }] }

/-- A store that has the run and has overwritten and deleted some of its keys. -/
def borderStore : Store where
  core :=
    { Core.ofGeneration (Config.new ["db"]) ⟨["db"], 32, false, [runOf 3 0 borderBlocks], true⟩ with
      active := bufferOf [.put [1, 255] [12], .tombstone [1, 255, 0], .put [255] [16]] }
  worker := .start
  lock := none
  closed := false

/-- After 1 and 255 there are two live keys, and the key 2 is not among them; above 255 and 255 there is
no bound. -/
theorem borderStore_scanStartingWith :
    List.Forall₂ (fun run r => run.id = r.1 ∧ run.file.OpenedFrom borderDisk r.2)
      borderStore.core.generation.runs [(3, borderBlocks.flatten)] ∧
    let scanned (start : Bytes) :=
      (borderStore.pull borderDisk).toList (borderStore.scanStartingWith borderDisk start)
    scanned [1, 255] = [.ok (.put [1, 255] [12]), .ok (.put [1, 255, 255] [4])] ∧
      scanned [255, 255] = [.ok (.put [255, 255] [7]), .ok (.put [255, 255, 255, 0] [8])] ∧
      (scanned []).length = 8 := by
  have hruns : List.Forall₂ (fun run r => run.id = r.1 ∧ run.file.OpenedFrom borderDisk r.2)
      borderStore.core.generation.runs [(3, borderBlocks.flatten)] :=
    .cons ⟨rfl, RunFile.openedFrom_blocks (by decide) rfl (by decide +kernel) ["run"]⟩ .nil
  have hscanned (start : Bytes) :
      (borderStore.pull borderDisk).toList (borderStore.scanStartingWith borderDisk start) =
        (liveEntries ((borderStore.merged [(3, borderBlocks.flatten)]).filter fun e =>
          start.isPrefixOf e.key)).map .ok := by
    obtain ⟨-, newest, htoList, -, -, -, hmerged⟩ := scanStartingWith_exact hruns start
    rw [htoList, hmerged (by decide)]
  refine ⟨hruns, ?_⟩
  simp only [hscanned]
  decide +kernel

end LayeredStore
