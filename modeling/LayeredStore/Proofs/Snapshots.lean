import LayeredStore.Store
import LayeredStore.Proofs.Compacting

/-!
# Reading a store at one moment

`Store.Snapshot s d runs` says that the runs of a store read as some entries. Nothing is asked of how
the store has come to its layers: any key may be in any of them, as a tombstone or not, and the runs
may be listed in any order.

What is read of a snapshot is the recency merge of its layers (`Store.merged`): a scan gives the live
entries of its range (`Snapshot.entries_eq`), and a key has the live entry of that key
(`Snapshot.get_eq`). The two ways to read are different ones, as a key is looked up in the buffers and
then in a scan of the runs that starts at the key; `point_and_range_reads_agree` compares them.
-/

namespace LayeredStore

variable {entries : List Entry} {e : Entry} {key : Bytes}

/-! ## The entry of a key -/

theorem entryOf_eq_some_iff_mem (hasc : Ascending bytewise entries) :
    entryOf entries key = some e ↔ e ∈ entries ∧ e.key = key := by
  constructor
  · intro h
    exact ⟨mem_of_entryOf h, key_of_entryOf h⟩
  · rintro ⟨hmem, rfl⟩
    exact (entryOf_eq_some_iff hasc).mpr hmem

theorem entryOf_live (hasc : Ascending bytewise entries) (key : Bytes) :
    entryOf (liveEntries entries) key = (entryOf entries key).bind Entry.live? := by
  ext e
  rw [entryOf_eq_some_iff_mem hasc.live, mem_liveEntries, Option.bind_eq_some_iff]
  constructor
  · rintro ⟨⟨hmem, hlive⟩, hkey⟩
    exact ⟨e, (entryOf_eq_some_iff_mem hasc).mpr ⟨hmem, hkey⟩,
      Entry.live?_eq_some_iff.mpr ⟨hlive, rfl⟩⟩
  · rintro ⟨x, hx, hlive⟩
    obtain ⟨hnot, rfl⟩ := Entry.live?_eq_some_iff.mp hlive
    obtain ⟨hmem, hkey⟩ := (entryOf_eq_some_iff_mem hasc).mp hx
    exact ⟨⟨hmem, hnot⟩, hkey⟩

theorem liveEntries_cut (range : KeyRange) (entries : List Entry) :
    liveEntries (range.cut entries) = range.cut (liveEntries entries) := by
  unfold liveEntries KeyRange.cut
  rw [List.filter_filter, List.filter_filter]
  exact List.filter_congr fun e _ => Bool.and_comm _ _

/-- The merge has for a key what the layer that outranks the others has for it, and what the others
have if it has nothing. -/
theorem entryOf_recencyMerge_cons {first : Nat × List Entry} {rest : List (Nat × List Entry)}
    (htop : ∀ layer ∈ rest, layer.1 < first.1)
    (hasc : ∀ layer ∈ first :: rest, Ascending bytewise layer.2)
    (hnodup : ((first :: rest).map Prod.fst).Nodup) (key : Bytes) :
    entryOf (recencyMerge bytewise (first :: rest)) key =
      (entryOf first.2 key <|> entryOf (recencyMerge bytewise rest) key) := by
  have hfirst := hasc first List.mem_cons_self
  have hrest := ascending_recencyMerge (fun layer hlayer => hasc layer (List.mem_cons_of_mem _ hlayer))
    (List.nodup_cons.mp hnodup).2
  have hall := ascending_recencyMerge hasc hnodup
  cases hfind : entryOf first.2 key with
  | some x =>
    obtain ⟨hx, hkey⟩ := (entryOf_eq_some_iff_mem hfirst).mp hfind
    refine (entryOf_eq_some_iff_mem hall).mpr ⟨?_, hkey⟩
    exact mem_recencyMerge.mpr ((isNewest_cons htop hfirst).mpr (.inl hx))
  | none =>
    have hnot := entryOf_eq_none_iff.mp hfind
    show _ = entryOf (recencyMerge bytewise rest) key
    ext e
    rw [entryOf_eq_some_iff_mem hall, entryOf_eq_some_iff_mem hrest, mem_recencyMerge,
      mem_recencyMerge, isNewest_cons htop hfirst]
    constructor
    · rintro ⟨he | ⟨-, he⟩, hkey⟩
      · exact absurd hkey (hnot e he)
      · exact ⟨he, hkey⟩
    · rintro ⟨he, rfl⟩
      exact ⟨.inr ⟨hnot, he⟩, rfl⟩

theorem KeyRange.contains_atLeast {first key : Bytes} :
    (KeyRange.atLeast first).contains bytewise key = true ↔ bytewise key first ≠ .lt := by
  simp [KeyRange.contains, KeyRange.atLeast, KeyRange.isBefore, KeyRange.isAfter]

theorem KeyRange.contains_halfOpen {first last : Option Bytes} :
    (KeyRange.halfOpen first last).contains bytewise key = true ↔
      (∀ other ∈ first, bytewise key other ≠ .lt) ∧ ∀ other ∈ last, bytewise key other = .lt := by
  cases first <;> cases last <;>
    simp [KeyRange.contains, KeyRange.halfOpen, KeyRange.isBefore, KeyRange.isAfter]

/-- The first of the entries from a key on is that of the key, if there is one. -/
theorem entryOf_eq_head? (hasc : Ascending bytewise entries) (key : Bytes) :
    entryOf entries key = ((KeyRange.atLeast key).cut entries).head?.bind fun e =>
      if e.key = key then some e else none := by
  have hself : (KeyRange.atLeast key).contains bytewise key = true := by
    have hsame : bytewise key key = .eq := Std.ReflCmp.compare_self
    rw [KeyRange.contains_atLeast, hsame]
    decide
  have hfrom : ∀ e ∈ (KeyRange.atLeast key).cut entries, bytewise e.key key ≠ .lt := fun e he =>
    KeyRange.contains_atLeast.mp (KeyRange.mem_cut.mp he).2
  have hasc' := hasc.cut (KeyRange.atLeast key)
  rw [← entryOf_cut hself]
  generalize (KeyRange.atLeast key).cut entries = ahead at hfrom hasc'
  cases ahead with
  | nil => rfl
  | cons e rest =>
    by_cases he : e.key = key
    · simp [entryOf, he]
    · have hnone : entryOf (e :: rest) key = none := by
        rw [entryOf_eq_none_iff]
        intro x hx hkey
        rcases List.mem_cons.mp hx with rfl | hx
        · exact he hkey
        · have hlt := (List.pairwise_cons.mp hasc').1 x hx
          rw [hkey] at hlt
          exact hfrom e List.mem_cons_self hlt
      rw [hnone, List.head?_cons, Option.bind_some, if_neg he]

/-! ## Snapshots -/

namespace Store

variable {s : Store} {d : Disk} {runs : List (Nat × List Entry)}

/-- The runs of a store read as some entries. -/
structure Snapshot (s : Store) (d : Disk) (runs : List (Nat × List Entry)) : Prop where
  reads : s.core.generation.Reads (fun _ : Unit => d) runs
  distinct : (runs.map Prod.fst).Nodup
  lt_flushingRank : ∀ r ∈ runs, r.1 < flushingRank

/-- The merge of the buffers and the runs. -/
def merged (s : Store) (runs : List (Nat × List Entry)) : List Entry :=
  recencyMerge bytewise (rankedLayers s.core.buffers s.core.activeId s.core.flushing runs)

/-- A scan merges the buffers and the runs. The order in which it draws from them depends on whether
there are runs. -/
theorem scan_eq (s : Store) (d : Disk) (range : KeyRange) :
    ∃ ids : List (Nat × Nat), ids.Perm (Generation.rankedBuffers s.core.activeId s.core.flushing) ∧
      s.scan d range = Scan.ofSources bytewise s.core.buffers d
        (ids.map (fun b => (b.1, Source.ofBuffer b.2 range)) ++
          s.core.generation.runSources d range) := by
  unfold scan sources
  by_cases hruns : s.core.generation.runs.isEmpty = true
  · -- the buffers are scanned alone, the active one last
    refine ⟨_, List.reverse_perm _, ?_⟩
    simp only [Generation.runSources, List.isEmpty_iff.mp hruns, Generation.rankedBuffers]
    cases s.core.flushing <;> rfl
  · refine ⟨_, .refl _, ?_⟩
    simp only [if_neg hruns, Generation.sources_eq]

namespace Snapshot

theorem nodup_layers (h : s.Snapshot d runs) :
    ((rankedLayers s.core.buffers s.core.activeId s.core.flushing runs).map Prod.fst).Nodup :=
  nodup_rankedLayers h.distinct h.lt_flushingRank _ _ _

theorem nodup_runs (h : s.Snapshot d runs) : (runs.reverse.map Prod.fst).Nodup :=
  ((List.reverse_perm runs).map Prod.fst).nodup_iff.mpr h.distinct

theorem ascending_runs (h : s.Snapshot d runs) :
    Ascending bytewise (recencyMerge bytewise runs.reverse) :=
  ascending_recencyMerge (fun r hr => h.reads.ascending r (List.mem_reverse.mp hr)) h.nodup_runs

theorem ascending_layers (h : s.Snapshot d runs) :
    ∀ layer ∈ rankedLayers s.core.buffers s.core.activeId s.core.flushing runs,
      Ascending bytewise layer.2 :=
  h.reads.ascending_layers (Generation.perm_rankedLayers _ _ _ _)

theorem ascending_merged (h : s.Snapshot d runs) : Ascending bytewise (s.merged runs) :=
  ascending_recencyMerge h.ascending_layers h.nodup_layers

/-! ### Ranges -/

/-- What a scan of a range gives, tombstones included. -/
theorem gives_scan (h : s.Snapshot d runs) (range : KeyRange) :
    Pull.Gives (fun _ : Unit => Scan.pull bytewise s.core.buffers d) (s.scan d range)
      ((range.cut (s.merged runs)).map .ok) := by
  obtain ⟨ids, hids, hscan⟩ := s.scan_eq d range
  have hperm := ((hids.map fun b => (b.1, (s.core.buffers b.2).entries)).append_right runs).trans
    (Generation.perm_rankedLayers s.core.buffers s.core.activeId s.core.flushing runs)
  obtain ⟨m, hm, hgives⟩ := h.reads.gives_scan s.core.buffers ids hperm h.nodup_layers range
  rw [hscan, hm ()]
  exact hgives

/-- It is what the runs and the buffers give in the order of their ranks, also if there are no
runs. -/
theorem gives_sources (h : s.Snapshot d runs) (range : KeyRange) :
    Pull.Gives (fun _ : Unit => Scan.pull bytewise s.core.buffers d)
      (.ofSources bytewise s.core.buffers d
        (s.core.generation.sources d s.core.activeId s.core.flushing range))
      ((range.cut (s.merged runs)).map .ok) := by
  obtain ⟨m, hm, hgives⟩ := h.reads.gives_sources s.core.buffers _ _ h.nodup_layers range
  rw [hm ()]
  exact hgives

/-- A scan of a range gives the live entries of the range. -/
theorem entries_eq (h : s.Snapshot d runs) (range : KeyRange) :
    s.entries d range = (range.cut (liveEntries (s.merged runs))).map .ok := by
  unfold entries
  rw [← liveEntries_cut]
  exact (h.gives_scan range).live_map.toList_eq ()

/-! ### Keys -/

theorem entryOf_buffer (b : Buffer) (key : Bytes) : entryOf b.entries key = b.get? key :=
  (b.get?_eq_find? key).symm

/-- The buffers come before the runs. -/
theorem entryOf_merged (h : s.Snapshot d runs) (key : Bytes) : entryOf (s.merged runs) key =
    (s.buffered? key <|> entryOf (recencyMerge bytewise runs.reverse) key) := by
  have hasc := h.ascending_layers
  have hnodup := h.nodup_layers
  have hranks : flushingRank < activeRank := by decide
  have hbelow {rank : Nat} (hrank : flushingRank ≤ rank) : ∀ r ∈ runs.reverse, r.1 < rank :=
    fun r hr => Nat.lt_of_lt_of_le (h.lt_flushingRank r (List.mem_reverse.mp hr)) hrank
  have hactive : s.core.buffers s.core.activeId = s.core.active := if_pos rfl
  unfold merged buffered? Core.flushingBuffer?
  cases hflushing : s.core.flushing with
  | none =>
    rw [hflushing, rankedLayers_none, hactive] at hasc hnodup
    rw [rankedLayers_none, hactive,
      entryOf_recencyMerge_cons (hbelow (Nat.le_of_lt hranks)) hasc hnodup, entryOf_buffer]
    cases s.core.active.get? key <;> rfl
  | some id =>
    rw [hflushing, rankedLayers_some, hactive] at hasc hnodup
    have htop : ∀ layer ∈ (flushingRank, (s.core.buffers id).entries) :: runs.reverse,
        layer.1 < activeRank := by
      intro layer hlayer
      rcases List.mem_cons.mp hlayer with rfl | hlayer
      · exact hranks
      · exact hbelow (Nat.le_of_lt hranks) layer hlayer
    rw [rankedLayers_some, hactive, entryOf_recencyMerge_cons htop hasc hnodup,
      entryOf_recencyMerge_cons (hbelow (Nat.le_refl _))
        (fun layer hlayer => hasc layer (List.mem_cons_of_mem _ hlayer)) (List.nodup_cons.mp hnodup).2,
      entryOf_buffer, entryOf_buffer]
    cases s.core.active.get? key <;> rfl

/-- The runs are asked for the first entry from a key on. -/
theorem next_runs (h : s.Snapshot d runs) (key : Bytes) :
    ((Scan.pull bytewise s.core.buffers d).next (.ofSources bytewise s.core.buffers d
      (s.core.generation.runSources d (.atLeast key)))).1 =
        (((KeyRange.atLeast key).cut (recencyMerge bytewise runs.reverse)).map .ok).head? := by
  obtain ⟨m, hm, hgives⟩ := h.reads.gives_scan s.core.buffers [] (List.reverse_perm runs).symm
    h.nodup_runs (.atLeast key)
  have hstart : Scan.ofSources bytewise s.core.buffers d
      (s.core.generation.runSources d (.atLeast key)) = m := hm ()
  rw [hstart]
  cases hahead : (KeyRange.atLeast key).cut (recencyMerge bytewise runs.reverse) with
  | nil =>
    rw [hahead] at hgives
    exact hgives.nil ()
  | cons e rest =>
    rw [hahead] at hgives
    obtain ⟨m', hnext, -⟩ := hgives.tail
    exact congrArg Prod.fst (hnext ())

/-- What is read of a key is its live entry in the merge. -/
theorem get_eq (h : s.Snapshot d runs) (key : Bytes) :
    s.get d key = .ok (entryOf (liveEntries (s.merged runs)) key) := by
  rw [entryOf_live h.ascending_merged, h.entryOf_merged]
  unfold get
  cases hbuffered : s.buffered? key with
  | some e => rfl
  | none =>
    show _ = Except.ok ((entryOf (recencyMerge bytewise runs.reverse) key).bind Entry.live?)
    dsimp only
    split
    · next hempty =>
      have hnil : runs = [] := by
        have hlength := h.reads.length_eq
        rw [List.isEmpty_iff.mp hempty] at hlength
        exact List.length_eq_zero_iff.mp hlength.symm
      subst hnil
      rfl
    · rw [h.next_runs, entryOf_eq_head? h.ascending_runs]
      cases (KeyRange.atLeast key).cut (recencyMerge bytewise runs.reverse) with
      | nil => rfl
      | cons e rest =>
        by_cases he : e.key = key <;> simp [he]

end Snapshot

end Store

/-! ## The two ways to read -/

namespace RunFile

variable {run : RunFile} {d : Disk}

/-- A run was opened from a file that holds a run of these entries. -/
structure OpenedFrom (run : RunFile) (d : Disk) (entries : List Entry) : Prop where
  isRun : IsRun (d.file run.fileId).content entries
  parsed : parse run.path run.fileId (d.file run.fileId).content = .ok run

theorem OpenedFrom.reads (h : run.OpenedFrom d entries) : run.Reads (fun _ : Unit => d) entries := by
  obtain ⟨other, hparsed, -, -, -, hreads⟩ := reads_of_isRun h.isRun run.path run.fileId
  obtain rfl : run = other := Except.ok.inj (h.parsed.symm.trans hparsed)
  exact hreads _ fun _ => rfl

/-- A file that consists of sound blocks is opened as their run. -/
theorem openedFrom_blocks {blocks : List (List Entry)} (hsound : RunImage.Sound blocks) {id : Nat}
    (hcontent : (d.file id).content = RunImage.bytes blocks)
    (hshort : (RunImage.bytes blocks).length < Disk.positionLimit) (path : Path) :
    OpenedFrom ⟨path, id, RunImage.indexFrom 0 blocks, blocks.flatten.length⟩ d blocks.flatten where
  isRun := ⟨⟨blocks, hsound, rfl, hcontent⟩, hcontent ▸ hshort⟩
  parsed := by
    rw [hcontent]
    exact parse_bytes hsound hshort path id

end RunFile

/-- Of any buffers and any runs, a scan of all keys gives all that is live, and every other way to read
agrees with it. A key has the entry that the scan has for it; a scan of a range gives what of it lies in
the range, with keys from `first` on and before `last` where these are given; and where there are no
runs, the buffers alone give what the buffers and the runs would. -/
theorem point_and_range_reads_agree {s : Store} {d : Disk} {runs : List (Nat × List Entry)}
    (hruns : List.Forall₂ (fun run r => run.id = r.1 ∧ run.file.OpenedFrom d r.2)
      s.core.generation.runs runs)
    (hdistinct : (runs.map Prod.fst).Nodup) (hlt : ∀ r ∈ runs, r.1 < 2 ^ 64 - 2) :
    let all := liveEntries (s.merged runs)
    s.entries d .all = all.map .ok ∧ Ascending bytewise all ∧
      (∀ key, s.get d key = .ok (all.find? fun e => e.key == key)) ∧
      (∀ range, s.entries d range =
        (all.filter fun e => range.contains bytewise e.key).map .ok) ∧
      (∀ first last, (s.pull d).toList (s.getRange d first last) =
        (all.filter fun e => decide ((∀ key ∈ first, bytewise e.key key ≠ .lt) ∧
          ∀ key ∈ last, bytewise e.key key = .lt)).map .ok) ∧
      ∀ range, (Scan.pull bytewise s.core.buffers d).toList (s.scan d range) =
        (Scan.pull bytewise s.core.buffers d).toList (.ofSources bytewise s.core.buffers d
          (s.core.generation.sources d s.core.activeId s.core.flushing range)) := by
  intro all
  have h : s.Snapshot d runs :=
    ⟨hruns.imp fun _ _ hrun => ⟨hrun.1, hrun.2.reads⟩, hdistinct, hlt⟩
  refine ⟨?_, h.ascending_merged.live, h.get_eq, h.entries_eq, fun first last => ?_, fun range => ?_⟩
  · rw [h.entries_eq, KeyRange.cut_all]
  · refine (h.entries_eq (.halfOpen first last)).trans ?_
    refine congrArg _ (List.filter_congr fun e _ => ?_)
    rw [Bool.eq_iff_iff, decide_eq_true_iff]
    exact KeyRange.contains_halfOpen
  · exact ((h.gives_scan range).toList_eq ()).trans ((h.gives_sources range).toList_eq ()).symm

/-- A buffer to which some entries were written. -/
def bufferOf (entries : List Entry) : Buffer :=
  entries.foldl (fun b e => (b.put e).toOption.getD b) .empty

/-- The blocks of a newer run. -/
def newerBlocks : List (List Entry) := [[.put [1] [11], .tombstone [2]], [.put [4] [14]]]

/-- The blocks of an older run. -/
def olderBlocks : List (List Entry) := [[.put [2] [22], .put [3] [23], .put [5] [25]]]

/-- A disk with two runs, whatever their names are. -/
def runsDisk : Disk :=
  { Disk.empty with
    files := #[{ data := (RunImage.bytes newerBlocks).toArray },
      { data := (RunImage.bytes olderBlocks).toArray }] }

/-- A run of some blocks, with a file number and a name. -/
def runOf (id file : Nat) (blocks : List (List Entry)) : Run :=
  ⟨id, ⟨["run"], file, RunImage.indexFrom 0 blocks, blocks.flatten.length⟩⟩

/-- A store whose layers overlap, with tombstones in all but one of them. -/
def overlappingStore : Store where
  core :=
    { Core.ofGeneration (Config.new ["db"])
        ⟨["db"], 32, false, [runOf 7 0 newerBlocks, runOf 3 1 olderBlocks], true⟩ with
      active := bufferOf [.tombstone [4], .put [0] [30]]
      sealedBuffers := #[bufferOf [.tombstone [3], .put [4] [44], .put [5] [45]]]
      flushing := some 0 }
  worker := .start
  lock := none
  closed := false

/-- Three keys are live, each in another layer. -/
theorem overlappingStore_reads_agree :
    (List.Forall₂ (fun run r => run.id = r.1 ∧ run.file.OpenedFrom runsDisk r.2)
        overlappingStore.core.generation.runs
        [(7, newerBlocks.flatten), (3, olderBlocks.flatten)] ∧
      ([(7, newerBlocks.flatten), (3, olderBlocks.flatten)].map Prod.fst).Nodup ∧
      ∀ r ∈ [(7, newerBlocks.flatten), (3, olderBlocks.flatten)], r.1 < 2 ^ 64 - 2) ∧
    let all : List Entry := [.put [0] [30], .put [1] [11], .put [5] [45]]
    (∀ key, overlappingStore.get runsDisk key = .ok (all.find? fun e => e.key == key)) ∧
      ∀ range, overlappingStore.entries runsDisk range =
        (all.filter fun e => range.contains bytewise e.key).map .ok := by
  have hruns : List.Forall₂ (fun run r => run.id = r.1 ∧ run.file.OpenedFrom runsDisk r.2)
      overlappingStore.core.generation.runs
      [(7, newerBlocks.flatten), (3, olderBlocks.flatten)] := by
    refine .cons ⟨rfl, ?_⟩ (.cons ⟨rfl, ?_⟩ .nil)
    · exact RunFile.openedFrom_blocks (by decide) rfl (by decide +kernel) ["run"]
    · exact RunFile.openedFrom_blocks (by decide) rfl (by decide +kernel) ["run"]
  have hdistinct : ([(7, newerBlocks.flatten), (3, olderBlocks.flatten)].map Prod.fst).Nodup := by
    decide
  have hlt : ∀ r ∈ [(7, newerBlocks.flatten), (3, olderBlocks.flatten)], r.1 < 2 ^ 64 - 2 := by
    decide
  refine ⟨⟨hruns, hdistinct, hlt⟩, ?_⟩
  have hall : liveEntries (overlappingStore.merged
      [(7, newerBlocks.flatten), (3, olderBlocks.flatten)]) =
        [.put [0] [30], .put [1] [11], .put [5] [45]] := by
    decide +kernel
  obtain ⟨-, -, hget, hentries, -⟩ := point_and_range_reads_agree hruns hdistinct hlt
  rw [hall] at hget hentries
  exact ⟨hget, hentries⟩

end LayeredStore
