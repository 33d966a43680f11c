import LayeredStore.Proofs.Crashes

/-!
# Runs of which a part is missing

A run is recognised by the number that ends it. Where that number occurs nowhere else in a run, no
part of the run passes for a run (`RunFile.parse_take_error`), and recovery throws a merge away of
which only a part was written (`torn_merge_discarded`). A value may contain the number, though, and
what must stand before it: `imitated_footer_replaces_run`.
-/

namespace LayeredStore

open Disk Generation

variable {d d' d₁ : Disk} {dir place : Path} {runs : List (Nat × List Entry)} {content : Bytes}

/-- The number that ends every run occurs in some content only at its end. -/
def MagicOnlyAtEnd (content : Bytes) : Prop :=
  ∀ i < content.length - 4, (content.drop i).take 4 ≠ Bytes.ofNat 4 runMagic

instance (content : Bytes) : Decidable (MagicOnlyAtEnd content) :=
  inferInstanceAs (Decidable (∀ i < content.length - 4, _ ≠ _))

/-- A proper part of a run does not open as a run, if the number that ends runs is only at its
end. -/
theorem RunFile.parse_take_error (honce : MagicOnlyAtEnd content) {n : Nat}
    (hn : n < content.length) (path : Path) (fileId : Nat) :
    ∃ e, RunFile.parse path fileId (content.take n) = .error e := by
  rw [parse]
  have hlength : (content.take n).length = n := by simp; omega
  by_cases hshort : (content.take n).length < footerLength
  · exact ⟨_, if_pos hshort⟩
  rw [if_neg hshort]
  have hlong : 24 ≤ n := by
    rw [hlength, footerLength] at hshort
    omega
  -- the last four bytes of the part stand in the middle of the whole
  have hlast : ((content.take n).drop ((content.take n).length - footerLength)).drop 20 =
      (content.drop (n - 4)).take 4 := by
    rw [hlength, footerLength, List.drop_drop, List.drop_take]
    congr 1 <;> [omega; (congr 1; omega)]
  have hmagic : Bytes.toNat
      (((content.take n).drop ((content.take n).length - footerLength)).drop 20) ≠ runMagic := by
    rw [hlast]
    intro heq
    refine honce (n - 4) (by omega) (Bytes.toNat_inj ?_ ?_)
    · simp only [List.length_take, List.length_drop, Bytes.length_ofNat]
      omega
    · rw [heq, Bytes.toNat_ofNat (by decide)]
  exact ⟨_, if_pos hmagic⟩

/-- The disk on which a file was cut. -/
def Disk.torn (d : Disk) (file length : Nat) : Disk := d.alter file (·.resize length)

theorem content_torn {file length : Nat} (hfile : file < d.files.size)
    (hlength : length ≤ (d.file file).content.length) :
    ((d.torn file length).file file).content = (d.file file).content.take length := by
  rw [torn, file_alter_self d hfile]
  simp only [File.resize, File.content] at hlength ⊢
  rw [Nat.sub_eq_zero_of_le hlength, List.replicate_zero, List.append_nil]

/-- A file that does not open as a run, under the name of a merge, takes nothing from the runs. -/
theorem Disk.HasRunsOnly.recoverable (h : d.HasRunsOnly dir place runs) {id : Nat}
    (hid : id < RunName.idLimit) (hchanges : ChangesAt ((RunName.mk .merged id).placeIn place) d d')
    {file : Nat} (hnode : d'.node? ((RunName.mk .merged id).placeIn place) = some (.file file))
    (hbroken : ∃ e, RunFile.parse ((RunName.mk .merged id).path dir) file (d'.file file).content =
      .error e) : Recoverable d' dir place runs := by
  have hworks := hchanges.works h.sound (isRunPlace ⟨.merged, id⟩ hid place)
  have hruns := h.holds.besideMerge h.sound hid hchanges
  have hdescribes : (Leftover.broken id).Describes d' dir place := ⟨file, hnode, hbroken⟩
  exact h.withMerge hworks hruns hid hdescribes rfl fun hname _ hne =>
    hchanges.others fun heq => hne (RunName.placeIn_inj heq hname hid)

/-- A merge of which a part is missing does not open, and recovery discards it and keeps the runs,
if the number that ends runs is nowhere else in it. -/
theorem torn_merge_discarded (h : d.HasRunsOnly dir place runs) (hroomy : dir.Roomy) {id : Nat}
    (hid : id < RunName.idLimit) {entries : List Entry} {blockSize count : Nat} {sync : Bool}
    (hblock : blockSize ≤ UInt32.size)
    (hwrite : writeRun ((RunName.mk .merged id).path dir) (entries.map .ok) blockSize sync d =
      (.ok count, d₁)) {file : Nat}
    (hnode : d₁.node? ((RunName.mk .merged id).placeIn place) = some (.file file))
    (honce : MagicOnlyAtEnd (d₁.file file).content) {length : Nat}
    (hlength : length < (d₁.file file).content.length) :
    (∃ e d', RunFile.openAt ((RunName.mk .merged id).path dir)
        ((d₁.torn file length).startedWith noFaults) = (.error e, d')) ∧
      ∃ d', recover dir ((d₁.torn file length).startedWith noFaults) = (.ok (), d') ∧
        d'.HoldsRuns place runs ∧ d'.node? ((RunName.mk .merged id).placeIn place) = none := by
  have hname : dir.Admits (RunName.mk .merged id).text := hroomy.admits hid
  have hfree : d.node? ((RunName.mk .merged id).placeIn place) ≠ some .folder := by
    rw [h.noMerge hid]
    simp
  have hgives : Pull.Gives (fun i : { d' : Disk //
      ChangesAt (place ++ [(RunName.mk .merged id).text]) d d' } => Feed.items.on i.1)
      (entries.map .ok) (entries.map .ok) := Pull.gives_items _
  rw [writeRun, RunName.path] at hwrite
  have hchanges : ChangesAt ((RunName.mk .merged id).placeIn place) d d₁ := by
    rcases writeRunFrom_spec h.folder hname h.sound hfree hgives hblock sync with
      ⟨_, d₂, _, hwrote, hchanges, -⟩ | ⟨e, _, d₂, hwrote, -⟩
    · rw [hwrite] at hwrote
      cases hwrote
      exact hchanges
    · rw [hwrite] at hwrote
      cases hwrote
  have hsize := (hchanges.sound h.sound).lt_size hnode
  have hbroken : ∃ e, RunFile.parse ((RunName.mk .merged id).path dir) file
      ((d₁.torn file length).file file).content = .error e := by
    rw [content_torn hsize (Nat.le_of_lt hlength)]
    exact RunFile.parse_take_error honce hlength _ _
  have hrecoverable : Recoverable ((d₁.torn file length).startedWith noFaults) dir place runs :=
    (h.recoverable hid (hchanges.trans (changesAt_alter hnode _)) hnode hbroken).startedWith _
  refine ⟨?_, ?_⟩
  · obtain ⟨e, hparse⟩ := hbroken
    rw [RunFile.openAt, RunName.path]
    rcases hrecoverable.folder.openRead_child hname with ⟨node, hopen, hthere⟩ | ⟨cause, hopen, -⟩
    · obtain rfl : Node.file file = node := Option.some.inj (hnode.symm.trans hthere)
      rw [DiskM.bind_of_ok (DiskM.reading_of_ok _ hopen)]
      exact ⟨e, _, congrArg (·, _) hparse⟩
    · exact ⟨_, _, DiskM.bind_of_error (DiskM.reading_of_error _ hopen)⟩
  · have hfaultless := faultless_startedWith (d₁.torn file length)
    rcases recover_spec hroomy hrecoverable hfaultless.halting with
      ⟨d', hrecover, -, hruns, hleft, -⟩ | ⟨e, d', -, hs, -⟩
    · exact ⟨d', hrecover, hruns, hleft.others hid (by simp [Leftover.ids])⟩
    · exact absurd hs hfaultless.not_struck

/-- A merge that was written beside the runs of a session. -/
def mergeBeside (entries : List Entry) : Disk :=
  (writeRun ((RunName.mk .merged 2).path ["db"]) (entries.map .ok) 32 false
    (newSession.run twoRuns).disk).2

theorem mergeBeside_discarded : ∃ d', recover ["db"]
    (((mergeBeside [.put [1] [11]]).torn 3 40).startedWith noFaults) = (.ok (), d') ∧
      d'.HoldsRuns ["db"] (runEntries ((Layers.initial 64).run twoRuns).runs) ∧
      d'.node? ["db", "00000002.compacting"] = none := by
  obtain ⟨place, hdescribes⟩ := describes_twoRuns
  have hrest := (hdescribes.atRest (by decide +kernel) (Layers.left_run rfl _)).hasRunsOnly
  obtain ⟨hdir, hfolder, hcount, hnode, honce, hlength⟩ :
      (newSession.run twoRuns).store.core.generation.dir = ["db"] ∧
      (newSession.run twoRuns).disk.locate ["db"] = .ok (["db"], .folder) ∧
      (writeRun ((RunName.mk .merged 2).path ["db"]) ([Entry.put [1] [11]].map .ok) 32 false
        (newSession.run twoRuns).disk).1 = .ok 1 ∧
      (mergeBeside [.put [1] [11]]).node? ((RunName.mk .merged 2).placeIn ["db"]) =
        some (.file 3) ∧
      MagicOnlyAtEnd ((mergeBeside [.put [1] [11]]).file 3).content ∧
      40 < ((mergeBeside [.put [1] [11]]).file 3).content.length := by decide +kernel
  rw [hdir] at hrest
  obtain rfl : place = ["db"] := hrest.folder.unique hfolder
  have hwrite : writeRun ((RunName.mk .merged 2).path ["db"]) ([Entry.put [1] [11]].map .ok) 32
      false (newSession.run twoRuns).disk = (.ok 1, mergeBeside [.put [1] [11]]) := by
    rw [mergeBeside, ← hcount, Prod.eta]
  exact (torn_merge_discarded hrest newSession_startsIn.roomy (by decide) (by decide) hwrite hnode
    honce hlength).2

/-- What looks like the footer of a run without entries, whose index begins after nine bytes. -/
def footerImitation : Bytes := RunWriter.footer 9 0 []

/-- A part of a merge, ending where a value imitates a footer, is taken for a run. Recovery puts it
in the place of the runs. -/
theorem imitated_footer_replaces_run :
    ((mergeBeside [.put [1] footerImitation]).file 3).content.length = 84 ∧
      ((RunFile.openAt ["db", "00000002.compacting"]
        (((mergeBeside [.put [1] footerImitation]).torn 3 33).startedWith noFaults)).1.map
          RunFile.count).toOption = some 0 ∧
      (recover ["db"] (((mergeBeside [.put [1] footerImitation]).torn 3 33).startedWith
        noFaults)).2.names ["db"] = ["00000002.sst", "strata.lock"] ∧
      ((recover ["db"] (((mergeBeside [.put [1] footerImitation]).torn 3 33).startedWith
        noFaults)).2.file 3).content.length = 33 := by
  decide +kernel

end LayeredStore
