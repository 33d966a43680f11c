import LayeredStore.Proofs.RunFolder

/-!
# Runs read as they were written

A writer that is offered entries takes those that a run can hold and whose keys ascend, and
nothing tells later that others were refused. `RunWriter.reads_back` says that what it took is what
the finished run is read as, whatever range is asked for.
-/

namespace LayeredStore

open Disk

namespace RunWriter

/-- Offers some entries to a writer, one after the other. The answers are whether they were taken;
a writer that has refused an entry goes on as it was. -/
def offer (w : RunWriter) : List Entry → StateM Disk (List Bool × RunWriter)
  | [] => return ([], w)
  | e :: rest => do
    match ← (w.add e).run with
    | .ok w =>
      let (answers, w) ← w.offer rest
      return (true :: answers, w)
    | .error _ =>
      let (answers, w) ← w.offer rest
      return (false :: answers, w)

/-- Whether an entry can come after a key in a run. -/
def takes (last : Option Bytes) (e : Entry) : Bool :=
  last.all (bytewise · e.key == .lt) && decide (e.key.length ≤ 65535) &&
    e.value.all (·.length < UInt32.size - 1)

/-- Which of some entries are taken after a key. -/
def answers : Option Bytes → List Entry → List Bool
  | _, [] => []
  | last, e :: rest => takes last e :: answers (if takes last e then some e.key else last) rest

/-- The entries that are taken after a key. -/
def taken : Option Bytes → List Entry → List Entry
  | _, [] => []
  | last, e :: rest =>
    if takes last e then e :: taken (some e.key) rest else taken last rest

variable {w : RunWriter} {d d' : Disk} {blocks : List (List Entry)} {current : List Entry}

theorem takes_iff {entries : List Entry} {e : Entry} :
    takes (entries.getLast?.map Entry.key) e = true ↔ Follows entries e := by
  have hvalue : e.value.all (·.length < UInt32.size - 1) = true ↔
      ∀ v, e.value = some v → v.length < Entry.tombstoneMark := by
    cases e.value <;> simp [Entry.tombstoneMark]
  have hlast : (entries.getLast?.map Entry.key).all (bytewise · e.key == .lt) = true ↔
      ∀ last, entries.getLast? = some last → bytewise last.key e.key = .lt := by
    cases entries.getLast? <;> simp
  rw [takes, Bool.and_eq_true, Bool.and_eq_true, hvalue, hlast, decide_eq_true_iff, Follows,
    Entry.Storable, Entry.maxKeyLength]
  tauto

/-- An entry that is refused leaves no trace. -/
theorem Wrote.add_of_not (h : w.Wrote d blocks current) {e : Entry}
    (hnot : ¬ Follows (blocks.flatten ++ current) e) : ∃ cause, w.add e d = (.error cause, d) := by
  cases hrefusal : refusal w.path w.lastKey e with
  | some cause => exact ⟨cause, add_of_refused hrefusal⟩
  | none =>
    rw [h.lastKey, refusal_eq_none_iff] at hrefusal
    exact absurd hrefusal hnot

/-- What a writer makes of the entries that it is offered. -/
theorem Wrote.offer (h : w.Wrote d blocks current)
    (hsmall : w.blockSize ≤ UInt32.size → w.block.size < UInt32.size)
    (hfaultless : d.Faultless) (entries : List Entry) :
    ∃ w' d' blocks' current', w.offer entries d =
        ((answers ((blocks.flatten ++ current).getLast?.map Entry.key) entries, w'), d') ∧
      Writes w.handle.file d d' ∧ w'.Wrote d' blocks' current' ∧
      w.Continues w' ∧
      blocks'.flatten ++ current' = blocks.flatten ++ current ++
        taken ((blocks.flatten ++ current).getLast?.map Entry.key) entries := by
  induction entries generalizing w d blocks current with
  | nil =>
    exact ⟨w, d, blocks, current, rfl, Writes.refl _ _, h, ⟨rfl, rfl, rfl⟩,
      (List.append_nil _).symm⟩
  | cons e rest ih =>
    by_cases htakes : takes ((blocks.flatten ++ current).getLast?.map Entry.key) e = true
    · rcases h.add hsmall (takes_iff.mp htakes) with
        ⟨w₁, d₁, blocks₁, current₁, hadd, hwrites, hwrote, hflatten, hsmall₁, hcontinues⟩ |
          ⟨cause, d₁, -, -, hs⟩
      · obtain ⟨w', d', blocks', current', hoffer, hwrites', hwrote', hcontinues', hflatten'⟩ :=
          ih hwrote hsmall₁ (hfaultless.evolves hwrites.evolves)
        rw [hflatten, List.getLast?_concat, Option.map_some] at hoffer hflatten'
        refine ⟨w', d', blocks', current', ?_, hwrites.trans (hcontinues.file ▸ hwrites'), hwrote',
          hcontinues.trans hcontinues', ?_⟩
        · rw [answers, if_pos htakes, htakes]
          simp only [RunWriter.offer, StateT.bind, bind, ExceptT.run, hadd, hoffer]
          rfl
        · rw [taken, if_pos htakes, hflatten', List.append_assoc _ [e]]
          rfl
      · exact absurd hs hfaultless.not_struck
    · obtain ⟨cause, hadd⟩ := h.add_of_not fun hfollows => htakes (takes_iff.mpr hfollows)
      obtain ⟨w', d', blocks', current', hoffer, hrest⟩ := ih h hsmall hfaultless
      refine ⟨w', d', blocks', current', ?_, ?_⟩
      · rw [answers, if_neg htakes, eq_false_of_ne_true htakes]
        simp only [RunWriter.offer, StateT.bind, bind, ExceptT.run, hadd, hoffer]
        rfl
      · rw [taken, if_neg htakes]
        exact hrest

theorem lift_of {α : Type} {x : StateM Disk α} {a : α} (h : x d = (a, d')) :
    (ExceptT.lift x : DiskM StoreError α) d = (.ok a, d') := by
  simp only [ExceptT.lift, ExceptT.mk, Functor.map, StateT.map, h]
  rfl

/-- Writes those of some entries that the writer of a run takes. The answers are which ones they
were, and what the writer gives as their number. -/
def writeOffered (path : Path) (entries : List Entry) (blockSize : Nat) (sync : Bool) :
    DiskM StoreError (List Bool × Nat) := do
  let w ← create path blockSize
  let (answers, w) ← ExceptT.lift (w.offer entries)
  let count ← w.finish sync
  return (answers, count)

/-- A run is read as the entries that its writer has taken, in every range. -/
theorem reads_back {dir place : Path} {name : String} (hfolder : d.FolderAt dir place)
    (hname : dir.Admits name) (hsound : d.Sound) (hfaultless : d.Faultless)
    (hfree : d.node? (place ++ [name]) ≠ some .folder) {blockSize : Nat}
    (hblock : blockSize ≤ UInt32.size) (entries : List Entry) (sync : Bool)
    (hsmall : ∀ file, ((writeOffered (dir.child name) entries blockSize sync d).2.file
      file).content.length < positionLimit) :
    ∃ d₁, writeOffered (dir.child name) entries blockSize sync d =
        (.ok (answers none entries, (taken none entries).length), d₁) ∧
      ∃ run d₂, RunFile.openAt (dir.child name) d₁ = (.ok run, d₂) ∧
        run.count = (taken none entries).length ∧
        ∀ range, run.toList d₂ range = (range.cut (taken none entries)).map .ok := by
  rcases hfolder.create_child hname hsound with
    ⟨handle, d₁, hcreate, hchanges, hnode, hposition, hempty, -⟩ | ⟨e, d₁, -, -, hs | hfull⟩
  rotate_left
  · exact absurd hs hfaultless.not_struck
  · exact absurd hfull hfree
  have hlt : handle.file < d₁.files.size := (hchanges.sound hsound).lt_size hnode
  have hwrote : RunWriter.Wrote ⟨dir.child name, handle, .empty, [], {}, none, none, 0,
      max blockSize 1, 0⟩ d₁ [] [] := .new hlt hposition hempty
  have hcreate' : create (dir.child name) blockSize d = (.ok ⟨dir.child name, handle,
      .empty, [], {}, none, none, 0, max blockSize 1, 0⟩, d₁) :=
    DiskM.bind_of_ok (DiskM.writing_of_ok _ hcreate)
  have hfaultless₁ := hfaultless.evolves hchanges.toEvolves
  obtain ⟨w', d₂, blocks, current, hoffer, hwrites, hwrote', hcontinues, hflatten⟩ :=
    hwrote.offer (fun _ => show 0 < UInt32.size by decide) hfaultless₁ entries
  have hfaultless₂ := hfaultless₁.evolves hwrites.evolves
  have htaken : blocks.flatten ++ current = taken none entries := hflatten
  rcases hwrote'.finish sync with ⟨d₃, hfinish, hwrites', hwritten⟩ | ⟨e, d₃, -, -, hs⟩
  swap
  · exact absurd hs hfaultless₂.not_struck
  have hfaultless₃ := hfaultless₂.evolves hwrites'.evolves
  rw [htaken] at hfinish hwritten
  rw [hcontinues.file] at hwritten hwrites'
  rw [hcontinues.blockSize] at hwritten
  have himage := hwritten.of_max.isImage hblock
  have hdone : writeOffered (dir.child name) entries blockSize sync d =
      (.ok (answers none entries, (taken none entries).length), d₃) := by
    rw [writeOffered, DiskM.bind_of_ok hcreate', DiskM.bind_of_ok (lift_of hoffer)]
    exact DiskM.bind_of_ok hfinish
  rw [hdone] at hsmall
  have hnode₃ : d₃.node? (place ++ [name]) = some (.file handle.file) := by
    rw [hwrites'.node?, hwrites.node?, hnode]
  have hfolder₃ := hfolder.evolves
    ((hchanges.toEvolves.trans hwrites.evolves).trans hwrites'.evolves)
  rcases openAt_of_isRun hfolder₃ hname hnode₃ ⟨himage, hsmall handle.file⟩ with
    ⟨run, hopen, -, -, hcount, hreads⟩ | ⟨e, -, hs⟩
  · refine ⟨d₃, hdone, run, _, hopen, hcount, fun range => ?_⟩
    obtain ⟨scan, hscan, hgives⟩ := (hreads (fun _ : Unit => d₃.ticked) fun _ => rfl).gives_scan range
    rw [RunFile.toList, hscan ()]
    exact hgives.toList_eq ()
  · exact absurd hs hfaultless₃.not_struck

/-- Two entries of these are refused. -/
def someOffers : List Entry :=
  [.put [1] [10], .tombstone [2], .put [2] [20], .put [3] [], .put [1] [11], .put [4] [40, 41]]

theorem someOffers_reads_back :
    ∃ d₁, writeOffered ["db", "00000001.sst"] someOffers 16 false (Disk.empty.put ["db"] .folder) =
        (.ok ([true, true, false, true, false, true], 4), d₁) ∧
      ∃ run d₂, RunFile.openAt ["db", "00000001.sst"] d₁ = (.ok run, d₂) ∧ run.count = 4 ∧
        run.toList d₂ ⟨.excluded [1], .included [3]⟩ =
          [.ok (.tombstone [2]), .ok (.put [3] [])] := by
  have hfolder : (Disk.empty.put ["db"] .folder).FolderAt ["db"] ["db"] := by
    rw [FolderAt]
    decide +kernel
  have hroomy : Path.Roomy ["db"] := Path.roomy_singleton (by decide) (by decide) (by decide)
  have hname : Path.Admits ["db"] (RunName.mk .finished 1).text := hroomy.admits (by decide)
  have hblock : 16 ≤ UInt32.size := by decide
  obtain ⟨d₁, hwrite, run, d₂, hopen, hcount, hscan⟩ := reads_back hfolder hname
    (sound_empty.put (by decide) fun _ hid => by cases hid) (fun _ _ => rfl) (by decide +kernel)
    hblock someOffers false (lengths_iff.mpr (by decide +kernel))
  exact ⟨d₁, hwrite, run, d₂, hopen, hcount, hscan _⟩

end RunWriter

end LayeredStore
