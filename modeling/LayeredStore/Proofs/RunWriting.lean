import LayeredStore.Proofs.FolderOperations
import LayeredStore.Proofs.RunImage

/-!
# Writing a run

What a `RunWriter` has emitted is in its file or gathered (`RunWriter.Emitted`), and it makes up
the blocks closed so far (`RunWriter.Wrote`). Every step of a writer keeps this, or a fault
struck it. So `writeRunFrom` either leaves the file of a run that holds what the stream gave, or
fails; it fails only by a fault of the disk or with the first fault of the stream
(`RunWriter.firstFault`), and whichever of these it does, it changes nothing but that file
(`writeRunFrom_outcome`).
-/

namespace LayeredStore

open Disk

namespace RunWriter

variable {w w' : RunWriter} {d d' : Disk} {bytes : Bytes}

/-! ## What was emitted -/

/-- What was emitted is in the file or gathered. -/
structure Emitted (w : RunWriter) (d : Disk) (bytes : Bytes) : Prop where
  lt_size : w.handle.file < d.files.size
  position : w.handle.position = (d.file w.handle.file).content.length
  bytes_eq : (d.file w.handle.file).content ++ w.pending.bytes = bytes

/-- More bytes reach the end of the file. -/
theorem Emitted.write (h : w.Emitted d bytes) (b : Bytes) :
    (∃ handle d', Disk.write w.handle b d = (.ok handle, d') ∧ Writes w.handle.file d d' ∧
        handle.file = w.handle.file ∧ ∀ pending : Pieces, Emitted { w with handle, pending } d'
          ((d.file w.handle.file).content ++ b ++ pending.bytes)) ∨
      ∃ e d', Disk.write w.handle b d = (.error e, d') ∧ Writes w.handle.file d d' ∧
        d.Struck d' := by
  rcases write_end h.lt_size h.position b with ⟨d', hwrite, hwrites, hcontent⟩ | herror
  · refine .inl ⟨_, d', hwrite, hwrites, rfl, fun pending => ⟨?_, ?_, ?_⟩⟩
    · rw [hwrites.size]
      exact h.lt_size
    · show w.handle.position + b.length = _
      rw [hcontent, List.length_append, h.position]
    · show _ ++ pending.bytes = _
      rw [hcontent]
  · exact .inr herror

theorem Emitted.flush (h : w.Emitted d bytes) :
    (∃ handle pending d', w.flush d = (.ok { w with handle, pending }, d') ∧
        Writes w.handle.file d d' ∧ handle.file = w.handle.file ∧ pending.bytes = [] ∧
        Emitted { w with handle, pending } d' bytes) ∨
      ∃ e d', w.flush d = (.error e, d') ∧ Writes w.handle.file d d' ∧ d.Struck d' := by
  by_cases hempty : w.pending.isEmpty = true
  · have hpending : w.pending.bytes = [] := by
      have hlength := Pieces.length_bytes w.pending
      rw [Pieces.isEmpty, beq_iff_eq] at hempty
      exact List.eq_nil_of_length_eq_zero (hlength.trans hempty)
    refine .inl ⟨w.handle, w.pending, d, ?_, Writes.refl _ _, rfl, hpending, h⟩
    rw [RunWriter.flush, if_pos hempty]
    rfl
  · rw [RunWriter.flush, if_neg hempty]
    rcases h.write w.pending.bytes with ⟨handle, d', hwrite, hwrites, hfile, hemitted⟩ |
      ⟨e, d', hwrite, hrest⟩
    · refine .inl ⟨handle, .empty, d', DiskM.bind_of_ok hwrite, hwrites, hfile, rfl, ?_⟩
      have := hemitted .empty
      rwa [h.bytes_eq, Pieces.bytes_empty, List.append_nil] at this
    · exact .inr ⟨e, d', DiskM.bind_of_error hwrite, hrest⟩

theorem Emitted.emit (h : w.Emitted d bytes) (b : Bytes) :
    (∃ handle pending d', w.emit b d = (.ok { w with handle, pending }, d') ∧
        Writes w.handle.file d d' ∧ handle.file = w.handle.file ∧
        Emitted { w with handle, pending } d' (bytes ++ b)) ∨
      ∃ e d', w.emit b d = (.error e, d') ∧ Writes w.handle.file d d' ∧ d.Struck d' := by
  -- what is left to do once there is room for the bytes
  have hput {w : RunWriter} {d : Disk} (h : w.Emitted d bytes)
      (hroom : gatherLimit ≤ b.length → w.pending.bytes = []) :
      (∃ handle pending d', (if gatherLimit ≤ b.length then do
            let handle ← Disk.write w.handle b
            return { w with handle }
          else return { w with pending := w.pending.push b } : DiskM IoFailure RunWriter) d =
            (.ok { w with handle, pending }, d') ∧ Writes w.handle.file d d' ∧
          handle.file = w.handle.file ∧ Emitted { w with handle, pending } d' (bytes ++ b)) ∨
        ∃ e d', (if gatherLimit ≤ b.length then do
            let handle ← Disk.write w.handle b
            return { w with handle }
          else return { w with pending := w.pending.push b } : DiskM IoFailure RunWriter) d =
            (.error e, d') ∧ Writes w.handle.file d d' ∧ d.Struck d' := by
    by_cases hlarge : gatherLimit ≤ b.length
    · rw [if_pos hlarge]
      have hbytes := h.bytes_eq
      rw [hroom hlarge, List.append_nil] at hbytes
      rcases h.write b with ⟨handle, d', hwrite, hwrites, hfile, hemitted⟩ | ⟨e, d', hwrite, hrest⟩
      · refine .inl ⟨handle, w.pending, d', DiskM.bind_of_ok hwrite, hwrites, hfile, ?_⟩
        have := hemitted w.pending
        rwa [hbytes, hroom hlarge, List.append_nil] at this
      · exact .inr ⟨e, d', DiskM.bind_of_error hwrite, hrest⟩
    · rw [if_neg hlarge]
      refine .inl ⟨w.handle, w.pending.push b, d, rfl, Writes.refl _ _, rfl, h.lt_size, h.position, ?_⟩
      show _ ++ (w.pending.push b).bytes = _
      rw [Pieces.bytes_push, ← List.append_assoc, h.bytes_eq]
  rw [RunWriter.emit]
  by_cases hfull : gatherLimit < w.pending.length + b.length
  · rw [if_pos hfull]
    rcases h.flush with ⟨handle, pending, d', hflush, hwrites, hfile, hpending, hemitted⟩ |
      ⟨e, d', hflush, hrest⟩
    · rw [DiskM.bind_of_ok hflush]
      rcases hput hemitted fun _ => hpending with
        ⟨handle', pending', d'', heq, hwrites', hfile', hemitted'⟩ | ⟨e, d'', heq, hwrites', hstruck⟩
      · exact .inl ⟨handle', pending', d'', heq, hwrites.trans (hfile ▸ hwrites'),
          hfile'.trans hfile, hemitted'⟩
      · exact .inr ⟨e, d'', heq, hwrites.trans (hfile ▸ hwrites'), hstruck.earlier hwrites.evolves⟩
    · exact .inr ⟨e, d', DiskM.bind_of_error hflush, hrest⟩
  · rw [if_neg hfull]
    refine hput h fun hlarge => List.eq_nil_of_length_eq_zero ?_
    rw [Pieces.length_bytes]
    omega

/-- The last bytes of a run go out in two pieces, and nothing stays behind. -/
theorem Emitted.emitLast (h : w.Emitted d bytes) (b : Bytes) (c : RunWriter → Bytes)
    (hc : ∀ handle pending, c { w with handle, pending } = c w) :
    (∃ handle pending d', (do
          let w ← w.emit b
          let w ← w.emit (c w)
          w.flush : DiskM IoFailure RunWriter) d = (.ok { w with handle, pending }, d') ∧
        Writes w.handle.file d d' ∧ handle.file = w.handle.file ∧
        (d'.file w.handle.file).content = bytes ++ b ++ c w) ∨
      ∃ e d', (do
          let w ← w.emit b
          let w ← w.emit (c w)
          w.flush : DiskM IoFailure RunWriter) d = (.error e, d') ∧ Writes w.handle.file d d' ∧
        d.Struck d' := by
  rcases h.emit b with ⟨handle₁, pending₁, d₁, hemit₁, hwrites₁, hfile₁, hemitted₁⟩ |
    ⟨e, d₁, hemit₁, hrest⟩
  swap
  · exact .inr ⟨e, d₁, DiskM.bind_of_error hemit₁, hrest⟩
  rw [DiskM.bind_of_ok hemit₁, hc]
  rcases hemitted₁.emit (c w) with ⟨handle₂, pending₂, d₂, hemit₂, hwrites₂, hfile₂, hemitted₂⟩ |
    ⟨e, d₂, hemit₂, hwrites₂, hs⟩
  swap
  · exact .inr ⟨e, d₂, DiskM.bind_of_error hemit₂, hwrites₁.trans (hfile₁ ▸ hwrites₂),
      hs.earlier hwrites₁.evolves⟩
  rw [DiskM.bind_of_ok hemit₂]
  have hwrites : Writes w.handle.file d d₂ := hwrites₁.trans (hfile₁ ▸ hwrites₂)
  have hfile : handle₂.file = w.handle.file := hfile₂.trans hfile₁
  rcases hemitted₂.flush with ⟨handle₃, pending₃, d₃, hflush, hwrites₃, hfile₃, hpending,
    hemitted₃⟩ | ⟨e, d₃, hflush, hwrites₃, hs⟩
  swap
  · exact .inr ⟨e, d₃, hflush, hwrites.trans (hfile ▸ hwrites₃), hs.earlier hwrites.evolves⟩
  have hfile' : handle₃.file = w.handle.file := hfile₃.trans hfile
  have hbytes := hemitted₃.bytes_eq
  simp only [hpending, List.append_nil, hfile'] at hbytes
  exact .inl ⟨handle₃, pending₃, d₃, hflush, hwrites.trans (hfile ▸ hwrites₃), hfile', hbytes⟩

/-! ## What was written -/

/-- A writer that has closed some blocks and is filling another. -/
structure Wrote (w : RunWriter) (d : Disk) (blocks : List (List Entry)) (current : List Entry) :
    Prop where
  emitted : w.Emitted d (RunImage.body blocks)
  index_eq : w.index = RunImage.indexFrom 0 blocks
  offset : w.offset = (RunImage.body blocks).length
  block : w.block.Holds current
  firstKey : w.firstKey = current.head?.map Entry.key
  lastKey : w.lastKey = (blocks.flatten ++ current).getLast?.map Entry.key
  count : w.count = (blocks.flatten ++ current).length
  ascending : Ascending bytewise (blocks.flatten ++ current)
  storable : ∀ e ∈ blocks.flatten ++ current, e.Storable
  nonempty : ∀ block ∈ blocks, block ≠ []
  fits : w.blockSize ≤ UInt32.size → ∀ block ∈ blocks, Block.Fits block
  fitsCurrent : w.blockSize ≤ UInt32.size → Block.Fits current

variable {blocks : List (List Entry)} {current : List Entry}

/-- A writer that was just made has an empty file. -/
theorem Wrote.new {path : Path} {handle : Handle} {blockSize : Nat} (hlt : handle.file < d.files.size)
    (hposition : handle.position = 0) (hempty : (d.file handle.file).content = []) :
    Wrote ⟨path, handle, .empty, [], {}, none, none, 0, blockSize, 0⟩ d [] [] :=
  ⟨⟨hlt, by rw [hposition, hempty]; rfl, by rw [hempty]; rfl⟩, rfl, rfl,
    Block.Builder.holds_new, rfl, rfl, rfl, .nil, by simp, by simp, by simp,
    by simp [Block.Fits, Block.restartPoints]⟩

/-- A later state of the writer of a file. -/
structure Continues (w w' : RunWriter) : Prop where
  path : w'.path = w.path
  file : w'.handle.file = w.handle.file
  blockSize : w'.blockSize = w.blockSize

theorem Continues.trans {w'' : RunWriter} (h : w.Continues w') (h' : w'.Continues w'') :
    w.Continues w'' :=
  ⟨h'.path.trans h.path, h'.file.trans h.file, h'.blockSize.trans h.blockSize⟩

theorem Wrote.closeBlock (h : w.Wrote d blocks current) :
    (∃ w' d' blocks', w.closeBlock d = (.ok w', d') ∧ Writes w.handle.file d d' ∧
        w'.Wrote d' blocks' [] ∧ blocks'.flatten = blocks.flatten ++ current ∧
        w.Continues w') ∨
      ∃ e d', w.closeBlock d = (.error e, d') ∧ Writes w.handle.file d d' ∧ d.Struck d' := by
  rw [RunWriter.closeBlock, h.block.isEmpty]
  cases hcurrent : current with
  | nil =>
    rw [hcurrent] at h
    exact .inl ⟨w, d, blocks, rfl, Writes.refl _ _, h, by rw [List.append_nil], rfl, rfl, rfl⟩
  | cons e rest =>
    rw [hcurrent] at h
    rw [if_neg (by simp)]
    have hfinish := h.block.finish
    rcases h.emitted.emit (Block.stored (e :: rest)) with
      ⟨handle, pending, d', hemit, hwrites, hfile, hemitted⟩ | ⟨cause, d', hemit, hrest⟩
    · have hflatten : (blocks ++ [e :: rest]).flatten = blocks.flatten ++ e :: rest := by
        rw [List.flatten_concat]
      have hbody : RunImage.body (blocks ++ [e :: rest]) =
          RunImage.body blocks ++ Block.stored (e :: rest) := by
        rw [RunImage.body_append, RunImage.body_cons]
        simp [RunImage.body]
      refine .inl ⟨{ w with
          handle, pending, block := {}, firstKey := none
          closed := ⟨w.firstKey.getD [], w.offset, (Block.stored (e :: rest)).length⟩ :: w.closed
          offset := w.offset + (Block.stored (e :: rest)).length }, d',
        blocks ++ [e :: rest], ?_, hwrites, ⟨?_, ?_, ?_, Block.Builder.holds_new,
        rfl, ?_, ?_, ?_, ?_, ?_, ?_, ?_⟩, hflatten, rfl, hfile, rfl⟩
      · rw [hfinish]
        exact DiskM.bind_of_ok (DiskM.writing_of_ok _ hemit)
      · rw [hbody]
        exact ⟨hemitted.lt_size, hemitted.position, hemitted.bytes_eq⟩
      · have hindex := h.index_eq
        rw [RunWriter.index] at hindex ⊢
        rw [List.reverse_cons, hindex, RunImage.indexFrom_append, Nat.zero_add, ← h.offset,
          h.firstKey]
        rfl
      · show w.offset + _ = _
        rw [hbody, List.length_append, h.offset]
      · rw [hflatten, List.append_nil]
        exact h.lastKey
      · rw [hflatten, List.append_nil]
        exact h.count
      · rw [hflatten, List.append_nil]
        exact h.ascending
      · rw [hflatten, List.append_nil]
        exact h.storable
      · intro block hblock
        rcases List.mem_append.mp hblock with hold | hnew
        · exact h.nonempty block hold
        · rw [List.mem_singleton.mp hnew]
          simp
      · intro hsize block hblock
        rcases List.mem_append.mp hblock with hold | hnew
        · exact h.fits hsize block hold
        · rw [List.mem_singleton.mp hnew]
          exact h.fitsCurrent hsize
      · intro _
        exact ⟨by simp [Block.restartPoints], by simp [Block.restartPoints]⟩
    · refine .inr ⟨.write "data block" cause, d', ?_, hrest⟩
      rw [hfinish]
      exact DiskM.bind_of_error (DiskM.writing_of_error _ hemit)

theorem ascending_concat {entries : List Entry} {e : Entry} (h : Ascending bytewise entries)
    (hlast : ∀ last, entries.getLast? = some last → bytewise last.key e.key = .lt) :
    Ascending bytewise (entries ++ [e]) := by
  refine List.pairwise_append.mpr ⟨h, by simp, ?_⟩
  intro a ha b hb
  rw [List.mem_singleton.mp hb]
  rcases List.eq_nil_or_concat' entries with rfl | ⟨front, last, rfl⟩
  · cases ha
  · have hlt := hlast last (by simp)
    rcases List.mem_append.mp ha with hfront | hself
    · have hfront' : bytewise a.key last.key = .lt :=
        (List.pairwise_append.mp h).2.2 a hfront last (by simp)
      exact Std.TransCmp.lt_trans hfront' hlt
    · rw [List.mem_singleton.mp hself]
      exact hlt

/-- An entry may follow some others in a run. -/
def Follows (entries : List Entry) (e : Entry) : Prop :=
  e.Storable ∧ ∀ last, entries.getLast? = some last → bytewise last.key e.key = .lt

/-- Why a writer that has taken a key refuses an entry: the entry does not come after that key, or
no run can hold it. -/
def refusal (path : Path) (last : Option Bytes) (e : Entry) : Option StoreError :=
  if last.any fun last => bytewise e.key last != .gt then some (.keysOutOfOrder path.text)
  else match e.check with
    | .error cause => some cause
    | .ok () => none

theorem refusal_eq_none_iff {path : Path} {entries : List Entry} {e : Entry} :
    refusal path (entries.getLast?.map Entry.key) e = none ↔ Follows entries e := by
  have hlast : (entries.getLast?.map Entry.key).any (bytewise e.key · != .gt) = false ↔
      ∀ last, entries.getLast? = some last → bytewise last.key e.key = .lt := by
    cases entries.getLast? with
    | none => simp
    | some last => simp [@Std.OrientedCmp.gt_iff_lt _ bytewise]
  have hcheck : (match e.check with
      | .error cause => some cause
      | .ok () => none) = none ↔ e.Storable := by
    rw [← Entry.check_eq_ok_iff]
    cases e.check <;> simp
  rw [refusal, Follows, ← hlast, ← hcheck]
  cases (entries.getLast?.map Entry.key).any (bytewise e.key · != .gt) <;> simp

/-- The first fault of a stream for a writer that has taken a key: an error item, or an entry that
the writer refuses. -/
def firstFault (path : Path) : (last : Option Bytes) → List Item → Option StoreError
  | _, [] => none
  | _, .error cause :: _ => some cause
  | last, .ok e :: items => (refusal path last e).or (firstFault path (some e.key) items)

/-- A stream without a fault is one of ascending entries each of which can be stored. -/
theorem firstFault_eq_none_iff {path : Path} (taken : List Entry) {items : List Item}
    (htaken : Ascending bytewise taken) :
    firstFault path (taken.getLast?.map Entry.key) items = none ↔
      ∃ entries, items = entries.map .ok ∧ Ascending bytewise (taken ++ entries) ∧
        ∀ e ∈ entries, e.Storable := by
  induction items generalizing taken with
  | nil =>
    refine ⟨fun _ => ⟨[], rfl, by rwa [List.append_nil], by simp⟩, fun _ => rfl⟩
  | cons item items ih =>
    cases item with
    | error cause =>
      refine ⟨fun hnone => by simp [firstFault] at hnone, ?_⟩
      rintro ⟨entries, hitems, -⟩
      cases entries <;> cases hitems
    | ok e =>
      rw [firstFault, Option.or_eq_none_iff, refusal_eq_none_iff]
      have hlast : some e.key = (taken ++ [e]).getLast?.map Entry.key := by
        rw [List.getLast?_concat]
        rfl
      constructor
      · rintro ⟨hfollows, hnone⟩
        rw [hlast] at hnone
        obtain ⟨entries, rfl, hasc, hstorable⟩ := (ih _ (ascending_concat htaken hfollows.2)).mp hnone
        rw [List.append_assoc] at hasc
        exact ⟨e :: entries, rfl, hasc, List.forall_mem_cons.mpr ⟨hfollows.1, hstorable⟩⟩
      · rintro ⟨entries, hitems, hasc, hstorable⟩
        cases entries with
        | nil => cases hitems
        | cons x entries =>
          obtain ⟨hx, rfl⟩ := List.cons.inj hitems
          cases hx
          obtain ⟨hstored, hrest⟩ := List.forall_mem_cons.mp hstorable
          have hbefore : ∀ last, taken.getLast? = some last → bytewise last.key e.key = .lt :=
            fun last hlast => (List.pairwise_append.mp hasc).2.2 last (List.mem_of_getLast? hlast) e
              List.mem_cons_self
          refine ⟨⟨hstored, hbefore⟩, ?_⟩
          rw [hlast, ih _ (ascending_concat htaken hbefore)]
          exact ⟨entries, rfl, by rwa [List.append_assoc], hrest⟩

theorem firstFault_none_iff {path : Path} {items : List Item} :
    firstFault path none items = none ↔ ∃ entries : List Entry,
      items = entries.map .ok ∧ Ascending bytewise entries ∧ ∀ e ∈ entries, e.Storable :=
  firstFault_eq_none_iff [] .nil

theorem not_exists_of_fault {path : Path} {items : List Item} {cause : StoreError}
    (h : firstFault path none items = some cause) : ¬ ∃ entries : List Entry,
      items = entries.map .ok ∧ Ascending bytewise entries ∧ ∀ e ∈ entries, e.Storable := by
  intro hentries
  rw [firstFault_none_iff.mpr hentries] at h
  cases h

theorem accept_of_refused {e : Entry} {cause : StoreError}
    (h : refusal w.path w.lastKey e = some cause) : w.accept e = .error cause := by
  rw [refusal] at h
  rw [RunWriter.accept]
  split at h
  · next horder =>
    rw [if_pos horder, ← Option.some.inj h]
  · next horder =>
    rw [if_neg horder]
    cases hcheck : e.check with
    | ok u => simp [hcheck] at h
    | error err =>
      simp only [hcheck, Option.some.injEq] at h
      rw [Block.Builder.add_error hcheck, h]
      rfl

theorem add_of_refused {e : Entry} {cause : StoreError}
    (h : refusal w.path w.lastKey e = some cause) : w.add e d = (.error cause, d) := by
  have hlift : add.liftExcept (w.accept e) d = (.error cause, d) := by
    rw [accept_of_refused h]
    rfl
  rw [RunWriter.add, DiskM.bind_of_error hlift]

theorem Wrote.accept (h : w.Wrote d blocks current)
    (hsmall : w.blockSize ≤ UInt32.size → w.block.size < UInt32.size) {e : Entry}
    (hfollows : Follows (blocks.flatten ++ current) e) :
    ∃ w', w.accept e = .ok w' ∧ w'.Wrote d blocks (current ++ [e]) ∧ w.Continues w' := by
  have horder : ¬ (w.lastKey.any fun last => bytewise e.key last != .gt) = true := by
    rw [h.lastKey]
    cases hgetLast : (blocks.flatten ++ current).getLast? with
    | none => simp
    | some last =>
      have hgt : bytewise e.key last.key = .gt :=
        Std.OrientedCmp.gt_of_lt (hfollows.2 last hgetLast)
      simp [hgt]
  obtain ⟨block, hadd, hholds⟩ := h.block.add hfollows.1
  rw [RunWriter.accept, if_neg horder, hadd]
  have hassoc : blocks.flatten ++ (current ++ [e]) = blocks.flatten ++ current ++ [e] :=
    (List.append_assoc _ _ _).symm
  refine ⟨_, rfl, ⟨⟨h.emitted.lt_size, h.emitted.position, h.emitted.bytes_eq⟩,
    h.index_eq, h.offset, hholds, ?_, ?_, ?_, ?_, ?_, h.nonempty, h.fits, ?_⟩, rfl, rfl, rfl⟩
  · show some (w.firstKey.getD e.key) = _
    rw [h.firstKey]
    cases current <;> rfl
  · rw [hassoc, List.getLast?_concat]
    rfl
  · rw [hassoc, List.length_append, ← h.count]
    rfl
  · rw [hassoc]
    exact ascending_concat h.ascending hfollows.2
  · intro x hx
    rw [hassoc] at hx
    rcases List.mem_append.mp hx with hold | hnew
    · exact h.storable x hold
    · rw [List.mem_singleton.mp hnew]
      exact hfollows.1
  · intro hsize
    exact Block.fits_concat e (by simpa only [← h.block.size] using hsmall hsize)

/-- A writer takes an entry that may follow those it has taken. -/
theorem Wrote.add (h : w.Wrote d blocks current)
    (hsmall : w.blockSize ≤ UInt32.size → w.block.size < UInt32.size) {e : Entry}
    (hfollows : Follows (blocks.flatten ++ current) e) :
    (∃ w' d' blocks' current', w.add e d = (.ok w', d') ∧ Writes w.handle.file d d' ∧
        w'.Wrote d' blocks' current' ∧
        blocks'.flatten ++ current' = blocks.flatten ++ current ++ [e] ∧
        (w'.blockSize ≤ UInt32.size → w'.block.size < UInt32.size) ∧ w.Continues w') ∨
      ∃ err d', w.add e d = (.error err, d') ∧ Writes w.handle.file d d' ∧ d.Struck d' := by
  obtain ⟨w', haccept, hwrote, hcontinues⟩ := h.accept hsmall hfollows
  have hlift : add.liftExcept (w.accept e) d = (.ok w', d) := by
    rw [haccept]
    rfl
  rw [RunWriter.add, DiskM.bind_of_ok hlift, ← hcontinues.file]
  have hassoc : blocks.flatten ++ (current ++ [e]) = blocks.flatten ++ current ++ [e] :=
    (List.append_assoc _ _ _).symm
  by_cases hfull : w'.blockSize ≤ w'.block.size
  · rw [if_pos hfull]
    rcases hwrote.closeBlock with ⟨w'', d', blocks', hclose, hwrites, hwrote', hflatten,
      hcontinues'⟩ | ⟨err, d', hclose, hwrites, hstruck⟩
    · refine .inl ⟨w'', d', blocks', [], hclose, hwrites, hwrote', ?_, fun _ => ?_,
        hcontinues.trans hcontinues'⟩
      · rw [List.append_nil, hflatten, hassoc]
      · rw [hwrote'.block.size]
        simp [Block.records]
    · exact .inr ⟨err, d', hclose, hwrites, hstruck⟩
  · rw [if_neg hfull]
    exact .inl ⟨w', d, blocks, current ++ [e], rfl, Writes.refl _ _, hwrote, hassoc,
      fun hsize => by omega, hcontinues⟩

/-- Some content is what a writer makes of these entries. Whatever the size of its blocks, they are
laid out as those of a run; they can be read unless they are too large for the offsets in them. -/
def IsWritten (blockSize : Nat) (content : Bytes) (entries : List Entry) : Prop :=
  ∃ blocks : List (List Entry), Ascending bytewise entries ∧ (∀ e ∈ entries, e.Storable) ∧
    (∀ block ∈ blocks, block ≠ []) ∧
    (blockSize ≤ UInt32.size → ∀ block ∈ blocks, Block.Fits block) ∧
    blocks.flatten = entries ∧ content = RunImage.bytes blocks

/-- A block size of zero stands for one. -/
theorem IsWritten.of_max {blockSize : Nat} {content : Bytes} {entries : List Entry}
    (h : IsWritten (max blockSize 1) content entries) : IsWritten blockSize content entries := by
  obtain ⟨blocks, hasc, hstorable, hnonempty, hfits, hrest⟩ := h
  exact ⟨blocks, hasc, hstorable, hnonempty,
    fun hblock => hfits (Nat.max_le.mpr ⟨hblock, by decide⟩), hrest⟩

theorem IsWritten.isImage {blockSize : Nat} {content : Bytes} {entries : List Entry}
    (h : IsWritten blockSize content entries) (hblock : blockSize ≤ UInt32.size) :
    IsImage content entries := by
  obtain ⟨blocks, hasc, hstorable, hnonempty, hfits, rfl, hcontent⟩ := h
  exact ⟨blocks, ⟨hasc, hstorable, hnonempty, hfits hblock⟩, rfl, hcontent⟩

theorem Wrote.finish (h : w.Wrote d blocks current) (sync : Bool) :
    (∃ d', w.finish sync d = (.ok (blocks.flatten ++ current).length, d') ∧
        Writes w.handle.file d d' ∧
        IsWritten w.blockSize (d'.file w.handle.file).content (blocks.flatten ++ current)) ∨
      ∃ e d', w.finish sync d = (.error e, d') ∧ Writes w.handle.file d d' ∧ d.Struck d' := by
  rw [RunWriter.finish]
  rcases h.closeBlock with
    ⟨w₁, d₁, blocks₁, hclose, hwrites₁, hwrote, hflatten, -, hfile₁, hsize₁⟩ |
    ⟨e, d₁, hclose, hrest⟩
  swap
  · exact .inr ⟨e, d₁, DiskM.bind_of_error hclose, hrest⟩
  rw [DiskM.bind_of_ok hclose, ← hflatten]
  rcases hwrote.emitted.emitLast w₁.index.encode
      (fun w => footer w.offset w.count w₁.index.encode) (fun _ _ => rfl) with
    ⟨handle, pending, d₂, htail, hwrites₂, hfile₂, hcontent⟩ | ⟨e, d₂, htail, hw, hs⟩
  swap
  · exact .inr ⟨.write "index and footer" e, d₂,
      DiskM.bind_of_error (DiskM.writing_of_error _ htail),
      hwrites₁.trans (hfile₁ ▸ hw), hs.earlier hwrites₁.evolves⟩
  rw [DiskM.bind_of_ok (DiskM.writing_of_ok _ htail)]
  have hwrites : Writes w.handle.file d d₂ := hwrites₁.trans (hfile₁ ▸ hwrites₂)
  have himage : IsWritten w.blockSize (d₂.file w.handle.file).content blocks₁.flatten := by
    refine ⟨blocks₁, ?_, ?_, hwrote.nonempty, hsize₁ ▸ hwrote.fits, rfl, ?_⟩
    · simpa using hwrote.ascending
    · simpa using hwrote.storable
    · rw [← hfile₁, hcontent, RunImage.bytes, hwrote.index_eq, hwrote.offset, hwrote.count,
        List.append_nil, List.append_assoc]
  have hlength : w₁.count = blocks₁.flatten.length := by
    rw [hwrote.count, List.append_nil]
  cases sync with
  | false => exact .inl ⟨d₂, by rw [← hlength]; rfl, hwrites, himage⟩
  | true =>
    rcases syncFile_eq handle d₂ with hsync | ⟨e, hsync, hs⟩
    · refine .inl ⟨d₂.ticked, ?_, hwrites.trans ((still_ticked d₂).writes _), himage⟩
      rw [if_pos rfl, DiskM.bind_of_ok (DiskM.writing_of_ok _ hsync), ← hlength]
      rfl
    · refine .inr ⟨.write "run file sync" e, d₂.ticked, ?_, hwrites.trans ((still_ticked d₂).writes _),
        hs.earlier hwrites.evolves⟩
      rw [if_pos rfl]
      exact DiskM.bind_of_error (DiskM.writing_of_error _ hsync)

/-! ## A whole stream -/

theorem writes_abandon (w : RunWriter) (d : Disk) : Writes w.handle.file d (w.abandon d).2 := by
  show Writes w.handle.file d (w.flush d).2
  rw [RunWriter.flush]
  by_cases hempty : w.pending.isEmpty = true
  · rw [if_pos hempty]
    exact Writes.refl _ _
  · rw [if_neg hempty]
    have hwrites := writes_write w.handle w.pending.bytes d
    cases hwrite : Disk.write w.handle w.pending.bytes d with
    | mk r d' =>
      rw [hwrite] at hwrites
      cases r with
      | ok handle =>
        rw [DiskM.bind_of_ok hwrite]
        exact hwrites
      | error e =>
        rw [DiskM.bind_of_error hwrite]
        exact hwrites

theorem orAbandon_of_ok {α : Type} {x : DiskM StoreError α} {a : α} (h : x d = (.ok a, d')) :
    w.orAbandon x d = (.ok a, d') := DiskM.tryCatch_of_ok h

theorem orAbandon_of_error {α : Type} {x : DiskM StoreError α} {e : StoreError}
    (h : x d = (.error e, d')) : w.orAbandon x d = (.error e, (w.abandon d').2) := by
  rw [orAbandon, DiskM.tryCatch_of_error h]
  rfl

variable {σ : Type} {p : Feed σ} {s s' : σ} {P : Disk → Prop}

theorem addAll_of_done {sync : Bool} (h : ((p.on d).next s).1 = none) :
    w.addAll p sync s d = w.orAbandon (w.finish sync) d := by
  rw [addAll.eq_def]
  split
  · rfl
  · next hnext => simp [hnext] at h
  · next hnext => simp [hnext] at h

theorem addAll_of_error {sync : Bool} {e : StoreError}
    (h : (p.on d).next s = (some (.error e), s')) :
    w.addAll p sync s d = (.error e, (w.abandon d).2) := by
  rw [addAll.eq_def]
  split
  · next hnext => simp [hnext] at h
  · next found _ hnext =>
    rw [h] at hnext
    cases hnext
    exact orAbandon_of_error rfl
  · next hnext => simp [hnext] at h

theorem addAll_of_item {sync : Bool} {e : Entry} (h : (p.on d).next s = (some (.ok e), s')) :
    w.addAll p sync s d = (do
      let w ← w.orAbandon (w.add e)
      w.addAll p sync s' : DiskM StoreError Nat) d := by
  rw [addAll.eq_def]
  split
  · next hnext => simp [hnext] at h
  · next hnext => simp [hnext] at h
  · next found _ hnext =>
    rw [h] at hnext
    cases hnext
    rfl

/-- A writer takes a whole stream, whatever else it does to its file while it goes through it, up to
the first fault of the stream. -/
theorem Wrote.addAll {items : List Item}
    (hgives : Pull.Gives (fun i : { d : Disk // P d } => p.on i.1) s items)
    (h : w.Wrote d blocks current)
    (hsmall : w.blockSize ≤ UInt32.size → w.block.size < UInt32.size) (hP : P d)
    (hkeep : ∀ {a b : Disk}, P a → Writes w.handle.file a b → P b) (sync : Bool) :
    (∃ entries d', w.addAll p sync s d =
          (.ok (blocks.flatten ++ current ++ entries).length, d') ∧
        Writes w.handle.file d d' ∧ items = entries.map .ok ∧
        IsWritten w.blockSize (d'.file w.handle.file).content
          (blocks.flatten ++ current ++ entries)) ∨
      ∃ e d', w.addAll p sync s d = (.error e, d') ∧ Writes w.handle.file d d' ∧
        (d.Struck d' ∨ firstFault w.path w.lastKey items = some e) := by
  -- by induction on what the stream gives; the disk of each step is one of the family
  induction hgives generalizing w d blocks current with
  | done hnone =>
    rw [addAll_of_done (hnone ⟨d, hP⟩)]
    rcases h.finish sync with ⟨d', hfinish, hwrites, himage⟩ | ⟨e, d', hfinish, hwrites, hs⟩
    · refine .inl ⟨[], d', ?_, hwrites, rfl, ?_⟩
      · rw [List.append_nil]
        exact orAbandon_of_ok hfinish
      · rw [List.append_nil]
        exact himage
    · have habandon := writes_abandon w d'
      exact .inr ⟨e, _, orAbandon_of_error hfinish, hwrites.trans habandon,
        .inl (hs.later habandon.evolves)⟩
  | @item s s' item items hsome hrest ih =>
    have hnext := hsome ⟨d, hP⟩
    cases item with
    | error e => exact .inr ⟨e, _, addAll_of_error hnext, writes_abandon w d, .inr rfl⟩
    | ok e =>
      rw [addAll_of_item hnext, firstFault]
      cases hrefusal : refusal w.path w.lastKey e with
      | some cause =>
        exact .inr ⟨cause, _, DiskM.bind_of_error (orAbandon_of_error (add_of_refused hrefusal)),
          writes_abandon w d, .inr rfl⟩
      | none =>
        rw [Option.none_or]
        rw [h.lastKey, refusal_eq_none_iff] at hrefusal
        rcases h.add hsmall hrefusal with ⟨w', d', blocks', current', hadd, hwrites, hwrote, hall,
          hsmall', hcontinues⟩ | ⟨err, d', hadd, hwrites, hs⟩
        swap
        · have habandon := writes_abandon w d'
          exact .inr ⟨err, _, DiskM.bind_of_error (orAbandon_of_error hadd),
            hwrites.trans habandon, .inl (hs.later habandon.evolves)⟩
        rw [DiskM.bind_of_ok (orAbandon_of_ok hadd)]
        have hfile := hcontinues.file
        have hlast : w'.lastKey = some e.key := by
          rw [hwrote.lastKey, hall, List.getLast?_concat]
          rfl
        rcases ih hwrote hsmall' (hkeep hP hwrites) (hfile ▸ hkeep) with
          ⟨entries, d'', heq, hwrites', hitems, himage⟩ | ⟨err, d'', heq, hwrites', hwhy⟩
        · rw [hfile] at hwrites' himage
          rw [hcontinues.blockSize] at himage
          rw [hall, List.append_assoc, List.singleton_append] at heq himage
          exact .inl ⟨e :: entries, d'', heq, hwrites.trans hwrites', by rw [hitems]; rfl, himage⟩
        · rw [hfile] at hwrites'
          rw [hcontinues.path, hlast] at hwhy
          exact .inr ⟨err, d'', heq, hwrites.trans hwrites',
            hwhy.imp (fun hs => hs.earlier hwrites.evolves) id⟩

end RunWriter

/-- Writing a stream as a run: either its file is there and holds what the stream gave, or the
file was given up for a fault of the disk or for the first fault of the stream, and then it was
removed. In between nothing else was touched. -/
theorem writeRunFrom_outcome {d : Disk} {dir place : Path} {name : String} (hfolder : d.FolderAt dir place)
    (hname : dir.Admits name) (hsound : d.Sound) (hfree : d.node? (place ++ [name]) ≠ some .folder)
    {σ : Type} {p : Feed σ} {s : σ} {items : List Item}
    (hgives : Pull.Gives (fun i : { d' : Disk // ChangesAt (place ++ [name]) d d' } => p.on i.1)
      s items) (blockSize : Nat) (sync : Bool) :
    (∃ entries d' id, writeRunFrom (dir.child name) p s blockSize sync d =
          (.ok entries.length, d') ∧ ChangesAt (place ++ [name]) d d' ∧
        items = entries.map .ok ∧ d'.node? (place ++ [name]) = some (.file id) ∧
        RunWriter.IsWritten blockSize (d'.file id).content entries) ∨
      ∃ e d' d'', writeRunFrom (dir.child name) p s blockSize sync d = (.error e, d'') ∧
        ChangesAt (place ++ [name]) d d' ∧ (remove (dir.child name) d').2 = d'' ∧
        d'.node? (place ++ [name]) ≠ some .folder ∧
        (d.Struck d' ∨ RunWriter.firstFault (dir.child name) none items = some e) := by
  rw [writeRunFrom]
  rcases hfolder.create_child hname hsound with
    ⟨handle, d₁, hcreate, hchanges, hnode, hposition, hempty, -⟩ | ⟨e, d₁, hcreate, hstill, hwhy⟩
  swap
  · refine .inr ⟨.write "run file" e, d₁, _, ?_, hstill.changesAt _, rfl, ?_, ?_⟩
    · have hcreate' : RunWriter.create (dir.child name) blockSize d =
          (.error (.write "run file" e), d₁) :=
        DiskM.bind_of_error (DiskM.writing_of_error _ hcreate)
      rw [DiskM.tryCatch_of_error (DiskM.bind_of_error hcreate')]
      rfl
    · rw [hstill.node?]
      exact hfree
    · rcases hwhy with hs | hfull
      · exact .inl hs
      · exact absurd hfull hfree
  have hlt : handle.file < d₁.files.size := (hchanges.sound hsound).lt_size hnode
  have hwrote : RunWriter.Wrote ⟨dir.child name, handle, .empty, [], {}, none, none, 0,
      max blockSize 1, 0⟩ d₁ [] [] := .new hlt hposition hempty
  have hkeep {a b : Disk} (ha : ChangesAt (place ++ [name]) d a ∧
      a.node? (place ++ [name]) = some (.file handle.file)) (hab : Writes handle.file a b) :
      ChangesAt (place ++ [name]) d b ∧ b.node? (place ++ [name]) = some (.file handle.file) :=
    ⟨ha.1.trans (hab.changesAt ha.2), by rw [hab.node?, ha.2]⟩
  have hgives' := hgives.comap fun i : { a : Disk // ChangesAt (place ++ [name]) d a ∧
    a.node? (place ++ [name]) = some (.file handle.file) } => ⟨i.1, i.2.1⟩
  have hcreate' : RunWriter.create (dir.child name) blockSize d = (.ok ⟨dir.child name, handle,
      .empty, [], {}, none, none, 0, max blockSize 1, 0⟩, d₁) :=
    DiskM.bind_of_ok (DiskM.writing_of_ok _ hcreate)
  rcases hwrote.addAll hgives' (fun _ => show 0 < UInt32.size by decide) ⟨hchanges, hnode⟩ hkeep
      sync with
    ⟨entries, d₂, hadd, hwrites, hitems, himage⟩ | ⟨e, d₂, hadd, hwrites, hwhy⟩
  · refine .inl ⟨entries, d₂, handle.file, ?_, hchanges.trans (hwrites.changesAt hnode), hitems, ?_,
      RunWriter.IsWritten.of_max himage⟩
    · exact DiskM.tryCatch_of_ok ((DiskM.bind_of_ok hcreate').trans hadd)
    · rw [hwrites.node?, hnode]
  · refine .inr ⟨e, d₂, _, ?_, hchanges.trans (hwrites.changesAt hnode), rfl, ?_, ?_⟩
    · rw [DiskM.tryCatch_of_error ((DiskM.bind_of_ok hcreate').trans hadd)]
      rfl
    · rw [hwrites.node?, hnode]
      simp
    · exact hwhy.imp (fun hs => hs.earlier hchanges.toEvolves) id

/-- Where the offsets in a block reach as far as its size, what was written can be read. -/
theorem writeRunFrom_spec {d : Disk} {dir place : Path} {name : String} (hfolder : d.FolderAt dir place)
    (hname : dir.Admits name) (hsound : d.Sound) (hfree : d.node? (place ++ [name]) ≠ some .folder)
    {σ : Type} {p : Feed σ} {s : σ} {items : List Item}
    (hgives : Pull.Gives (fun i : { d' : Disk // ChangesAt (place ++ [name]) d d' } => p.on i.1)
      s items) {blockSize : Nat} (hblock : blockSize ≤ UInt32.size) (sync : Bool) :
    (∃ entries d' id, writeRunFrom (dir.child name) p s blockSize sync d =
          (.ok entries.length, d') ∧ ChangesAt (place ++ [name]) d d' ∧
        items = entries.map .ok ∧ d'.node? (place ++ [name]) = some (.file id) ∧
        IsImage (d'.file id).content entries) ∨
      ∃ e d' d'', writeRunFrom (dir.child name) p s blockSize sync d = (.error e, d'') ∧
        ChangesAt (place ++ [name]) d d' ∧ (remove (dir.child name) d').2 = d'' ∧
        d'.node? (place ++ [name]) ≠ some .folder ∧
        (d.Struck d' ∨ ¬ ∃ entries : List Entry, items = entries.map .ok ∧
          Ascending bytewise entries ∧ ∀ e ∈ entries, e.Storable) := by
  rcases writeRunFrom_outcome hfolder hname hsound hfree hgives blockSize sync with
    ⟨entries, d', id, hwrite, hchanges, hitems, hnode, hwritten⟩ |
      ⟨e, d', d'', hwrite, hchanges, hremove, hnotFolder, hwhy⟩
  · exact .inl ⟨entries, d', id, hwrite, hchanges, hitems, hnode, hwritten.isImage hblock⟩
  · refine .inr ⟨e, d', d'', hwrite, hchanges, hremove, hnotFolder, hwhy.imp id fun hfault => ?_⟩
    exact RunWriter.not_exists_of_fault hfault

/-- No run is written under the name of a folder. -/
theorem writeRunFrom_of_folder {d : Disk} {dir place : Path} {name : String}
    (hfolder : d.FolderAt dir place) (hname : dir.Admits name) (hsound : d.Sound)
    (hfull : d.node? (place ++ [name]) = some .folder) {σ : Type} (p : Feed σ) (s : σ)
    (blockSize : Nat) (sync : Bool) :
    ∃ e d', writeRunFrom (dir.child name) p s blockSize sync d = (.error e, d') := by
  rcases hfolder.create_child hname hsound with ⟨_, _, -, -, -, -, -, hfree⟩ | ⟨e, d₁, hcreate, -⟩
  · exact absurd hfull hfree
  · have hcreate' : RunWriter.create (dir.child name) blockSize d =
        (.error (.write "run file" e), d₁) :=
      DiskM.bind_of_error (DiskM.writing_of_error _ hcreate)
    rw [writeRunFrom, DiskM.tryCatch_of_error (DiskM.bind_of_error hcreate')]
    exact ⟨_, _, rfl⟩

end LayeredStore
