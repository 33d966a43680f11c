import LayeredStore.Run.File
import LayeredStore.Proofs.BlockSeek
import LayeredStore.Proofs.IndexCodec
import LayeredStore.Proofs.IndexLookup
import Mathlib.Data.List.Flatten

/-!
# The content of a run file

`RunImage.bytes blocks` is the content of the run file whose blocks hold these entries, and
`IsRun content entries` says that some content is that of a run of these entries: they ascend,
each can be stored, and each block can be read. `RunFile.parse` accepts such a content
(`RunFile.parse_bytes`).

A run that was opened reads as its entries for as long as its file stays as it is
(`RunFile.Reads`): a scan of a range gives the entries of the range (`Reads.gives_scan`).
-/

namespace LayeredStore

namespace RunImage

/-- The index of blocks that follow each other from a position on. -/
def indexFrom (offset : Nat) : List (List Entry) → Index
  | [] => []
  | block :: rest =>
    ⟨(block.head?.map Entry.key).getD [], offset, (Block.stored block).length⟩ ::
      indexFrom (offset + (Block.stored block).length) rest

/-- The stored blocks, one after the other. -/
def body (blocks : List (List Entry)) : Bytes := blocks.flatMap Block.stored

/-- The content of the run file with these blocks. -/
def bytes (blocks : List (List Entry)) : Bytes :=
  body blocks ++ (Index.encode (indexFrom 0 blocks) ++
    RunWriter.footer (body blocks).length blocks.flatten.length
      (Index.encode (indexFrom 0 blocks)))

/-- Blocks as a run has them. -/
structure Sound (blocks : List (List Entry)) : Prop where
  ascending : Ascending bytewise blocks.flatten
  storable : ∀ e ∈ blocks.flatten, e.Storable
  nonempty : ∀ block ∈ blocks, block ≠ []
  fits : ∀ block ∈ blocks, Block.Fits block

theorem sound_iff {blocks : List (List Entry)} : Sound blocks ↔
    Ascending bytewise blocks.flatten ∧ (∀ e ∈ blocks.flatten, e.Storable) ∧
      (∀ block ∈ blocks, block ≠ []) ∧ ∀ block ∈ blocks, Block.Fits block :=
  ⟨fun ⟨h₁, h₂, h₃, h₄⟩ => ⟨h₁, h₂, h₃, h₄⟩, fun ⟨h₁, h₂, h₃, h₄⟩ => ⟨h₁, h₂, h₃, h₄⟩⟩

instance (blocks : List (List Entry)) : Decidable (Sound blocks) := decidable_of_iff _ sound_iff.symm

theorem length_footer (offset count : Nat) (index : Bytes) :
    (RunWriter.footer offset count index).length = footerLength := by
  simp [RunWriter.footer, footerLength]

@[simp] theorem body_cons (block : List Entry) (rest : List (List Entry)) :
    body (block :: rest) = Block.stored block ++ body rest := rfl

theorem indexFrom_append (offset : Nat) (front rest : List (List Entry)) :
    indexFrom offset (front ++ rest) =
      indexFrom offset front ++ indexFrom (offset + (body front).length) rest := by
  induction front generalizing offset with
  | nil => rfl
  | cons block front ih =>
    rw [List.cons_append, indexFrom, indexFrom, ih, List.cons_append, body_cons,
      List.length_append, Nat.add_assoc]

theorem body_append (front rest : List (List Entry)) :
    body (front ++ rest) = body front ++ body rest := by
  simp [body]

theorem length_le_stored (block : List Entry) : block.length ≤ (Block.stored block).length := by
  have := Block.length_le_records 0 [] block
  simp only [Block.headerLength] at this
  simp only [Block.stored, List.length_append]
  omega

theorem length_flatten_le_body (blocks : List (List Entry)) :
    blocks.flatten.length ≤ (body blocks).length := by
  induction blocks with
  | nil => simp [body]
  | cons block rest ih =>
    have := length_le_stored block
    rw [List.flatten_cons, body_cons, List.length_append, List.length_append]
    omega

/-- Every index entry describes its block, which lies in the body where the entry says. -/
theorem describes (offset : Nat) {blocks : List (List Entry)} (h : ∀ block ∈ blocks, block ≠ []) :
    List.Forall₂ (fun ref block => ref.Heads block ∧ block ∈ blocks ∧
        ref.size = (Block.stored block).length ∧
        ∃ front rest, body blocks = front ++ (Block.stored block ++ rest) ∧
          ref.offset = offset + front.length)
      (indexFrom offset blocks) blocks := by
  induction blocks generalizing offset with
  | nil => exact .nil
  | cons block rest ih =>
    refine .cons ⟨?_, List.mem_cons_self, rfl, [], body rest, rfl, rfl⟩ ?_
    · cases block with
      | nil => exact absurd rfl (h [] List.mem_cons_self)
      | cons e block => rfl
    · refine (ih (offset + (Block.stored block).length)
        fun b hb => h b (List.mem_cons_of_mem _ hb)).imp fun ref b hb => ?_
      obtain ⟨hhead, hmem, hsize, front, tail, hbody, hoffset⟩ := hb
      refine ⟨hhead, List.mem_cons_of_mem _ hmem, hsize, Block.stored block ++ front, tail, ?_, ?_⟩
      · rw [body_cons, hbody, List.append_assoc]
      · rw [hoffset, List.length_append, Nat.add_assoc]

/-- The fields of the index entries are large enough. -/
theorem fits_of_mem_index {blocks : List (List Entry)} (h : Sound blocks)
    (hshort : (body blocks).length < Disk.positionLimit) :
    ∀ ref ∈ indexFrom 0 blocks, Index.RefFits ref := by
  intro ref href
  obtain ⟨i, hi, rfl⟩ := List.getElem_of_mem href
  have hall := describes 0 h.nonempty
  have hi' : i < blocks.length := hall.length_eq ▸ hi
  obtain ⟨hhead, hmem, hsize, front, rest, hbody, hoffset⟩ := List.Forall₂.get hall hi hi'
  simp only [List.get_eq_getElem] at hhead hsize hoffset hbody hmem
  have hlength := congrArg List.length hbody
  simp only [List.length_append] at hlength
  simp only [Disk.positionLimit, UInt64.size] at hshort
  simp only [BlockRef.Heads, Option.map_eq_some_iff] at hhead
  obtain ⟨e, he, hkey⟩ := hhead
  have hstorable := h.storable e (List.mem_flatten.mpr ⟨_, hmem, List.mem_of_head? he⟩)
  refine ⟨?_, by omega, by omega⟩
  have := hstorable.1
  rw [← hkey]
  simp only [Entry.maxKeyLength, UInt16.size] at this
  omega

end RunImage

/-- Some content is that of a run of these entries, whether or not a file can be that long. -/
def IsImage (content : Bytes) (entries : List Entry) : Prop :=
  ∃ blocks, RunImage.Sound blocks ∧ blocks.flatten = entries ∧ content = RunImage.bytes blocks

/-- Some content is that of a run of these entries. -/
def IsRun (content : Bytes) (entries : List Entry) : Prop :=
  IsImage content entries ∧ content.length < Disk.positionLimit

/-- How content is judged that ends in a footer. Of the last two fields of the footer it does not
matter what they hold. -/
theorem RunFile.parse_fields {body stored sum magic : Bytes} {count : Nat}
    (hbody : body.length < 256 ^ 8) (hcount : count < 256 ^ 8) (hsum : sum.length = 4)
    (hmagic : magic.length = 4) (path : Path) (fileId : Nat) :
    RunFile.parse path fileId (body ++ (stored ++
        (Bytes.ofNat 8 body.length ++ Bytes.ofNat 8 count ++ sum ++ magic))) =
      if Bytes.toNat magic ≠ runMagic then
        .error (.corrupt s!"{path.text} has a bad magic number {hex8 (Bytes.toNat magic)}")
      else if (checksum stored).toNat ≠ Bytes.toNat sum then .error .checksumMismatch
      else (Index.decode stored).map fun index => ⟨path, fileId, index, count⟩ := by
  have hsixteen : (Bytes.ofNat 8 body.length ++ Bytes.ofNat 8 count).length = 16 := by simp
  have htwenty : (Bytes.ofNat 8 body.length ++ Bytes.ofNat 8 count ++ sum).length = 20 := by
    rw [List.length_append, hsixteen, hsum]
  generalize hfields : Bytes.ofNat 8 body.length ++ Bytes.ofNat 8 count ++ sum ++ magic = fields
  have hfooter : fields.length = footerLength := by
    rw [← hfields, List.length_append, htwenty, hmagic, footerLength]
  have hlength : (body ++ (stored ++ fields)).length - footerLength = (body ++ stored).length := by
    simp only [List.length_append, hfooter]
    omega
  have hdrop : (body ++ (stored ++ fields)).drop (body ++ stored).length = fields := by
    rw [← List.append_assoc, List.drop_left]
  -- the fields of the footer
  have hoffset : Bytes.toNat (fields.take 8) = body.length := by
    rw [← hfields]
    simp only [List.append_assoc]
    rw [List.take_left' (Bytes.length_ofNat 8 _), Bytes.toNat_ofNat hbody]
  have hentries : Bytes.toNat ((fields.drop 8).take 8) = count := by
    rw [← hfields]
    simp only [List.append_assoc]
    rw [List.drop_left' (Bytes.length_ofNat 8 _), List.take_left' (Bytes.length_ofNat 8 _),
      Bytes.toNat_ofNat hcount]
  have hthird : (fields.drop 16).take 4 = sum := by
    rw [← hfields, List.append_assoc (_ ++ _), List.drop_left' hsixteen, List.take_left' hsum]
  have hlast : fields.drop 20 = magic := by
    rw [← hfields, List.drop_left' htwenty]
  have hstored : ((body ++ (stored ++ fields)).drop body.length).take
      ((body ++ stored).length - body.length) = stored := by
    rw [List.drop_left, List.length_append, Nat.add_sub_cancel_left, List.take_left]
  rw [RunFile.parse, if_neg (by simp only [List.length_append, hfooter]; omega)]
  simp only [hlength, hdrop, hoffset, hentries, hthird, hlast]
  rw [if_neg (show ¬(body ++ stored).length < body.length by rw [List.length_append]; omega)]
  simp only [hstored]

/-- The footer of a run is read back. -/
theorem RunFile.parse_bytes {blocks : List (List Entry)} (h : RunImage.Sound blocks)
    (hshort : (RunImage.bytes blocks).length < Disk.positionLimit) (path : Path) (fileId : Nat) :
    RunFile.parse path fileId (RunImage.bytes blocks) =
      .ok ⟨path, fileId, RunImage.indexFrom 0 blocks, blocks.flatten.length⟩ := by
  have hbodyShort : (RunImage.body blocks).length < Disk.positionLimit := by
    simp only [RunImage.bytes, List.length_append] at hshort
    omega
  have hdecode := Index.decode_encode (RunImage.fits_of_mem_index h hbodyShort)
  have hcount := RunImage.length_flatten_le_body blocks
  simp only [Disk.positionLimit, UInt64.size] at hbodyShort
  have hsum : (checksum (Index.encode (RunImage.indexFrom 0 blocks))).toNat < 256 ^ 4 :=
    UInt32.toNat_lt _
  rw [RunImage.bytes, RunWriter.footer, RunFile.parse_fields (by omega) (by omega)
    (Bytes.length_ofNat 4 _) (Bytes.length_ofNat 4 _), Bytes.toNat_ofNat (by decide),
    Bytes.toNat_ofNat hsum]
  simp only [ne_eq, not_true_eq_false, if_false, hdecode]
  rfl

/-! ## Reading the blocks -/

/-- The bytes at some place of a file are read. -/
theorem Disk.readAt_eq {d : Disk} {id : Nat} {front middle rest : Bytes}
    (h : (d.file id).content = front ++ (middle ++ rest))
    (hshort : (d.file id).content.length < Disk.positionLimit) :
    d.readAt id front.length middle.length = .ok middle := by
  have hlength := congrArg List.length h
  simp only [List.length_append] at hlength
  have hbuffer : middle.length < Disk.bufferLimit := (by omega : _ < Disk.positionLimit)
  unfold Disk.readAt
  rw [if_neg (Nat.not_le.mpr hbuffer)]
  by_cases hempty : middle.length = 0
  · rw [if_pos hempty, List.eq_nil_of_length_eq_zero hempty]
  · rw [if_neg hempty, if_neg (by omega)]
    have hextract : ((d.file id).data.extract front.length
        (front.length + middle.length)).toList = middle := by
      rw [Array.toList_extract, ← File.content, h, List.extract_eq_take_drop,
        List.drop_left, Nat.add_sub_cancel_left, List.take_left]
    have hsize : ((d.file id).data.extract front.length
        (front.length + middle.length)).size = middle.length := by
      rw [← Array.length_toList, hextract]
    simp only [hsize, if_true, hextract]

namespace RunFile

variable {ι : Type} {disks : ι → Disk} {run : RunFile} {entries : List Entry}

/-- On each of some disks, a block that the index describes can be loaded. -/
def Loads (disks : ι → Disk) (fileId : Nat) (ref : BlockRef) (block : List Entry) : Prop :=
  ref.Heads block ∧
    ∀ i, Cursor.load (disks i) fileId ref = .ok (Block.Cursor.start (Block.ofEntries block))

/-- On each of some disks, an opened run reads as some ascending entries. -/
structure Reads (disks : ι → Disk) (run : RunFile) (entries : List Entry) : Prop where
  ascending : Ascending bytewise entries
  storable : ∀ e ∈ entries, e.Storable
  blocks : ∃ blocks : List (List Entry), blocks.flatten = entries ∧
    List.Forall₂ (Loads disks run.fileId) run.index blocks

/-- A run whose content is that of a run of some entries opens, and reads as these entries on any
disk on which its file has this content. -/
theorem reads_of_isRun {content : Bytes} (h : IsRun content entries) (path : Path)
    (fileId : Nat) :
    ∃ run, RunFile.parse path fileId content = .ok run ∧ run.path = path ∧ run.fileId = fileId ∧
      run.count = entries.length ∧
      ∀ {ι : Type} (disks : ι → Disk), (∀ i, ((disks i).file fileId).content = content) →
        Reads disks run entries := by
  obtain ⟨⟨blocks, hsound, rfl, rfl⟩, hshort⟩ := h
  refine ⟨_, parse_bytes hsound hshort path fileId, rfl, rfl, rfl, fun disks hdisks =>
    ⟨hsound.ascending, hsound.storable, blocks, rfl, ?_⟩⟩
  refine (RunImage.describes 0 hsound.nonempty).imp fun ref block hb => ?_
  obtain ⟨hhead, hmem, hsize, front, rest, hbody, hoffset⟩ := hb
  refine ⟨hhead, fun i => ?_⟩
  have hcontent : ((disks i).file fileId).content = front ++ (Block.stored block ++ (rest ++ _)) :=
    (hdisks i).trans (by rw [RunImage.bytes, hbody, List.append_assoc, List.append_assoc])
  have hread := Disk.readAt_eq hcontent (by rw [hdisks i]; exact hshort)
  rw [Cursor.load, hsize, hoffset, Nat.zero_add, hread]
  simp only [Block.parse_stored (hsound.fits block hmem)]
  rfl

/-! ## Scans -/

theorem Cursor.next_of_some {d : Disk} {c : Cursor} {b b' : Block.Cursor} {item : Item}
    (hcurrent : c.current = some b) (hnext : b.next = (some item, b')) :
    c.next d = (some item, { c with current := some b' }) := by
  rw [Cursor.next.eq_def]
  simp only [hcurrent, Option.map_some, hnext]

/-- A scan has come to the end of its block, if it has begun one. -/
def Cursor.Spent (c : Cursor) : Prop := ∀ b, c.current = some b → b.next.1 = none

theorem Cursor.spent_iff {c : Cursor} : c.Spent ↔
    ∀ item b, c.current.map Block.Cursor.next = some (some item, b) → False := by
  constructor
  · intro h item b hnext
    obtain ⟨old, hold, hitem⟩ := Option.map_eq_some_iff.mp hnext
    have hnone := h old hold
    rw [hitem] at hnone
    cases hnone
  · intro h b hcurrent
    cases hnext : b.next with
    | mk answer b' =>
      cases answer with
      | none => rfl
      | some item => exact (h item b' (by rw [hcurrent, Option.map_some, hnext])).elim

/-- What comes next is then decided by the blocks that were not read yet. -/
theorem Cursor.next_of_spent {c : Cursor} (h : c.Spent) (d : Disk) :
    c.next d = match c.remaining with
      | [] => (none, { c with current := none })
      | block :: remaining =>
        match load d c.fileId block with
        | .error e => (some (.error e), { c with remaining := [], current := none })
        | .ok current => next d { c with remaining, current := some current } := by
  rw [next.eq_def]
  split
  · next hcurrent => exact (spent_iff.mp h _ _ hcurrent).elim
  · split
    · next hnil => rw [hnil]
    · next block remaining hcons =>
      cases hload : load d c.fileId block with
      | error e => simp only [hcons, hload]
      | ok current => simp only [hcons, hload]

/-- A cursor that has come to the end of its block goes on with the next one. -/
theorem Cursor.next_of_none {d : Disk} {c : Cursor} (h : c.Spent) {ref : BlockRef}
    {remaining : List BlockRef} (hremaining : c.remaining = ref :: remaining) {b : Block.Cursor}
    (hload : Cursor.load d c.fileId ref = .ok b) :
    c.next d = Cursor.next d { c with remaining, current := some b } := by
  rw [next_of_spent h, hremaining]
  simp only [hload]

theorem Cursor.next_of_error {d : Disk} {c : Cursor} (h : c.Spent) {ref : BlockRef}
    {remaining : List BlockRef} (hremaining : c.remaining = ref :: remaining) {e : StoreError}
    (hload : Cursor.load d c.fileId ref = .error e) :
    c.next d = (some (.error e), { c with remaining := [], current := none }) := by
  rw [next_of_spent h, hremaining]
  simp only [hload]

theorem Cursor.next_of_end {d : Disk} {c : Cursor} (h : c.Spent) (hremaining : c.remaining = []) :
    c.next d = (none, { c with current := none }) := by
  rw [next_of_spent h, hremaining]

theorem Cursor.gives_congr {c c' : Cursor} {items : List Item}
    (h : ∀ i, c.next (disks i) = c'.next (disks i))
    (hgives : Pull.Gives (fun i => Cursor.pull (disks i)) c' items) :
    Pull.Gives (fun i => Cursor.pull (disks i)) c items := by
  cases hgives with
  | done hnone => exact .done fun i => (congrArg Prod.fst (h i)).trans (hnone i)
  | item hsome rest => exact .item (fun i => (h i).trans (hsome i)) rest

/-- A cursor gives what is left of its block, and then the blocks that remain. -/
theorem Cursor.gives_blocks {fileId : Nat} {refs : List BlockRef} {blocks : List (List Entry)}
    (hloads : List.Forall₂ (Loads disks fileId) refs blocks)
    (hstorable : ∀ e ∈ blocks.flatten, e.Storable) {current : Option Block.Cursor}
    {front : List Entry}
    (hcurrent : (current = none ∧ front = []) ∨ ∃ b, current = some b ∧
      Pull.Gives (fun _ : Unit => Block.Cursor.pull) b (front.map .ok)) :
    Pull.Gives (fun i => Cursor.pull (disks i)) ⟨fileId, refs, current⟩
      ((front ++ blocks.flatten).map .ok) := by
  have hspent {refs : List BlockRef} {current : Option Block.Cursor}
      (h : (current = none ∧ ([] : List Entry) = []) ∨ ∃ b, current = some b ∧
        Pull.Gives (fun _ : Unit => Block.Cursor.pull) b (([] : List Entry).map .ok)) :
      Cursor.Spent ⟨fileId, refs, current⟩ := by
    intro b hb
    rcases h with ⟨hnone, -⟩ | ⟨b', hb', hgives⟩
    · simp [hnone] at hb
    · obtain rfl : b' = b := by simpa [hb'] using hb
      exact hgives.nil ()
  induction hloads generalizing current front with
  | nil =>
    rw [List.flatten_nil, List.append_nil]
    induction front generalizing current with
    | nil => exact .done fun i => congrArg Prod.fst (Cursor.next_of_end (hspent hcurrent) rfl)
    | cons e front ih =>
      rcases hcurrent with ⟨-, hnil⟩ | ⟨b, rfl, hgives⟩
      · simp at hnil
      · obtain ⟨b', hnext, hrest⟩ := hgives.tail
        exact .item (fun i => Cursor.next_of_some rfl (hnext ())) (ih (.inr ⟨b', rfl, hrest⟩))
  | @cons ref block refs blocks hload hrest ihblocks =>
    rw [List.flatten_cons] at hstorable ⊢
    induction front generalizing current with
    | nil =>
      have hblock : Pull.Gives (fun _ : Unit => Block.Cursor.pull)
          (Block.Cursor.start (Block.ofEntries block)) (block.map .ok) := by
        rw [Block.start_ofEntries]
        exact Block.gives_records _ (fun e he => hstorable e (List.mem_append_left _ he)) 0 []
      exact Cursor.gives_congr
        (fun i => Cursor.next_of_none (hspent hcurrent) rfl (hload.2 i))
        (ihblocks (fun e he => hstorable e (List.mem_append_right _ he)) (.inr ⟨_, rfl, hblock⟩))
    | cons e front ih =>
      rcases hcurrent with ⟨-, hnil⟩ | ⟨b, rfl, hgives⟩
      · simp at hnil
      · obtain ⟨b', hnext, htail⟩ := hgives.tail
        exact .item (fun i => Cursor.next_of_some rfl (hnext ())) (ih (.inr ⟨b', rfl, htail⟩))

/-- The entries that a seek passes over lie before the range. -/
theorem cut_filter_seek {range : KeyRange} {key : Bytes}
    (hlower : range.lower = .included key ∨ range.lower = .excluded key) (entries : List Entry) :
    range.cut (entries.filter fun e => bytewise e.key key != .lt) = range.cut entries := by
  rw [KeyRange.cut, KeyRange.cut, List.filter_filter]
  refine List.filter_congr fun e _ => ?_
  cases hk : bytewise e.key key with
  | lt => rcases hlower with h | h <;> simp [KeyRange.contains, KeyRange.isBefore, h, hk]
  | eq => simp
  | gt => simp

/-- A cursor can be moved to a key at the start of a scan without losing any entry of a range that
begins there. -/
theorem Cursor.gives_seek {fileId : Nat} {refs : List BlockRef} {blocks : List (List Entry)}
    (hloads : List.Forall₂ (Loads disks fileId) refs blocks)
    (hstorable : ∀ e ∈ blocks.flatten, e.Storable) (hasc : Ascending bytewise blocks.flatten)
    {range : KeyRange} {key : Bytes}
    (hlower : range.lower = .included key ∨ range.lower = .excluded key) :
    ∃ c, (∀ i, Cursor.seek (disks i) ⟨fileId, refs, none⟩ key = .ok c) ∧
      ∃ entries : List Entry, Pull.Gives (fun i => Cursor.pull (disks i)) c (entries.map .ok) ∧
        Ascending bytewise entries ∧ range.cut entries = range.cut blocks.flatten := by
  cases hloads with
  | nil =>
    exact ⟨_, fun _ => rfl, [], Cursor.gives_blocks .nil (by simp) (.inl ⟨rfl, rfl⟩), .nil, rfl⟩
  | @cons ref block refs blocks hload hrest =>
    rw [List.flatten_cons] at hstorable hasc ⊢
    obtain ⟨hblock, -, -⟩ := List.pairwise_append.mp hasc
    obtain ⟨c, hseek, hgives⟩ := Block.gives_seek (ι := Unit) (Block.ordered_of_ascending hblock)
      (fun e he => hstorable e (List.mem_append_left _ he))
      (c := Block.Cursor.start (Block.ofEntries block)) rfl key
    refine ⟨⟨fileId, refs, some c⟩, fun i => ?_, _,
      Cursor.gives_blocks hrest (fun e he => hstorable e (List.mem_append_right _ he))
        (.inr ⟨c, rfl, hgives⟩), ?_, ?_⟩
    · rw [Cursor.seek]
      simp only [hload.2 i, hseek]
    · exact List.Pairwise.sublist (List.Sublist.append_right (List.filter_sublist) _) hasc
    · rw [KeyRange.cut_append, cut_filter_seek hlower, ← KeyRange.cut_append]

/-- A scan of a range gives the entries of the range. -/
theorem Reads.gives_scan (h : Reads disks run entries) (range : KeyRange) :
    ∃ w, (∀ i, run.scan (disks i) range = .ok w) ∧
      Pull.Gives (fun i => RunFile.pull (disks i)) w ((range.cut entries).map .ok) := by
  obtain ⟨hasc, hstorable, blocks, rfl, hloads⟩ := h
  obtain ⟨first, last, hselect, hcut⟩ := Index.cut_flatten_select
    (hloads.imp fun _ _ hb => hb.1) hasc range
  have hslice := List.forall₂_drop first (List.forall₂_take last hloads)
  have hsub : ((blocks.take last).drop first).flatten.Sublist blocks.flatten :=
    List.Sublist.flatten ((List.drop_sublist _ _).trans (List.take_sublist _ _))
  have hstorable' : ∀ e ∈ ((blocks.take last).drop first).flatten, e.Storable :=
    fun e he => hstorable e (hsub.subset he)
  have hasc' := List.Pairwise.sublist hsub hasc
  -- the cut to the range of whatever the cursor gives is what is asked for
  have hwithin {c : Cursor} {entries : List Entry}
      (hgives : Pull.Gives (fun i => Cursor.pull (disks i)) c (entries.map .ok))
      (hentries : Ascending bytewise entries)
      (hsame : range.cut entries = range.cut ((blocks.take last).drop first).flatten) :
      Pull.Gives (fun i => RunFile.pull (disks i)) ⟨range, c, false⟩
        ((range.cut blocks.flatten).map .ok) := by
    rw [hcut, ← hsame]
    exact hgives.within range hentries
  cases hlower : range.lower with
  | unbounded =>
    refine ⟨⟨range, ⟨run.fileId, run.index.select range, none⟩, false⟩, fun i => ?_, ?_⟩
    · simp only [RunFile.scan, hlower]
      rfl
    · have hgives := Cursor.gives_blocks hslice hstorable' (.inl ⟨rfl, rfl⟩)
      rw [← hselect, List.nil_append] at hgives
      exact hwithin hgives hasc' rfl
  | included key =>
    obtain ⟨c, hseek, found, hgives, hfound, hsame⟩ :=
      Cursor.gives_seek hslice hstorable' hasc' (.inl hlower)
    refine ⟨⟨range, c, false⟩, fun i => ?_, hwithin hgives hfound hsame⟩
    simp only [RunFile.scan, hlower, hselect, hseek i]
    rfl
  | excluded key =>
    obtain ⟨c, hseek, found, hgives, hfound, hsame⟩ :=
      Cursor.gives_seek hslice hstorable' hasc' (.inr hlower)
    refine ⟨⟨range, c, false⟩, fun i => ?_, hwithin hgives hfound hsame⟩
    simp only [RunFile.scan, hlower, hselect, hseek i]
    rfl

end RunFile

end LayeredStore
