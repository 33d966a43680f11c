import LayeredStore.Proofs.ChecksumBursts
import LayeredStore.Proofs.CrashSafety
import LayeredStore.Proofs.LockFrames

/-!
# Runs with a damaged index

A run carries a checksum of its index, and a number by which runs are known. Where a few bytes of
the index are damaged, or the checksum itself, the run is not opened for its checksum; where the
number is damaged, for the number (`index_damage_detected`). This holds of a run at any path: a file
can only be made under an admissible name in a folder (`Disk.exists_folderAt_of_create`).
-/

namespace LayeredStore

open Disk

/-! ## Changes of a few bytes -/

namespace Bytes

/-- Two strings of one length are the same but for some bytes from a position on. -/
def AgreeOutside (first count : Nat) (old new : Bytes) : Prop :=
  new.length = old.length ∧ new.take first = old.take first ∧
    new.drop (first + count) = old.drop (first + count)

instance (first count : Nat) (old new : Bytes) : Decidable (AgreeOutside first count old new) :=
  inferInstanceAs (Decidable (_ ∧ _ ∧ _))

/-- Only what lies there is exchanged. -/
theorem AgreeOutside.exists_middle {front middle rest new : Bytes}
    (h : AgreeOutside front.length middle.length (front ++ (middle ++ rest)) new) :
    ∃ middle' : Bytes, new = front ++ (middle' ++ rest) ∧ middle'.length = middle.length := by
  obtain ⟨hlength, hfront, hrest⟩ := h
  rw [List.take_left] at hfront
  rw [← List.append_assoc, ← List.length_append, List.drop_left, List.length_append] at hrest
  refine ⟨(new.drop front.length).take middle.length, ?_, ?_⟩
  · rw [← hrest, ← List.drop_drop, List.take_append_drop]
    exact (List.take_append_drop front.length new).symm.trans (by rw [hfront])
  · simp only [List.length_append] at hlength
    rw [List.length_take, List.length_drop]
    omega

end Bytes

/-! ## Runs at any path -/

namespace Path

/-- A slash in the place of the last name does not make a path too long. -/
theorem check_slash {front : Path} {name : String} (h : check (front ++ [name]) = .ok ()) :
    check (front ++ [""]) = .ok () := by
  have hbytes : (text (front ++ [""])).utf8ByteSize ≤ (text (front ++ [name])).utf8ByteSize := by
    cases front with
    | nil => exact Nat.zero_le _
    | cons outer front =>
      simp only [text]
      rw [String.intercalate_append_of_ne_nil (by simp) (by simp),
        String.intercalate_append_of_ne_nil (by simp) (by simp)]
      simp only [String.utf8ByteSize_append, String.intercalate_singleton]
      exact Nat.add_le_add_left (Nat.zero_le _) _
  unfold check at h ⊢
  split at h
  · cases h
  · next hnul =>
    split at h
    · cases h
    · next hlong =>
      rw [if_neg, if_neg]
      · omega
      · simp only [List.any_append, Bool.or_eq_true, not_or] at hnul ⊢
        exact ⟨hnul.1, by decide⟩

end Path

namespace Disk

variable {d d' : Disk}

/-- A path at which a file can be made leads to an admissible name in a folder. -/
theorem exists_folderAt_of_fileSlot {p : Path} {slot : Slot} {file : Option Nat}
    (h : d.fileSlot p = .ok (slot, file)) :
    ∃ dir : Path, p = dir.child slot.name ∧ d.FolderAt dir slot.folder ∧ dir.Admits slot.name := by
  obtain ⟨hslot, hbare, hin⟩ := slot_of_fileSlot h
  obtain ⟨hcheck, front, hfront, hfollow, hmoves, hinward, hslashed⟩ := slot_eq_ok hslot
  have hp : p = front ++ [slot.name] := by
    obtain ⟨slashes, -, hp⟩ := p.withoutSlashes_append
    rw [hbare, eq_comm, decide_eq_false_iff_not] at hslashed
    have hnone : slashes = [] := by
      have hlength := congrArg List.length hp
      rw [List.length_append] at hlength
      exact List.eq_nil_of_length_eq_zero (by omega)
    rw [hp, hnone, List.append_nil, hfront]
  have hchild : p = Path.child (front ++ [""]) slot.name := by
    rw [hp, Path.child, if_pos (by simp), List.dropLast_concat]
  have hshort : slot.name.utf8ByteSize ≤ Path.nameLimit := by
    by_contra hlong
    rw [inSlot, if_pos (Nat.not_le.mp hlong)] at hin
    cases hin
  refine ⟨front ++ [""], hchild, folderAt_iff.mpr ⟨Path.check_slash (hp ▸ hcheck), ?_⟩, hmoves,
    hinward, hshort, hchild ▸ hcheck⟩
  rw [follow_append, hfollow]
  exact follow_slashes (by simp) (node?_of_follow hfollow)

theorem exists_folderAt_of_create {p : Path} {handle : Handle} (h : create p d = (.ok handle, d')) :
    ∃ (dir place : Path) (name : String), p = dir.child name ∧ d.FolderAt dir place ∧
      dir.Admits name ∧ d.node? (place ++ [name]) ≠ some .folder := by
  have hact := act_of_operate h
  cases hslot : d.ticked.fileSlot p with
  | error e => simp [hslot, bind, Except.bind] at hact
  | ok found =>
    obtain ⟨slot, file⟩ := found
    obtain ⟨dir, hp, hfolder, hname⟩ := exists_folderAt_of_fileSlot hslot
    obtain ⟨-, -, hin⟩ := slot_of_fileSlot hslot
    have hnode : d.node? (slot.folder ++ [slot.name]) = file.map Node.file := node?_of_inSlot hin
    refine ⟨dir, slot.folder, slot.name, hp, folderAt_iff.mpr ⟨hfolder.check, ?_⟩, hname, ?_⟩
    · have hfolders {q : Path} (hq : d.ticked.node? q = some .folder) :
          d.node? q = some .folder := hq
      exact follow_mono hfolders hfolder.follow
    rw [hnode]
    cases file <;> simp

/-- The disk on which a file has another content. -/
def replaced (d : Disk) (file : Nat) (content : Bytes) : Disk :=
  d.alter file fun f => { f with data := content.toArray }

theorem content_replaced {file : Nat} (h : file < d.files.size) (content : Bytes) :
    ((d.replaced file content).file file).content = content := by
  rw [replaced, file_alter_self d h, File.content]

end Disk

/-! ## Opening a damaged run -/

/-- How the run at a path opens when its file has another content. -/
def RunFile.openReplaced (d : Disk) (path : Path) (file : Nat) (content : Bytes) :
    Except StoreError RunFile :=
  (RunFile.openAt path ((d.replaced file content).startedWith noFaults)).1

theorem Disk.FolderAt.openReplaced_child {d : Disk} {dir place : Path} {name : String} {file : Nat}
    (hfolder : d.FolderAt dir place) (hname : dir.Admits name) (hsound : d.Sound)
    (hnode : d.node? (place ++ [name]) = some (.file file)) (content : Bytes) :
    RunFile.openReplaced d (dir.child name) file content =
      RunFile.parse (dir.child name) file content := by
  have hchanges : ChangesAt (place ++ [name]) d (d.replaced file content) := changesAt_alter hnode _
  have hfolder' := (hfolder.evolves hchanges.toEvolves).startedWith noFaults
  rw [RunFile.openReplaced]
  rcases openAt_child hfolder' hname hnode with hopen | ⟨e, -, hs⟩
  · rw [hopen, file_startedWith, content_replaced (hsound.lt_size hnode)]
  · exact absurd hs (faultless_startedWith _).not_struck

namespace RunFile

/-- The error for a number that is not that of runs. -/
def badMagic (path : Path) (magic : Bytes) : StoreError :=
  .corrupt s!"{path.text} has a bad magic number {hex8 (Bytes.toNat magic)}"

variable {body stored sum magic : Bytes} {count : Nat}

/-- A run is not opened if the stored checksum is not that of its index. -/
theorem parse_of_sum_ne (hbody : body.length < 256 ^ 8) (hcount : count < 256 ^ 8)
    (hlength : sum.length = 4) (hsum : (checksum stored).toNat ≠ Bytes.toNat sum) (path : Path)
    (fileId : Nat) :
    RunFile.parse path fileId (body ++ (stored ++ (Bytes.ofNat 8 body.length ++ Bytes.ofNat 8 count ++
      sum ++ Bytes.ofNat 4 runMagic))) = .error .checksumMismatch := by
  rw [parse_fields hbody hcount hlength (Bytes.length_ofNat 4 _), if_neg, if_pos hsum]
  rw [Bytes.toNat_ofNat (by decide), ne_eq, not_not]

/-- A run is not opened if it ends in another number. -/
theorem parse_of_magic_ne (hbody : body.length < 256 ^ 8) (hcount : count < 256 ^ 8)
    (hsum : sum.length = 4) (hlength : magic.length = 4) (hmagic : Bytes.toNat magic ≠ runMagic)
    (path : Path) (fileId : Nat) :
    RunFile.parse path fileId (body ++ (stored ++ (Bytes.ofNat 8 body.length ++ Bytes.ofNat 8 count ++
      sum ++ magic))) = .error (badMagic path magic) := by
  rw [parse_fields hbody hcount hsum hlength, if_pos hmagic, badMagic]

variable {damaged : Bytes} {first length : Nat}

/-- A few bytes of the index are changed. -/
theorem parse_of_index_damaged (hbody : body.length < 256 ^ 8) (hcount : count < 256 ^ 8)
    (hne : damaged ≠ body ++ (stored ++ RunWriter.footer body.length count stored))
    (hfirst : body.length ≤ first) (hlast : first + length ≤ body.length + stored.length)
    (hshort : length ≤ 4)
    (hagree : Bytes.AgreeOutside first length
      (body ++ (stored ++ RunWriter.footer body.length count stored)) damaged)
    (path : Path) (fileId : Nat) :
    RunFile.parse path fileId damaged = .error .checksumMismatch := by
  -- the index is cut before and behind the bytes that are changed
  obtain ⟨front, old, rest, rfl, hfront, hold⟩ : ∃ front old rest : Bytes,
      stored = front ++ (old ++ rest) ∧ body.length + front.length = first ∧
        old.length = length := by
    refine ⟨stored.take (first - body.length), (stored.drop (first - body.length)).take length,
      (stored.drop (first - body.length)).drop length, ?_, ?_, ?_⟩
    · rw [List.take_append_drop, List.take_append_drop]
    · rw [List.length_take]
      omega
    · rw [List.length_take, List.length_drop]
      omega
  generalize hfooter : RunWriter.footer body.length count (front ++ (old ++ rest)) = footer at *
  have hcontent (middle : Bytes) : body ++ (front ++ (middle ++ rest) ++ footer) =
      (body ++ front) ++ (middle ++ (rest ++ footer)) := by
    simp only [List.append_assoc]
  rw [hcontent] at hne hagree
  rw [← hfront, ← hold, ← List.length_append] at hagree
  obtain ⟨new, rfl, hnew⟩ := hagree.exists_middle
  have hchanged : new ≠ old := fun heq => hne (by rw [heq])
  rw [← hcontent, ← hfooter, RunWriter.footer]
  refine parse_of_sum_ne hbody hcount (Bytes.length_ofNat 4 _) ?_ path fileId
  rw [Bytes.toNat_ofNat (UInt32.toNat_lt _)]
  exact fun heq => Checksum.checksum_ne hnew (by omega) hchanged (UInt32.toNat_inj.mp heq)

/-- The stored checksum is changed. -/
theorem parse_of_checksum_damaged (hbody : body.length < 256 ^ 8) (hcount : count < 256 ^ 8)
    {content : Bytes}
    (hcontent : content = body ++ (stored ++ RunWriter.footer body.length count stored))
    (hne : damaged ≠ content) (hagree : Bytes.AgreeOutside (content.length - 8) 4 content damaged)
    (path : Path) (fileId : Nat) :
    RunFile.parse path fileId damaged = .error .checksumMismatch := by
  generalize hold : Bytes.ofNat 4 (checksum stored).toNat = old at hcontent
  have hlength : old.length = 4 := hold ▸ Bytes.length_ofNat 4 _
  generalize hfront : body ++ (stored ++ (Bytes.ofNat 8 body.length ++ Bytes.ofNat 8 count)) = front
  have hsplit : content = front ++ (old ++ Bytes.ofNat 4 runMagic) := by
    rw [hcontent, RunWriter.footer, hold, ← hfront]
    simp only [List.append_assoc]
  have hfirst : content.length - 8 = front.length := by
    rw [hsplit, List.length_append, List.length_append, hlength, Bytes.length_ofNat,
      Nat.add_sub_cancel]
  rw [hfirst, ← hlength, hsplit] at hagree
  obtain ⟨new, rfl, hnew⟩ := hagree.exists_middle
  have hchanged : new ≠ old := fun heq => hne (by rw [heq, hsplit])
  have hsum : (checksum stored).toNat ≠ Bytes.toNat new := by
    intro heq
    rw [← hold] at hnew hchanged
    exact hchanged (Bytes.toNat_inj hnew
      (heq.symm.trans (Bytes.toNat_ofNat (UInt32.toNat_lt _)).symm))
  rw [← parse_of_sum_ne hbody hcount (hnew.trans hlength) hsum path fileId, ← hfront]
  simp only [List.append_assoc]

/-- The number that ends the run is changed. -/
theorem parse_of_magic_damaged (hbody : body.length < 256 ^ 8) (hcount : count < 256 ^ 8)
    {content : Bytes}
    (hcontent : content = body ++ (stored ++ RunWriter.footer body.length count stored))
    (hne : damaged ≠ content) (hagree : Bytes.AgreeOutside (content.length - 4) 4 content damaged)
    (path : Path) (fileId : Nat) :
    RunFile.parse path fileId damaged =
      .error (badMagic path (damaged.drop (content.length - 4))) := by
  generalize hfront : body ++ (stored ++ (Bytes.ofNat 8 body.length ++ Bytes.ofNat 8 count ++
    Bytes.ofNat 4 (checksum stored).toNat)) = front
  have hsplit : content = front ++ (Bytes.ofNat 4 runMagic ++ []) := by
    rw [hcontent, RunWriter.footer, ← hfront]
    simp only [List.append_assoc, List.append_nil]
  have hlength : (Bytes.ofNat 4 runMagic).length = 4 := Bytes.length_ofNat 4 _
  have hfirst : content.length - 4 = front.length := by
    rw [hsplit, List.append_nil, List.length_append, hlength, Nat.add_sub_cancel]
  rw [hfirst] at hagree ⊢
  rw [← hlength, hsplit] at hagree
  obtain ⟨new, rfl, hnew⟩ := hagree.exists_middle
  have hchanged : Bytes.toNat new ≠ runMagic := by
    intro heq
    refine hne ?_
    rw [hsplit, Bytes.toNat_inj hnew (heq.trans (Bytes.toNat_ofNat (by decide)).symm)]
  have hparse : RunFile.parse path fileId (body ++ (stored ++ (Bytes.ofNat 8 body.length ++
      Bytes.ofNat 8 count ++ Bytes.ofNat 4 (checksum stored).toNat ++ new))) = _ :=
    parse_of_magic_ne hbody hcount (Bytes.length_ofNat 4 _) (hnew.trans hlength) hchanged
      path fileId
  rw [List.append_nil, List.drop_left, ← hparse, ← hfront]
  simp only [List.append_assoc]

end RunFile

theorem exists_create_of_writeRun {d d₁ : Disk} {path : Path} {items : List Item}
    {blockSize count : Nat} {sync : Bool}
    (h : writeRun path items blockSize sync d = (.ok count, d₁)) :
    ∃ handle d₀, create path d = (.ok handle, d₀) := by
  cases hcreate : create path d with
  | mk outcome d₀ =>
    cases outcome with
    | ok handle => exact ⟨handle, d₀, rfl⟩
    | error e =>
      have hwriter : RunWriter.create path blockSize d = (.error (.write "run file" e), d₀) :=
        DiskM.bind_of_error (DiskM.writing_of_error _ hcreate)
      rw [writeRun, writeRunFrom, DiskM.tryCatch_of_error (DiskM.bind_of_error hwriter)] at h
      cases h

/-- Whatever was written as a run, wherever and in blocks of whichever size, its path leads to a
file that ends in the index of its blocks and a footer. If that is changed within four consecutive
bytes of the index, or in the stored checksum, the run does not open for its checksum; if it is
changed in the number that ends it, the run does not open for that number. -/
theorem index_damage_detected {d d₁ : Disk} (hsound : d.Sound) {path : Path} {items : List Item}
    {blockSize count : Nat} {sync : Bool}
    (hwrite : writeRun path items blockSize sync d = (.ok count, d₁))
    (hsmall : ∀ file, (d₁.file file).content.length < positionLimit) :
    ∃ place file content, d₁.locate path = .ok (place, .file file) ∧
      (d₁.file file).content = content ∧
      ∃ (body : Bytes) (index : Index), content =
          body ++ (index.encode ++ RunWriter.footer body.length count index.encode) ∧
        ∀ damaged, damaged ≠ content →
          (∀ first length, body.length ≤ first →
            first + length ≤ body.length + index.encode.length → length ≤ 4 →
            Bytes.AgreeOutside first length content damaged →
              RunFile.openReplaced d₁ path file damaged = .error .checksumMismatch) ∧
          (Bytes.AgreeOutside (content.length - 8) 4 content damaged →
            RunFile.openReplaced d₁ path file damaged = .error .checksumMismatch) ∧
          (Bytes.AgreeOutside (content.length - 4) 4 content damaged →
            RunFile.openReplaced d₁ path file damaged =
              .error (RunFile.badMagic path (damaged.drop (content.length - 4)))) := by
  -- only a path to an admissible name in a folder can be written to
  obtain ⟨handle, d₀, hcreate⟩ := exists_create_of_writeRun hwrite
  obtain ⟨dir, place, name, rfl, hfolder, hname, hfree⟩ := exists_folderAt_of_create hcreate
  have hgives : Pull.Gives (fun i : { d' : Disk // ChangesAt (place ++ [name]) d d' } =>
      Feed.items.on i.1) items items := Pull.gives_items _
  rcases writeRunFrom_outcome hfolder hname hsound hfree hgives blockSize sync with
    ⟨entries, d', file, hwrote, hchanges, -, hnode, hwritten⟩ | ⟨e, d', d'', hwrote, -⟩
  swap
  · rw [writeRun, hwrote] at hwrite
    cases hwrite
  rw [writeRun, hwrote] at hwrite
  cases hwrite
  obtain ⟨blocks, -, -, -, -, rfl, hcontent⟩ := hwritten
  have hsound' := hchanges.sound hsound
  have hfolder' := hfolder.evolves hchanges.toEvolves
  have hshort := hsmall file
  rw [hcontent, RunImage.bytes, List.length_append] at hshort
  have hlimit : positionLimit ≤ 256 ^ 8 := by decide
  have hbody : (RunImage.body blocks).length < 256 ^ 8 := by omega
  have hcount := (RunImage.length_flatten_le_body blocks).trans_lt hbody
  refine ⟨place ++ [name], file, _, ?_, rfl, RunImage.body blocks, RunImage.indexFrom 0 blocks,
    hcontent, fun damaged hne => ?_⟩
  · rw [hfolder'.locate_child hname, hnode]
  · rw [hfolder'.openReplaced_child hname hsound' hnode]
    refine ⟨fun first length hfirst hlast hlength hagree => ?_, fun hagree => ?_, fun hagree => ?_⟩
    · rw [hcontent] at hne hagree
      exact RunFile.parse_of_index_damaged hbody hcount hne hfirst hlast hlength hagree _ _
    · exact RunFile.parse_of_checksum_damaged hbody hcount hcontent hne hagree _ _
    · exact RunFile.parse_of_magic_damaged hbody hcount hcontent hne hagree _ _

/-- A folder with a run of two blocks. -/
def runOfTwoBlocks : Disk :=
  (writeRun ["db", "00000001.sst"] [.ok (.put [1] [10]), .ok (.tombstone [2])] 1 false
    (Disk.empty.put ["db"] .folder)).2

/-- The content of its file with one byte exchanged. -/
def oneByteChanged (place : Nat) (byte : UInt8) : Bytes :=
  (runOfTwoBlocks.file 0).content.set place byte

/-- The sixth byte of the index is exchanged, the first one of its checksum, and the last one of
the run. -/
theorem runOfTwoBlocks_damaged :
    RunFile.openReplaced runOfTwoBlocks ["db", "00000001.sst"] 0 (oneByteChanged 40 9) =
        .error .checksumMismatch ∧
      RunFile.openReplaced runOfTwoBlocks ["db", "00000001.sst"] 0 (oneByteChanged 89 9) =
        .error .checksumMismatch ∧
      RunFile.openReplaced runOfTwoBlocks ["db", "00000001.sst"] 0 (oneByteChanged 96 9) =
        .error (RunFile.badMagic ["db", "00000001.sst"] [0x53, 0x54, 0x52, 9]) := by
  have hsound : (Disk.empty.put ["db"] .folder).Sound :=
    sound_empty.put (by decide) fun _ hid => by cases hid
  obtain ⟨hcount, hlocate, hsmall, hlength, hoffset⟩ :
      (writeRun ["db", "00000001.sst"] [.ok (.put [1] [10]), .ok (.tombstone [2])] 1 false
        (Disk.empty.put ["db"] .folder)).1 = .ok 2 ∧
      runOfTwoBlocks.locate ["db", "00000001.sst"] = .ok (["db", "00000001.sst"], .file 0) ∧
      (∀ id < runOfTwoBlocks.files.size, (runOfTwoBlocks.file id).content.length < positionLimit) ∧
      (runOfTwoBlocks.file 0).content.length = 97 ∧
      ((runOfTwoBlocks.file 0).content.drop 73).take 8 = Bytes.ofNat 8 35 := by decide +kernel
  have hwrite : writeRun ["db", "00000001.sst"] [.ok (.put [1] [10]), .ok (.tombstone [2])] 1 false
      (Disk.empty.put ["db"] .folder) = (.ok 2, runOfTwoBlocks) := by
    rw [runOfTwoBlocks, ← hcount, Prod.eta]
  obtain ⟨place, file, content, hthere, rfl, body, index, hlayout, hdamaged⟩ :=
    index_damage_detected hsound hwrite (lengths_iff.mpr hsmall)
  rw [hlocate] at hthere
  cases hthere
  -- the index begins where the footer says
  have hends := congrArg List.length hlayout
  simp only [hlength, List.length_append, RunImage.length_footer, footerLength] at hends
  have hbody : body.length = 35 := by
    rw [hlayout, ← List.append_assoc, List.drop_left' (by rw [List.length_append]; omega),
      RunWriter.footer] at hoffset
    simp only [List.append_assoc] at hoffset
    rw [List.take_left' (Bytes.length_ofNat 8 _)] at hoffset
    have hnumber := congrArg Bytes.toNat hoffset
    rwa [Bytes.toNat_ofNat (by omega), Bytes.toNat_ofNat (by decide)] at hnumber
  obtain ⟨hatIndex, -, -⟩ := hdamaged (oneByteChanged 40 9) (by decide +kernel)
  obtain ⟨-, hatSum, -⟩ := hdamaged (oneByteChanged 89 9) (by decide +kernel)
  obtain ⟨-, -, hatMagic⟩ := hdamaged (oneByteChanged 96 9) (by decide +kernel)
  have hlast : (oneByteChanged 96 9).drop ((runOfTwoBlocks.file 0).content.length - 4) =
    [0x53, 0x54, 0x52, 9] := by decide +kernel
  rw [hlast] at hatMagic
  exact ⟨hatIndex 40 1 (by omega) (by omega) (by decide) (by decide +kernel),
    hatSum (by decide +kernel), hatMagic (by decide +kernel)⟩

end LayeredStore
