import LayeredStore.Proofs.DiskPrograms
import Mathlib.Data.List.Induction
import Mathlib.Data.List.TakeWhile

/-!
# Operations on the members of a folder

The store works on the members of one folder. `Disk.FolderAt d dir place` says that the path
`dir` leads to the folder at `place`, which stays so whatever the store does
(`FolderAt.evolves`), and `Path.Admits dir name` that a member of the folder can have this name.
For such a name the file operations depend on nothing but what is at `place ++ [name]`, and each
of them takes effect, is struck by a fault, or fails for what is there.

`Disk.ChangesAt place d d'` says that between two moments nothing changed but what is at one
place and the content of its file.
-/

namespace LayeredStore

namespace Path

/-- A member of a folder can have this name. -/
structure Admits (dir : Path) (name : String) : Prop where
  moves : staysPut name = false
  inward : name ≠ outward
  short : name.utf8ByteSize ≤ nameLimit
  check : (dir.child name).check = .ok ()

theorem Admits.ne_empty {dir : Path} {name : String} (h : dir.Admits name) : name ≠ "" := by
  intro hempty
  have := h.moves
  simp [staysPut, hempty] at this

theorem withoutSlashes_concat {front : Path} {name : String} (h : name ≠ "") :
    withoutSlashes (front ++ [name]) = front ++ [name] := by
  simp [withoutSlashes, h]

theorem withoutSlashes_append (p : Path) :
    ∃ slashes : List String, (∀ name ∈ slashes, name = "") ∧ p = p.withoutSlashes ++ slashes := by
  refine ⟨(p.reverse.takeWhile (· == "")).reverse, ?_, ?_⟩
  · intro name hname
    simpa using List.mem_takeWhile_imp (List.mem_reverse.mp hname)
  · rw [withoutSlashes, ← List.reverse_append, List.takeWhile_append_dropWhile, List.reverse_reverse]

/-- The place to which names lead from another one, if they lead anywhere. -/
def resolvedFrom (here : Path) : List String → Path
  | [] => here
  | name :: rest =>
    if staysPut name then resolvedFrom here rest
    else if name = outward then resolvedFrom here.dropLast rest
    else resolvedFrom (here ++ [name]) rest

/-- The place to which a path leads, if it leads anywhere. -/
def resolved (p : Path) : Path := resolvedFrom [] p

theorem resolvedFrom_append (here : Path) (front rest : List String) :
    resolvedFrom here (front ++ rest) = resolvedFrom (resolvedFrom here front) rest := by
  induction front generalizing here with
  | nil => rfl
  | cons name front ih =>
    rw [List.cons_append, resolvedFrom, resolvedFrom, ih, ih, ih]
    split
    · rfl
    · split <;> rfl

theorem resolved_concat {name : String} (hmoves : staysPut name = false) (hinward : name ≠ outward)
    (front : Path) : resolved (front ++ [name]) = front.resolved ++ [name] := by
  rw [resolved, resolvedFrom_append, resolvedFrom, if_neg (by simp [hmoves]), if_neg hinward]
  rfl

theorem resolvedFrom_slashes {slashes : List String} (h : ∀ name ∈ slashes, name = "") (here : Path) :
    resolvedFrom here slashes = here := by
  induction slashes with
  | nil => rfl
  | cons name rest ih =>
    rw [resolvedFrom, h name List.mem_cons_self, if_pos (by decide)]
    exact ih fun other hother => h other (List.mem_cons_of_mem _ hother)

theorem resolved_withoutSlashes (p : Path) : p.withoutSlashes.resolved = p.resolved := by
  obtain ⟨slashes, hslashes, hp⟩ := p.withoutSlashes_append
  have hsame := resolvedFrom_append [] p.withoutSlashes slashes
  rw [← hp, resolvedFrom_slashes hslashes] at hsame
  exact hsame.symm

theorem resolved_child {name : String} (hmoves : staysPut name = false) (hinward : name ≠ outward)
    (dir : Path) : (dir.child name).resolved = dir.resolved ++ [name] := by
  rw [child, resolved_concat hmoves hinward]
  split
  · next hslash =>
    have hsame := resolvedFrom_append [] dir.dropLast [""]
    rw [List.dropLast_append_getLast? _ hslash] at hsame
    exact congrArg (· ++ [name]) hsame.symm
  · rfl

end Path

namespace Disk

variable {d d' d'' : Disk} {dir place : Path} {name : String}

/-! ## Following a path -/

theorem follow_append (d : Disk) (here : Path) (front rest : List String) :
    d.follow here (front ++ rest) = (d.follow here front).bind fun found =>
      d.follow found.1 rest := by
  induction front generalizing here with
  | nil =>
    rw [List.nil_append]
    cases hnode : d.node? here with
    | none =>
      cases rest with
      | nil => simp [follow, hnode, Except.bind]
      | cons name rest => simp [follow, hnode, Except.bind]
    | some node => simp [follow, hnode, Except.bind]
  | cons name front ih =>
    rw [List.cons_append, follow, follow]
    cases hnode : d.node? here with
    | none => rfl
    | some node =>
      cases node with
      | file id => rfl
      | folder =>
        simp only
        by_cases hstays : Path.staysPut name = true
        · rw [if_pos hstays, if_pos hstays, ih]
        · rw [if_neg hstays, if_neg hstays]
          by_cases houtward : name = Path.outward
          · rw [if_pos houtward, if_pos houtward, ih]
          · rw [if_neg houtward, if_neg houtward]
            by_cases hlong : Path.nameLimit < name.utf8ByteSize
            · rw [if_pos hlong, if_pos hlong]
              rfl
            · rw [if_neg hlong, if_neg hlong, ih]

/-- The way to a folder leads through folders alone, so it stays if these stay. -/
theorem follow_mono (hfolders : ∀ {q : Path}, d.node? q = some .folder → d'.node? q = some .folder)
    {here : Path} {names : List String} (h : d.follow here names = .ok (place, .folder)) :
    d'.follow here names = .ok (place, .folder) := by
  induction names generalizing here with
  | nil =>
    cases hnode : d.node? here with
    | none => simp [follow, hnode] at h
    | some node =>
      simp only [follow, hnode, Except.ok.injEq, Prod.mk.injEq] at h
      obtain ⟨rfl, rfl⟩ := h
      simp [follow, hfolders hnode]
  | cons name rest ih =>
    rw [follow] at h ⊢
    cases hnode : d.node? here with
    | none => simp [hnode] at h
    | some node =>
      cases node with
      | file id => simp [hnode] at h
      | folder =>
        simp only [hnode] at h
        simp only [hfolders hnode]
        split at h
        · next hstays => rw [if_pos hstays, ih h]
        · next hstays =>
          rw [if_neg hstays]
          split at h
          · next houtward => rw [if_pos houtward, ih h]
          · next houtward =>
            rw [if_neg houtward]
            split at h
            · cases h
            · next hlong => rw [if_neg hlong, ih h]

/-- A path leads to the folder at a place. -/
def FolderAt (d : Disk) (dir place : Path) : Prop := d.locate dir = .ok (place, .folder)

theorem FolderAt.unique {other : Path} (h : d.FolderAt dir place) (h' : d.FolderAt dir other) :
    place = other := by
  rw [FolderAt, h] at h'
  cases h'
  rfl

theorem FolderAt.check (h : d.FolderAt dir place) : dir.check = .ok () := by
  cases hcheck : dir.check with
  | ok u => rfl
  | error e => simp [FolderAt, locate, hcheck, bind, Except.bind] at h

theorem FolderAt.follow (h : d.FolderAt dir place) : d.follow [] dir = .ok (place, .folder) := by
  have hcheck := h.check
  rw [FolderAt, locate, hcheck] at h
  exact h

theorem folderAt_iff : d.FolderAt dir place ↔
    dir.check = .ok () ∧ d.follow [] dir = .ok (place, .folder) := by
  refine ⟨fun h => ⟨h.check, h.follow⟩, fun ⟨hcheck, hfollow⟩ => ?_⟩
  rw [FolderAt, locate, hcheck]
  exact hfollow

theorem FolderAt.evolves (h : d.FolderAt dir place) (hevolves : d.Evolves d') :
    d'.FolderAt dir place :=
  folderAt_iff.mpr ⟨h.check, follow_mono hevolves.folders h.follow⟩

theorem node?_of_follow {here : Path} {names : List String} {node : Node}
    (h : d.follow here names = .ok (place, node)) : d.node? place = some node := by
  induction names generalizing here with
  | nil =>
    cases hnode : d.node? here with
    | none => simp [Disk.follow, hnode] at h
    | some found =>
      simp only [Disk.follow, hnode, Except.ok.injEq, Prod.mk.injEq] at h
      obtain ⟨rfl, rfl⟩ := h
      exact hnode
  | cons name rest ih =>
    rw [Disk.follow] at h
    split at h
    · cases h
    · cases h
    · split at h
      · exact ih h
      · split at h
        · exact ih h
        · split at h
          · cases h
          · exact ih h

theorem FolderAt.node? (h : d.FolderAt dir place) : d.node? place = some .folder :=
  node?_of_follow h.follow

/-- Where names lead does not depend on what is on the disk. -/
theorem resolvedFrom_of_follow {here : Path} {names : List String} {node : Node}
    (h : d.follow here names = .ok (place, node)) : Path.resolvedFrom here names = place := by
  induction names generalizing here with
  | nil =>
    rw [Disk.follow] at h
    split at h
    · cases h
    · cases h
      rfl
  | cons name rest ih =>
    rw [Disk.follow] at h
    rw [Path.resolvedFrom]
    split at h
    · cases h
    · cases h
    · split at h
      · next hstays => rw [if_pos hstays, ih h]
      · next hmoves =>
        rw [if_neg hmoves]
        split at h
        · next houtward => rw [if_pos houtward, ih h]
        · next hinward =>
          rw [if_neg hinward]
          split at h
          · cases h
          · exact ih h

theorem FolderAt.resolved (h : d.FolderAt dir place) : dir.resolved = place :=
  resolvedFrom_of_follow h.follow

/-- A slash at the end of a path to a folder leads nowhere. -/
theorem follow_of_slash {front : Path} (h : d.follow [] (front ++ [""]) = .ok (place, .folder)) :
    d.follow [] front = .ok (place, .folder) := by
  rw [follow_append] at h
  cases hfront : d.follow [] front with
  | error e => simp [hfront, Except.bind] at h
  | ok found =>
    obtain ⟨here, node⟩ := found
    have hnode := node?_of_follow hfront
    simp only [hfront, Except.bind, Disk.follow, hnode, Path.staysPut] at h
    cases node with
    | file id => simp at h
    | folder => simpa using h

theorem follow_withoutSlashes {p : Path} (h : d.follow [] p = .ok (place, .folder)) :
    d.follow [] p.withoutSlashes = .ok (place, .folder) := by
  induction p using List.reverseRecOn with
  | nil => exact h
  | append_singleton front name ih =>
    by_cases hname : name = ""
    · have hslash : Path.withoutSlashes (front ++ [name]) = Path.withoutSlashes front := by
        simp [Path.withoutSlashes, hname]
      rw [hslash]
      exact ih (follow_of_slash (hname ▸ h))
    · rw [Path.withoutSlashes_concat hname]
      exact h

/-- The path of a member goes through the folder. -/
theorem FolderAt.child_eq (h : d.FolderAt dir place) (name : String) :
    ∃ front, dir.child name = front ++ [name] ∧ d.follow [] front = .ok (place, .folder) := by
  by_cases hslash : dir.getLast? = some ""
  · refine ⟨dir.dropLast, by rw [Path.child, if_pos hslash], follow_of_slash ?_⟩
    rw [List.dropLast_append_getLast? _ hslash]
    exact h.follow
  · exact ⟨dir, by rw [Path.child, if_neg hslash], h.follow⟩

theorem FolderAt.slot_child (h : d.FolderAt dir place) (hname : dir.Admits name)
    (nameless : SystemError) : d.slot (dir.child name) nameless = .ok ⟨place, name, false⟩ := by
  obtain ⟨front, hchild, hfollow⟩ := h.child_eq name
  have hcheck := hname.check
  have hmoves := hname.moves
  have hinward : (name == Path.outward) = false := by simpa using hname.inward
  rw [hchild] at hcheck ⊢
  simp only [slot, hcheck, Path.withoutSlashes_concat hname.ne_empty, List.dropLast_concat, hfollow,
    List.getLast?_concat, hmoves, hinward, bind, Except.bind]
  simp [pure, Except.pure]

theorem FolderAt.locate_child (h : d.FolderAt dir place) (hname : dir.Admits name) :
    d.locate (dir.child name) =
      match d.node? (place ++ [name]) with
      | none => .error (.system .noEntry)
      | some node => .ok (place ++ [name], node) := by
  obtain ⟨front, hchild, hfollow⟩ := h.child_eq name
  have hcheck := hname.check
  have hshort := hname.short
  rw [hchild] at hcheck ⊢
  rw [locate, hcheck]
  show d.follow [] (front ++ [name]) = _
  rw [follow_append, hfollow]
  cases hnode : d.node? (place ++ [name]) <;>
    simp [Except.bind, Disk.follow, h.node?, hnode, hname.moves, hname.inward,
      Nat.not_lt.mpr hshort]

theorem inSlot_of_admits (place : Path) (d : Disk) (hname : dir.Admits name) (slashed : Bool) :
    d.inSlot ⟨place, name, slashed⟩ = .ok (d.node? (place ++ [name])) := by
  rw [inSlot, if_neg (Nat.not_lt.mpr hname.short)]
  rfl

/-- The place for a file is the one that its name leads to, unless a folder stands there. -/
theorem FolderAt.fileSlot_child (h : d.FolderAt dir place) (hname : dir.Admits name) :
    d.fileSlot (dir.child name) =
      match d.node? (place ++ [name]) with
      | none => .ok (⟨place, name, false⟩, none)
      | some .folder => .error (.system .isFolder)
      | some (.file id) => .ok (⟨place, name, false⟩, some id) := by
  rw [fileSlot, h.slot_child hname .isFolder]
  simp only [bind, Except.bind, inSlot_of_admits place d hname false]
  cases d.node? (place ++ [name]) with
  | none => rfl
  | some node => cases node <;> rfl

/-! ## Changes at one place -/

/-- Nothing changed but what is at a place, and the content of the file there. -/
structure ChangesAt (place : Path) (d d' : Disk) : Prop extends Evolves d d' where
  others : ∀ {q : Path}, q ≠ place → d'.node? q = d.node? q
  files : ∀ {id : Nat}, id < d.files.size → d.node? place ≠ some (.file id) →
    d'.file id = d.file id
  fresh : ∀ {id : Nat}, d'.node? place = some (.file id) →
    d.node? place = some (.file id) ∨ d.files.size ≤ id

theorem ChangesAt.trans (h : ChangesAt place d d') (h' : ChangesAt place d' d'') :
    ChangesAt place d d'' where
  toEvolves := h.toEvolves.trans h'.toEvolves
  others hq := (h'.others hq).trans (h.others hq)
  files {id} hid hplace := by
    refine (h'.files (Nat.lt_of_lt_of_le hid h.size) fun hfile => ?_).trans (h.files hid hplace)
    -- the file at the place in between is that of before, or it is one that was not there
    rcases h.fresh hfile with hold | hnew
    · exact hplace hold
    · omega
  fresh {id} hfile := by
    rcases h'.fresh hfile with hold | hnew
    · exact h.fresh hold
    · exact .inr (Nat.le_trans h.size hnew)

theorem Still.changesAt (h : d.Still d') (place : Path) : ChangesAt place d d' where
  toEvolves := h.evolves
  others {q} _ := h.node? q
  files _ _ := h.file _
  fresh hfile := .inl (h.node? place ▸ hfile)

theorem ChangesAt.refl (place : Path) (d : Disk) : ChangesAt place d d :=
  (Still.refl d).changesAt place

/-- A file that has its name at another place, or has none, keeps its content. -/
theorem ChangesAt.file_of_ne (h : ChangesAt place d d') (hsound : d.Sound) {q : Path} {id : Nat}
    (hq : d.node? q = some (.file id)) (hne : q ≠ place) : d'.file id = d.file id :=
  h.files (hsound.lt_size hq) fun hplace => hne (hsound.unique hq hplace)

/-- The same files and folders are at the same places, and each file has the content that it had. -/
structure SameTree (d d' : Disk) : Prop where
  node? : ∀ q : Path, d'.node? q = d.node? q
  file : ∀ {q : Path} {id : Nat}, d.node? q = some (.file id) → d'.file id = d.file id

theorem Still.sameTree (h : d.Still d') : d.SameTree d' := ⟨h.node?, fun _ => h.file _⟩

/-- Where a new file has gone again, the tree is what it was. -/
theorem ChangesAt.sameTree (h : ChangesAt place d d') (hsound : d.Sound)
    (hbefore : d.node? place = none) (hafter : d'.node? place = none) : d.SameTree d' where
  node? q := by
    by_cases hq : q = place
    · rw [hq, hbefore, hafter]
    · exact h.others hq
  file {q id} hnode := by
    refine h.file_of_ne hsound hnode ?_
    rintro rfl
    rw [hbefore] at hnode
    cases hnode

theorem changesAt_alter {id : Nat} (h : d.node? place = some (.file id)) (change : File → File) :
    ChangesAt place d (d.alter id change) where
  faults := rfl
  clock := Nat.le_refl _
  size := Nat.le_of_eq (by simp [alter])
  folders hq := hq
  sound hsound := hsound.congr rfl (Nat.le_of_eq (by simp [alter]))
  others _ := rfl
  files {other} _ hne := file_alter_of_ne d change fun heq => hne (heq ▸ h)
  fresh hfile := .inl hfile

theorem changesAt_erase (hplace : place ≠ []) (hnode : d.node? place ≠ some .folder) :
    ChangesAt place d (d.erase place) where
  faults := rfl
  clock := Nat.le_refl _
  size := Nat.le_refl _
  folders {q} hq := by
    rw [node?_erase d hplace, if_neg]
    · exact hq
    · rintro rfl
      exact hnode hq
  sound hsound := hsound.erase hplace
  others {q} hq := by rw [node?_erase d hplace, if_neg hq]
  files _ _ := rfl
  fresh {id} hfile := by
    rw [node?_erase d hplace, if_pos rfl] at hfile
    cases hfile

theorem file_alter_self (d : Disk) {id : Nat} (h : id < d.files.size) (change : File → File) :
    (d.alter id change).file id = change (d.file id) := by
  simp [file, alter, h, Array.getElem_modify]

variable {id : Nat}

/-! ## Changes to one file -/

/-- Nothing changed but the content of one file. -/
structure Writes (id : Nat) (d d' : Disk) : Prop where
  nodes : d'.nodes = d.nodes
  size : d'.files.size = d.files.size
  files : ∀ {other : Nat}, other ≠ id → d'.file other = d.file other
  faults : d'.faults = d.faults
  clock : d.clock ≤ d'.clock

theorem Writes.refl (id : Nat) (d : Disk) : Writes id d d :=
  ⟨rfl, rfl, fun _ => rfl, rfl, Nat.le_refl _⟩

theorem Writes.trans (h : Writes id d d') (h' : Writes id d' d'') : Writes id d d'' :=
  ⟨h'.nodes.trans h.nodes, h'.size.trans h.size, fun hne => (h'.files hne).trans (h.files hne),
    h'.faults.trans h.faults, Nat.le_trans h.clock h'.clock⟩

theorem Still.writes (h : d.Still d') (id : Nat) : Writes id d d' :=
  ⟨h.nodes, by rw [h.files], fun _ => h.file _, h.faults, h.clock⟩

theorem Writes.node? (h : Writes id d d') (place : Path) : d'.node? place = d.node? place := by
  simp only [Disk.node?, h.nodes]

theorem Writes.changesAt (h : Writes id d d')
    (hplace : d.node? place = some (.file id)) : ChangesAt place d d' where
  faults := h.faults
  clock := h.clock
  size := Nat.le_of_eq h.size.symm
  folders hq := by rw [h.node?, hq]
  sound hsound := hsound.congr h.nodes (Nat.le_of_eq h.size.symm)
  others _ := h.node? _
  files {other} _ hne := h.files fun heq => hne (heq ▸ hplace)
  fresh hfile := .inl (h.node? place ▸ hfile)

theorem Writes.evolves (h : Writes id d d') : d.Evolves d' where
  faults := h.faults
  clock := h.clock
  size := Nat.le_of_eq h.size.symm
  folders hq := by rw [h.node?, hq]
  sound hsound := hsound.congr h.nodes (Nat.le_of_eq h.size.symm)

theorem writes_alter (d : Disk) (id : Nat) (change : File → File) :
    Writes id d (d.alter id change) :=
  ⟨rfl, by simp [alter], fun hne => file_alter_of_ne d change hne, rfl, Nat.le_refl _⟩

theorem writes_write (handle : Handle) (b : Bytes) (d : Disk) :
    Writes handle.file d (write handle b d).2 := by
  rw [write_eq]
  cases d.faults d.clock with
  | none => exact ((still_ticked d).writes _).trans (writes_alter _ _ _)
  | some fault => exact ((still_ticked d).writes _).trans (writes_alter _ _ _)

/-! ## The operations -/

theorem Slot.place_ne_nil (slot : Slot) : slot.place ≠ [] := by
  simp [Slot.place]

theorem changesAt_putNew (slot : Slot) (hnode : d.node? slot.place = none) :
    ChangesAt slot.place d (d.putNew slot).2 where
  faults := rfl
  clock := Nat.le_refl _
  size := by simp [putNew]
  folders {q} hq := by
    show (d.put slot.place (.file d.files.size)).node? q = _
    rw [node?_put d slot.place_ne_nil, if_neg]
    · exact hq
    · rintro rfl
      rw [hnode] at hq
      cases hq
  sound hsound := by
    -- the number of the new file is one that no name had
    have hgrown : Sound { d with files := d.files.push {} } :=
      hsound.congr rfl (by simp)
    have hput : Sound (({ d with files := d.files.push {} } : Disk).put slot.place
        (.file d.files.size)) := by
      refine hgrown.put slot.place_ne_nil fun id hid => ?_
      cases hid
      refine ⟨by simp, fun q hq => ?_⟩
      exact absurd (hsound.lt_size hq) (Nat.lt_irrefl _)
    exact hput.congr rfl (Nat.le_refl _)
  others {q} hq := by
    show (d.put slot.place (.file d.files.size)).node? q = _
    rw [node?_put d slot.place_ne_nil, if_neg hq]
  files {id} hid _ := by
    simp [putNew, file, Array.getElem?_push, Nat.ne_of_lt hid]
  fresh {id} hfile := by
    change (d.put slot.place (.file d.files.size)).node? slot.place = _ at hfile
    rw [node?_put d slot.place_ne_nil, if_pos rfl] at hfile
    cases hfile
    exact .inr (Nat.le_refl _)

/-- Making a file gives an empty one at its place. -/
theorem FolderAt.create_child (h : d.FolderAt dir place) (hname : dir.Admits name)
    (hsound : d.Sound) :
    (∃ handle d', create (dir.child name) d = (.ok handle, d') ∧
        ChangesAt (place ++ [name]) d d' ∧ d'.node? (place ++ [name]) = some (.file handle.file) ∧
        handle.position = 0 ∧ (d'.file handle.file).content = [] ∧
        d.node? (place ++ [name]) ≠ some .folder) ∨
      ∃ e d', create (dir.child name) d = (.error e, d') ∧ d.Still d' ∧
        (d.Struck d' ∨ d.node? (place ++ [name]) = some .folder) := by
  rw [create, operate_eq]
  cases hfault : d.faults d.clock with
  | some fault => exact .inr ⟨_, _, rfl, still_ticked d, .inl (struck_ticked hfault)⟩
  | none =>
    have hfileSlot := (h.evolves (still_ticked d).evolves).fileSlot_child hname
    rw [node?_ticked] at hfileSlot
    cases hnode : d.node? (place ++ [name]) with
    | none =>
      rw [hnode] at hfileSlot
      refine .inl ⟨⟨d.files.size, 0⟩, (d.ticked.putNew ⟨place, name, false⟩).2, ?_, ?_, ?_, rfl, ?_,
        by simp⟩
      · simp [hfileSlot, bind, Except.bind, pure, Except.pure, putNew]
        rfl
      · exact ((still_ticked d).changesAt _).trans (changesAt_putNew ⟨place, name, false⟩ hnode)
      · show (d.ticked.put (place ++ [name]) (.file d.files.size)).node? _ = _
        rw [node?_put _ (append_singleton_ne_nil _ _), if_pos rfl]
      · show (File.content ((d.ticked.files.push {}).getD d.files.size {})) = []
        simp [ticked, File.content]
    | some node =>
      cases node with
      | folder =>
        rw [hnode] at hfileSlot
        refine .inr ⟨.system .isFolder, d.ticked, ?_, still_ticked d, .inr rfl⟩
        simp [hfileSlot, bind, Except.bind]
      | file id =>
        rw [hnode] at hfileSlot
        have hlt : id < d.files.size := hsound.lt_size hnode
        refine .inl ⟨⟨id, 0⟩, d.ticked.alter id fun f => { f with data := #[] }, ?_, ?_, hnode, rfl,
          ?_, by simp⟩
        · simp [hfileSlot, bind, Except.bind, pure, Except.pure]
        · exact ((still_ticked d).changesAt _).trans (changesAt_alter (d := d.ticked) hnode _)
        · show ((d.ticked.alter id _).file id).content = []
          rw [file_alter_self d.ticked hlt]
          rfl

/-- Removing a file frees its place. -/
theorem FolderAt.remove_child (h : d.FolderAt dir place) (hname : dir.Admits name) :
    (∃ id, remove (dir.child name) d = (.ok (), d.ticked.erase (place ++ [name])) ∧
        d.node? (place ++ [name]) = some (.file id)) ∨
      ∃ e d', remove (dir.child name) d = (.error e, d') ∧ d.Still d' ∧
        (StruckBy e d d' ∨ d.node? (place ++ [name]) = some .folder ∨
          d.node? (place ++ [name]) = none ∧ e = .system .noEntry) := by
  rw [remove, operate_eq]
  cases hfault : d.faults d.clock with
  | some fault => exact .inr ⟨_, _, rfl, still_ticked d, .inl (struckBy_ticked hfault)⟩
  | none =>
    have hslot := (h.evolves (still_ticked d).evolves).slot_child hname .isFolder
    have hinSlot := inSlot_of_admits place d.ticked hname false
    rw [node?_ticked] at hinSlot
    cases hnode : d.node? (place ++ [name]) with
    | none =>
      refine .inr ⟨.system .noEntry, d.ticked, ?_, still_ticked d, .inr (.inr ⟨rfl, rfl⟩)⟩
      simp [hslot, hinSlot, hnode, bind, Except.bind]
      rfl
    | some node =>
      cases node with
      | folder =>
        refine .inr ⟨.system .isFolder, d.ticked, ?_, still_ticked d, .inr (.inl rfl)⟩
        simp [hslot, hinSlot, hnode, bind, Except.bind]
        rfl
      | file id =>
        refine .inl ⟨id, ?_, rfl⟩
        simp [hslot, hinSlot, hnode, bind, Except.bind, pure, Except.pure]
        rfl

/-- Whether or not it works, a removal touches nothing but the place of the file. -/
theorem FolderAt.changesAt_remove (h : d.FolderAt dir place) (hname : dir.Admits name)
    (hnode : d.node? (place ++ [name]) ≠ some .folder) :
    ChangesAt (place ++ [name]) d (remove (dir.child name) d).2 := by
  rcases h.remove_child hname with ⟨id, hremove, -⟩ | ⟨e, d', hremove, hstill, -⟩
  · rw [hremove]
    exact ((still_ticked d).changesAt _).trans
      (changesAt_erase (d := d.ticked) (append_singleton_ne_nil place name) hnode)
  · rw [hremove]
    exact hstill.changesAt _

/-- Nor does it leave a folder where there was none. -/
theorem FolderAt.notFolder_remove (h : d.FolderAt dir place) (hname : dir.Admits name)
    (hnode : d.node? (place ++ [name]) ≠ some .folder) :
    (remove (dir.child name) d).2.node? (place ++ [name]) ≠ some .folder := by
  rcases h.remove_child hname with ⟨id, hremove, -⟩ | ⟨e, d', hremove, hstill, -⟩
  · rw [hremove]
    show (d.ticked.erase _).node? _ ≠ _
    rw [node?_erase _ (append_singleton_ne_nil place name), if_pos rfl]
    exact nofun
  · rw [hremove, hstill.node?]
    exact hnode

/-- The disk on which a file has been given another place. -/
def moved (d : Disk) (source target : Path) (id : Nat) : Disk :=
  (d.erase source).put target (.file id)

theorem node?_moved (d : Disk) {source target : Path} (id : Nat) (hsource : source ≠ [])
    (htarget : target ≠ []) (q : Path) : (d.moved source target id).node? q =
      if q = target then some (.file id) else if q = source then none else d.node? q := by
  rw [moved, node?_put _ htarget, node?_erase d hsource]

theorem evolves_moved {source target : Path} {id : Nat} (hsource : source ≠ [])
    (htarget : target ≠ []) (hnode : d.node? source = some (.file id))
    (hfree : d.node? target ≠ some .folder) : d.Evolves (d.moved source target id) where
  faults := rfl
  clock := Nat.le_refl _
  size := Nat.le_refl _
  folders {q} hq := by
    rw [node?_moved d id hsource htarget, if_neg, if_neg]
    · exact hq
    · rintro rfl
      rw [hnode] at hq
      cases hq
    · rintro rfl
      exact hfree hq
  sound hsound := by
    refine (hsound.erase hsource).put htarget fun other hother => ?_
    cases hother
    refine ⟨hsound.lt_size hnode, fun q hq => ?_⟩
    rw [node?_erase d hsource] at hq
    split at hq
    · cases hq
    · next hne => exact absurd (hsound.unique hq hnode) hne

/-- Renaming a file gives it its new place, where another file gives way to it. -/
theorem FolderAt.rename_child (h : d.FolderAt dir place) {source target : String}
    (hsource : dir.Admits source) (htarget : dir.Admits target) (hne : source ≠ target) {id : Nat}
    (hnode : d.node? (place ++ [source]) = some (.file id)) :
    (rename (dir.child source) (dir.child target) d =
        (.ok (), d.ticked.moved (place ++ [source]) (place ++ [target]) id) ∧
      d.faults d.clock = none ∧ d.node? (place ++ [target]) ≠ some .folder) ∨
      ∃ e, rename (dir.child source) (dir.child target) d = (.error e, d.ticked) ∧
        (d.Struck d.ticked ∨ d.node? (place ++ [target]) = some .folder) := by
  rw [rename, operate_eq]
  cases hfault : d.faults d.clock with
  | some fault => exact .inr ⟨_, rfl, .inl (struck_ticked hfault)⟩
  | none =>
    have hfolder := h.evolves (still_ticked d).evolves
    have hslotSource := hfolder.slot_child hsource .busy
    have hslotTarget := hfolder.slot_child htarget .busy
    have hinSource := inSlot_of_admits place d.ticked hsource false
    have hinTarget := inSlot_of_admits place d.ticked htarget false
    rw [node?_ticked, hnode] at hinSource
    rw [node?_ticked] at hinTarget
    have hplaces : ¬ place ++ [source] = place ++ [target] := by simpa using hne
    by_cases hway : d.node? (place ++ [target]) = some .folder
    · refine .inr ⟨.system .isFolder, ?_, .inr hway⟩
      simp [hslotSource, hslotTarget, hinSource, hinTarget, hway, bind, Except.bind, pure,
        Except.pure]
      rfl
    · refine .inl ⟨?_, rfl, hway⟩
      simp [hslotSource, hslotTarget, hinSource, hinTarget, hway, Slot.place, hplaces, bind,
        Except.bind, pure, Except.pure, moved]

/-- The members of a folder are listed. -/
theorem FolderAt.list (h : d.FolderAt dir place) :
    Disk.list dir d = (.ok (d.names place), d.ticked) ∨
      ∃ e, Disk.list dir d = (.error e, d.ticked) ∧ d.Struck d.ticked := by
  rw [Disk.list, operate_eq]
  cases hfault : d.faults d.clock with
  | some fault => exact .inr ⟨_, rfl, struck_ticked hfault⟩
  | none =>
    have hlocate : d.ticked.locate dir = .ok (place, .folder) := h.evolves (still_ticked d).evolves
    refine .inl ?_
    simp only [hlocate, bind, Except.bind, pure, Except.pure]
    rfl

theorem FolderAt.syncFolder (h : d.FolderAt dir place) :
    Disk.syncFolder dir d = (.ok (), d.ticked) ∨
      ∃ e, Disk.syncFolder dir d = (.error e, d.ticked) ∧ d.Struck d.ticked := by
  rw [Disk.syncFolder, operate_eq]
  cases hfault : d.faults d.clock with
  | some fault => exact .inr ⟨_, rfl, struck_ticked hfault⟩
  | none =>
    have hlocate : d.ticked.locate dir = .ok (place, .folder) := h.evolves (still_ticked d).evolves
    refine .inl ?_
    simp only [hlocate, bind, Except.bind, pure, Except.pure, Functor.discard]
    rfl

theorem syncFile_eq (handle : Handle) (d : Disk) :
    syncFile handle d = (.ok (), d.ticked) ∨
      ∃ e, syncFile handle d = (.error e, d.ticked) ∧ d.Struck d.ticked := by
  rw [syncFile, operate_eq]
  cases hfault : d.faults d.clock with
  | some fault => exact .inr ⟨_, rfl, struck_ticked hfault⟩
  | none => exact .inl rfl

theorem FolderAt.openRead_child (h : d.FolderAt dir place) (hname : dir.Admits name) :
    (∃ node, openRead (dir.child name) d = (.ok node, d.ticked) ∧
        d.node? (place ++ [name]) = some node) ∨
      ∃ e, openRead (dir.child name) d = (.error e, d.ticked) ∧
        (d.Struck d.ticked ∨ d.node? (place ++ [name]) = none) := by
  rw [openRead, operate_eq]
  cases hfault : d.faults d.clock with
  | some fault => exact .inr ⟨_, rfl, .inl (struck_ticked hfault)⟩
  | none =>
    have hlocate := (h.evolves (still_ticked d).evolves).locate_child hname
    rw [node?_ticked] at hlocate
    cases hnode : d.node? (place ++ [name]) with
    | none =>
      rw [hnode] at hlocate
      refine .inr ⟨.system .noEntry, ?_, .inr rfl⟩
      simp [hlocate, bind, Except.bind]
    | some node =>
      rw [hnode] at hlocate
      refine .inl ⟨node, ?_, rfl⟩
      simp [hlocate, bind, Except.bind, pure, Except.pure]

theorem FolderAt.isThere_child (h : d.FolderAt dir place) (hname : dir.Admits name) :
    isThere (dir.child name) d = ((d.node? (place ++ [name])).isSome, d.ticked) ∨
      isThere (dir.child name) d = (false, d.ticked) ∧ d.Struck d.ticked := by
  rw [isThere, leadsTo_eq]
  cases hfault : d.faults d.clock with
  | some fault => exact .inr ⟨rfl, struck_ticked hfault⟩
  | none =>
    have hlocate := (h.evolves (still_ticked d).evolves).locate_child hname
    rw [node?_ticked] at hlocate
    refine .inl ?_
    simp only [hlocate]
    cases d.node? (place ++ [name]) <;> rfl

/-! ## Operations that change nothing -/

theorem still_list (p : Path) (d : Disk) : d.Still (list p d).2 := by
  refine still_operate (fun {d names d'} h => ?_) d
  cases hlocate : d.locate p with
  | error e => simp [hlocate, bind, Except.bind] at h
  | ok found =>
    obtain ⟨place, node⟩ := found
    cases node with
    | file id => simp [hlocate, bind, Except.bind, throw, throwThe, MonadExceptOf.throw] at h
    | folder =>
      simp only [hlocate, bind, Except.bind, pure, Except.pure, Except.ok.injEq, Prod.mk.injEq] at h
      exact h.2.symm

theorem still_syncFolder (p : Path) (d : Disk) : d.Still (syncFolder p d).2 := by
  refine still_operate (fun {d a d'} h => ?_) d
  cases hlocate : d.locate p with
  | error e =>
    rw [hlocate] at h
    cases h
  | ok found =>
    simp only [hlocate, bind, Except.bind, pure, Except.pure] at h
    cases h
    rfl

theorem still_syncFile (handle : Handle) (d : Disk) : d.Still (syncFile handle d).2 := by
  rcases syncFile_eq handle d with hsync | ⟨e, hsync, -⟩
  · rw [hsync]
    exact still_ticked d
  · rw [hsync]
    exact still_ticked d

theorem still_isThere (p : Path) (d : Disk) : d.Still (isThere p d).2 := by
  rw [isThere, leadsTo_eq]
  cases d.faults d.clock with
  | some fault => exact still_ticked d
  | none => exact still_ticked d

/-! ## Writing -/

/-- Writing at the end of a file appends to it. -/
theorem write_end {handle : Handle} (hlt : handle.file < d.files.size)
    (hposition : handle.position = (d.file handle.file).content.length) (b : Bytes) :
    (∃ d', write handle b d = (.ok { handle with position := handle.position + b.length }, d') ∧
        Writes handle.file d d' ∧
        (d'.file handle.file).content = (d.file handle.file).content ++ b) ∨
      ∃ e d', write handle b d = (.error e, d') ∧ Writes handle.file d d' ∧ d.Struck d' := by
  have hwrites := writes_write handle b d
  rw [write_eq] at hwrites ⊢
  cases hfault : d.faults d.clock with
  | some fault =>
    rw [hfault] at hwrites
    refine .inr ⟨_, _, rfl, hwrites, d.clock, Nat.le_refl _, Nat.lt_succ_self _, ?_⟩
    simp [hfault]
  | none =>
    rw [hfault] at hwrites
    refine .inl ⟨_, rfl, hwrites, ?_⟩
    rw [file_alter_self d.ticked hlt, File.content_overwrite, file_ticked, hposition,
      File.overwritten]
    simp

/-! ## Folders that are there already -/

/-- Making a folder that is there is refused. -/
theorem FolderAt.makeFolder (h : d.FolderAt dir place) (hnofault : d.faults d.clock = none) :
    Disk.makeFolder dir d = (.error (.system .alreadyExists), d.ticked) := by
  have hticked := h.evolves (still_ticked d).evolves
  have hcheck := h.check
  have hbare := follow_withoutSlashes hticked.follow
  rw [Disk.makeFolder, operate_eq, hnofault]
  simp only [slot, hcheck, bind, Except.bind]
  -- the last name of the path decides; what it is a member of is found before it is refused
  rcases List.eq_nil_or_concat' dir.withoutSlashes with hnil | ⟨front, name, hconcat⟩
  · simp [hnil, Disk.follow, pure, Except.pure]
    rfl
  · rw [hconcat, follow_append] at hbare
    rw [hconcat, List.dropLast_concat, List.getLast?_concat]
    cases hfront : d.ticked.follow [] front with
    | error e => simp [hfront, Except.bind] at hbare
    | ok found =>
      obtain ⟨here, node⟩ := found
      have hnode := node?_of_follow hfront
      rw [hfront] at hbare
      simp only [Except.bind, Disk.follow, hnode] at hbare
      cases node with
      | file id => simp at hbare
      | folder =>
        simp only [ne_eq, not_true_eq_false, if_false]
        by_cases hnameless : (Path.staysPut name || name == Path.outward) = true
        · simp only [hnameless, if_true, pure, Except.pure]
          rfl
        · obtain ⟨hstays, houtward⟩ : Path.staysPut name = false ∧ name ≠ Path.outward := by
            simpa using hnameless
          simp only [hstays, houtward, if_false, Bool.false_eq_true] at hbare
          by_cases hlong : Path.nameLimit < name.utf8ByteSize
          · simp [hlong] at hbare
          · have hmember : ∃ node, d.ticked.node? (here ++ [name]) = some node := by
              rw [if_neg hlong] at hbare
              cases hnode : d.ticked.node? (here ++ [name]) with
              | none => simp [hnode] at hbare
              | some node => exact ⟨node, rfl⟩
            obtain ⟨member, hmember⟩ := hmember
            simp [hnameless, inSlot, hlong, Slot.place, hmember, pure, Except.pure]
            rfl

theorem FolderAt.isFolder (h : d.FolderAt dir place) (hnofault : d.faults d.clock = none) :
    Disk.isFolder dir d = (true, d.ticked) := by
  have hlocate : d.ticked.locate dir = .ok (place, .folder) := h.evolves (still_ticked d).evolves
  rw [Disk.isFolder, leadsTo_eq, hnofault, hlocate]
  rfl

/-- A folder that is there need not be made. -/
theorem FolderAt.makeFolders (h : d.FolderAt dir place) (hfaultless : d.Faultless) :
    Disk.makeFolders dir d = (.ok (), d.ticked.ticked) := by
  have hticked := h.evolves (still_ticked d).evolves
  have hmakeFolder := h.makeFolder (hfaultless _ (Nat.le_refl _))
  have hisFolder := hticked.isFolder (hfaultless _ (Nat.le_succ _))
  rw [Disk.makeFolders]
  cases dir.ancestors with
  | nil =>
    rw [ensureWithin, ensureFolder, DiskM.tryCatch_of_error hmakeFolder,
      DiskM.lift_bind, hisFolder]
    rfl
  | cons next outer =>
    rw [ensureWithin, DiskM.tryCatch_of_error hmakeFolder, if_neg (by decide),
      DiskM.lift_bind, hisFolder]
    rfl

end Disk

end LayeredStore
