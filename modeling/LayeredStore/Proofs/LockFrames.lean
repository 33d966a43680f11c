import LayeredStore.Proofs.Opening

/-!
# What a store leaves alone

A store works on the run files of its folder and on nothing else. `Disk.Spares d d'` says that
between two moments no lock file came or went or changed hands, and no folder was made or lost. It
holds of every part of the work of a store, on whatever disk and whichever faults strike:

* `Generation.spares_persist`, `Generation.spares_writeMerged`, `Generation.spares_removeRuns`,
  `Generation.spares_publish` : the steps of flushes and compactions.
* `spares_recover` : bringing a folder back to runs alone.
* `Core.NoLocks.effects` : background work.

What a path leads to does not matter here, only what the path ends in (`Path.NoLock`).
-/

namespace LayeredStore

open Disk Generation

variable {d d' d'' : Disk}

/-- A path does not end at the lock file of a folder. -/
def Path.NoLock (p : Path) : Prop := p.resolved.getLast? ≠ some Store.lockName

theorem RunName.resolved_path (name : RunName) (dir : Path) :
    (name.path dir).resolved = dir.resolved ++ [name.text] := by
  have hempty : name.text ≠ "" := name.text_ne_of_head (by decide)
  have hpoint : name.text ≠ "." := name.text_ne_of_head (by decide)
  exact Path.resolved_child (by simp [Path.staysPut, hempty, hpoint])
    (name.text_ne_of_head (by decide)) dir

theorem RunName.noLock (name : RunName) (dir : Path) : (name.path dir).NoLock := by
  have hne : name.text ≠ Store.lockName := name.text_ne_of_head (by decide)
  simp [Path.NoLock, name.resolved_path dir, hne]

namespace Disk

/-! ## Lock files -/

/-- The lock files of all folders are those that there were, and so are their owners. -/
structure KeepsLocks (d d' : Disk) : Prop extends Evolves d d' where
  lockFiles : ∀ {q : Path} {id : Nat}, q.getLast? = some Store.lockName →
    (d'.node? q = some (.file id) ↔ d.node? q = some (.file id))
  holders : ∀ id, (d'.file id).holder = (d.file id).holder

theorem KeepsLocks.refl (d : Disk) : d.KeepsLocks d where
  toEvolves := .refl d
  lockFiles _ := Iff.rfl
  holders _ := rfl

theorem KeepsLocks.trans (h : d.KeepsLocks d') (h' : d'.KeepsLocks d'') : d.KeepsLocks d'' where
  toEvolves := h.toEvolves.trans h'.toEvolves
  lockFiles hq := (h'.lockFiles hq).trans (h.lockFiles hq)
  holders id := (h'.holders id).trans (h.holders id)

theorem MakesFolders.keepsLocks (h : d.MakesFolders d') : d.KeepsLocks d' where
  toEvolves := h.toEvolves
  lockFiles {q id} _ := by
    rcases h.nodes q with hsame | ⟨hnone, hmade⟩
    · rw [hsame]
    · rw [hnone, hmade]
      exact ⟨nofun, nofun⟩
  holders id := congrArg File.holder (h.files id)

/-- The lock files are kept, and no folder is new. -/
structure Spares (d d' : Disk) : Prop extends KeepsLocks d d' where
  made : ∀ {q : Path}, d'.node? q = some .folder → d.node? q = some .folder

theorem Spares.trans (h : d.Spares d') (h' : d'.Spares d'') : d.Spares d'' where
  toKeepsLocks := h.toKeepsLocks.trans h'.toKeepsLocks
  made hq := h.made (h'.made hq)

theorem Spares.notFolder (h : d.Spares d') {q : Path} (hq : d.node? q ≠ some .folder) :
    d'.node? q ≠ some .folder := fun hfolder => hq (h.made hfolder)

theorem Still.spares (h : d.Still d') : d.Spares d' where
  toEvolves := h.evolves
  lockFiles {q id} _ := by rw [h.node?]
  holders id := congrArg File.holder (h.file id)
  made {q} hfolder := by rwa [h.node?] at hfolder

theorem Spares.refl (d : Disk) : d.Spares d := (Still.refl d).spares

/-! ## Changes of the tree -/

theorem holder_alter (d : Disk) (id : Nat) {change : File → File}
    (hchange : ∀ f, (change f).holder = f.holder) (other : Nat) :
    ((d.alter id change).file other).holder = (d.file other).holder := by
  by_cases hother : other = id
  · subst hother
    by_cases hlt : other < d.files.size
    · rw [file_alter_self d hlt, hchange]
    · simp [file, alter, hlt]
  · rw [file_alter_of_ne d change hother]

/-- What is written to a file does not change who holds it. -/
theorem spares_alter (d : Disk) (id : Nat) {change : File → File}
    (hchange : ∀ f, (change f).holder = f.holder) : d.Spares (d.alter id change) where
  toEvolves := (writes_alter d id change).evolves
  lockFiles _ := Iff.rfl
  holders := holder_alter d id hchange
  made hfolder := hfolder

theorem holder_putNew (d : Disk) (slot : Slot) (id : Nat) :
    ((d.putNew slot).2.file id).holder = (d.file id).holder := by
  show (((d.files.push {}).getD id {}).holder) = (d.files.getD id {}).holder
  rw [Array.getD_eq_getD_getElem?, Array.getD_eq_getD_getElem?, Array.getElem?_push]
  by_cases hid : id = d.files.size
  · simp [hid]
  · rw [if_neg hid]

/-- A new file is nobody's. -/
theorem spares_putNew {slot : Slot} (hplace : slot.place.getLast? ≠ some Store.lockName)
    (hnode : d.node? slot.place = none) : d.Spares (d.putNew slot).2 where
  toEvolves := (changesAt_putNew slot hnode).toEvolves
  lockFiles {q id} hq := by
    rw [(changesAt_putNew slot hnode).others]
    rintro rfl
    exact hplace hq
  holders := holder_putNew d slot
  made {q} hfolder := by
    change (d.put slot.place (.file d.files.size)).node? q = _ at hfolder
    rw [node?_put d slot.place_ne_nil] at hfolder
    split at hfolder
    · cases hfolder
    · exact hfolder

theorem spares_erase {place : Path} (hne : place ≠ [])
    (hplace : place.getLast? ≠ some Store.lockName) (hnode : d.node? place ≠ some .folder) :
    d.Spares (d.erase place) where
  toEvolves := (changesAt_erase hne hnode).toEvolves
  lockFiles {q id} hq := by
    rw [(changesAt_erase hne hnode).others]
    rintro rfl
    exact hplace hq
  holders _ := rfl
  made {q} hfolder := by
    rw [node?_erase d hne] at hfolder
    split at hfolder
    · cases hfolder
    · exact hfolder

theorem spares_moved {source target : Path} {id : Nat} (hsource : source ≠ [])
    (htarget : target ≠ []) (hsource' : source.getLast? ≠ some Store.lockName)
    (htarget' : target.getLast? ≠ some Store.lockName) (hnode : d.node? source = some (.file id))
    (hfree : d.node? target ≠ some .folder) : d.Spares (d.moved source target id) where
  toEvolves := evolves_moved hsource htarget hnode hfree
  lockFiles {q file} hq := by
    rw [node?_moved d id hsource htarget, if_neg, if_neg]
    · rintro rfl
      exact hsource' hq
    · rintro rfl
      exact htarget' hq
  holders _ := rfl
  made {q} hfolder := by
    rw [node?_moved d id hsource htarget] at hfolder
    split at hfolder
    · cases hfolder
    · split at hfolder
      · cases hfolder
      · exact hfolder

/-! ## The operations -/

/-- A slot is where its path leads. -/
theorem place_of_slot {p : Path} {nameless : SystemError} {slot : Slot}
    (h : d.slot p nameless = .ok slot) : slot.place = p.resolved := by
  obtain ⟨-, front, hfront, hfollow, hmoves, hinward, -⟩ := slot_eq_ok h
  have hfolder : Path.resolved front = slot.folder := resolvedFrom_of_follow hfollow
  rw [← p.resolved_withoutSlashes, hfront, Path.resolved_concat hmoves hinward, hfolder]
  rfl

theorem node?_of_inSlot {slot : Slot} {node : Option Node} (h : d.inSlot slot = .ok node) :
    d.node? slot.place = node := by
  rw [inSlot] at h
  split at h
  · cases h
  · exact Except.ok.inj h

theorem resolved_of_locate {p place : Path} {node : Node} (h : d.locate p = .ok (place, node)) :
    place = p.resolved ∧ d.node? p.resolved = some node := by
  rw [locate] at h
  cases hcheck : p.check with
  | error e =>
    rw [hcheck] at h
    cases h
  | ok =>
    rw [hcheck] at h
    have hplace : p.resolved = place := resolvedFrom_of_follow h
    exact ⟨hplace.symm, hplace ▸ node?_of_follow h⟩

/-- An operation that succeeds has taken effect. -/
theorem act_of_operate {α : Type} {act : Disk → Except IoFailure (α × Disk)} {a : α}
    (h : operate act d = (.ok a, d')) : act d.ticked = .ok (a, d') := by
  rw [operate_eq] at h
  cases hfault : d.faults d.clock with
  | some fault =>
    rw [hfault] at h
    cases h
  | none =>
    rw [hfault] at h
    cases hact : act d.ticked with
    | error e =>
      rw [hact] at h
      cases h
    | ok r =>
      rw [hact] at h
      cases h
      rfl

/-- A file is found in the slot of its path, which has no slash behind it. -/
theorem slot_of_fileSlot {p : Path} {slot : Slot} {file : Option Nat}
    (h : d.fileSlot p = .ok (slot, file)) : d.slot p .isFolder = .ok slot ∧ slot.slashed = false ∧
      d.inSlot slot = .ok (file.map Node.file) := by
  rw [fileSlot] at h
  cases hslot : d.slot p .isFolder with
  | error e => simp [hslot, bind, Except.bind] at h
  | ok found =>
    rw [hslot] at h
    change (if found.slashed = true then _ else _) = _ at h
    split at h
    · cases h
    · next hslashed =>
      cases hin : d.inSlot found with
      | error e =>
        rw [hin] at h
        cases h
      | ok node =>
        rw [hin] at h
        cases node with
        | none =>
          cases h
          exact ⟨rfl, Bool.eq_false_iff.mpr hslashed, hin⟩
        | some node =>
          cases node with
          | folder => cases h
          | file id =>
            cases h
            exact ⟨rfl, Bool.eq_false_iff.mpr hslashed, hin⟩

/-- What is found in the slot of a file. -/
theorem fileSlot_eq_ok {p : Path} {slot : Slot} {file : Option Nat}
    (h : d.fileSlot p = .ok (slot, file)) :
    slot.place = p.resolved ∧ d.node? p.resolved = file.map Node.file := by
  obtain ⟨hslot, -, hin⟩ := slot_of_fileSlot h
  have hplace := place_of_slot hslot
  exact ⟨hplace, hplace ▸ node?_of_inSlot hin⟩

/-- A file that was made is there. -/
theorem create_spec {p : Path} (hp : p.NoLock) (d : Disk) :
    (∃ handle d', create p d = (.ok handle, d') ∧ d.Spares d' ∧
        d'.node? p.resolved ≠ some .folder) ∨ ∃ e, create p d = (.error e, d.ticked) := by
  have hticked := (still_ticked d).spares
  rw [create, operate_eq]
  cases d.faults d.clock with
  | some fault => exact .inr ⟨_, rfl⟩
  | none =>
    cases hfile : d.ticked.fileSlot p with
    | error e => exact .inr ⟨e, by simp [bind, Except.bind]⟩
    | ok found =>
      obtain ⟨slot, file⟩ := found
      obtain ⟨hplace, hnode⟩ := fileSlot_eq_ok hfile
      cases file with
      | some id =>
        refine .inl ⟨⟨id, 0⟩, d.ticked.alter id fun f => { f with data := #[] }, ?_, ?_, ?_⟩
        · simp [bind, Except.bind, pure, Except.pure]
        · exact hticked.trans (spares_alter _ _ fun _ => rfl)
        · show d.ticked.node? p.resolved ≠ _
          rw [hnode]
          simp
      | none =>
        rw [← hplace] at hnode ⊢
        refine .inl ⟨⟨d.files.size, 0⟩, (d.ticked.putNew slot).2, ?_, ?_, ?_⟩
        · simp [bind, Except.bind, pure, Except.pure, putNew]
          rfl
        · exact hticked.trans (spares_putNew (hplace ▸ hp) hnode)
        · show (d.ticked.put slot.place (.file _)).node? slot.place ≠ _
          rw [node?_put _ slot.place_ne_nil, if_pos rfl]
          simp

theorem spares_write (handle : Handle) (b : Bytes) (d : Disk) : d.Spares (write handle b d).2 := by
  have hticked := (still_ticked d).spares
  rw [write_eq]
  cases d.faults d.clock with
  | some fault => exact hticked.trans (spares_alter _ _ fun _ => rfl)
  | none => exact hticked.trans (spares_alter _ _ fun _ => rfl)

/-- An operation leaves the tree alone, or it succeeds. -/
theorem operate_fails_or_ok {α : Type} (act : Disk → Except IoFailure (α × Disk)) (d : Disk) :
    (operate act d).2 = d.ticked ∨ ∃ a d', operate act d = (.ok a, d') := by
  rw [operate_eq]
  cases d.faults d.clock with
  | some fault => exact .inl rfl
  | none =>
    cases act d.ticked with
    | error e => exact .inl rfl
    | ok r => exact .inr ⟨r.1, r.2, rfl⟩

/-- What was removed was a file, and all else is there still. -/
theorem remove_eq_ok {p : Path} (h : remove p d = (.ok (), d')) :
    p.resolved ≠ [] ∧ (∃ id, d.node? p.resolved = some (.file id)) ∧
      d' = d.ticked.erase p.resolved := by
  have hact := act_of_operate h
  cases hslot : d.ticked.slot p .isFolder with
  | error e => simp [hslot, bind, Except.bind] at hact
  | ok slot =>
    have hplace := place_of_slot hslot
    cases hin : d.ticked.inSlot slot with
    | error e => simp [hslot, hin, bind, Except.bind] at hact
    | ok node =>
      have hnode := node?_of_inSlot hin
      simp only [hslot, hin, bind, Except.bind] at hact
      cases node with
      | none => cases hact
      | some node =>
        cases node with
        | folder => cases hact
        | file id =>
          dsimp only at hact
          split at hact
          · cases hact
          · cases hact
            exact ⟨hplace ▸ slot.place_ne_nil, ⟨id, hplace ▸ hnode⟩, by rw [hplace]⟩

theorem spares_remove {p : Path} (hp : p.NoLock) (d : Disk) : d.Spares (remove p d).2 := by
  have hticked := still_ticked d
  rcases operate_fails_or_ok _ d with hfails | ⟨_, d', hdone⟩
  · exact hfails ▸ hticked.spares
  · obtain ⟨hne, ⟨id, hnode⟩, rfl⟩ := remove_eq_ok hdone
    rw [remove, hdone]
    exact hticked.spares.trans (spares_erase hne hp (by simp [hnode]))

/-- What was renamed without being a folder was a file, and nothing changed but the two names. -/
theorem rename_eq_ok {source target : Path} (h : rename source target d = (.ok (), d'))
    (hsource : d.node? source.resolved ≠ some .folder) :
    source.resolved ≠ [] ∧ target.resolved ≠ [] ∧ ∃ id,
      d.node? source.resolved = some (.file id) ∧ d.node? target.resolved ≠ some .folder ∧
      (source.resolved = target.resolved ∧ d' = d.ticked ∨
        d' = d.ticked.moved source.resolved target.resolved id) := by
  have hact := act_of_operate h
  cases hslot : d.ticked.slot source .busy with
  | error e => simp [hslot, bind, Except.bind] at hact
  | ok here =>
    cases hslot' : d.ticked.slot target .busy with
    | error e => simp [hslot, hslot', bind, Except.bind] at hact
    | ok there =>
      have hfrom := place_of_slot hslot
      have hto := place_of_slot hslot'
      cases hin : d.ticked.inSlot here with
      | error e => simp [hslot, hslot', hin, bind, Except.bind] at hact
      | ok node =>
        cases hin' : d.ticked.inSlot there with
        | error e => simp [hslot, hslot', hin, hin', bind, Except.bind] at hact
        | ok inTheWay =>
          have hnode := node?_of_inSlot hin
          have hway := node?_of_inSlot hin'
          simp only [hslot, hslot', hin, hin', bind, Except.bind] at hact
          rw [hfrom] at hnode
          rw [hto] at hway
          cases node with
          | none => cases hact
          | some node =>
            cases node with
            | folder => exact absurd hnode hsource
            | file id =>
              dsimp only at hact
              split at hact
              · cases hact
              split at hact
              · cases hact
              next hfree =>
              refine ⟨hfrom ▸ here.place_ne_nil, hto ▸ there.place_ne_nil, id, hnode, ?_, ?_⟩
              · rw [← node?_ticked d, hway]
                exact hfree
              · split at hact
                · next hsame =>
                  cases hact
                  exact .inl ⟨by rw [← hfrom, ← hto, hsame], rfl⟩
                · cases hact
                  exact .inr (by rw [moved, hfrom, hto])

/-- What is no folder can be renamed. -/
theorem spares_rename {source target : Path} (hsource : source.NoLock) (htarget : target.NoLock)
    (hnode : d.node? source.resolved ≠ some .folder) : d.Spares (rename source target d).2 := by
  have hticked := still_ticked d
  rcases operate_fails_or_ok _ d with hfails | ⟨_, d', hdone⟩
  · exact hfails ▸ hticked.spares
  · obtain ⟨hne, hne', id, hfile, hfree, ⟨-, rfl⟩ | rfl⟩ := rename_eq_ok hdone hnode
    · rw [rename, hdone]
      exact hticked.spares
    · rw [rename, hdone]
      exact hticked.spares.trans (spares_moved hne hne' hsource htarget hfile hfree)

/-! ## Programs -/

variable {ε α β : Type}

theorem spares_bind {x : DiskM ε α} {f : α → DiskM ε β} (hx : d.Spares (x d).2)
    (hf : ∀ a d', x d = (.ok a, d') → d'.Spares (f a d').2) : d.Spares ((x >>= f) d).2 :=
  DiskM.related_bind (R := Spares) Spares.trans hx hf

theorem spares_tryCatch {x : DiskM ε α} {f : ε → DiskM ε α} (hx : d.Spares (x d).2)
    (hf : ∀ (e : ε) (d' : Disk), d'.Spares (f e d').2) : d.Spares ((tryCatch x f) d).2 :=
  DiskM.related_tryCatch (R := Spares) Spares.trans hx fun e d' _ => hf e d'

theorem spares_forM {f : α → DiskM ε Unit} {items : List α}
    (h : ∀ item ∈ items, ∀ d : Disk, d.Spares (f item d).2) (d : Disk) :
    d.Spares (items.forM f d).2 := by
  induction items generalizing d with
  | nil => exact .refl d
  | cons item rest ih =>
    refine spares_bind (h item List.mem_cons_self d) fun _ d' _ => ?_
    exact ih (fun other hother => h other (List.mem_cons_of_mem _ hother)) d'

end Disk

/-! ## Writing runs -/

namespace RunWriter

theorem spares_flush (w : RunWriter) (d : Disk) : d.Spares (w.flush d).2 := by
  rw [flush]
  split
  · exact .refl d
  · exact spares_bind (spares_write _ _ d) fun _ d' _ => .refl d'

theorem spares_emit (w : RunWriter) (b : Bytes) (d : Disk) : d.Spares (w.emit b d).2 := by
  have hrest (w : RunWriter) (d : Disk) : d.Spares ((if gatherLimit ≤ b.length then do
      let handle ← Disk.write w.handle b
      return { w with handle }
    else return { w with pending := w.pending.push b } : DiskM IoFailure RunWriter) d).2 := by
    split
    · exact spares_bind (spares_write _ _ d) fun _ d' _ => .refl d'
    · exact .refl d
  rw [emit]
  split
  · exact spares_bind (w.spares_flush d) fun w d' _ => hrest w d'
  · exact hrest w d

theorem spares_closeBlock (w : RunWriter) (d : Disk) : d.Spares (w.closeBlock d).2 := by
  rw [closeBlock]
  split
  · exact .refl d
  · exact spares_bind (x := (w.emit w.block.finish).writing "data block") (w.spares_emit _ d)
      fun _ d' _ => .refl d'

theorem spares_add (w : RunWriter) (e : Entry) (d : Disk) : d.Spares (w.add e d).2 := by
  rw [add]
  refine spares_bind (.refl d) fun w d' _ => ?_
  split
  · exact w.spares_closeBlock d'
  · exact .refl d'

theorem spares_finish (w : RunWriter) (sync : Bool) (d : Disk) :
    d.Spares (w.finish sync d).2 := by
  rw [finish]
  refine spares_bind (w.spares_closeBlock d) fun w d₁ _ => spares_bind ?_ fun w d₂ _ => ?_
  · show d₁.Spares ((do
        let w ← w.emit w.index.encode
        let w ← w.emit (footer w.offset w.count _)
        w.flush : DiskM IoFailure RunWriter) d₁).2
    exact spares_bind (w.spares_emit _ d₁) fun w d' _ =>
      spares_bind (w.spares_emit _ d') fun w d' _ => w.spares_flush d'
  · split
    · have hsync : d₂.Spares ((Disk.syncFile w.handle).writing "run file sync" d₂).2 :=
        (still_syncFile w.handle d₂).spares
      exact spares_bind hsync fun _ d' _ => .refl d'
    · exact .refl d₂

theorem spares_orAbandon {α : Type} (w : RunWriter) {x : DiskM StoreError α}
    (hx : d.Spares (x d).2) : d.Spares (w.orAbandon x d).2 :=
  spares_tryCatch hx fun _ d' => w.spares_flush d'

theorem spares_addAll {σ : Type} (p : Feed σ) (sync : Bool) (w : RunWriter) (s : σ) (d : Disk) :
    d.Spares (w.addAll p sync s d).2 := by
  -- by induction on what the stream may still give
  generalize hleft : p.left s = left
  induction left using Nat.strong_induction_on generalizing w s d with
  | _ left ih =>
    cases hnext : (p.on d).next s with
    | mk item s' =>
      cases item with
      | none =>
        rw [addAll_of_done (by rw [hnext])]
        exact w.spares_orAbandon (w.spares_finish sync d)
      | some item =>
        have hless : p.left s' < left := hleft ▸ p.left_next hnext
        cases item with
        | error e =>
          rw [addAll_of_error hnext]
          exact w.spares_flush d
        | ok e =>
          rw [addAll_of_item hnext]
          exact spares_bind (w.spares_orAbandon (w.spares_add e d)) fun w d' _ =>
            ih _ hless w s' d' rfl

end RunWriter

/-- A run that was written is there. -/
theorem writeRunFrom_spares {σ : Type} {p : Path} (hp : p.NoLock) (feed : Feed σ) (s : σ)
    (blockSize : Nat) (sync : Bool) (d : Disk) :
    (∃ count d', writeRunFrom p feed s blockSize sync d = (.ok count, d') ∧ d.Spares d' ∧
        d'.node? p.resolved ≠ some .folder) ∨
      ∃ e d', writeRunFrom p feed s blockSize sync d = (.error e, d') ∧ d.Spares d' := by
  rw [writeRunFrom]
  rcases create_spec hp d with ⟨handle, d₁, hcreate, hspares, hthere⟩ | ⟨e, hcreate⟩
  · have hwriter : RunWriter.create p blockSize d =
        (.ok { path := p, handle, blockSize := max blockSize 1 }, d₁) :=
      DiskM.bind_of_ok (DiskM.writing_of_ok _ hcreate)
    have hall := RunWriter.spares_addAll feed sync
      { path := p, handle, blockSize := max blockSize 1 } s d₁
    cases hadd : RunWriter.addAll feed sync
        { path := p, handle, blockSize := max blockSize 1 } s d₁ with
    | mk r d₂ =>
      rw [hadd] at hall
      have hboth : (do
          let w ← RunWriter.create p blockSize
          w.addAll feed sync s : DiskM StoreError Nat) d = (r, d₂) :=
        (DiskM.bind_of_ok hwriter).trans hadd
      cases r with
      | ok count =>
        exact .inl ⟨count, d₂, DiskM.tryCatch_of_ok hboth, hspares.trans hall, hall.notFolder hthere⟩
      | error e =>
        exact .inr ⟨e, _, DiskM.tryCatch_of_error hboth,
          (hspares.trans hall).trans (spares_remove hp d₂)⟩
  · have hwriter : RunWriter.create p blockSize d = (.error (.write "run file" e), d.ticked) :=
      DiskM.bind_of_error (DiskM.writing_of_error _ hcreate)
    exact .inr ⟨_, _, DiskM.tryCatch_of_error (DiskM.bind_of_error hwriter),
      (still_ticked d).spares.trans (spares_remove hp d.ticked)⟩

/-! ## Generations -/

/-- The files of the runs of a generation are no lock files. -/
def Generation.NoLocks (g : Generation) : Prop := ∀ run ∈ g.runs, run.file.path.NoLock

theorem RunFile.path_of_parse {p : Path} {id : Nat} {content : Bytes} {f : RunFile}
    (h : RunFile.parse p id content = .ok f) : f.path = p := by
  rw [parse] at h
  split at h
  · cases h
  dsimp only at h
  split at h
  · cases h
  split at h
  · cases h
  split at h
  · cases h
  generalize Index.decode _ = index at h
  cases index with
  | error e => cases h
  | ok index =>
    cases h
    rfl

/-- What was opened as a run has the path by which it was opened, and is no folder. -/
theorem RunFile.openAt_spares {p : Path} {f : RunFile} (h : RunFile.openAt p d = (.ok f, d')) :
    f.path = p ∧ d'.node? p.resolved ≠ some .folder := by
  obtain ⟨node, d₁, hread, hrest⟩ := DiskM.exists_of_bind h
  cases node with
  | folder => cases hrest
  | file id =>
    obtain ⟨hparse, rfl⟩ : RunFile.parse p id (d₁.file id).content = .ok f ∧ d₁ = d' :=
      ⟨congrArg Prod.fst hrest, congrArg Prod.snd hrest⟩
    refine ⟨RunFile.path_of_parse hparse, ?_⟩
    cases hopen : openRead p d with
    | mk r d₂ =>
      cases r with
      | error e =>
        rw [DiskM.reading_of_error _ hopen] at hread
        cases hread
      | ok node =>
        rw [DiskM.reading_of_ok _ hopen] at hread
        cases hread
        have hact := act_of_operate hopen
        cases hlocate : d.ticked.locate p with
        | error e => simp [hlocate, bind, Except.bind] at hact
        | ok found =>
          obtain ⟨place, node⟩ := found
          obtain ⟨-, hnode⟩ := resolved_of_locate hlocate
          simp only [hlocate, bind, Except.bind, pure, Except.pure, Except.ok.injEq,
            Prod.mk.injEq] at hact
          obtain ⟨rfl, rfl⟩ := hact
          rw [hnode]
          simp

namespace Generation

variable {g : Generation} {config : Config}

theorem noLocks_of_load (h : load config d = (.ok g, d')) : g.NoLocks := by
  obtain ⟨names, d₁, -, hrest⟩ := DiskM.exists_of_bind h
  obtain ⟨runs, d₂, hruns, hlast⟩ := DiskM.exists_of_bind hrest
  cases hlast
  refine ((List.forall₂_and_left (R := fun _ _ => True) _ _).mp ((opened_of_mapM hruns).flip.imp ?_)).1
  rintro run id ⟨-, d₃, d₄, hopen⟩
  exact ⟨(RunFile.openAt_spares hopen).1 ▸ RunName.noLock _ config.dir, trivial⟩

theorem spares_syncDir (g : Generation) (d : Disk) : d.Spares (g.syncDir d).2 := by
  rw [syncDir]
  split
  · exact (still_syncFolder g.dir d).spares
  · exact .refl d

/-- What is no folder can take the name of a run. -/
theorem spares_naming (source : RunName) (id : Nat) (dir : Path)
    (hnode : d.node? (source.path dir).resolved ≠ some .folder) :
    d.Spares (Disk.rename (source.path dir) ((RunName.mk .finished id).path dir) d).2 :=
  spares_rename (source.noLock dir) (RunName.noLock _ dir) hnode

theorem spares_persist (g : Generation) (items : List Item) (d : Disk) :
    d.Spares (g.persist items d).2 := by
  rw [persist, writeRun]
  rcases writeRunFrom_spares ((RunName.mk .unfinished g.nextId).noLock g.dir) .items items
      g.blockSize g.syncWrites d with ⟨count, d', hwrite, hspares, hthere⟩ | ⟨e, d', hwrite, hspares⟩
  · rw [DiskM.bind_of_ok (DiskM.discard_of_ok hwrite)]
    refine hspares.trans (spares_bind ?_ fun _ d₂ _ => ?_)
    · exact spares_naming _ g.nextId g.dir hthere
    · exact spares_bind (g.spares_syncDir d₂) fun _ d₃ _ => .refl d₃
  · rw [DiskM.bind_of_error (DiskM.discard_of_error hwrite)]
    exact hspares

/-- A merge that was written is there. -/
theorem spares_writeMerged (g : Generation) (buffers : Nat → Buffer) (active : Nat)
    (flushing : Option Nat) (d : Disk) : d.Spares (g.writeMerged buffers active flushing d).2 ∧
      ∀ id, (g.writeMerged buffers active flushing d).1 = .ok (some id) →
        (g.writeMerged buffers active flushing d).2.node?
          ((RunName.mk .merged id).path g.dir).resolved ≠ some .folder := by
  by_cases hlive : g.live = true
  · rw [writeMerged_of_live hlive]
    have hmerged := (RunName.mk .merged g.mergedId).noLock g.dir
    rcases writeRunFrom_spares hmerged (Scan.feed bytewise buffers)
        (g.scanAll buffers d active flushing) g.blockSize g.syncWrites d with
      ⟨count, d', hwrite, hspares, hthere⟩ | ⟨e, d', hwrite, hspares⟩
    · rw [DiskM.bind_of_ok hwrite]
      by_cases hnone : count = 0
      · rw [if_pos hnone]
        cases hremove : Disk.remove ((RunName.mk .merged g.mergedId).path g.dir) d' with
        | mk r d₂ =>
          have hremoved := spares_remove hmerged d'
          rw [hremove] at hremoved
          cases r with
          | ok =>
            rw [DiskM.bind_of_ok (DiskM.plainly_of_ok hremove)]
            exact ⟨hspares.trans hremoved, nofun⟩
          | error e =>
            rw [DiskM.bind_of_error (DiskM.plainly_of_error hremove)]
            exact ⟨hspares.trans hremoved, nofun⟩
      · rw [if_neg hnone]
        refine ⟨hspares, fun id hid => ?_⟩
        cases hid
        exact hthere
    · rw [DiskM.bind_of_error hwrite]
      exact ⟨hspares, nofun⟩
  · rw [writeMerged, if_pos (by simpa using hlive)]
    exact ⟨.refl d, nofun⟩

theorem spares_removeRun {run : Run} (h : run.file.path.NoLock) (d : Disk) :
    d.Spares (removeRun run d).2 := by
  have hremove : d.Spares ((tryCatch (Disk.remove run.file.path)
      (fun e => if e = .system .noEntry then return () else throw e) : DiskM IoFailure Unit) d).2 :=
    spares_tryCatch (spares_remove h d) fun e d' => by
      split
      · exact .refl d'
      · exact .refl d'
  exact hremove

theorem spares_removeRuns (h : g.NoLocks) (d : Disk) : d.Spares (g.removeRuns d).2 := by
  by_cases hlive : g.live = true
  · rw [Core.removeRuns_of_live hlive]
    exact spares_forM (fun run hrun => spares_removeRun (h run hrun)) d
  · rw [removeRuns, if_pos (by simpa using hlive)]
    exact .refl d

theorem spares_publish (g : Generation) (id : Nat)
    (hnode : d.node? ((RunName.mk .merged id).path g.dir).resolved ≠ some .folder) :
    d.Spares (g.publish id d).2 := by
  rw [publish]
  refine spares_bind ?_ fun _ d' _ => g.spares_syncDir d'
  exact spares_naming _ id g.dir hnode

end Generation

/-! ## Recovery -/

namespace Recovery

theorem spares_removeSuperseded (dir : Path) (id : Nat) (d : Disk) :
    d.Spares (removeSuperseded dir id d).2 := by
  rw [removeSuperseded]
  have hasked := (still_isThere ((RunName.mk .finished id).path dir) d).spares
  rw [DiskM.lift_bind]
  refine hasked.trans ?_
  split
  · exact spares_remove (RunName.noLock _ dir) _
  · exact .refl _

/-- Whether a merge is complete is found out without a change, and a complete one is no folder. -/
theorem complete_still (p : Path) (d : Disk) : ∃ complete d', (tryCatch (do
      discard <| RunFile.openAt p
      return true) fun _ => return false : DiskM StoreError Bool) d = (.ok complete, d') ∧
    d.Still d' ∧ (complete = true → d'.node? p.resolved ≠ some .folder) := by
  have hstill := still_openAt p d
  cases hopen : RunFile.openAt p d with
  | mk r d₁ =>
    rw [hopen] at hstill
    cases r with
    | ok f =>
      have hdone : (do
          discard <| RunFile.openAt p
          return true : DiskM StoreError Bool) d = (.ok true, d₁) :=
        DiskM.bind_of_ok (DiskM.discard_of_ok hopen)
      exact ⟨true, d₁, DiskM.tryCatch_of_ok hdone, hstill,
        fun _ => (RunFile.openAt_spares hopen).2⟩
    | error e =>
      exact ⟨false, d₁,
        DiskM.tryCatch_of_error (DiskM.bind_of_error (DiskM.discard_of_error hopen)),
        hstill, nofun⟩

theorem spares_settle (dir : Path) (runs merged : List Nat) (d : Disk) :
    d.Spares (settle dir runs merged d).2 := by
  induction merged generalizing runs d with
  | nil => exact .refl d
  | cons id rest ih =>
    rw [settle]
    obtain ⟨complete, d₁, hasked, hstill, hthere⟩ :=
      complete_still ((RunName.mk .merged id).path dir) d
    rw [DiskM.bind_of_ok hasked]
    refine hstill.spares.trans ?_
    cases complete with
    | false =>
      refine spares_bind ?_ fun _ d₂ _ => ih runs d₂
      exact spares_remove ((RunName.mk .merged id).noLock dir) d₁
    | true =>
      have hremoved : d₁.Spares ((runs.filter (· ≤ id)).forM (removeSuperseded dir) d₁).2 :=
        spares_forM (fun run _ => spares_removeSuperseded dir run) d₁
      refine spares_bind hremoved fun _ d₂ hdone => spares_bind ?_ fun _ d₃ _ => ih _ d₃
      rw [hdone] at hremoved
      exact spares_naming _ id dir (hremoved.notFolder (hthere rfl))

end Recovery

theorem spares_recover (dir : Path) (d : Disk) : d.Spares (recover dir d).2 := by
  rw [recover]
  refine spares_bind ?_ fun names d₁ _ => spares_bind ?_ fun _ d₂ _ => ?_
  · exact (still_list dir d).spares
  · refine spares_forM (fun id _ d' => ?_) d₁
    exact spares_remove ((RunName.mk .unfinished id).noLock dir) d'
  · exact Recovery.spares_settle dir _ _ d₂

/-- A folder that is opened is brought into order, and no lock changes hands. -/
theorem Generation.keepsLocks_openIn (config : Config) (d : Disk) :
    d.KeepsLocks (Generation.openIn config d).2 := by
  rw [Generation.openIn]
  refine DiskM.related_bind (R := KeepsLocks) KeepsLocks.trans ?_ fun _ d₁ _ => ?_
  · exact (makeFolders_spec config.dir rfl).1.keepsLocks
  · have hrest : d₁.Spares ((do
        recover config.dir
        Generation.load config : DiskM StoreError Generation) d₁).2 :=
      spares_bind (spares_recover config.dir d₁) fun _ d₂ _ =>
        (Generation.still_load config d₂).spares
    exact hrest.toKeepsLocks

theorem Generation.noLocks_of_openIn {config : Config} {g : Generation}
    (h : Generation.openIn config d = (.ok g, d')) : g.NoLocks := by
  obtain ⟨-, d₁, -, hrest⟩ := DiskM.exists_of_bind h
  obtain ⟨-, d₂, -, hload⟩ := DiskM.exists_of_bind hrest
  exact noLocks_of_load hload

/-! ## Background work -/

namespace Core

open StateProgram

variable {c c' : Core}

/-- None of the generations of a core has a lock file for a run. -/
def NoLocks (c : Core) : Prop := ∀ g ∈ c.generations, g.NoLocks

theorem NoLocks.generation (h : c.NoLocks) : c.generation.NoLocks :=
  h _ (Array.getElem_mem c.current_lt)

theorem NoLocks.congr (h : c.NoLocks) (hsame : c'.generations = c.generations) : c'.NoLocks :=
  fun g hg => h g (hsame ▸ hg)

theorem NoLocks.install (h : c.NoLocks) {g : Generation} (hg : g.NoLocks) :
    (c.install g).NoLocks := by
  intro other hother
  rcases Array.mem_push.mp hother with hold | rfl
  · exact h other hold
  · exact hg

theorem NoLocks.retired (h : c.NoLocks) : c.retired.NoLocks := by
  intro g hg
  rcases Array.mem_or_eq_of_mem_setIfInBounds hg with hold | rfl
  · exact h g hold
  · exact h.generation

/-- A core without lock files for runs, on a disk whose locks have been spared from some moment on. -/
structure Guarded (d : Disk) (c : Core) (d' : Disk) : Prop where
  spares : d.Spares d'
  noLocks : c.NoLocks

theorem Guarded.refl (h : c.NoLocks) (d : Disk) : Guarded d c d := ⟨.refl d, h⟩

theorem Guarded.trans (h : Guarded d c d') (h' : Guarded d' c' d'') : Guarded d c' d'' :=
  ⟨h.spares.trans h'.spares, h'.noLocks⟩

/-- A folder is loaded in the end, or the core stays as it was. -/
theorem NoLocks.load (h : c.NoLocks) (config : Config) (d : Disk)
    {publish : Core → Generation → Core}
    (hpublish : ∀ g, (publish c g).generations = (c.install g).generations) :
    Guarded d ((do
      let next ← onDisk (Generation.load config)
      modify (publish · next) : CoreM Unit) c d).1.2 ((do
      let next ← onDisk (Generation.load config)
      modify (publish · next) : CoreM Unit) c d).2 := by
  have hspares := (Generation.still_load config d).spares
  cases hload : Generation.load config d with
  | mk r d' =>
    rw [hload] at hspares
    cases r with
    | error e =>
      rw [bind_of_error (onDisk_eq hload)]
      exact ⟨hspares, h⟩
    | ok g =>
      rw [bind_of_ok (onDisk_eq hload)]
      exact ⟨hspares, (h.install (Generation.noLocks_of_load hload)).congr (hpublish g)⟩

theorem NoLocks.flushBuffer (h : c.NoLocks) (id : Nat) (d : Disk) :
    Guarded d (Core.flushBuffer id c d).1.2 (Core.flushBuffer id c d).2 := by
  unfold Core.flushBuffer
  rw [get_bind]
  have hspares := c.generation.spares_persist ((c.buffers id).toList .all) d
  cases hpersist : c.generation.persist ((c.buffers id).toList .all) d with
  | mk r d₁ =>
    rw [hpersist] at hspares
    cases r with
    | error e =>
      rw [bind_of_error (discard_of_error (onDisk_eq hpersist))]
      exact ⟨hspares, h⟩
    | ok run =>
      rw [bind_of_ok (discard_of_ok (onDisk_eq hpersist))]
      exact Guarded.trans ⟨hspares, h⟩ (h.load c.config d₁ fun _ => rfl)

theorem NoLocks.afterMerge (h : c.NoLocks) {merged : Option Nat} (d : Disk)
    (hmerged : ∀ id, merged = some id →
      d.node? ((RunName.mk .merged id).path c.generation.dir).resolved ≠ some .folder) :
    Guarded d (c.afterMerge merged c d).1.2 (c.afterMerge merged c d).2 := by
  unfold Core.afterMerge
  have hspares := Generation.spares_removeRuns h.generation d
  cases hremove : c.generation.removeRuns d with
  | mk r d₁ =>
    rw [hremove] at hspares
    have hremoved : Guarded d c.retired d₁ := ⟨hspares, h.retired⟩
    cases r with
    | error e =>
      rw [bind_of_error (retire_of_error hremove)]
      exact hremoved
    | ok =>
      rw [bind_of_ok (retire_of_ok hremove)]
      cases merged with
      | none => exact hremoved.trans (h.retired.load c.config d₁ fun _ => rfl)
      | some id =>
        dsimp only
        have hpublished := c.generation.spares_publish id (hspares.notFolder (hmerged id rfl))
        cases hpublish : c.generation.publish id d₁ with
        | mk r d₂ =>
          rw [hpublish] at hpublished
          have hnamed := hremoved.trans ⟨hpublished, h.retired⟩
          cases r with
          | error e =>
            rw [bind_of_error (onDisk_eq hpublish)]
            exact hnamed
          | ok =>
            rw [bind_of_ok (onDisk_eq hpublish)]
            exact hnamed.trans (h.retired.load c.config d₂ fun _ => rfl)

theorem NoLocks.compactRuns (h : c.NoLocks) (d : Disk) :
    Guarded d (Core.compactRuns c d).1.2 (Core.compactRuns c d).2 := by
  by_cases hlayers : c.hasLayers = true
  · rw [compactRuns_of_hasLayers hlayers]
    obtain ⟨hspares, hthere⟩ :=
      c.generation.spares_writeMerged c.buffers c.activeId c.flushing d
    cases hwrite : c.generation.writeMerged c.buffers c.activeId c.flushing d with
    | mk r d₁ =>
      rw [hwrite] at hspares hthere
      cases r with
      | error e =>
        rw [bind_of_error (onDisk_eq hwrite)]
        exact ⟨hspares, h⟩
      | ok merged =>
        rw [bind_of_ok (onDisk_eq hwrite)]
        exact Guarded.trans ⟨hspares, h⟩
          (h.afterMerge d₁ fun id hid => hthere id (congrArg Except.ok hid))
  · rw [compactRuns_of_not (by simpa using hlayers)]
    exact .refl h d

end Core

theorem Core.NoLocks.effect {c : Core} (h : c.NoLocks) (task : Task) (d : Disk) :
    Core.Guarded d (task.effect (c, d)).1 (task.effect (c, d)).2 := by
  cases task with
  | flush id => exact h.flushBuffer id d
  | compaction planned =>
    by_cases hplanned : c.isLive planned = true
    · rw [Task.effect, Task.run_compaction hplanned]
      obtain ⟨hspares, hnoLocks⟩ := h.compactRuns d
      exact ⟨hspares, hnoLocks.congr rfl⟩
    · have hsame : (Task.compaction planned).effect (c, d) = (c.clearCompaction, d) := by
        rw [Task.effect, Task.run]
        simp only [if_neg hplanned]
      rw [hsame]
      exact ⟨.refl d, h.congr rfl⟩
  | barrier => exact .refl h d

/-- Background work spares the locks, whatever waits to be done. -/
theorem Core.NoLocks.effects {c : Core} (h : c.NoLocks) (tasks : List Task) (d : Disk) :
    Core.Guarded d (Task.effects tasks (c, d)).1 (Task.effects tasks (c, d)).2 := by
  induction tasks generalizing c d with
  | nil => exact .refl h d
  | cons task tasks ih => exact (h.effect task d).trans (ih (h.effect task d).noLocks _)

end LayeredStore
