import LayeredStore.Proofs.Histories

/-!
# What a store leaves to those who still read it

A scan goes on reading the buffers and the run files that it was started on, long after the store has
sealed and flushed the buffers and merged the runs away. What it can rely on:

* `Core.Grows` : a buffer is only ever written to, and a sealed one stays what it is under its number.
* `Disk.KeepsFiles` : a file keeps its content, also when its name is gone.

Every event but the opening of another store keeps to both, if no merge was left in the folder that a
compaction could write over (`Describes.onward`).
-/

namespace LayeredStore

open Disk Generation StateProgram

variable {d d' d'' start : Disk} {dir place : Path} {l : Layers} {c c' c'' : Core} {s : Session}
  {tasks : List Task}

/-! ## Files -/

namespace Disk

/-- The files of a disk are there on another one, with the content that they had. -/
structure KeepsFiles (d d' : Disk) : Prop where
  size : d.files.size ≤ d'.files.size
  content : ∀ {id : Nat}, id < d.files.size → (d'.file id).content = (d.file id).content

theorem KeepsFiles.refl (d : Disk) : d.KeepsFiles d := ⟨Nat.le_refl _, fun _ => rfl⟩

theorem KeepsFiles.trans (h : d.KeepsFiles d') (h' : d'.KeepsFiles d'') : d.KeepsFiles d'' where
  size := Nat.le_trans h.size h'.size
  content hid := (h'.content (Nat.lt_of_lt_of_le hid h.size)).trans (h.content hid)

theorem Still.keepsFiles (h : d.Still d') : d.KeepsFiles d' :=
  ⟨Nat.le_of_eq (by rw [h.files]), fun _ => by rw [h.file]⟩

theorem Relocked.keepsFiles (h : d.Relocked d') : d.KeepsFiles d' :=
  ⟨Nat.le_of_eq h.size.symm, fun _ => h.contents _⟩

/-- What writes to no file but one at a free place keeps the files that there were. -/
theorem keepsFiles_of_free {q : Path} (hsize : d.files.size ≤ d'.files.size)
    (hfiles : ∀ {id : Nat}, id < d.files.size → d.node? q ≠ some (.file id) →
      d'.file id = d.file id) (hfree : d.node? q = none) : d.KeepsFiles d' :=
  ⟨hsize, fun hid => by rw [hfiles hid (by simp [hfree])]⟩

end Disk

/-! ## Buffers -/

/-- A buffer has become another by writes: it still has every key, and what is new was written. -/
structure Buffer.Grows (written : List Entry) (b b' : Buffer) : Prop where
  keys : ∀ e ∈ b.entries, ∃ e' ∈ b'.entries, e'.key = e.key
  entries : ∀ e ∈ b'.entries, e ∈ b.entries ∨ e ∈ written

variable {written later : List Entry}

theorem Buffer.Grows.refl (b : Buffer) : b.Grows written b := ⟨fun e he => ⟨e, he, rfl⟩, fun _ => .inl⟩

theorem Buffer.Grows.trans {b b' b'' : Buffer} (h : b.Grows written b') (h' : b'.Grows later b'') :
    b.Grows (later ++ written) b'' where
  keys e he := by
    obtain ⟨e', he', hkey⟩ := h.keys e he
    obtain ⟨e'', he'', hkey'⟩ := h'.keys e' he'
    exact ⟨e'', he'', hkey'.trans hkey⟩
  entries e he := by
    rcases h'.entries e he with he | he
    · exact (h.entries e he).imp id (List.mem_append_right _)
    · exact .inr (List.mem_append_left _ he)

theorem Buffer.grows_put {b b' : Buffer} {e : Entry} (h : b.put e = .ok b') : b.Grows [e] b' := by
  obtain ⟨-, hentries, -⟩ := Buffer.of_put h
  refine ⟨fun x hx => ?_, fun x hx => ?_⟩
  · have hfound := Log.entryOf_insertEntry b.ascending e x.key
    rw [(entryOf_eq_some_iff b.ascending).mpr hx] at hfound
    rw [hentries]
    split at hfound
    · next hkey => exact ⟨e, mem_of_entryOf hfound, hkey⟩
    · exact ⟨x, mem_of_entryOf hfound, rfl⟩
  · rw [hentries] at hx
    exact (mem_of_mem_insertEntry hx).symm.imp id List.mem_singleton.mpr

namespace Core

/-- A core has become another by writes: the buffers have grown under their numbers. -/
structure Grows (written : List Entry) (c c' : Core) : Prop where
  activeId_le : c.activeId ≤ c'.activeId
  buffers : ∀ {id : Nat}, id ≤ c.activeId → (c.buffers id).Grows written (c'.buffers id)

theorem Grows.refl (c : Core) : c.Grows written c := ⟨Nat.le_refl _, fun _ => .refl _⟩

theorem Grows.mono (h : c.Grows written c') (hsub : written ⊆ later) : c.Grows later c' where
  activeId_le := h.activeId_le
  buffers hid := ⟨(h.buffers hid).keys, fun e he => ((h.buffers hid).entries e he).imp id (@hsub e)⟩

theorem Grows.trans (h : c.Grows written c') (h' : c'.Grows later c'') :
    c.Grows (later ++ written) c'' where
  activeId_le := Nat.le_trans h.activeId_le h'.activeId_le
  buffers hid := (h.buffers hid).trans (h'.buffers (Nat.le_trans hid h.activeId_le))

theorem Retains.grows (h : c.Retains c') : c.Grows written c' := by
  have hid : c'.activeId = c.activeId := congrArg Array.size h.sealedBuffers
  have hbuffers : c'.buffers = c.buffers := by
    funext id
    rw [Core.buffers, Core.buffers, hid, h.active, h.sealedBuffers]
  exact ⟨Nat.le_of_eq hid.symm, fun _ => hbuffers ▸ .refl _⟩

/-- A write to the active buffer. -/
theorem grows_written {active : Buffer} {e : Entry} (h : c.active.put e = .ok active) :
    c.Grows [e] { c with active } where
  activeId_le := Nat.le_refl _
  buffers {id} hid := by
    show (if id = c.activeId then c.active else _).Grows [e] (if id = c.activeId then active else _)
    split
    · exact Buffer.grows_put h
    · exact .refl _

theorem grows_upsert {e : Entry} {due : Bool} (h : c.upsert e = .ok (due, c')) : c.Grows [e] c' := by
  obtain ⟨active, flushInFlight, hput, rfl⟩ := of_upsert h
  have hgrows := grows_written hput
  exact ⟨hgrows.activeId_le, hgrows.buffers⟩

/-- The sealed buffer keeps its number and its entries, and the active one has a new number. -/
theorem grows_sealedWith {frozen : Buffer} (h : frozen.entries = c.active.entries) :
    c.Grows written (c.sealedWith frozen) where
  activeId_le := Nat.le_of_lt (c.activeId_lt_sealedWith frozen)
  buffers {id} hid := by
    by_cases hsame : id = c.activeId
    · rw [hsame, c.buffers_sealedWith, Core.buffers, if_pos rfl]
      exact ⟨fun e he => ⟨e, h ▸ he, rfl⟩, fun e he => .inl (h ▸ he)⟩
    · rw [c.buffers_sealedWith_of_lt frozen (Nat.lt_of_le_of_ne hid hsame)]
      exact .refl _

theorem grows_sealActive {id : Nat} (h : c.sealActive = .ok (some id, c')) : c.Grows written c' := by
  rcases of_sealActive h with ⟨hnone, -⟩ | ⟨frozen, hfreeze, -, rfl⟩
  · cases hnone
  · obtain ⟨-, rfl⟩ := Buffer.of_freeze hfreeze
    exact grows_sealedWith rfl

/-- No task writes to a buffer. -/
theorem grows_effect (task : Task) (c : Core) (d : Disk) :
    c.Grows written (task.effect (c, d)).1 := by
  cases task with
  | flush id =>
    have heffect : ((Task.flush id).effect (c, d)).1 = (flushBuffer id c d).1.2 := rfl
    rw [heffect]
    rcases flushBuffer_cases id c d with ⟨g, hdone⟩ | ⟨e, hfailed⟩
    · rw [hdone]
      exact ⟨Nat.le_refl _, fun _ => .refl _⟩
    · rw [hfailed]
      exact .refl c
  | compaction planned =>
    obtain ⟨core, hretains, hcore⟩ := retains_compaction planned c d
    have hcleared : c.Retains core.clearCompaction := { hretains with }
    rw [hcore]
    exact hcleared.grows
  | barrier => exact .refl c

theorem grows_effects (tasks : List Task) (c : Core) (d : Disk) :
    c.Grows [] (Task.effects tasks (c, d)).1 := by
  induction tasks generalizing c d with
  | nil => exact .refl c
  | cons task tasks ih => exact (grows_effect task c d).trans (ih _ _)

end Core

/-- What an operation does before the worker gets to it leaves the disk alone, and lets the buffers
grow at most. -/
theorem Store.stable_grows (c : Core) (written : List Entry) (d : Disk) :
    Store.Stable fun s d' => c.Grows written s.core ∧ d' = d where
  submitted _ hs := hs
  flagged _ _ hs := ⟨⟨hs.1.activeId_le, hs.1.buffers⟩, hs.2⟩
  sealed hseal hs := by
    have hgrows : Core.Grows [] _ _ := Core.grows_sealActive hseal
    exact ⟨hs.1.trans hgrows, hs.2⟩

/-! ## Tasks -/

namespace Layers

/-- A task changes no file that there was. -/
theorem HeldBy.keepsFiles_effect (h : l.HeldBy c d place) (hsane : l.Sane) (hleft : l.left = none)
    (hfaultless : d.Faultless) {task : Task} (hawaits : l.Awaits c (task :: tasks)) :
    d.KeepsFiles (task.effect (c, d)).2 := by
  obtain ⟨chore, queue, hfirst, -, hqueue⟩ := List.forall₂_cons_left_iff.mp hawaits.does
  cases hfirst with
  | @flush id hid =>
    obtain ⟨⟨log, hlog⟩, -⟩ := hsane.flushing_of_cons hqueue
    obtain ⟨d₁, hpersist, hadded⟩ := (h.persist hsane hlog hid).resolve_right
      fun hfailed => hfailed.2 hfaultless
    have hstill := still_flushBuffer id c d
    rw [hpersist] at hstill
    exact (keepsFiles_of_free hadded.size hadded.files (h.unfinished h.nextRun_lt)).trans
      hstill.keepsFiles
  | @compaction planned _ =>
    by_cases hplanned : c.isLive planned = true
    swap
    · have hsame : (Task.compaction planned).effect (c, d) = (c.clearCompaction, d) := by
        rw [Task.effect, Task.run]
        simp only [if_neg hplanned]
      rw [hsame]
      exact .refl d
    rw [Task.effect, Task.run_compaction hplanned]
    by_cases hany : l.runs = [] ∧ l.buffered = []
    · rw [h.toShownBy.compactRuns_of_nothing hany]
      exact .refl d
    have hg := h.mirrors hsane
      (hsane.live_of_planned (by rw [hqueue, hplanned]; exact List.mem_cons_self))
    have hfree := h.noMerge hleft hg.mergedId_lt
    obtain ⟨merged, -, -, houtcome⟩ := Core.compactRuns_spec hg.among (h.hasLayers_iff.mpr hany)
      (by simp [mergedName, hfree])
    exact keepsFiles_of_free (houtcome.works hg).size (houtcome.files hg) hfree

theorem HeldBy.keepsFiles_effects (h : l.HeldBy c d place) (hsane : l.Sane) (hleft : l.left = none)
    (hfaultless : d.Faultless) (hawaits : l.Awaits c tasks)
    (hwithin : ∀ n, n < tasks.length → (Task.effects (tasks.take (n + 1)) (c, d)).1.Within
      (Task.effects (tasks.take (n + 1)) (c, d)).2) :
    d.KeepsFiles (Task.effects tasks (c, d)).2 := by
  induction tasks generalizing l c d with
  | nil => exact .refl d
  | cons task tasks ih =>
    have hfirst := h.keepsFiles_effect hsane hleft hfaultless hawaits
    obtain ⟨-, hheld, hawaits', hworks, -⟩ :=
      (h.effect hsane hfaultless.truthful hawaits (hwithin 0 (Nat.zero_lt_succ _))).resolve_right
        fun hfailed => hfailed.2 hfaultless
    exact hfirst.trans (ih hheld hsane.work (left_work hleft) (hfaultless.evolves hworks.toEvolves)
      hawaits' fun n hn => hwithin (n + 1) (Nat.succ_lt_succ hn))

end Layers

/-! ## Events -/

/-- A session has gone on: some more writes were accepted, and what could be read of the buffers and
the files can still be read. -/
structure Session.Onward (s s' : Session) (since : List Write) : Prop where
  writes : s'.writes = since ++ s.writes
  core : s.store.core.Grows (since.map Write.entry) s'.store.core
  disk : s.disk.KeepsFiles s'.disk

theorem Session.Onward.refl (s : Session) : s.Onward s [] := ⟨rfl, .refl _, .refl _⟩

theorem Session.Onward.trans {s s' s'' : Session} {since later : List Write}
    (h : s.Onward s' since) (h' : s'.Onward s'' later) : s.Onward s'' (later ++ since) where
  writes := by rw [h'.writes, h.writes, List.append_assoc]
  core := by
    rw [List.map_append]
    exact h.core.trans h'.core
  disk := h.disk.trans h'.disk

/-- An operation that is put together from changes of the flags, sealing and handing over tasks. -/
theorem Session.onward_after {α : Type} {operation : StoreM α} (s : Session)
    (h : ∀ (c : Core) (d : Disk), Keeps (fun s d' => c.Grows [] s.core ∧ d' = d) operation) :
    s.Onward (s.after operation) [] := by
  obtain ⟨hcore, hdisk⟩ := h s.store.core s.disk s.store s.disk ⟨.refl _, rfl⟩
  exact ⟨rfl, hcore, hdisk ▸ .refl s.disk⟩

namespace Layers

theorem Describes.onward_upsert (h : l.Describes start s dir place) (e : Entry) :
    ∃ since, s.Onward (s.upsert e) since := by
  by_cases haccepts : l.accepts e = true
  swap
  · rw [h.upsert_of_not haccepts]
    exact ⟨[], .refl s⟩
  have hstable := Store.stable_grows s.store.core [e] s.disk
  obtain ⟨hcore, hdisk⟩ := hstable.upsert (e := e) (fun hupsert hs =>
    ⟨(hs.1.trans (Core.grows_upsert hupsert)).mono (by simp), hs.2⟩) s.store s.disk ⟨.refl _, rfl⟩
  rw [← Session.store_upsert] at hcore
  rw [← Session.disk_upsert] at hdisk
  refine ⟨[⟨e, s.writes.length⟩], ?_, hcore, hdisk ▸ .refl s.disk⟩
  rw [(h.upsert e).writes, h.writes, Layers.upsert, if_pos haccepts]
  split
  · rw [writes_sealed]
    rfl
  · rfl

theorem Describes.onward_waitForBackground (h : l.Describes start s dir place)
    (hleft : l.left = none) (hfaultless : start.Faultless) (hwithin : s.WorksWithin) :
    s.Onward (s.step .waitForBackground) [] := by
  by_cases hclosed : l.closed = true
  · rw [h.step_waitForBackground_of_closed hclosed]
    exact .refl s
  · obtain ⟨result, worker, -, -, hdone⟩ :=
      Store.waitForBackground_eq (h.busy (by simpa using hclosed)) s.disk
    rw [Session.step, Session.after, hdone]
    exact ⟨rfl, Core.grows_effects _ _ _, h.held.keepsFiles_effects h.sane hleft
      (hfaultless.evolves h.since) h.awaits fun n _ => hwithin (n + 1)⟩

/-- Closing does what waiting and starting a flush do, and then the tasks that wait again. -/
theorem Describes.onward_close (h : l.Describes start s dir place) (hleft : l.left = none)
    (hfaultless : start.Faultless) (hwithin : s.StaysWithin .close) :
    s.Onward (s.step .close) [] := by
  by_cases hclosed : s.store.closed = true
  · rw [Session.step_close_of_closed hclosed]
    exact .refl s
  have hopen : s.store.closed = false := by simpa using hclosed
  obtain ⟨hclosing, hlast⟩ := (h.closing hfaultless.truthful hopen hwithin).resolve_right
    fun hfailed => hfailed.2 hfaultless
  have hfirst := (h.onward_waitForBackground hleft hfaultless (hwithin.1 hopen)).trans
    ((s.step .waitForBackground).onward_after fun c d => (Store.stable_grows c [] d).scheduleFlush)
  have hleft' : l.workAll.sealed.left = none :=
    (left_sealed _).trans (left_step hleft .waitForBackground)
  have hkept := hclosing.held.keepsFiles_effects hclosing.sane hleft'
    (hfaultless.evolves hclosing.since) hclosing.awaits hlast
  have hlocks := relocked_unlocked s.closing.store s.closing.settled.2
  have hrest : s.closing.Onward (s.step .close) [] := by
    rw [Session.step_close hopen]
    exact ⟨hfirst.writes.symm, Core.grows_effects _ _ _, hkept.trans hlocks.keepsFiles⟩
  exact hfirst.trans hrest

/-- Whatever happens to a store but the opening of another one, what was read can be read on. -/
theorem Describes.onward (h : l.Describes start s dir place) (hleft : l.left = none)
    (hfaultless : start.Faultless) {event : Event} (hkeeps : event.KeepsStore)
    (hwithin : s.StaysWithin event) : ∃ since, s.Onward (s.step event) since := by
  have hfaultless' := hfaultless.evolves h.since
  have hflush := s.onward_after fun c d => (Store.stable_grows c [] d).scheduleFlush
  have hcompact := s.onward_after fun c d => (Store.stable_grows c [] d).scheduleCompaction
  cases event with
  | upsert e => exact h.onward_upsert e
  | scheduleFlush => exact ⟨[], hflush⟩
  | scheduleCompaction => exact ⟨[], hcompact⟩
  | flush =>
    exact ⟨[], s.onward_after fun c d => (Store.stable_grows c [] d).scheduleFlush.map _⟩
  | compact =>
    exact ⟨[], s.onward_after fun c d => (Store.stable_grows c [] d).scheduleCompaction.map _⟩
  | status =>
    rw [Session.step_status]
    exact ⟨[], rfl, .refl _, .refl _⟩
  | runNext =>
    cases htasks : s.store.worker.tasks with
    | nil =>
      rw [Session.step_runNext_of_idle htasks]
      exact ⟨[], .refl s⟩
    | cons task tasks =>
      obtain ⟨worker, hdone, -⟩ := Store.runNext_eq s.store s.disk htasks
      rw [Session.step, hdone]
      exact ⟨[], rfl, Core.grows_effect task _ _,
        h.held.keepsFiles_effect h.sane hleft hfaultless' (htasks ▸ h.awaits)⟩
  | waitForBackground => exact ⟨[], h.onward_waitForBackground hleft hfaultless hwithin⟩
  | close => exact ⟨[], h.onward_close hleft hfaultless hwithin⟩
  | reopen => exact hkeeps.elim

end Layers

end LayeredStore
