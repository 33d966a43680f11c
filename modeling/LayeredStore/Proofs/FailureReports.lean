import LayeredStore.Proofs.Mailbox

/-!
# Reports of failures

The worker keeps one failure for those who ask: the oldest since the last report. The failures of
its tasks are thereby cut into spells, one before each report, and a report tells of the first
failure of its spell. What fails after that and before the report is told to those alone who hold
the tickets.

* `Exchange.Accounted` : the account of the failures that the moves of an exchange keep.
* `Exchange.accounted_run` : it is kept in any interleaving of tasks and reports.
-/

namespace LayeredStore

variable {τ σ : Type}

/-! ## Spells -/

theorem Worker.failure_note (w : Worker τ) (ticket : Ticket) (result : Except StoreError Unit) :
    (w.note ticket result).failure =
      w.failure.or (Outcome.failure? ticket (.finished result)) := by
  cases result with
  | ok => exact Option.or_none.symm
  | error e => cases hfailure : w.failure <;> simp [note, hfailure, Outcome.failure?]

namespace Exchange

variable {execute : Ticket → τ → σ → Outcome × σ} {x : Exchange τ σ}

/-- The failures of the tasks that ran, oldest first. -/
def failures (x : Exchange τ σ) : List Failure :=
  x.executed.filterMap fun r => r.2.failure? r.1.ticket

/-- The spells of failures that the reports make, the last one being still under way. -/
def spells (x : Exchange τ σ) : List (List Failure) := x.reports.map Prod.fst ++ [x.unheard]

/-- Each failure falls into one spell, and the first of a spell is what is told of it. -/
structure Accounted (x : Exchange τ σ) : Prop where
  failures : x.failures = x.spells.flatten
  oldest : ∀ report ∈ x.reports, report.2 = report.1.head?
  slot : x.worker.failure = x.unheard.head?

namespace Accounted

theorem start (shared : σ) : (start shared : Exchange τ σ).Accounted where
  failures := rfl
  oldest _ hreport := nomatch hreport
  slot := rfl

theorem takeFailure (h : x.Accounted) : (x.step execute .takeFailure).Accounted where
  failures := by
    refine Eq.trans h.failures ?_
    simp [spells, step]
  oldest report hreport := by
    rcases List.mem_append.mp hreport with hreport | hreport
    · exact h.oldest report hreport
    · rw [List.mem_singleton.mp hreport]
      exact h.slot
  slot := rfl

/-- A job that ends adds its failure to the spell that is under way. -/
theorem work_busy (h : x.Accounted) {job : Job τ} (hbusy : x.stage = .busy job) :
    (x.work execute).Accounted := by
  have hexecuted : x.executed = x.ended := by
    rw [executed, hbusy]
    exact List.append_nil _
  have hfailures : x.ended.filterMap (fun r => r.2.failure? r.1.ticket) = x.spells.flatten := by
    rw [← hexecuted]
    exact h.failures
  rw [work, hbusy]
  dsimp only
  split
  · next result shared hexecute =>
    exact {
      failures := by
        show (x.ended ++ [(job, Outcome.finished result)]).filterMap
          (fun r => r.2.failure? r.1.ticket) = _
        rw [List.filterMap_append, hfailures]
        cases hfailure : Outcome.failure? job.ticket (.finished result) <;>
          simp [spells, hfailure]
      oldest := h.oldest
      slot := by
        show (x.worker.note job.ticket result).failure = _
        rw [Worker.failure_note, h.slot]
        cases x.unheard <;> cases Outcome.failure? job.ticket (.finished result) <;> rfl }
  · next shared hexecute =>
    exact {
      failures := by
        show (x.ended ++ [(job, Outcome.crashed)] ++ []).filterMap
          (fun r : Job τ × Outcome => r.2.failure? r.1.ticket) = _
        rw [List.append_nil, List.filterMap_append, hfailures]
        exact List.append_nil _
      oldest := h.oldest
      slot := h.slot }

theorem work (h : x.Accounted) : (x.work execute).Accounted := by
  -- only the end of a job adds to the account, not the moves around it
  have hsame {y : Exchange τ σ} (hexecuted : y.executed = x.executed)
      (hreports : y.reports = x.reports) (hunheard : y.unheard = x.unheard)
      (hfailure : y.worker.failure = x.worker.failure) : y.Accounted := {
    failures := by
      rw [Exchange.failures, hexecuted, spells, hreports, hunheard]
      exact h.failures
    oldest := hreports ▸ h.oldest
    slot := by rw [hfailure, hunheard, h.slot] }
  cases hstage : x.stage with
  | busy job => exact h.work_busy hstage
  | idle =>
    have hnone : x.executed = x.ended ++ [] := by rw [executed, hstage]; rfl
    rw [Exchange.work, hstage]
    dsimp only
    split
    · exact hsame hnone.symm rfl rfl rfl
    · split
      · exact h
      · exact hsame hnone.symm rfl rfl rfl
  | answering job result =>
    have hlast : x.executed = x.ended ++ [(job, .finished result)] := by
      rw [executed, hstage]
      rfl
    rw [Exchange.work, hstage]
    refine hsame ?_ rfl rfl rfl
    rw [hlast]
    exact List.append_nil _
  | dying job =>
    have hnone : x.executed = x.ended ++ [] := by rw [executed, hstage]; rfl
    rw [Exchange.work, hstage]
    exact hsame hnone.symm rfl rfl rfl
  | gone =>
    rw [Exchange.work, hstage]
    exact h

theorem step (h : x.Accounted) (move : Move τ σ) : (x.step execute move).Accounted := by
  cases move with
  | submit task work =>
    rw [Exchange.step]
    rcases x.worker.submit_cases task work with ⟨-, -, hsubmit⟩ | ⟨issued, hsubmit, -⟩
    · rw [hsubmit]
      exact { h with slot := h.slot }
    · rw [hsubmit]
      exact { h with slot := h.slot }
  | takeFailure => exact h.takeFailure
  | join =>
    rw [Exchange.step]
    split
    · exact { h with slot := h.slot }
    · exact h
  | work => exact h.work
  | shutdown | meanwhile change => exact { h with slot := h.slot }

theorem run (h : x.Accounted) (moves : List (Move τ σ)) : (x.run execute moves).Accounted := by
  induction moves generalizing x with
  | nil => exact h
  | cons move moves ih => exact ih (h.step move)

end Accounted

end Exchange

end LayeredStore
