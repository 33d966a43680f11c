import LayeredStore.Proofs.RecencyMerge
import Mathlib.Data.List.ReduceOption

/-!
# Merges of streams that report errors

A merge drops a stream that reports an error, and reports the error before it gives any further
entry. Two streams without errors are made of one with errors:

* `Pull.untilError` takes the first error for the end. With such streams a merge gives the entries
  that it gives with the streams themselves (`rest_merge_untilError`), as its heads are the same.
* `Pull.withoutErrors` passes over the errors. With such streams a merge goes on as it does with the
  streams themselves until one of them reports an error (`entriesBeforeError_ofSources`). So no
  entry that is given before the first error is out of date.

`Merge.owed` lists the errors that are still to be reported; `errorsOf_merge` says that they are
reported, each once.
-/

namespace LayeredStore

variable {σ : Type} {cmp : Comparator} {p : Pull σ} {s s' : σ} {e : Entry} {cause : StoreError}

/-! ## Items -/

/-- The entries among some items. -/
def entriesOf (items : List Item) : List Entry := items.filterMap Except.toOption

/-- The errors among some items. -/
def errorsOf (items : List Item) : List StoreError :=
  items.filterMap fun
    | .ok _ => none
    | .error cause => some cause

/-- The first error among some items. -/
def firstError? (items : List Item) : Option StoreError := (errorsOf items).head?

/-- The entries in front of the first error. -/
def entriesBeforeError : List Item → List Entry
  | .ok e :: items => e :: entriesBeforeError items
  | .error _ :: _ => []
  | [] => []

@[simp] theorem errorsOf_ok (e : Entry) (items : List Item) :
    errorsOf (.ok e :: items) = errorsOf items := rfl

@[simp] theorem errorsOf_error (cause : StoreError) (items : List Item) :
    errorsOf (.error cause :: items) = cause :: errorsOf items := rfl

@[simp] theorem firstError?_ok (e : Entry) (items : List Item) :
    firstError? (.ok e :: items) = firstError? items := rfl

@[simp] theorem firstError?_error (cause : StoreError) (items : List Item) :
    firstError? (.error cause :: items) = some cause := rfl

/-- Where the entries of some items ascend, those in front of the first error do. -/
theorem entriesBeforeError_isPrefix_entriesOf (items : List Item) :
    entriesBeforeError items <+: entriesOf items := by
  induction items with
  | nil => exact List.nil_prefix
  | cons item items ih =>
    cases item with
    | ok e => exact List.prefix_cons_inj e |>.mpr ih
    | error cause => exact List.nil_prefix

/-! ## Streams -/

namespace Pull

/-- A stream that ends where it would report its first error. -/
def untilError (p : Pull σ) : Pull σ where
  next s :=
    match p.next s with
    | (some (.ok e), s') => (some (.ok e), s')
    | (_, s') => (none, s')
  left := p.left
  left_next := by
    intro s item s' h
    split at h
    · next hnext =>
      obtain ⟨rfl, rfl⟩ := by simpa using h
      exact p.left_next hnext
    · simp at h

/-- Whether an item is an error. -/
def isErrorItem : Item → Bool
  | .ok _ => false
  | .error _ => true

/-- A stream that passes over its errors. -/
def withoutErrors (p : Pull σ) : Pull σ := p.skipping isErrorItem

theorem untilError_of_ok (h : p.next s = (some (.ok e), s')) :
    p.untilError.next s = (some (.ok e), s') := by
  simp only [untilError, h]

theorem untilError_of_error (h : p.next s = (some (.error cause), s')) :
    p.untilError.next s = (none, s') := by
  simp only [untilError, h]

theorem untilError_of_none (h : p.next s = (none, s')) : p.untilError.next s = (none, s') := by
  simp only [untilError, h]

theorem withoutErrors_of_ok (h : p.next s = (some (.ok e), s')) :
    p.withoutErrors.next s = (some (.ok e), s') := by
  show p.find isErrorItem s = _
  rw [find_of_some h]
  rfl

theorem withoutErrors_of_none (h : p.next s = (none, s')) :
    p.withoutErrors.next s = (none, s') := by
  show p.find isErrorItem s = _
  rw [find_of_none (by rw [h]), h]

theorem toList_untilError (p : Pull σ) (s : σ) :
    p.untilError.toList s = (entriesBeforeError (p.toList s)).map .ok := by
  have hgives := gives_toList p s
  generalize p.toList s = items at hgives
  induction hgives with
  | done hnone =>
    refine toList_of_next_none ?_
    rw [untilError_of_none (Prod.ext (hnone ()) rfl)]
  | @item s s' item items hsome hrest ih =>
    cases item with
    | ok e =>
      rw [toList_of_next_some (untilError_of_ok (hsome ())), ih]
      rfl
    | error cause =>
      refine toList_of_next_none ?_
      rw [untilError_of_error (hsome ())]

theorem toList_withoutErrors (p : Pull σ) (s : σ) :
    p.withoutErrors.toList s = (p.rest s).map .ok := by
  have hgives := (gives_toList p s).skipping isErrorItem
  unfold withoutErrors rest
  rw [hgives.toList_eq ()]
  generalize p.toList s = items
  induction items with
  | nil => rfl
  | cons item items ih =>
    cases item with
    | ok e => exact congrArg (Except.ok e :: ·) ih
    | error cause => exact ih

theorem rest_untilError (p : Pull σ) (s : σ) :
    p.untilError.rest s = entriesBeforeError (p.toList s) :=
  rest_of_toList (toList_untilError p s)

theorem rest_withoutErrors (p : Pull σ) (s : σ) : p.withoutErrors.rest s = p.rest s :=
  rest_of_toList (toList_withoutErrors p s)

end Pull

/-! ## Steps of a merge -/

namespace Merge

variable {m : Merge σ} {rank : Nat} {best : Head σ} {heads : Heap (Head σ)}

theorem draw_of_ok (h : p.next s = (some (.ok e), s')) : m.draw p cmp rank s =
    { m with heads := m.heads.push (Head.precedes cmp) ⟨e, rank, s'⟩ } := by
  unfold draw
  rw [h]

theorem draw_of_error (h : p.next s = (some (.error cause), s')) :
    m.draw p cmp rank s = { m with errors := m.errors ++ [cause] } := by
  unfold draw
  rw [h]

theorem draw_of_none (h : p.next s = (none, s')) : m.draw p cmp rank s = m := by
  unfold draw
  rw [h]

theorem next_of_waiting {errors : List StoreError} (h : m.errors = cause :: errors) :
    next p cmp m = (some (.error cause), { m with errors }) := by
  unfold next
  rw [h]

theorem next_of_end (herrors : m.errors = []) (hpop : m.heads.pop (Head.precedes cmp) = none) :
    next p cmp m = (none, m) := by
  unfold next
  rw [herrors]
  dsimp only
  rw [hpop]

/-- What is left of a merge when the entry of its first head is given. -/
def advance (p : Pull σ) (cmp : Comparator) (best : Head σ) (heads : Heap (Head σ)) : Merge σ :=
  ((Merge.mk heads []).draw p cmp best.rank best.rest).skipKey p cmp best.entry.key

theorem next_of_pop (herrors : m.errors = [])
    (hpop : m.heads.pop (Head.precedes cmp) = some (best, heads)) :
    next p cmp m = (some (.ok best.entry), advance p cmp best heads) := by
  unfold next advance
  rw [herrors]
  dsimp only
  rw [hpop]

/-- To show something of every merge, one looks at the step that it takes next. -/
theorem step_induction {P : Merge σ → Prop} (p : Pull σ) (cmp : Comparator)
    (atEnd : ∀ m, m.errors = [] → m.heads.pop (Head.precedes cmp) = none → P m)
    (waiting : ∀ m cause errors, m.errors = cause :: errors → P { m with errors } → P m)
    (entry : ∀ m best heads, m.errors = [] →
      m.heads.pop (Head.precedes cmp) = some (best, heads) → P (advance p cmp best heads) → P m)
    (m : Merge σ) : P m := by
  generalize hn : m.left p = n
  induction n using Nat.strongRecOn generalizing m with
  | _ n ih =>
    have hsmaller {item : Item} {m' : Merge σ} (hnext : next p cmp m = (some item, m')) : P m' :=
      ih (m'.left p) (hn ▸ (p.merge cmp).left_next hnext) m' rfl
    cases herrors : m.errors with
    | cons cause errors => exact waiting m cause errors herrors (hsmaller (next_of_waiting herrors))
    | nil =>
      cases hpop : m.heads.pop (Head.precedes cmp) with
      | none => exact atEnd m herrors hpop
      | some taken =>
        obtain ⟨best, heads⟩ := taken
        exact entry m best heads herrors hpop (hsmaller (next_of_pop herrors hpop))

/-! ## The entries that are given -/

/-- A merge without the errors that wait. -/
def settled (m : Merge σ) : Merge σ := { m with errors := [] }

theorem settled_draw (m : Merge σ) (p : Pull σ) (cmp : Comparator) (rank : Nat) (s : σ) :
    (m.draw p cmp rank s).settled = m.settled.draw p.untilError cmp rank s := by
  cases hnext : p.next s with
  | mk answer s' =>
    cases answer with
    | none => rw [draw_of_none hnext, draw_of_none (Pull.untilError_of_none hnext)]
    | some item =>
      cases item with
      | ok e =>
        rw [draw_of_ok hnext, draw_of_ok (Pull.untilError_of_ok hnext)]
        rfl
      | error cause =>
        rw [draw_of_error hnext, draw_of_none (Pull.untilError_of_error hnext)]
        rfl

theorem settled_skipKey (m : Merge σ) (p : Pull σ) (cmp : Comparator) (key : Bytes) :
    (m.skipKey p cmp key).settled = m.settled.skipKey p.untilError cmp key := by
  fun_induction m.skipKey p cmp key with
  | case1 m hpop =>
    rw [skipKey_of_none (show m.settled.heads.pop (Head.precedes cmp) = none from hpop)]
  | case2 m best heads hpop hkey hlt ih =>
    rw [ih, settled_draw,
      skipKey_of_pop (show m.settled.heads.pop (Head.precedes cmp) = some (best, heads) from hpop),
      if_pos hkey]
    rfl
  | case3 m best heads hpop hkey =>
    rw [skipKey_of_pop (show m.settled.heads.pop (Head.precedes cmp) = some (best, heads) from hpop),
      if_neg hkey]

theorem settled_advance (p : Pull σ) (cmp : Comparator) (best : Head σ) (heads : Heap (Head σ)) :
    (advance p cmp best heads).settled = advance p.untilError cmp best heads := by
  unfold advance
  rw [settled_skipKey, settled_draw]
  rfl

theorem settled_foldl (sources : List (Nat × σ)) (m : Merge σ) :
    (sources.foldl (fun m source => m.draw p cmp source.1 source.2) m).settled =
      sources.foldl (fun m source => m.draw p.untilError cmp source.1 source.2) m.settled := by
  induction sources generalizing m with
  | nil => rfl
  | cons source sources ih => rw [List.foldl_cons, List.foldl_cons, ih, settled_draw]

theorem settled_ofSources (p : Pull σ) (cmp : Comparator) (sources : List (Nat × σ)) :
    (ofSources p cmp sources).settled = ofSources p.untilError cmp sources :=
  settled_foldl sources ⟨.empty, []⟩

/-- The errors apart, a merge gives what it gives if every stream ends at its first error. -/
theorem rest_merge_untilError (p : Pull σ) (cmp : Comparator) (m : Merge σ) :
    (p.merge cmp).rest m = (p.untilError.merge cmp).rest m.settled := by
  induction m using step_induction p cmp with
  | atEnd m herrors hpop =>
    have hnext : (p.merge cmp).next m = (none, m) := next_of_end herrors hpop
    have hnext' : (p.untilError.merge cmp).next m.settled = (none, m.settled) :=
      next_of_end (m := m.settled) (p := p.untilError) rfl hpop
    rw [Pull.rest_of_none (by rw [hnext]), Pull.rest_of_none (by rw [hnext'])]
  | waiting m cause errors herrors ih =>
    have hnext : (p.merge cmp).next m = (some (.error cause), { m with errors }) :=
      next_of_waiting herrors
    rw [Pull.rest_of_error hnext, ih]
    rfl
  | entry m best heads herrors hpop ih =>
    have hnext : (p.merge cmp).next m = (some (.ok best.entry), advance p cmp best heads) :=
      next_of_pop herrors hpop
    have hnext' : (p.untilError.merge cmp).next m.settled =
        (some (.ok best.entry), advance p.untilError cmp best heads) :=
      next_of_pop (m := m.settled) (p := p.untilError) rfl hpop
    rw [Pull.rest_of_ok hnext, Pull.rest_of_ok hnext', ih, settled_advance]

/-! ## The errors that are reported -/

/-- The errors that a merge has still to report: those that wait, and of every source that it draws
from the first. -/
def owed (p : Pull σ) (m : Merge σ) : List StoreError :=
  m.errors ++ m.heads.toList.filterMap fun head => firstError? (p.toList head.rest)

theorem owed_draw (p : Pull σ) (cmp : Comparator) (m : Merge σ) (rank : Nat) (s : σ) :
    ((m.draw p cmp rank s).owed p).Perm (m.owed p ++ (firstError? (p.toList s)).toList) := by
  cases hnext : p.next s with
  | mk answer s' =>
    cases answer with
    | none =>
      rw [draw_of_none hnext, Pull.toList_of_next_none (by rw [hnext])]
      simp [firstError?, errorsOf]
    | some item =>
      rw [Pull.toList_of_next_some hnext]
      cases item with
      | ok e =>
        rw [draw_of_ok hnext, firstError?_ok]
        unfold owed
        rw [List.append_assoc]
        have hpush := (Heap.toList_push (Head.precedes cmp) ⟨e, rank, s'⟩ m.heads).filterMap
          fun head => firstError? (p.toList head.rest)
        refine List.Perm.append_left _ (hpush.trans ?_)
        rw [List.filterMap_cons]
        cases firstError? (p.toList s') with
        | none => simp
        | some cause => exact (List.perm_append_singleton cause _).symm
      | error cause =>
        rw [draw_of_error hnext, firstError?_error]
        unfold owed
        rw [List.append_assoc, List.append_assoc]
        exact List.Perm.append_left _ List.perm_append_comm

/-- A head that is taken out takes the error of its source with it. -/
theorem owed_of_pop (p : Pull σ) (hpop : m.heads.pop (Head.precedes cmp) = some (best, heads)) :
    (m.owed p).Perm
      ((Merge.mk heads m.errors).owed p ++ (firstError? (p.toList best.rest)).toList) := by
  unfold owed
  rw [List.append_assoc]
  have hpopped := (Heap.toList_pop hpop).filterMap fun head => firstError? (p.toList head.rest)
  refine List.Perm.append_left _ (hpopped.trans ?_)
  rw [List.filterMap_cons]
  cases firstError? (p.toList best.rest) with
  | none => simp
  | some cause => exact (List.perm_append_singleton cause _).symm

/-- Going on with the source of a head that is taken out changes nothing in what is owed. -/
theorem owed_redraw (p : Pull σ) (hpop : m.heads.pop (Head.precedes cmp) = some (best, heads)) :
    (((Merge.mk heads m.errors).draw p cmp best.rank best.rest).owed p).Perm (m.owed p) :=
  (owed_draw p cmp _ best.rank best.rest).trans (owed_of_pop p hpop).symm

theorem owed_skipKey (p : Pull σ) (cmp : Comparator) (key : Bytes) (m : Merge σ) :
    ((m.skipKey p cmp key).owed p).Perm (m.owed p) := by
  fun_induction m.skipKey p cmp key with
  | case1 => exact .refl _
  | case2 m best heads hpop _ _ ih => exact ih.trans (owed_redraw p hpop)
  | case3 => exact .refl _

theorem owed_advance (herrors : m.errors = [])
    (hpop : m.heads.pop (Head.precedes cmp) = some (best, heads)) :
    ((advance p cmp best heads).owed p).Perm (m.owed p) := by
  have hredraw := owed_redraw p hpop
  rw [herrors] at hredraw
  exact (owed_skipKey p cmp _ _).trans hredraw

theorem owed_foldl (p : Pull σ) (cmp : Comparator) (sources : List (Nat × σ)) (m : Merge σ) :
    ((sources.foldl (fun m source => m.draw p cmp source.1 source.2) m).owed p).Perm
      (m.owed p ++ sources.filterMap fun source => firstError? (p.toList source.2)) := by
  induction sources generalizing m with
  | nil => simp
  | cons source sources ih =>
    rw [List.foldl_cons]
    refine (ih _).trans (((owed_draw p cmp m source.1 source.2).append_right _).trans ?_)
    rw [List.append_assoc, List.filterMap_cons]
    cases firstError? (p.toList source.2) with
    | none => exact .refl _
    | some cause => exact .refl _

theorem owed_ofSources (p : Pull σ) (cmp : Comparator) (sources : List (Nat × σ)) :
    ((ofSources p cmp sources).owed p).Perm
      (sources.filterMap fun source => firstError? (p.toList source.2)) :=
  owed_foldl p cmp sources ⟨.empty, []⟩

/-- A merge reports the errors that it owes, and no others. -/
theorem errorsOf_merge (p : Pull σ) (cmp : Comparator) (m : Merge σ) :
    (errorsOf ((p.merge cmp).toList m)).Perm (m.owed p) := by
  induction m using step_induction p cmp with
  | atEnd m herrors hpop =>
    have hnext : (p.merge cmp).next m = (none, m) := next_of_end herrors hpop
    rw [Pull.toList_of_next_none (by rw [hnext])]
    unfold owed
    rw [herrors, Heap.pop_eq_none_iff.mp hpop]
    exact .refl _
  | waiting m cause errors herrors ih =>
    have hnext : (p.merge cmp).next m = (some (.error cause), { m with errors }) :=
      next_of_waiting herrors
    rw [Pull.toList_of_next_some hnext, errorsOf_error]
    have howed : m.owed p = cause :: ({ m with errors } : Merge σ).owed p := by
      unfold owed
      rw [herrors]
      rfl
    rw [howed]
    exact ih.cons cause
  | entry m best heads herrors hpop ih =>
    have hnext : (p.merge cmp).next m = (some (.ok best.entry), advance p cmp best heads) :=
      next_of_pop herrors hpop
    rw [Pull.toList_of_next_some hnext, errorsOf_ok]
    exact ih.trans (owed_advance herrors hpop)

/-! ## The entries before the first error -/

theorem errors_isPrefix_draw (p : Pull σ) (cmp : Comparator) (m : Merge σ) (rank : Nat) (s : σ) :
    m.errors <+: (m.draw p cmp rank s).errors := by
  unfold draw
  split
  · exact List.prefix_rfl
  · exact List.prefix_append _ _
  · exact List.prefix_rfl

/-- While it skips a key, a merge drops no error that waits. -/
theorem errors_isPrefix_skipKey (p : Pull σ) (cmp : Comparator) (key : Bytes) (m : Merge σ) :
    m.errors <+: (m.skipKey p cmp key).errors := by
  fun_induction m.skipKey p cmp key with
  | case1 => exact List.prefix_rfl
  | case2 m best heads _ _ _ ih =>
    exact (errors_isPrefix_draw p cmp ⟨heads, m.errors⟩ best.rank best.rest).trans ih
  | case3 => exact List.prefix_rfl

theorem errors_isPrefix_foldl (p : Pull σ) (cmp : Comparator) (sources : List (Nat × σ))
    (m : Merge σ) : m.errors <+:
      (sources.foldl (fun m source => m.draw p cmp source.1 source.2) m).errors := by
  induction sources generalizing m with
  | nil => exact List.prefix_rfl
  | cons source sources ih =>
    rw [List.foldl_cons]
    exact (errors_isPrefix_draw p cmp m source.1 source.2).trans (ih _)

/-- Where no error comes up, passing over errors makes no difference. -/
theorem draw_withoutErrors {rank : Nat} (h : (m.draw p cmp rank s).errors = []) :
    m.draw p.withoutErrors cmp rank s = m.draw p cmp rank s := by
  cases hnext : p.next s with
  | mk answer s' =>
    cases answer with
    | none => rw [draw_of_none hnext, draw_of_none (Pull.withoutErrors_of_none hnext)]
    | some item =>
      cases item with
      | ok e => rw [draw_of_ok hnext, draw_of_ok (Pull.withoutErrors_of_ok hnext)]
      | error cause =>
        rw [draw_of_error hnext] at h
        simp at h

theorem skipKey_withoutErrors {key : Bytes} (h : (m.skipKey p cmp key).errors = []) :
    m.skipKey p.withoutErrors cmp key = m.skipKey p cmp key := by
  fun_induction m.skipKey p cmp key with
  | case1 m hpop => rw [skipKey_of_none hpop]
  | case2 m best heads hpop hkey _ ih =>
    have hdraw : ((Merge.mk heads m.errors).draw p cmp best.rank best.rest).errors = [] :=
      List.prefix_nil.mp (h ▸ errors_isPrefix_skipKey p cmp key _)
    rw [skipKey_of_pop hpop, if_pos hkey, draw_withoutErrors hdraw]
    exact ih h
  | case3 m best heads hpop hkey => rw [skipKey_of_pop hpop, if_neg hkey]

theorem advance_withoutErrors (h : (advance p cmp best heads).errors = []) :
    advance p.withoutErrors cmp best heads = advance p cmp best heads := by
  unfold advance at h ⊢
  have hbefore := errors_isPrefix_skipKey p cmp best.entry.key
    ((Merge.mk heads []).draw p cmp best.rank best.rest)
  rw [h] at hbefore
  rw [draw_withoutErrors (List.prefix_nil.mp hbefore), skipKey_withoutErrors h]

theorem foldl_withoutErrors (sources : List (Nat × σ))
    (h : (sources.foldl (fun m source => m.draw p cmp source.1 source.2) m).errors = []) :
    sources.foldl (fun m source => m.draw p.withoutErrors cmp source.1 source.2) m =
      sources.foldl (fun m source => m.draw p cmp source.1 source.2) m := by
  induction sources generalizing m with
  | nil => rfl
  | cons source sources ih =>
    rw [List.foldl_cons] at h ⊢
    have hdraw : (m.draw p cmp source.1 source.2).errors = [] :=
      List.prefix_nil.mp (h ▸ errors_isPrefix_foldl p cmp sources _)
    rw [draw_withoutErrors hdraw, List.foldl_cons]
    exact ih h

theorem ofSources_withoutErrors {sources : List (Nat × σ)}
    (h : (ofSources p cmp sources).errors = []) :
    ofSources p.withoutErrors cmp sources = ofSources p cmp sources :=
  foldl_withoutErrors sources h

/-- An error that waits is reported before any entry. -/
theorem entriesBeforeError_of_waiting (h : m.errors ≠ []) :
    entriesBeforeError ((p.merge cmp).toList m) = [] := by
  obtain ⟨cause, errors, herrors⟩ := List.exists_cons_of_ne_nil h
  have hnext : (p.merge cmp).next m = (some (.error cause), { m with errors }) :=
    next_of_waiting herrors
  rw [Pull.toList_of_next_some hnext]
  rfl

/-- Before it reports an error a merge gives what it gives if the streams pass over their errors. -/
theorem entriesBeforeError_isPrefix_rest (p : Pull σ) (cmp : Comparator) (m : Merge σ) :
    entriesBeforeError ((p.merge cmp).toList m) <+: (p.withoutErrors.merge cmp).rest m := by
  induction m using step_induction p cmp with
  | atEnd m herrors hpop =>
    have hnext : (p.merge cmp).next m = (none, m) := next_of_end herrors hpop
    rw [Pull.toList_of_next_none (by rw [hnext])]
    exact List.nil_prefix
  | waiting m cause errors herrors =>
    rw [entriesBeforeError_of_waiting (by rw [herrors]; exact List.cons_ne_nil cause errors)]
    exact List.nil_prefix
  | entry m best heads herrors hpop ih =>
    have hnext : (p.merge cmp).next m = (some (.ok best.entry), advance p cmp best heads) :=
      next_of_pop herrors hpop
    have hnext' : (p.withoutErrors.merge cmp).next m =
        (some (.ok best.entry), advance p.withoutErrors cmp best heads) :=
      next_of_pop herrors hpop
    rw [Pull.toList_of_next_some hnext, Pull.rest_of_ok hnext']
    refine (List.prefix_cons_inj best.entry).mpr ?_
    by_cases hquiet : (advance p cmp best heads).errors = []
    · rw [advance_withoutErrors hquiet]
      exact ih
    · rw [entriesBeforeError_of_waiting hquiet]
      exact List.nil_prefix

theorem entriesBeforeError_ofSources (p : Pull σ) (cmp : Comparator) (sources : List (Nat × σ)) :
    entriesBeforeError ((p.merge cmp).toList (.ofSources p cmp sources)) <+:
      (p.withoutErrors.merge cmp).rest (.ofSources p.withoutErrors cmp sources) := by
  by_cases hquiet : (ofSources p cmp sources).errors = []
  · rw [ofSources_withoutErrors hquiet]
    exact entriesBeforeError_isPrefix_rest p cmp _
  · rw [entriesBeforeError_of_waiting hquiet]
    exact List.nil_prefix

/-! ## The end of a merge -/

/-- A merge ends only when it has no sources and no errors left, and it stays at its end. -/
theorem of_next_eq_none (h : (next p cmp m).1 = none) :
    m.heads.toList = [] ∧ m.errors = [] ∧ (next p cmp m).2 = m := by
  cases herrors : m.errors with
  | cons cause errors => simp [next_of_waiting herrors] at h
  | nil =>
    cases hpop : m.heads.pop (Head.precedes cmp) with
    | some taken => simp [next_of_pop herrors hpop] at h
    | none =>
      rw [Heap.pop_eq_none_iff.mp hpop, next_of_end herrors hpop]
      exact ⟨rfl, rfl, rfl⟩

/-- Of what a merge gives some calls get the first items, and the rest is still to come. -/
theorem reduceOption_take (p : Pull σ) (cmp : Comparator) (n : Nat) (m : Merge σ) :
    ((p.merge cmp).take n m).1.reduceOption ++
      (p.merge cmp).toList ((p.merge cmp).take n m).2 = (p.merge cmp).toList m := by
  induction n generalizing m with
  | zero => rfl
  | succ n ih =>
    cases hnext : (p.merge cmp).next m with
    | mk answer m' =>
      have htake : (p.merge cmp).take (n + 1) m =
          (answer :: ((p.merge cmp).take n m').1, ((p.merge cmp).take n m').2) := by
        simp only [Pull.take, hnext]
      rw [htake]
      cases answer with
      | none =>
        have hstays : ((p.merge cmp).next m).2 = m := (of_next_eq_none (congrArg Prod.fst hnext)).2.2
        rw [hnext] at hstays
        rw [List.reduceOption_cons_of_none, ih, show m' = m from hstays]
      | some item =>
        rw [List.reduceOption_cons_of_some, List.cons_append, ih, Pull.toList_of_next_some hnext]

end Merge

/-! ## The merge of all sources -/

section Sources

variable {sources : List (Nat × σ)}

/-- What is given before the first error is what the merge would begin with if there were none. -/
theorem entriesBeforeError_isPrefix_recencyMerge [Std.TransCmp cmp]
    (hasc : ∀ source ∈ sources, Ascending cmp (p.rest source.2))
    (hranks : (sources.map Prod.fst).Nodup) :
    entriesBeforeError ((p.merge cmp).toList (.ofSources p cmp sources)) <+:
      recencyMerge cmp (p.layersOf sources) := by
  have hfree : ∀ source ∈ sources, p.withoutErrors.ErrorFree source.2 := fun source _ =>
    Pull.errorFree_of_toList (Pull.toList_withoutErrors p source.2)
  have hasc' : ∀ source ∈ sources, Ascending cmp (p.withoutErrors.rest source.2) := by
    simpa only [Pull.rest_withoutErrors] using hasc
  have hlayers : p.withoutErrors.layersOf sources = p.layersOf sources := by
    unfold Pull.layersOf
    simp only [Pull.rest_withoutErrors]
  have hmerged := Pull.rest_of_toList (toList_ofSources hfree hasc' hranks)
  rw [← hlayers, ← hmerged]
  exact Merge.entriesBeforeError_ofSources p cmp sources

/-- The entries that are given in all are the merge of what the sources give before their errors. -/
theorem entriesOf_merge [Std.TransCmp cmp]
    (hasc : ∀ source ∈ sources, Ascending cmp (p.rest source.2))
    (hranks : (sources.map Prod.fst).Nodup) :
    entriesOf ((p.merge cmp).toList (.ofSources p cmp sources)) = recencyMerge cmp
      (sources.map fun source => (source.1, entriesBeforeError (p.toList source.2))) := by
  have hfree : ∀ source ∈ sources, p.untilError.ErrorFree source.2 := fun source _ =>
    Pull.errorFree_of_toList (Pull.toList_untilError p source.2)
  have hasc' : ∀ source ∈ sources, Ascending cmp (p.untilError.rest source.2) := by
    intro source hsource
    rw [Pull.rest_untilError]
    exact (hasc source hsource).sublist (entriesBeforeError_isPrefix_entriesOf _).sublist
  have hlayers : p.untilError.layersOf sources =
      sources.map fun source => (source.1, entriesBeforeError (p.toList source.2)) := by
    unfold Pull.layersOf
    simp only [Pull.rest_untilError]
  have hmerged := Pull.rest_of_toList (toList_ofSources hfree hasc' hranks)
  rw [← hlayers, ← hmerged, ← Merge.settled_ofSources]
  exact Merge.rest_merge_untilError p cmp (.ofSources p cmp sources)

/-- A merge gives nothing out of date before it reports an error: its entries up to then are the
first ones of the merge that there would be without errors. Every source with an error has its first
one reported, once, and the entries that are given in all are the merge of what the sources give
before their errors. Where a call gets nothing, all of that has been given. -/
theorem merge_with_errors [Std.TransCmp cmp]
    (hasc : ∀ source ∈ sources, Ascending cmp (p.rest source.2))
    (hranks : (sources.map Prod.fst).Nodup) :
    let start := Merge.ofSources p cmp sources
    let out := (p.merge cmp).toList start
    entriesBeforeError out <+: recencyMerge cmp (p.layersOf sources) ∧
      (errorsOf out).Perm (sources.filterMap fun source => firstError? (p.toList source.2)) ∧
      entriesOf out = recencyMerge cmp
        (sources.map fun source => (source.1, entriesBeforeError (p.toList source.2))) ∧
      ∀ n, let (answers, m) := (p.merge cmp).take n start
        ((p.merge cmp).next m).1 = none →
          answers.reduceOption = out ∧ m.heads.toList = [] ∧ m.errors = [] := by
  intro start out
  refine ⟨entriesBeforeError_isPrefix_recencyMerge hasc hranks, ?_, entriesOf_merge hasc hranks,
    fun n => ?_⟩
  · exact (Merge.errorsOf_merge p cmp start).trans (Merge.owed_ofSources p cmp sources)
  · intro hnone
    obtain ⟨hheads, herrors, -⟩ := Merge.of_next_eq_none hnone
    have htake := Merge.reduceOption_take p cmp n start
    rw [Pull.toList_of_next_none hnone, List.append_nil] at htake
    exact ⟨htake, hheads, herrors⟩

end Sources

/-- Three sources, of which the second fails on its way past a key that the first one shadows. -/
def shadowedFailure : List (Nat × List Item) :=
  [(5, [.ok (.put [1] [51]), .ok (.put [3] [53])]),
    (3, [.ok (.put [1] [31]), .error .checksumMismatch, .ok (.put [2] [32])]),
    (1, [.ok (.put [2] [12]), .ok (.tombstone [3])])]

/-- The older value of `[2]` is given only after the error is. -/
theorem shadowedFailure_merge_with_errors :
    ((∀ source ∈ shadowedFailure, Ascending bytewise (Pull.items.rest source.2)) ∧
      (shadowedFailure.map Prod.fst).Nodup) ∧
    let start := Merge.ofSources Pull.items bytewise shadowedFailure
    let out := (Pull.items.merge bytewise).toList start
    entriesBeforeError out <+: [.put [1] [51], .put [2] [32], .put [3] [53]] ∧
      (errorsOf out).Perm [.checksumMismatch] ∧
      entriesOf out = [.put [1] [51], .put [2] [12], .put [3] [53]] ∧
      ∀ n, let (answers, m) := (Pull.items.merge bytewise).take n start
        ((Pull.items.merge bytewise).next m).1 = none →
          answers.reduceOption = out ∧ m.heads.toList = [] ∧ m.errors = [] := by
  have hasc : ∀ source ∈ shadowedFailure, Ascending bytewise (Pull.items.rest source.2) := by
    unfold Pull.rest
    simp only [Pull.toList_items]
    decide
  have hranks : (shadowedFailure.map Prod.fst).Nodup := by decide
  refine ⟨⟨hasc, hranks⟩, ?_⟩
  obtain ⟨hbefore, herrors, hentries, hend⟩ := merge_with_errors hasc hranks
  unfold Pull.layersOf Pull.rest at hbefore
  simp only [Pull.toList_items] at hbefore herrors hentries
  exact ⟨hbefore, herrors, hentries.trans (by decide +kernel), hend⟩

end LayeredStore
