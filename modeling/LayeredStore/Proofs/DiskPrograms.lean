import LayeredStore.Disk
import Mathlib.Data.List.Basic

/-!
# Programs over a disk

How a program over a disk runs, step by step, and what every file operation has in common: it
counts itself, it is struck by the fault that the plan holds for its number, and it leaves the
plan alone.

* `Disk.Evolves d d'` : what holds between the disk before a program and the disk after it,
  whatever the program did and however it ended.
* `Disk.Still d d'` : the files and folders are what they were.
* `Disk.Struck d d'` : a fault struck one of the operations in between.
* `Disk.Sound d` : each place has one thing at it, and each file one place.
-/

namespace LayeredStore

namespace DiskM

variable {ε ε' α β : Type} {x : DiskM ε α} {d d' : Disk} {a : α} {e : ε}

theorem bind_of_ok {f : α → DiskM ε β} (h : x d = (.ok a, d')) : (x >>= f) d = f a d' := by
  show ExceptT.bind x f d = f a d'
  simp only [ExceptT.bind, ExceptT.mk, bind, StateT.bind, h, ExceptT.bindCont]

theorem bind_of_error {f : α → DiskM ε β} (h : x d = (.error e, d')) :
    (x >>= f) d = (.error e, d') := by
  show ExceptT.bind x f d = (.error e, d')
  simp only [ExceptT.bind, ExceptT.mk, bind, StateT.bind, h, ExceptT.bindCont]
  rfl

/-- Both parts of a program that succeeds have succeeded. -/
theorem exists_of_bind {f : α → DiskM ε β} {b : β} (h : (x >>= f) d = (.ok b, d')) :
    ∃ a d₁, x d = (.ok a, d₁) ∧ f a d₁ = (.ok b, d') := by
  cases hx : x d with
  | mk r d₁ =>
    cases r with
    | ok a => exact ⟨a, d₁, rfl, (bind_of_ok hx).symm.trans h⟩
    | error e =>
      rw [bind_of_error hx] at h
      cases h

/-- What relates the disk before and after each of two parts relates it before and after both. -/
theorem related_bind {R : Disk → Disk → Prop}
    (htrans : ∀ {d d' d'' : Disk}, R d d' → R d' d'' → R d d'') {f : α → DiskM ε β}
    (hx : R d (x d).2) (hf : ∀ a d', x d = (.ok a, d') → R d' (f a d').2) :
    R d ((x >>= f) d).2 := by
  cases h : x d with
  | mk r d' =>
    rw [h] at hx
    cases r with
    | ok a =>
      rw [bind_of_ok h]
      exact htrans hx (hf a d' h)
    | error e =>
      rw [bind_of_error h]
      exact hx

theorem map_of_ok {f : α → β} (h : x d = (.ok a, d')) : (f <$> x) d = (.ok (f a), d') := by
  rw [map_eq_pure_bind, bind_of_ok h]
  rfl

theorem map_of_error {f : α → β} (h : x d = (.error e, d')) : (f <$> x) d = (.error e, d') := by
  rw [map_eq_pure_bind, bind_of_error h]

theorem discard_of_ok (h : x d = (.ok a, d')) : discard x d = (.ok (), d') := map_of_ok h

theorem discard_of_error (h : x d = (.error e, d')) : discard x d = (.error e, d') :=
  map_of_error h

theorem get_bind (f : Disk → DiskM ε β) (d : Disk) : ((get : DiskM ε Disk) >>= f) d = f d d := rfl

theorem lift_bind (y : StateM Disk α) (f : α → DiskM ε β) (d : Disk) :
    (liftM y >>= f : DiskM ε β) d = f (y d).1 (y d).2 := rfl

theorem tryCatch_of_ok {f : ε → DiskM ε α} (h : x d = (.ok a, d')) :
    (tryCatch x f) d = (.ok a, d') := by
  show ExceptT.tryCatch x f d = (.ok a, d')
  simp only [ExceptT.tryCatch, ExceptT.mk, bind, StateT.bind, h]
  rfl

theorem tryCatch_of_error {f : ε → DiskM ε α} (h : x d = (.error e, d')) :
    (tryCatch x f) d = f e d' := by
  show ExceptT.tryCatch x f d = f e d'
  simp only [ExceptT.tryCatch, ExceptT.mk, bind, StateT.bind, h]

theorem related_tryCatch {R : Disk → Disk → Prop}
    (htrans : ∀ {d d' d'' : Disk}, R d d' → R d' d'' → R d d'') {f : ε → DiskM ε α}
    (hx : R d (x d).2) (hf : ∀ e d', x d = (.error e, d') → R d' (f e d').2) :
    R d ((tryCatch x f) d).2 := by
  cases h : x d with
  | mk r d' =>
    rw [h] at hx
    cases r with
    | ok a =>
      rw [tryCatch_of_ok h]
      exact hx
    | error e =>
      rw [tryCatch_of_error h]
      exact htrans hx (hf e d' h)

theorem mapError_of_ok {f : ε → ε'} (h : x d = (.ok a, d')) : x.mapError f d = (.ok a, d') := by
  simp only [mapError, h, Except.mapError]

theorem mapError_of_error {f : ε → ε'} (h : x d = (.error e, d')) :
    x.mapError f d = (.error (f e), d') := by
  simp only [mapError, h, Except.mapError]

variable {y : DiskM IoFailure α} {cause : IoFailure}

theorem writing_of_ok (subject : String) (h : y d = (.ok a, d')) :
    y.writing subject d = (.ok a, d') := mapError_of_ok h

theorem writing_of_error (subject : String) (h : y d = (.error cause, d')) :
    y.writing subject d = (.error (.write subject cause), d') := mapError_of_error h

theorem reading_of_ok (subject : String) (h : y d = (.ok a, d')) :
    y.reading subject d = (.ok a, d') := mapError_of_ok h

theorem reading_of_error (subject : String) (h : y d = (.error cause, d')) :
    y.reading subject d = (.error (.read subject cause), d') := mapError_of_error h

theorem plainly_of_ok (h : y d = (.ok a, d')) : y.plainly d = (.ok a, d') := mapError_of_ok h

theorem plainly_of_error (h : y d = (.error cause, d')) :
    y.plainly d = (.error (.io cause), d') := mapError_of_error h

/-- Where an operation is followed by a result alone, the disk is what the operation left. -/
theorem disk_of_plainly_return {β : Type} (y : DiskM IoFailure Unit) (b : β) (d : Disk) :
    ((do
      y.plainly
      return b : DiskM StoreError β) d).2 = (y d).2 := by
  cases hy : y d with
  | mk r d' =>
    cases r with
    | ok =>
      rw [bind_of_ok (plainly_of_ok hy)]
      rfl
    | error e => rw [bind_of_error (plainly_of_error hy)]

theorem of_plainly_eq_ok (h : y.plainly d = (.ok a, d')) : y d = (.ok a, d') := by
  cases hy : y d with
  | mk r d₁ =>
    cases r with
    | ok b =>
      rw [plainly_of_ok hy] at h
      cases h
      rfl
    | error e =>
      rw [plainly_of_error hy] at h
      cases h

end DiskM

/-! ## Programs over a state and a disk -/

namespace StateProgram

variable {ε σ α β : Type} {x : ExceptT ε (StateT σ (StateM Disk)) α} {s s' : σ} {d d' : Disk}
  {a : α} {e : ε}

theorem bind_of_ok {f : α → ExceptT ε (StateT σ (StateM Disk)) β}
    (h : x s d = ((.ok a, s'), d')) : (x >>= f) s d = f a s' d' := by
  show ExceptT.bind x f s d = f a s' d'
  simp only [ExceptT.bind, ExceptT.mk, bind, StateT.bind, h, ExceptT.bindCont]

theorem bind_of_error {f : α → ExceptT ε (StateT σ (StateM Disk)) β}
    (h : x s d = ((.error e, s'), d')) : (x >>= f) s d = ((.error e, s'), d') := by
  show ExceptT.bind x f s d = ((.error e, s'), d')
  simp only [ExceptT.bind, ExceptT.mk, bind, StateT.bind, h, ExceptT.bindCont]
  rfl

theorem map_of_ok {f : α → β} (h : x s d = ((.ok a, s'), d')) :
    (f <$> x) s d = ((.ok (f a), s'), d') := by
  rw [map_eq_pure_bind, bind_of_ok h]
  rfl

theorem map_of_error {f : α → β} (h : x s d = ((.error e, s'), d')) :
    (f <$> x) s d = ((.error e, s'), d') := by
  rw [map_eq_pure_bind, bind_of_error h]

theorem discard_of_ok (h : x s d = ((.ok a, s'), d')) : discard x s d = ((.ok (), s'), d') :=
  map_of_ok h

theorem discard_of_error (h : x s d = ((.error e, s'), d')) :
    discard x s d = ((.error e, s'), d') := map_of_error h

theorem get_bind (f : σ → ExceptT ε (StateT σ (StateM Disk)) β) (s : σ) (d : Disk) :
    ((get : ExceptT ε (StateT σ (StateM Disk)) σ) >>= f) s d = f s s d := rfl

theorem getThe_bind (f : σ → ExceptT ε (StateT σ (StateM Disk)) β) (s : σ) (d : Disk) :
    ((getThe σ : ExceptT ε (StateT σ (StateM Disk)) σ) >>= f) s d = f s s d := rfl

theorem modify_bind (g : σ → σ) (f : Unit → ExceptT ε (StateT σ (StateM Disk)) β) (s : σ)
    (d : Disk) : ((modify g : ExceptT ε (StateT σ (StateM Disk)) Unit) >>= f) s d =
      f () (g s) d := rfl

theorem lift_bind (y : StateT σ (StateM Disk) α) (f : α → ExceptT ε (StateT σ (StateM Disk)) β)
    (s : σ) (d : Disk) : (liftM y >>= f : ExceptT ε (StateT σ (StateM Disk)) β) s d =
      f (y s d).1.1 (y s d).1.2 (y s d).2 := rfl

theorem tryCatch_of_ok {f : ε → ExceptT ε (StateT σ (StateM Disk)) α}
    (h : x s d = ((.ok a, s'), d')) : (tryCatch x f) s d = ((.ok a, s'), d') := by
  show ExceptT.tryCatch x f s d = ((.ok a, s'), d')
  simp only [ExceptT.tryCatch, ExceptT.mk, bind, StateT.bind, h]
  rfl

theorem tryCatch_of_error {f : ε → ExceptT ε (StateT σ (StateM Disk)) α}
    (h : x s d = ((.error e, s'), d')) : (tryCatch x f) s d = f e s' d' := by
  show ExceptT.tryCatch x f s d = f e s' d'
  simp only [ExceptT.tryCatch, ExceptT.mk, bind, StateT.bind, h]

end StateProgram

namespace Disk

variable {d d' d'' : Disk}

/-! ## Places -/

@[simp] theorem node?_nil (d : Disk) : d.node? [] = some .folder := rfl

theorem node?_of_ne (d : Disk) {place : Path} (h : place ≠ []) :
    d.node? place = d.nodes.lookup place := by
  rw [node?, List.isEmpty_eq_false_iff.mpr h]
  rfl

/-- What is at a place when another is left out. -/
theorem node?_erase (d : Disk) {place : Path} (h : place ≠ []) (q : Path) :
    (d.erase place).node? q = if q = place then none else d.node? q := by
  by_cases hq : q = []
  · rw [hq, if_neg (Ne.symm h)]
    rfl
  · rw [node?_of_ne _ hq, node?_of_ne _ hq, erase]
    induction d.nodes with
    | nil => simp
    | cons entry rest ih =>
      by_cases hentry : entry.1 = place
      · rw [List.filter_cons_of_neg (by simp [hentry]), ih]
        by_cases hqp : q = place
        · rw [if_pos hqp, if_pos hqp]
        · rw [if_neg hqp, if_neg hqp, List.lookup_cons]
          have : (q == entry.1) = false := by simpa [hentry] using hqp
          rw [this]
      · rw [List.filter_cons_of_pos (by simpa using hentry), List.lookup_cons, List.lookup_cons, ih]
        by_cases hqe : q = entry.1
        · rw [hqe]
          simp [hentry]
        · have : (q == entry.1) = false := by simpa using hqe
          rw [this]

theorem node?_put (d : Disk) {place : Path} (h : place ≠ []) (node : Node) (q : Path) :
    (d.put place node).node? q = if q = place then some node else d.node? q := by
  by_cases hq : q = []
  · rw [hq, if_neg (Ne.symm h)]
    rfl
  · have herase := node?_erase d h q
    rw [node?_of_ne _ hq] at herase ⊢
    rw [put, List.lookup_append, herase]
    by_cases hqp : q = place
    · simp [hqp]
    · have : (q == place) = false := by simpa using hqp
      simp [List.lookup_cons, hqp, this]

/-- A place of the folder at `folder`. -/
theorem append_singleton_ne_nil (folder : Path) (name : String) : folder ++ [name] ≠ [] := by
  simp

theorem append_singleton_inj {folder : Path} {name other : String} :
    folder ++ [name] = folder ++ [other] ↔ name = other := by
  simp

/-! ## Sound trees -/

/-- A tree in which each place has one thing at it, and each file one place. -/
structure Sound (d : Disk) : Prop where
  nodup : (d.nodes.map Prod.fst).Nodup
  lt_size : ∀ {place : Path} {id : Nat}, d.node? place = some (.file id) → id < d.files.size
  unique : ∀ {place other : Path} {id : Nat}, d.node? place = some (.file id) →
    d.node? other = some (.file id) → place = other

/-- The list of places has no place and no file twice, and its files are there. -/
def WellListed (d : Disk) : Prop :=
  (d.nodes.map Prod.fst).Nodup ∧
    (∀ entry ∈ d.nodes, entry.2 = .folder ∨ ∃ id < d.files.size, entry.2 = .file id) ∧
    ∀ entry ∈ d.nodes, ∀ other ∈ d.nodes, entry.2 = other.2 →
      entry.2 = .folder ∨ entry.1 = other.1

instance (d : Disk) : Decidable d.WellListed := inferInstanceAs (Decidable (_ ∧ _ ∧ _))

/-- A disk is sound if its list of places is. -/
theorem WellListed.sound (h : d.WellListed) : d.Sound := by
  obtain ⟨hnodup, hsize, hunique⟩ := h
  have hmem {q : Path} {id : Nat} (hnode : d.node? q = some (.file id)) :
      (q, .file id) ∈ d.nodes := by
    by_cases hq : q = []
    · simp [hq, Disk.node?] at hnode
    · rw [node?_of_ne d hq, List.lookup_eq_some_iff] at hnode
      obtain ⟨before, after, hnodes, -⟩ := hnode
      simp [hnodes]
  refine ⟨hnodup, fun hnode => ?_, fun hnode hother => ?_⟩
  · rcases hsize _ (hmem hnode) with hfolder | ⟨id, hlt, hfile⟩
    · cases hfolder
    · cases hfile
      exact hlt
  · rcases hunique _ (hmem hnode) _ (hmem hother) rfl with hfolder | heq
    · cases hfolder
    · exact heq

theorem sound_empty : Disk.empty.Sound where
  nodup := List.nodup_nil
  lt_size h := by
    rw [node?] at h
    split at h <;> cases h
  unique h := by
    rw [node?] at h
    split at h <;> cases h

theorem Sound.erase (h : d.Sound) {place : Path} (hplace : place ≠ []) : (d.erase place).Sound where
  nodup := by
    have hsub := (List.filter_sublist (p := fun entry => entry.1 != place) (l := d.nodes)).map
      Prod.fst
    exact hsub.nodup h.nodup
  lt_size := by
    intro q id hq
    rw [node?_erase d hplace] at hq
    split at hq
    · cases hq
    · exact h.lt_size hq
  unique := by
    intro q other id hq hother
    rw [node?_erase d hplace] at hq hother
    split at hq
    · cases hq
    · split at hother
      · cases hother
      · exact h.unique hq hother

/-- A place may be given to anything but a file that has another one. -/
theorem Sound.put (h : d.Sound) {place : Path} (hplace : place ≠ []) {node : Node}
    (hnode : ∀ id, node = .file id → id < d.files.size ∧
      ∀ q, d.node? q = some (.file id) → q = place) : (d.put place node).Sound where
  nodup := by
    rw [Disk.put, List.map_append, List.nodup_append]
    refine ⟨(h.erase hplace).nodup, by simp, ?_⟩
    rintro a ha b hb rfl
    obtain ⟨entry, hentry, rfl⟩ := List.mem_map.mp ha
    have hne : entry.1 ≠ place := by simpa using (List.mem_filter.mp hentry).2
    simp only [List.map_cons, List.map_nil, List.mem_singleton] at hb
    exact hne hb
  lt_size := by
    intro q id hq
    rw [node?_put d hplace] at hq
    split at hq
    · exact (hnode id (Option.some.inj hq)).1
    · exact h.lt_size hq
  unique := by
    intro q other id hq hother
    rw [node?_put d hplace] at hq hother
    split at hq
    · next hqp =>
      split at hother
      · next hop => rw [hqp, hop]
      · rw [(hnode id (Option.some.inj hq)).2 other hother, hqp]
    · split at hother
      · next hop => rw [(hnode id (Option.some.inj hother)).2 q hq, hop]
      · exact h.unique hq hother

/-- Whatever happens to the content of the files, the tree stays sound as long as none is lost. -/
theorem Sound.congr (h : d.Sound) (hnodes : d'.nodes = d.nodes)
    (hsize : d.files.size ≤ d'.files.size) : d'.Sound := by
  have hnode : ∀ q, d'.node? q = d.node? q := fun q => by simp only [node?, hnodes]
  refine ⟨hnodes ▸ h.nodup, fun {q id} hq => ?_, fun {q other id} hq ho => ?_⟩
  · exact Nat.lt_of_lt_of_le (h.lt_size (hnode q ▸ hq)) hsize
  · exact h.unique (hnode q ▸ hq) (hnode other ▸ ho)

/-- The names in a folder. -/
theorem mem_names (d : Disk) {place : Path} {name : String} :
    name ∈ d.names place ↔ (d.node? (place ++ [name])).isSome := by
  rw [names, (sortBy_perm _ _).mem_iff, List.mem_filterMap, node?_of_ne _ (by simp),
    List.lookup_isSome_iff]
  constructor
  · rintro ⟨⟨q, node⟩, hmem, hq⟩
    simp only at hq
    split at hq
    · next hdrop =>
      refine ⟨_, hmem, ?_⟩
      rw [← hdrop, List.dropLast_append_getLast? _ hq]
      exact beq_self_eq_true q
    · cases hq
  · rintro ⟨⟨q, node⟩, hmem, hentry⟩
    obtain rfl : place ++ [name] = q := beq_iff_eq.mp hentry
    exact ⟨_, hmem, by simp⟩

theorem lengths_iff : (∀ id, (d.file id).content.length < positionLimit) ↔
    ∀ id < d.files.size, (d.file id).content.length < positionLimit := by
  refine ⟨fun h id _ => h id, fun h id => ?_⟩
  by_cases hid : id < d.files.size
  · exact h id hid
  · rw [file, Array.getD_eq_getD_getElem?, Array.getElem?_eq_none (Nat.le_of_not_lt hid)]
    decide

/-! ## Before and after -/

/-- What holds between the disk before a program and the disk after it. -/
structure Evolves (d d' : Disk) : Prop where
  faults : d'.faults = d.faults
  clock : d.clock ≤ d'.clock
  size : d.files.size ≤ d'.files.size
  folders : ∀ {place : Path}, d.node? place = some .folder → d'.node? place = some .folder
  sound : d.Sound → d'.Sound

theorem Evolves.refl (d : Disk) : d.Evolves d := ⟨rfl, Nat.le_refl _, Nat.le_refl _, id, id⟩

theorem Evolves.trans (h : d.Evolves d') (h' : d'.Evolves d'') : d.Evolves d'' where
  faults := h'.faults.trans h.faults
  clock := Nat.le_trans h.clock h'.clock
  size := Nat.le_trans h.size h'.size
  folders hplace := h'.folders (h.folders hplace)
  sound hsound := h'.sound (h.sound hsound)

/-- A fault struck an operation between two moments. -/
def Struck (d d' : Disk) : Prop := ∃ n, d.clock ≤ n ∧ n < d'.clock ∧ d.faults n ≠ none

theorem Struck.later (h : d.Struck d') (h' : d'.Evolves d'') : d.Struck d'' := by
  obtain ⟨n, hle, hlt, hfault⟩ := h
  exact ⟨n, hle, Nat.lt_of_lt_of_le hlt h'.clock, hfault⟩

theorem Struck.earlier (h : d.Evolves d') (h' : d'.Struck d'') : d.Struck d'' := by
  obtain ⟨n, hle, hlt, hfault⟩ := h'
  exact ⟨n, Nat.le_trans h.clock hle, hlt, h.faults ▸ hfault⟩

/-- A fault struck an operation between two moments, which failed with the error of the fault. -/
def StruckBy (e : IoFailure) (d d' : Disk) : Prop :=
  ∃ n fault, d.clock ≤ n ∧ n < d'.clock ∧ d.faults n = some fault ∧ e = .system fault.error

theorem StruckBy.struck {e : IoFailure} (h : StruckBy e d d') : d.Struck d' := by
  obtain ⟨n, fault, hle, hlt, hfault, -⟩ := h
  exact ⟨n, hle, hlt, by simp [hfault]⟩

theorem StruckBy.earlier {e : IoFailure} (h : d.Evolves d') (h' : StruckBy e d' d'') :
    StruckBy e d d'' := by
  obtain ⟨n, fault, hle, hlt, hfault, he⟩ := h'
  exact ⟨n, fault, Nat.le_trans h.clock hle, hlt, h.faults ▸ hfault, he⟩

theorem StruckBy.later {e : IoFailure} (h : StruckBy e d d') (h' : d'.Evolves d'') :
    StruckBy e d d'' := by
  obtain ⟨n, fault, hle, hlt, hfault, he⟩ := h
  exact ⟨n, fault, hle, Nat.lt_of_lt_of_le hlt h'.clock, hfault, he⟩

/-- A fault between two moments had an operation report that something is missing. -/
def Misled (d d' : Disk) : Prop := StruckBy (.system .noEntry) d d'

/-- No fault from now on has an operation report that something is missing. -/
def Truthful (d : Disk) : Prop :=
  ∀ n fault, d.clock ≤ n → d.faults n = some fault → fault.error ≠ .noEntry

theorem Truthful.not_misled (h : d.Truthful) : ¬ d.Misled d' := by
  rintro ⟨n, fault, hle, -, hfault, he⟩
  exact h n fault hle hfault (IoFailure.system.inj he).symm

/-- No operation from now on is struck by a fault. -/
def Faultless (d : Disk) : Prop := ∀ n, d.clock ≤ n → d.faults n = none

theorem Faultless.not_struck (h : d.Faultless) : ¬ d.Struck d' := by
  rintro ⟨n, hle, -, hfault⟩
  exact hfault (h n hle)

theorem Faultless.truthful (h : d.Faultless) : d.Truthful := by
  intro n fault hle hfault
  rw [h n hle] at hfault
  cases hfault

theorem Truthful.evolves (h : d.Truthful) (h' : d.Evolves d') : d'.Truthful := by
  intro n fault hn hfault
  rw [h'.faults] at hfault
  exact h n fault (Nat.le_trans h'.clock hn) hfault

theorem Faultless.evolves (h : d.Faultless) (h' : d.Evolves d') : d'.Faultless := by
  intro n hn
  rw [h'.faults]
  exact h n (Nat.le_trans h'.clock hn)

/-- The files and folders are what they were. -/
structure Still (d d' : Disk) : Prop where
  nodes : d'.nodes = d.nodes
  files : d'.files = d.files
  faults : d'.faults = d.faults
  clock : d.clock ≤ d'.clock

theorem Still.refl (d : Disk) : d.Still d := ⟨rfl, rfl, rfl, Nat.le_refl _⟩

theorem Still.trans (h : d.Still d') (h' : d'.Still d'') : d.Still d'' :=
  ⟨h'.nodes.trans h.nodes, h'.files.trans h.files, h'.faults.trans h.faults,
    Nat.le_trans h.clock h'.clock⟩

theorem Still.node? (h : d.Still d') (place : Path) : d'.node? place = d.node? place := by
  simp only [Disk.node?, h.nodes]

theorem Still.file (h : d.Still d') (id : Nat) : d'.file id = d.file id := by
  simp only [Disk.file, h.files]

theorem Still.evolves (h : d.Still d') : d.Evolves d' where
  faults := h.faults
  clock := h.clock
  size := Nat.le_of_eq (by rw [h.files])
  folders {place} hplace := by rw [h.node? place, hplace]
  sound hsound := hsound.congr h.nodes (Nat.le_of_eq (by rw [h.files]))

/-- The disk with one more operation counted. -/
def ticked (d : Disk) : Disk := { d with clock := d.clock + 1 }

theorem still_ticked (d : Disk) : d.Still d.ticked := ⟨rfl, rfl, rfl, Nat.le_succ _⟩

@[simp] theorem node?_ticked (d : Disk) (place : Path) : d.ticked.node? place = d.node? place := rfl

@[simp] theorem file_ticked (d : Disk) (id : Nat) : d.ticked.file id = d.file id := rfl

theorem struckBy_ticked {fault : Fault} (h : d.faults d.clock = some fault) :
    StruckBy (.system fault.error) d d.ticked :=
  ⟨d.clock, fault, Nat.le_refl _, Nat.lt_succ_self _, h, rfl⟩

theorem struck_ticked {fault : Fault} (h : d.faults d.clock = some fault) : d.Struck d.ticked :=
  ⟨d.clock, Nat.le_refl _, Nat.lt_succ_self _, by simp [h]⟩

/-! ## One operation -/

/-- An operation fails by a fault, fails for a reason in the tree, or takes effect. -/
theorem operate_eq {α : Type} (act : Disk → Except IoFailure (α × Disk)) (d : Disk) :
    operate act d =
      match d.faults d.clock with
      | some fault => (.error (.system fault.error), d.ticked)
      | none =>
        match act d.ticked with
        | .error e => (.error e, d.ticked)
        | .ok (a, d') => (.ok a, d') := by
  show (match d.faults d.clock with
      | some fault => (throw (.system fault.error) : DiskM IoFailure α)
      | none => do
        match act (← get) with
        | .error e => throw e
        | .ok (a, d) => set d; return a : DiskM IoFailure α) d.ticked = _
  cases d.faults d.clock with
  | some fault => rfl
  | none =>
    show (match act d.ticked with
      | .error e => (throw e : DiskM IoFailure α)
      | .ok (a, d) => (do set d; return a : DiskM IoFailure α)) d.ticked = _
    cases act d.ticked with
    | error e => rfl
    | ok r => rfl

/-- An operation that a fault strikes does nothing. -/
theorem operate_of_fault {α : Type} (act : Disk → Except IoFailure (α × Disk))
    (h : d.faults d.clock ≠ none) : ∃ e, operate act d = (.error e, d.ticked) := by
  rw [operate_eq]
  cases hfault : d.faults d.clock with
  | none => exact absurd hfault h
  | some fault => exact ⟨_, rfl⟩

theorem still_bind {ε α β : Type} {x : DiskM ε α} {f : α → DiskM ε β} (hx : d.Still (x d).2)
    (hf : ∀ a (d' : Disk), d'.Still (f a d').2) : d.Still ((x >>= f) d).2 :=
  DiskM.related_bind (R := Still) Still.trans hx fun a d' _ => hf a d'

theorem leadsTo_eq (wanted : Node → Bool) (p : Path) (d : Disk) :
    leadsTo wanted p d =
      match d.faults d.clock with
      | some _ => (false, d.ticked)
      | none => ((d.ticked.locate p).toOption.any fun found => wanted found.2, d.ticked) := by
  show (match d.faults d.clock with
      | some _ => (return false : StateM Disk Bool)
      | none => do
        let d ← get
        return (d.locate p).toOption.any fun found : Path × Node => wanted found.2) d.ticked = _
  cases d.faults d.clock <;> rfl

/-- An operation that gives the tree back as it got it changes nothing. -/
theorem still_operate {α : Type} {act : Disk → Except IoFailure (α × Disk)}
    (h : ∀ {d a d'}, act d = .ok (a, d') → d' = d) (d : Disk) : d.Still (operate act d).2 := by
  rw [operate_eq]
  cases d.faults d.clock with
  | some fault => exact still_ticked d
  | none =>
    cases hact : act d.ticked with
    | error e => exact still_ticked d
    | ok r =>
      obtain ⟨a, d'⟩ := r
      show d.Still d'
      rw [h hact]
      exact still_ticked d

/-- A write reaches the file as a whole, or as far as the fault that strikes it allows. -/
theorem write_eq (h : Handle) (b : Bytes) (d : Disk) :
    write h b d =
      match d.faults d.clock with
      | some fault =>
        (.error (.system fault.error),
          d.ticked.alter h.file (·.overwrite h.position (b.take fault.kept)))
      | none =>
        (.ok { h with position := h.position + b.length },
          d.ticked.alter h.file (·.overwrite h.position b)) := by
  show (match d.faults d.clock with
      | some fault => do
        modify fun d => d.alter h.file (·.overwrite h.position (b.take fault.kept))
        throw (.system fault.error)
      | none => do
        modify fun d => d.alter h.file (·.overwrite h.position b)
        return { h with position := h.position + b.length } : DiskM IoFailure Handle) d.ticked = _
  cases d.faults d.clock <;> rfl

end Disk

end LayeredStore
