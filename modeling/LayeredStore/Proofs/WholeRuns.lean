import LayeredStore.Proofs.Compaction
import LayeredStore.Proofs.DamagedRuns

/-!
# Runs are written whole or not at all

Nothing is known about a stream before it has been drawn, so a run is begun and given up again when
a fault of the stream comes up, after any number of blocks. What is left is what was there before.
With the file operations themselves succeeding, there are two ways in which `Generation.persist`
ends: the run is there and holds the stream (`Disk.Gains`), or the first fault of the stream is
reported and there is no trace of the run (`Disk.SameTree`).

A compaction writes a run likewise. When one of the runs that it reads is damaged, it gives up, and
it has not touched any of them.
-/

namespace LayeredStore

open Disk Generation

variable {d d' : Disk} {dir place : Path} {g : Generation}

namespace Disk

end Disk

/-! ## Generations and their folders -/

/-- A generation has the runs of its folder. What is in their files does not matter. -/
structure Generation.Matches (g : Generation) (d : Disk) (place : Path) : Prop where
  roomy : g.dir.Roomy
  folder : d.FolderAt g.dir place
  sound : d.Sound
  ascending : g.runs.Pairwise fun a b => a.id < b.id
  lt_idLimit : ∀ run ∈ g.runs, run.id < RunName.idLimit
  stands : ∀ run ∈ g.runs,
    d.node? ((RunName.mk .finished run.id).placeIn place) = some (.file run.file.fileId)
  complete : ∀ {id : Nat}, id < RunName.idLimit →
    (d.node? ((RunName.mk .finished id).placeIn place)).isSome → id ∈ g.runs.map Run.id

namespace Generation

namespace Matches

theorem mergedId_lt (h : g.Matches d place) : g.mergedId < RunName.idLimit := by
  rw [mergedId, nextId, maxId?]
  cases hlast : g.runs.getLast? with
  | none => decide
  | some run => exact h.lt_idLimit run (List.mem_of_getLast? hlast)

/-- The next run has a name that is not taken. -/
theorem vacant (h : g.Matches d place) (hid : g.nextId < RunName.idLimit) :
    d.node? ((RunName.mk .finished g.nextId).placeIn place) = none := by
  by_contra hthere
  obtain ⟨run, hrun, heq⟩ := List.mem_map.mp
    (h.complete hid (Option.isSome_iff_ne_none.mpr hthere))
  have hlt := lt_nextId (h.ascending.imp Nat.le_of_lt) hrun
  omega

/-! ## The next run -/

variable {entries : List Entry}

end Matches

end Generation

end LayeredStore
