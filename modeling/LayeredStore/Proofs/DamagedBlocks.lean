import LayeredStore.Proofs.BlockPositions
import LayeredStore.Proofs.DamagedRuns

/-!
# Reading damaged blocks

What a block is made of can be anything: the numbers in front of its records, its restart points
and the lengths that an index gives are not checked before they are used. Reading a block ends all
the same (`damaged_blocks_end`). A cursor gives entries, each of which takes eight bytes or more,
then at most one error, and then nothing ever after. A scan of a run gives what its blocks give, one
after the other, as far as they can be loaded (`RunFile.toList_cursor`).

Not so where an index asks for more bytes than a buffer can hold. A scan that comes to such a block
panics (`hugeBlock_panics`), and it panics nowhere else.
-/

namespace LayeredStore

/-- The call with this outcome has returned: it has not taken its thread down. -/
def Returned {α : Type} (outcome : Except StoreError α) : Prop :=
  ∀ message, outcome ≠ .error (.panicked message)

theorem returned_ok {α : Type} (a : α) : Returned (.ok a) := by
  rintro message ⟨⟩

/-- An error that is passed on is the same one. -/
theorem Returned.error {α β : Type} {e : StoreError}
    (h : Returned (.error e : Except StoreError α)) : Returned (.error e : Except StoreError β) := by
  rintro message ⟨⟩
  exact h message rfl

theorem Returned.map {α β : Type} {outcome : Except StoreError α} (h : Returned outcome)
    (f : α → β) : Returned (outcome.map f) := by
  cases outcome with
  | ok a => exact returned_ok _
  | error e => exact h.error

/-- The calls to a stream are answered with some items, and then one of them panics. -/
def Pull.PanicsAfter {σ : Type} (p : Pull σ) (s : σ) (items : List Item) : Prop :=
  (∀ item ∈ items, Returned item) ∧ ∃ message,
    (p.take (items.length + 1) s).1 = items.map some ++ [some (.error (.panicked message))]

/-! ## One block -/

namespace Block

/-! ### Calls that return -/

theorem returned_parse (stored : Bytes) : Returned (parse stored) := by
  simp only [parse]
  split
  · rintro message ⟨⟩
  split
  · rintro message ⟨⟩
  · exact returned_ok _

theorem returned_readHeader (b : Bytes) : Returned (readHeader b) := by
  unfold readHeader
  split
  · rintro message ⟨⟩
  · exact returned_ok _

theorem returned_restartKey (b : Block) (position : Nat) : Returned (b.restartKey position) := by
  have hheader := returned_readHeader (b.data.drop position)
  unfold restartKey
  split
  · next e herror => exact (herror ▸ hheader).error
  split
  · rintro message ⟨⟩
  split
  · rintro message ⟨⟩
  · exact returned_ok _

theorem returned_decodeRecord (lastKey b : Bytes) : Returned (decodeRecord lastKey b) := by
  have hheader := returned_readHeader b
  unfold decodeRecord
  split
  · next e herror => exact (herror ▸ hheader).error
  split
  · rintro message ⟨⟩
  split
  · rintro message ⟨⟩
  split
  · exact returned_ok _
  split
  · rintro message ⟨⟩
  · exact returned_ok _

theorem returned_bisect {before : Nat → Except StoreError Bool}
    (hbefore : ∀ point, Returned (before point)) (low high : Nat) :
    Returned (bisect before low high) := by
  fun_induction bisect before low high with
  | case1 low high hlt middle e herror => exact (herror ▸ hbefore middle).error
  | case2 low high hlt middle htrue ih => exact ih
  | case3 low high hlt middle hfalse ih => exact ih
  | case4 low high hle => exact returned_ok _

namespace Cursor

/-- An answer of a call that has returned. -/
def Answer.Returned : Answer → Prop
  | .item answer => ∀ given ∈ answer, LayeredStore.Returned given
  | .moved answer => LayeredStore.Returned answer

theorem returned_next (c : Cursor) : ∀ item ∈ c.next.1, Returned item := by
  have hrecord := returned_decodeRecord c.lastKey c.unread
  unfold next
  split
  · rintro _ ⟨⟩
  split
  · next e herror =>
    rintro _ ⟨⟩
    exact (herror ▸ hrecord).error
  · rintro _ ⟨⟩
    exact returned_ok _

theorem returned_advance (target : Bytes) (c : Cursor) : Returned (c.advance target).1 := by
  fun_induction advance target c with
  | case1 c c' hnone => exact returned_ok _
  | case2 c e c' herror =>
    have hitem := returned_next c
    rw [herror] at hitem
    exact (hitem _ rfl).error
  | case3 c entry c' hentry hlt hbefore ih => exact ih
  | case4 c entry c' hentry hlt hnot => exact returned_ok _

theorem returned_seek (c : Cursor) (target : Bytes) : Returned (c.seek target).1 := by
  have hfound : Returned (bisect (restartsBefore c.block target) 0 c.block.restarts.length) :=
    returned_bisect (fun point => (returned_restartKey _ _).map _) _ _
  unfold seek
  split
  · exact returned_ok _
  split
  · next e herror => exact (herror ▸ hfound).error
  · exact returned_advance target _

theorem returned_call (c : Cursor) (call : Call) : (c.call call).1.Returned := by
  cases call with
  | next => exact returned_next c
  | seek target => exact returned_seek c target

/-- No call to a cursor panics, whatever its block is made of. -/
theorem returned_run (c : Cursor) (calls : List Call) :
    ∀ answer ∈ (c.run calls).1, answer.Returned := by
  induction calls generalizing c with
  | nil => exact List.forall_mem_nil _
  | cons call rest ih => exact List.forall_mem_cons.mpr ⟨returned_call c call, ih _⟩

theorem returned_of_mem_toList (c : Cursor) : ∀ item ∈ pull.toList c, Returned item := by
  have hgives := Pull.gives_toList pull c
  generalize pull.toList c = items at hgives
  induction hgives with
  | done => exact List.forall_mem_nil _
  | @item c c' item items hsome _ ih =>
    have hitem := returned_next c
    have hnext : c.next = (some item, c') := hsome ()
    rw [hnext] at hitem
    exact List.forall_mem_cons.mpr ⟨hitem item rfl, ih⟩

end Cursor

/-! ### How a block ends -/

/-- Entries that fit into so many bytes, and then at most one error. -/
def EndsAtFault (size : Nat) (items : List Item) : Prop :=
  ∃ (entries : List Entry) (fault : Option StoreError),
    items = entries.map .ok ++ fault.toList.map .error ∧ headerLength * entries.length ≤ size

theorem EndsAtFault.length_errorsOf_le {size : Nat} {items : List Item}
    (h : EndsAtFault size items) : (errorsOf items).length ≤ 1 := by
  obtain ⟨entries, fault, rfl, -⟩ := h
  have hentries : errorsOf (entries.map .ok) = [] := by
    rw [errorsOf, List.filterMap_map]
    exact List.filterMap_eq_nil_iff.mpr fun e _ => rfl
  have hfault : errorsOf (fault.toList.map .error) = fault.toList := by
    rw [errorsOf, List.filterMap_map]
    exact List.filterMap_some
  rw [errorsOf, List.filterMap_append, ← errorsOf, ← errorsOf, hentries, hfault, List.nil_append]
  cases fault with
  | none => exact Nat.zero_le _
  | some cause => exact Nat.le_refl _

theorem EndsAtFault.mono {size size' : Nat} {items : List Item} (h : EndsAtFault size items)
    (hsize : size ≤ size') : EndsAtFault size' items := by
  obtain ⟨entries, fault, hitems, hlength⟩ := h
  exact ⟨entries, fault, hitems, hlength.trans hsize⟩

namespace Cursor

variable {c c' : Cursor}

/-- An entry takes bytes, for its header at least. -/
theorem length_next {e : Entry} (h : c.next = (some (.ok e), c')) :
    c'.unread.length + headerLength ≤ c.unread.length := by
  unfold next at h
  split at h
  · cases h
  · split at h
    · cases h
    · next hdecode =>
      cases h
      exact length_of_decodeRecord hdecode

/-- Nothing follows a record that cannot be decoded. -/
theorem next_of_fault {cause : StoreError} (h : c.next = (some (.error cause), c')) :
    c'.next.1 = none := by
  unfold next at h
  split at h
  · cases h
  · split at h
    · cases h
      rfl
    · cases h

/-- What a cursor gives fits into the bytes that are left to it. -/
theorem endsAtFault_toList (c : Cursor) : EndsAtFault c.unread.length (pull.toList c) := by
  -- by induction on the bytes that are left; an entry leaves fewer
  generalize hn : c.unread.length = n
  induction n using Nat.strongRecOn generalizing c with
  | _ n ih =>
    cases hnext : c.next with
    | mk answer c' =>
      cases answer with
      | none => exact ⟨[], none, Pull.toList_of_next_none (by rw [pull_next, hnext]), Nat.zero_le _⟩
      | some item =>
        rw [Pull.toList_of_next_some hnext]
        cases item with
        | error cause =>
          rw [Pull.toList_of_next_none (next_of_fault hnext)]
          exact ⟨[], some cause, rfl, Nat.zero_le _⟩
        | ok e =>
          have hlength := length_next hnext
          obtain ⟨entries, fault, hitems, hentries⟩ := ih c'.unread.length
            (by simp only [headerLength] at hlength; omega) c' rfl
          refine ⟨e :: entries, fault, by rw [hitems]; rfl, ?_⟩
          rw [List.length_cons, Nat.mul_succ]
          omega

end Cursor

end Block

/-! ## The blocks of a run -/

namespace RunFile

/-- What one block gives: its items, or the error for which it cannot be loaded. -/
def itemsOf (d : Disk) (fileId : Nat) (block : BlockRef) : List Item :=
  match Cursor.load d fileId block with
  | .error e => [.error e]
  | .ok current => Block.Cursor.pull.toList current

/-- The blocks to which a scan comes: up to the first one that cannot be loaded. -/
def reached (d : Disk) (fileId : Nat) : List BlockRef → List BlockRef
  | [] => []
  | block :: rest =>
    match Cursor.load d fileId block with
    | .error _ => [block]
    | .ok _ => block :: reached d fileId rest

variable {d : Disk} {fileId : Nat} {block : BlockRef} {rest : List BlockRef} {e : StoreError}

theorem Cursor.load_of_tooLarge (h : Disk.bufferLimit ≤ block.size) (d : Disk) (fileId : Nat) :
    load d fileId block = .error .capacityOverflow := by
  rw [load, Disk.readAt_eq_tooLarge_iff.mpr h]
  rfl

/-- A block for which there can be a buffer is loaded, or the error is reported. -/
theorem Cursor.returned_load (h : block.size < Disk.bufferLimit) (d : Disk) (fileId : Nat) :
    Returned (load d fileId block) := by
  unfold load
  split
  · next failure hread =>
    cases failure with
    | io cause => rintro message ⟨⟩
    | tooLarge => exact absurd (Disk.readAt_eq_tooLarge_iff.mp hread) (Nat.not_le.mpr h)
  · exact (Block.returned_parse _).map _

theorem itemsOf_of_error (h : Cursor.load d fileId block = .error e) :
    itemsOf d fileId block = [.error e] := by
  rw [itemsOf, h]

theorem itemsOf_of_ok {current : Block.Cursor} (h : Cursor.load d fileId block = .ok current) :
    itemsOf d fileId block = Block.Cursor.pull.toList current := by
  rw [itemsOf, h]

theorem returned_of_mem_itemsOf (h : block.size < Disk.bufferLimit) :
    ∀ item ∈ itemsOf d fileId block, Returned item := by
  have hloaded := Cursor.returned_load h d fileId
  cases hload : Cursor.load d fileId block with
  | error e =>
    rw [itemsOf_of_error hload]
    exact List.forall_mem_singleton.mpr (hload ▸ hloaded).error
  | ok current =>
    rw [itemsOf_of_ok hload]
    exact Block.Cursor.returned_of_mem_toList current

theorem length_errorsOf_itemsOf (d : Disk) (fileId : Nat) (block : BlockRef) :
    (errorsOf (itemsOf d fileId block)).length ≤ 1 := by
  cases hload : Cursor.load d fileId block with
  | error e =>
    rw [itemsOf_of_error hload]
    exact Nat.le_refl _
  | ok current =>
    rw [itemsOf_of_ok hload]
    exact (Block.Cursor.endsAtFault_toList current).length_errorsOf_le

theorem reached_of_error (h : Cursor.load d fileId block = .error e) :
    reached d fileId (block :: rest) = [block] := by
  rw [reached, h]

theorem reached_of_ok {current : Block.Cursor} (h : Cursor.load d fileId block = .ok current) :
    reached d fileId (block :: rest) = block :: reached d fileId rest := by
  rw [reached, h]

theorem reached_isPrefix (d : Disk) (fileId : Nat) (blocks : List BlockRef) :
    reached d fileId blocks <+: blocks := by
  induction blocks with
  | nil => exact List.nil_prefix
  | cons block rest ih =>
    cases hload : Cursor.load d fileId block with
    | error e =>
      rw [reached_of_error hload]
      exact List.prefix_append [block] rest
    | ok current =>
      rw [reached_of_ok hload]
      exact (List.prefix_cons_inj block).mpr ih

/-- No block is reached behind one that cannot be loaded. -/
theorem eq_nil_of_reached {blocks front : List BlockRef}
    (h : reached d fileId blocks = front ++ block :: rest)
    (hload : Cursor.load d fileId block = .error e) : rest = [] := by
  induction blocks generalizing front with
  | nil => simp [reached] at h
  | cons first blocks ih =>
    cases hfirst : Cursor.load d fileId first with
    | error cause =>
      rw [reached_of_error hfirst] at h
      cases front with
      | nil => exact (List.cons.inj h).2.symm
      | cons _ front => simp at h
    | ok current =>
      rw [reached_of_ok hfirst] at h
      cases front with
      | nil =>
        obtain ⟨rfl, -⟩ := List.cons.inj h
        rw [hfirst] at hload
        cases hload
      | cons _ front => exact ih (List.cons.inj h).2

namespace Cursor

theorem spent_none {remaining : List BlockRef} : Spent ⟨fileId, remaining, none⟩ := by
  intro b hnone
  cases hnone

/-- A scan whose block has come to its end goes on as one that has not begun a block. -/
theorem next_of_block_end {remaining : List BlockRef} {current : Block.Cursor}
    (h : current.next.1 = none) :
    next d ⟨fileId, remaining, some current⟩ = next d ⟨fileId, remaining, none⟩ := by
  have hspent : Spent ⟨fileId, remaining, some current⟩ := by
    rintro _ ⟨⟩
    exact h
  rw [next_of_spent hspent, next_of_spent spent_none]

/-- What is given after a block begins with what is left of it. -/
theorem toList_current (remaining : List BlockRef) (current : Block.Cursor) :
    (pull d).toList ⟨fileId, remaining, some current⟩ =
      Block.Cursor.pull.toList current ++ (pull d).toList ⟨fileId, remaining, none⟩ := by
  have hgives := Pull.gives_toList Block.Cursor.pull current
  generalize Block.Cursor.pull.toList current = items at hgives
  induction hgives with
  | done hnone => exact Pull.toList_of_next_eq (next_of_block_end (hnone ()))
  | @item current current' item items hsome _ ih =>
    have hnext : current.next = (some item, current') := hsome ()
    have hscan : (pull d).next ⟨fileId, remaining, some current⟩ =
      (some item, ⟨fileId, remaining, some current'⟩) := next_of_some rfl hnext
    rw [Pull.toList_of_next_some hscan, ih, List.cons_append]

theorem toList_nil : (pull d).toList ⟨fileId, [], none⟩ = [] :=
  Pull.toList_of_next_none (congrArg Prod.fst (next_of_end spent_none rfl))

/-- A scan gives what the blocks to which it comes give, one after the other. -/
theorem toList_blocks (blocks : List BlockRef) :
    (pull d).toList ⟨fileId, blocks, none⟩ =
      (reached d fileId blocks).flatMap (itemsOf d fileId) := by
  induction blocks with
  | nil => exact toList_nil
  | cons block rest ih =>
    cases hload : load d fileId block with
    | error e =>
      have hnext : (pull d).next ⟨fileId, block :: rest, none⟩ = _ :=
        next_of_error spent_none rfl hload
      rw [Pull.toList_of_next_some hnext, toList_nil, reached_of_error hload,
        List.flatMap_singleton, itemsOf_of_error hload]
    | ok current =>
      rw [Pull.toList_of_next_eq (p := pull d) (next_of_none spent_none rfl hload),
        toList_current, ih, reached_of_ok hload, List.flatMap_cons, itemsOf_of_ok hload]

theorem fused_pull (d : Disk) : (pull d).Fused := by
  intro c h
  change (next d c).1 = none at h
  show (next d (next d c).2).1 = none
  fun_induction next d c with
  | case1 => cases h
  | case2 c hremaining hspent => rw [next_of_end spent_none hremaining]
  | case3 => cases h
  | case4 c block remaining hremaining current hload hspent ih => exact ih h

end Cursor

/-- The rest of the block that is being read. -/
def Cursor.unfinished (c : RunFile.Cursor) : List Item :=
  (c.current.map Block.Cursor.pull.toList).getD []

theorem Cursor.length_errorsOf_unfinished (c : RunFile.Cursor) :
    (errorsOf c.unfinished).length ≤ 1 := by
  unfold unfinished
  cases c.current with
  | none => exact Nat.zero_le _
  | some current => exact (Block.Cursor.endsAtFault_toList current).length_errorsOf_le

theorem Cursor.returned_of_mem_unfinished (c : RunFile.Cursor) :
    ∀ item ∈ c.unfinished, Returned item := by
  unfold unfinished
  cases c.current with
  | none => exact List.forall_mem_nil _
  | some current => exact Block.Cursor.returned_of_mem_toList current

/-- What is left of the block that is being read, and then what some blocks give. -/
def Cursor.through (d : Disk) (c : RunFile.Cursor) (blocks : List BlockRef) : List Item :=
  c.unfinished ++ blocks.flatMap (itemsOf d c.fileId)

theorem Cursor.returned_of_mem_through {c : RunFile.Cursor} {blocks : List BlockRef}
    (h : ∀ block ∈ blocks, block.size < Disk.bufferLimit) :
    ∀ item ∈ c.through d blocks, Returned item := by
  intro item hitem
  rcases List.mem_append.mp hitem with hitem | hitem
  · exact c.returned_of_mem_unfinished item hitem
  · obtain ⟨block, hblock, hitem⟩ := List.mem_flatMap.mp hitem
    exact returned_of_mem_itemsOf (h block hblock) item hitem

/-- A scan gives what is left of its block and then what the others give. -/
theorem toList_cursor (d : Disk) (c : Cursor) :
    (Cursor.pull d).toList c = c.through d (reached d c.fileId c.remaining) := by
  obtain ⟨fileId, remaining, current⟩ := c
  cases current with
  | none => exact Cursor.toList_blocks remaining
  | some current => rw [Cursor.toList_current, Cursor.toList_blocks]; rfl

theorem Cursor.endsAfter_through (d : Disk) (c : RunFile.Cursor) :
    (Cursor.pull d).EndsAfter c (c.through d (reached d c.fileId c.remaining)) := by
  rw [← toList_cursor]
  exact (Cursor.fused_pull d).endsAfter c

/-- The blocks before one that is reached can be loaded, so there are buffers for them. -/
theorem size_lt_of_reached {blocks front : List BlockRef}
    (h : reached d fileId blocks = front ++ block :: rest) :
    ∀ before ∈ front, before.size < Disk.bufferLimit := by
  intro before hbefore
  by_contra hsize
  obtain ⟨front₁, front₂, rfl⟩ := List.append_of_mem hbefore
  rw [List.append_assoc, List.cons_append] at h
  have hnil := eq_nil_of_reached h (Cursor.load_of_tooLarge (Nat.le_of_not_lt hsize) d fileId)
  simp at hnil

/-- A scan that comes to a block for which there can be no buffer gives what is before it, and then
panics. -/
theorem Cursor.panicsAfter_through {c : RunFile.Cursor} {front : List BlockRef}
    (h : reached d c.fileId c.remaining = front ++ block :: rest)
    (hsize : Disk.bufferLimit ≤ block.size) :
    (Cursor.pull d).PanicsAfter c (c.through d front) := by
  refine ⟨returned_of_mem_through (size_lt_of_reached h), "capacity overflow", ?_⟩
  have hload := load_of_tooLarge hsize d c.fileId
  have hends := c.endsAfter_through d
  rw [h, eq_nil_of_reached h hload, through, List.flatMap_append, List.flatMap_singleton,
    itemsOf_of_error hload, ← List.append_assoc, ← through] at hends
  have htake := hends 0
  rwa [List.length_append, List.map_append, List.replicate_zero, List.append_nil] at htake

/-- A scan comes to its end by way of some blocks: it gives what is left of its block and what these
give, and then nothing ever after. No call panics. No block gives more than one error, and one that
cannot be read or parsed gives that error alone. -/
structure Cursor.EndsBy (d : Disk) (c : RunFile.Cursor) (blocks : List BlockRef) : Prop where
  endsAfter : (Cursor.pull d).EndsAfter c (c.through d blocks)
  returned : ∀ item ∈ c.through d blocks, Returned item
  errors_unfinished : (errorsOf c.unfinished).length ≤ 1
  errors_itemsOf : ∀ block ∈ blocks, (errorsOf (itemsOf d c.fileId block)).length ≤ 1
  itemsOf_unloaded : ∀ block ∈ blocks, ∀ e, Cursor.load d c.fileId block = .error e →
    itemsOf d c.fileId block = [.error e]

theorem Cursor.endsBy_reached {c : RunFile.Cursor}
    (h : ∀ block ∈ reached d c.fileId c.remaining, block.size < Disk.bufferLimit) :
    c.EndsBy d (reached d c.fileId c.remaining) where
  endsAfter := c.endsAfter_through d
  returned := returned_of_mem_through h
  errors_unfinished := c.length_errorsOf_unfinished
  errors_itemsOf block _ := length_errorsOf_itemsOf d c.fileId block
  itemsOf_unloaded _ _ _ hload := itemsOf_of_error hload

end RunFile

/-! ## Reading ends -/

/-- Whatever block is accepted and whatever calls are made, the reader that goes by positions
answers, so that it takes no slice out of bounds and none of its loops goes on for ever; it answers
as the cursor does, and no call panics. An entry moves it on by eight bytes or more and not beyond
the entry data. From any state that it comes to, the calls for the next item give entries that fit
into the block, then at most one error, and then nothing ever after.

A scan of blocks comes to some of those that it has not read yet, in their order, and to none behind
one that cannot be read or parsed. If each of them has less than 2⁶³ bytes by what the index says,
the scan ends, with at most one error for each block. If it comes to a block of 2⁶³ bytes or more,
it gives what is before that block and then panics. -/
theorem damaged_blocks_end {stored : Bytes} {block : Block} (hparse : Block.parse stored = .ok block)
    (d : Disk) (scan : RunFile.Cursor) :
    Block.Reader.parse stored = some (.ok block) ∧
    (∀ calls, ∃ reader,
      (Block.Reader.start block).run calls =
        some (((Block.Cursor.start block).run calls).1, reader) ∧
      (∀ answer ∈ ((Block.Cursor.start block).run calls).1, answer.Returned) ∧
      reader.cursor = ((Block.Cursor.start block).run calls).2 ∧
      (∀ e reader', reader.next = some (some (.ok e), reader') →
        reader.position + 8 ≤ reader'.position ∧ reader'.position ≤ block.size) ∧
      ∃ items, Block.EndsAtFault block.size items ∧
        Block.Cursor.pull.EndsAfter reader.cursor items) ∧
    ∃ reached, reached <+: scan.remaining ∧
      (∀ front ref rest e, reached = front ++ ref :: rest →
        RunFile.Cursor.load d scan.fileId ref = .error e → rest = []) ∧
      ((∀ ref ∈ reached, ref.size < 2 ^ 63) → scan.EndsBy d reached) ∧
      ∀ front ref rest, reached = front ++ ref :: rest → 2 ^ 63 ≤ ref.size →
        (RunFile.Cursor.pull d).PanicsAfter scan (scan.through d front) := by
  refine ⟨by rw [Block.Reader.parse_eq, hparse], fun calls => ?_, ?_⟩
  · obtain ⟨reader, hrun, hcursor⟩ :=
      Block.Reader.of_map_cursor ((Block.Reader.start block).run_eq calls)
    have hblock : reader.block = block :=
      (congrArg Block.Cursor.block hcursor).trans (Block.Cursor.block_run _ _)
    refine ⟨reader, hrun, Block.Cursor.returned_run _ calls, hcursor, fun e reader' hnext => ?_, _,
      (Block.Cursor.endsAtFault_toList reader.cursor).mono ?_,
      Block.Cursor.fused_pull.endsAfter reader.cursor⟩
    · obtain ⟨-, hfrom, hto⟩ := Block.Reader.of_next_eq_ok hnext
      rw [hblock] at hto
      exact ⟨hfrom, hto⟩
    · rw [← hblock]
      exact (List.length_drop).trans_le (Nat.sub_le _ _)
  · exact ⟨RunFile.reached d scan.fileId scan.remaining, RunFile.reached_isPrefix _ _ _,
      fun front ref rest e hsplit hload => RunFile.eq_nil_of_reached hsplit hload,
      fun hsizes => RunFile.Cursor.endsBy_reached hsizes,
      fun front ref rest hsplit hsize => RunFile.Cursor.panicsAfter_through hsplit hsize⟩

/-- An entry, a record that refers to more of the key before it than there is, and a restart point
beyond the records. -/
def damagedBlock : Bytes :=
  [0, 0, 0, 1, 0, 0, 0, 0, 7] ++ [0, 9, 0, 1, 0, 0, 0, 5, 1] ++
    [0, 0, 0, 0, 0, 0, 0, 40, 0, 0, 0, 2]

/-- A disk with the damaged block as its only file. -/
def damagedDisk : Disk := { Disk.empty with files := #[⟨damagedBlock.toArray, none⟩] }

/-- Three blocks, of which the second one is not within the file. -/
def damagedIndex : Index := [⟨[], 0, 30⟩, ⟨[], 5, 100⟩, ⟨[], 0, 30⟩]

/-- The seek fails at the second restart point; the scan does not come to the third block. -/
theorem damagedBlock_read :
    ∃ block, Block.parse damagedBlock = .ok block ∧
      (∃ reader, (Block.Reader.start block).run [.next, .seek [9], .next, .next] = some
          ([.item (some (.ok (.put [7] []))),
            .moved (.error (.decode "block entry header" .tooShort)),
            .item (some (.error Block.recordOutOfBounds)), .item none], reader)) ∧
      ∃ reached : List BlockRef, reached.length ≤ 2 ∧
        RunFile.Cursor.EndsBy damagedDisk ⟨0, damagedIndex, none⟩ reached := by
  have hparse : Block.parse damagedBlock = .ok ⟨damagedBlock.take 18, [0, 40]⟩ := by decide
  obtain ⟨-, hcalls, reached, hfront, hlast, hends, -⟩ :=
    damaged_blocks_end hparse damagedDisk ⟨0, damagedIndex, none⟩
  have hsizes : ∀ ref ∈ damagedIndex, ref.size < 2 ^ 63 := by decide
  refine ⟨_, hparse, ?_, reached, ?_, hends fun ref hmem => hsizes ref (hfront.subset hmem)⟩
  · obtain ⟨reader, hrun, -⟩ := hcalls [.next, .seek [9], .next, .next]
    have hanswers : ((Block.Cursor.start ⟨damagedBlock.take 18, [0, 40]⟩).run
        [.next, .seek [9], .next, .next]).1 = [.item (some (.ok (.put [7] []))),
          .moved (.error (.decode "block entry header" .tooShort)),
          .item (some (.error Block.recordOutOfBounds)), .item none] := by decide +kernel
    exact ⟨reader, by rw [hrun, hanswers]⟩
  · by_contra hlength
    obtain rfl : reached = damagedIndex :=
      hfront.eq_of_length_le (Nat.succ_le_of_lt (Nat.lt_of_not_le hlength))
    have hsecond : RunFile.Cursor.load damagedDisk 0 ⟨[], 5, 100⟩ =
      .error (.read "data block" .unexpectedEnd) := by decide +kernel
    cases hlast [⟨[], 0, 30⟩] ⟨[], 5, 100⟩ [⟨[], 0, 30⟩] _ rfl hsecond

/-- One block of 2⁶³ bytes. -/
def hugeIndex : Index := [⟨[107], 0, 9223372036854775808⟩]

/-- A run file that has this index, and no block. -/
def hugeRun : Bytes := hugeIndex.encode ++ RunWriter.footer 0 1 hugeIndex.encode

/-- A disk with this run as its only file. -/
def hugeDisk : Disk := { Disk.empty with files := #[⟨hugeRun.toArray, none⟩] }

/-- Nothing is wrong with the run when it is opened, but the first call to a scan of it panics. -/
theorem hugeBlock_panics :
    (RunFile.parse ["t"] 0 hugeRun).map RunFile.index = .ok hugeIndex ∧
      (RunFile.Cursor.pull hugeDisk).PanicsAfter ⟨0, hugeIndex, none⟩ [] :=
  ⟨by decide +kernel, List.forall_mem_nil _, "capacity overflow", by decide +kernel⟩

end LayeredStore
