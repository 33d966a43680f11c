import LayeredStore.Proofs.BlockSeek

/-!
# Blocks are read as they were built

A builder that is offered entries takes those that can be stored, in whatever order their keys
come, and nothing tells later that others were refused. `blocks_read_back` says that a fresh cursor
gives just what was taken, one entry after the other, and then nothing for ever.

What a cursor was asked before does not matter to a seek. In a block whose keys do not descend,
`seeks_find_target` says that a seek is as good as a search through all the entries.
-/

namespace LayeredStore

/-- The lengths up to which keys and values can be stored. -/
theorem Entry.storable_iff_lengths {e : Entry} :
    e.Storable ↔ e.key.length ≤ 65535 ∧ ∀ v ∈ e.value, v.length < 2 ^ 32 - 1 := Iff.rfl

namespace Block

/-! ## Offering entries -/

namespace Builder

/-- Offers an entry to a builder, which stays as it is if it refuses the entry. -/
def offer (b : Builder) (e : Entry) : Except StoreError Unit × Builder :=
  match b.add e with
  | .ok b => (.ok (), b)
  | .error cause => (.error cause, b)

/-- Offers some entries, one after the other. -/
def offerAll (b : Builder) : List Entry → List (Except StoreError Unit) × Builder
  | [] => ([], b)
  | e :: rest =>
    let (answer, b) := b.offer e
    let (answers, b) := b.offerAll rest
    (answer :: answers, b)

variable {b : Builder} {entries : List Entry}

/-- An offer is answered by the check of the entry, and what passes the check is taken. -/
theorem Holds.offer (h : b.Holds entries) (e : Entry) :
    ∃ b', b.offer e = (e.check, b') ∧
      b'.Holds (entries ++ if e.Storable then [e] else []) := by
  cases hcheck : e.check with
  | ok =>
    have he : e.Storable := Entry.check_eq_ok_iff.mp hcheck
    obtain ⟨b', hadd, hb'⟩ := h.add he
    refine ⟨b', ?_, by rwa [if_pos he]⟩
    rw [Builder.offer, hadd]
  | error cause =>
    refine ⟨b, ?_, ?_⟩
    · rw [Builder.offer, add_error hcheck]
    · rwa [if_neg (Entry.of_check_eq_error hcheck).1, List.append_nil]

/-- A builder that was offered some entries has taken those that can be stored. -/
theorem Holds.offerAll (h : b.Holds entries) (offers : List Entry) :
    ∃ b', b.offerAll offers = (offers.map Entry.check, b') ∧
      b'.Holds (entries ++ offers.filter (·.Storable)) := by
  induction offers generalizing b entries with
  | nil => exact ⟨b, rfl, by rwa [List.filter_nil, List.append_nil]⟩
  | cons e rest ih =>
    obtain ⟨b₁, hoffer, h₁⟩ := h.offer e
    obtain ⟨b₂, hrest, h₂⟩ := ih h₁
    refine ⟨b₂, ?_, ?_⟩
    · rw [Builder.offerAll, hoffer]
      simp only [hrest, List.map_cons]
    · have hfilter : (e :: rest).filter (·.Storable) =
          (if e.Storable then [e] else []) ++ rest.filter (·.Storable) := by
        rw [List.filter_cons]
        split <;> simp_all
      rwa [hfilter, ← List.append_assoc]

/-- What a builder has taken is the block that is read from what it finishes. -/
theorem Holds.parse_finish (h : b.Holds entries) (hsize : b.size < UInt32.size) :
    parse b.finish = .ok (ofEntries entries) := by
  rw [h.size] at hsize
  rw [h.finish, parse_stored (fits_of_records_lt hsize)]

end Builder

/-! ## Reading -/

namespace Cursor

theorem fused_pull : pull.Fused := fun c h => by
  rw [pull_next] at h ⊢
  rwa [next_of_end h]

theorem endsAfter_of_gives {c : Cursor} {items : List Item}
    (h : Pull.Gives (fun _ : Unit => pull) c items) : pull.EndsAfter c items := by
  rw [← h.toList_eq ()]
  exact fused_pull.endsAfter c

end Cursor

/-- Of the entries that a builder is offered it refuses those with a key or a value that is too
long, for that fault. If the records of the others take less than 2³² bytes, the finished block is
accepted, and a fresh cursor gives the others in the order in which they were offered, without an
error, and then nothing ever after. -/
theorem blocks_read_back (offers : List Entry)
    (hsize : (Builder.offerAll {} offers).2.size < 2 ^ 32) :
    (Builder.offerAll {} offers).1 = offers.map Entry.check ∧
      ∃ block, parse (Builder.offerAll {} offers).2.finish = .ok block ∧
        Cursor.pull.EndsAfter (.start block) ((offers.filter fun e =>
          e.key.length ≤ 65535 ∧ ∀ v ∈ e.value, v.length < 2 ^ 32 - 1).map .ok) := by
  obtain ⟨b, hoffer, hholds⟩ := Builder.holds_new.offerAll offers
  rw [hoffer] at hsize ⊢
  rw [List.nil_append] at hholds
  have hstorable : ∀ e ∈ offers.filter (·.Storable), e.Storable :=
    fun e he => of_decide_eq_true (List.mem_filter.mp he).2
  have hfilter : (offers.filter fun e =>
      e.key.length ≤ 65535 ∧ ∀ v ∈ e.value, v.length < 2 ^ 32 - 1) = offers.filter (·.Storable) :=
    List.filter_congr fun e _ => decide_eq_decide.mpr Entry.storable_iff_lengths.symm
  refine ⟨rfl, _, hholds.parse_finish hsize, ?_⟩
  rw [hfilter, start_ofEntries]
  exact Cursor.endsAfter_of_gives (gives_records _ hstorable 0 [])

/-- A key of which the length does not fit two bytes. -/
def longKey : Bytes := List.replicate 65536 0

theorem length_longKey : longKey.length = 65536 := List.length_replicate

/-- Offers in no order: one key twice, an empty value and tombstones, and a key that is too long. -/
def mixedOffers : List Entry :=
  [.put [2] [], .tombstone [1], .put longKey [1], .put [2] [7], .tombstone [2, 5]]

theorem mixedOffers_read_back :
    (Builder.offerAll {} mixedOffers).1 =
        [.ok (), .ok (), .error (.keyTooLong 65536), .ok (), .ok ()] ∧
      ∃ block, parse (Builder.offerAll {} mixedOffers).2.finish = .ok block ∧
        Cursor.pull.EndsAfter (.start block) [.ok (.put [2] []), .ok (.tombstone [1]),
          .ok (.put [2] [7]), .ok (.tombstone [2, 5])] := by
  have hkept : mixedOffers.filter (fun e =>
      e.key.length ≤ 65535 ∧ ∀ v ∈ e.value, v.length < 2 ^ 32 - 1) =
        [.put [2] [], .tombstone [1], .put [2] [7], .tombstone [2, 5]] := by
    simp [mixedOffers, Entry.put, Entry.tombstone, length_longKey]
  have hchecks : mixedOffers.map Entry.check =
      [.ok (), .ok (), .error (.keyTooLong 65536), .ok (), .ok ()] := by
    simp [mixedOffers, Entry.check, Entry.put, Entry.tombstone, length_longKey,
      Entry.maxKeyLength, Entry.tombstoneMark]
  have hsize : (Builder.offerAll {} mixedOffers).2.size < 2 ^ 32 := by
    obtain ⟨b, hoffer, hholds⟩ := Builder.holds_new.offerAll mixedOffers
    have hstorable : mixedOffers.filter (·.Storable) = mixedOffers.filter (fun e =>
        e.key.length ≤ 65535 ∧ ∀ v ∈ e.value, v.length < 2 ^ 32 - 1) :=
      List.filter_congr fun e _ => decide_eq_decide.mpr Entry.storable_iff_lengths
    rw [hoffer, hholds.size, hstorable, hkept]
    decide
  obtain ⟨hanswers, block, hparse, hread⟩ := blocks_read_back mixedOffers hsize
  rw [hkept] at hread
  exact ⟨hanswers.trans hchecks, block, hparse, hread⟩

/-! ## Calls in any order -/

namespace Cursor

/-- What can be asked of a cursor. -/
inductive Call where
  | next
  | seek (target : Bytes)
deriving DecidableEq, Repr

/-- How a cursor answers. -/
inductive Answer where
  | item (item : Option Item)
  | moved (outcome : Except StoreError Unit)
deriving DecidableEq, Repr

/-- A call to a cursor. -/
def call (c : Cursor) : Call → Answer × Cursor
  | .next => (.item c.next.1, c.next.2)
  | .seek target => (.moved (c.seek target).1, (c.seek target).2)

/-- Some calls to a cursor, one after the other. -/
def run (c : Cursor) : List Call → List Answer × Cursor
  | [] => ([], c)
  | call :: rest =>
    let (answer, c) := c.call call
    let (answers, c) := c.run rest
    (answer :: answers, c)

theorem block_next (c : Cursor) : c.next.2.block = c.block := by
  unfold next
  split
  · rfl
  · split <;> rfl

theorem block_advance (target : Bytes) (c : Cursor) : (advance target c).2.block = c.block := by
  fun_induction advance target c with
  | case1 c c' hnext => rw [← block_next c, hnext]
  | case2 c e c' hnext => rw [← block_next c, hnext]
  | case3 c e c' hnext _ _ ih => rw [ih, ← block_next c, hnext]
  | case4 => rfl

theorem block_seek (c : Cursor) (target : Bytes) : (c.seek target).2.block = c.block := by
  unfold seek
  split
  · rfl
  · split
    · rfl
    · exact block_advance target _

/-- No call moves a cursor to another block. -/
theorem block_run (c : Cursor) (calls : List Call) : (c.run calls).2.block = c.block := by
  induction calls generalizing c with
  | nil => rfl
  | cons call rest ih =>
    refine (ih _).trans ?_
    cases call with
    | next => exact block_next c
    | seek target => exact block_seek c target

end Cursor

/-- In a block of entries whose keys do not descend, a seek succeeds and leads to the entries with
a key at or after the target, in their order, whatever the cursor was asked before. -/
theorem seeks_find_target {entries : List Entry} (hordered : Ordered entries)
    (hstorable : ∀ e ∈ entries, e.Storable)
    (hsize : (Builder.offerAll {} entries).2.size < 2 ^ 32) :
    ∃ block, parse (Builder.offerAll {} entries).2.finish = .ok block ∧
      ∀ calls target, ∃ c, ((Cursor.start block).run calls).2.seek target = (.ok (), c) ∧
        Cursor.pull.EndsAfter c ((entries.filter (bytewise ·.key target != .lt)).map .ok) := by
  obtain ⟨b, hoffer, hholds⟩ := Builder.holds_new.offerAll entries
  rw [List.nil_append, List.filter_eq_self.mpr fun e he => by simpa using hstorable e he] at hholds
  rw [hoffer] at hsize ⊢
  refine ⟨_, hholds.parse_finish hsize, fun calls target => ?_⟩
  obtain ⟨c, hseek, hgives⟩ := gives_seek (ι := Unit) hordered hstorable
    (c := ((Cursor.start (ofEntries entries)).run calls).2) (Cursor.block_run _ _) target
  exact ⟨c, hseek, Cursor.endsAfter_of_gives hgives⟩

/-- Forty entries with each key twice, also the key at the second restart point. -/
def twiceEach : List Entry :=
  (List.range 40).map fun i => .put [7, UInt8.ofNat ((i + 1) / 2)] [UInt8.ofNat i]

/-- A seek to the key at a restart point, after calls that led to the end of the block. -/
theorem twiceEach_seeks : ∃ block, parse (Builder.offerAll {} twiceEach).2.finish = .ok block ∧
    ∃ c, ((Cursor.start block).run [.next, .seek [7, 3], .next, .seek [8], .next]).2.seek [7, 8] =
        (.ok (), c) ∧
      Cursor.pull.EndsAfter c ((twiceEach.drop 15).map .ok) := by
  obtain ⟨hordered, hstorable, hsize, hfound⟩ : Ordered twiceEach ∧ (∀ e ∈ twiceEach, e.Storable) ∧
      (Builder.offerAll {} twiceEach).2.size < 2 ^ 32 ∧
      twiceEach.filter (bytewise ·.key [7, 8] != .lt) = twiceEach.drop 15 := by decide +kernel
  obtain ⟨block, hparse, hseeks⟩ := seeks_find_target hordered hstorable hsize
  obtain ⟨c, hseek, hends⟩ := hseeks [.next, .seek [7, 3], .next, .seek [8], .next] [7, 8]
  rw [hfound] at hends
  exact ⟨block, hparse, c, hseek, hends⟩

end Block

end LayeredStore
