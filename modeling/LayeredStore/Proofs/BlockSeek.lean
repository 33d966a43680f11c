import LayeredStore.Proofs.BlockRecords
import Mathlib.Data.List.Induction

/-!
# Seeking in a block

A seek finds the last restart point with a key before the target by bisection and reads on from
there. In a block whose keys do not descend it leads, from any state of the cursor, to the first
entry whose key is not before the target (`gives_seek`).

The restart points are the positions of every sixteenth record (`restartPoints_eq`), which is what
makes the keys that the bisection looks at ascend.
-/

namespace LayeredStore

namespace Block

/-! ## Restart points -/

/-- The restart points are where the records of every sixteenth entry begin. -/
theorem restartPoints_eq (entries : List Entry) :
    restartPoints 0 0 [] entries =
      (List.range ((entries.length + 15) / 16)).map fun j =>
        (records 0 [] (entries.take (16 * j))).length := by
  -- entry by entry from the front, so that what was there stays as it is
  induction entries using List.reverseRecOn with
  | nil => rfl
  | append_singleton entries e ih =>
    have hkeep : (List.range ((entries.length + 15) / 16)).map
        (fun j => (records 0 [] ((entries ++ [e]).take (16 * j))).length) =
          restartPoints 0 0 [] entries := by
      rw [ih]
      refine List.map_congr_left fun j hj => ?_
      have : j < (entries.length + 15) / 16 := List.mem_range.mp hj
      rw [List.take_append_of_le_length (by omega)]
    rw [restartPoints_append, List.length_append, List.length_singleton]
    simp only [restartPoints, Nat.zero_add, List.append_nil, restartInterval]
    by_cases hmod : entries.length % 16 = 0
    · have hcount : (entries.length + 1 + 15) / 16 = (entries.length + 15) / 16 + 1 := by omega
      have hlast : 16 * ((entries.length + 15) / 16) = entries.length := by omega
      rw [hcount, List.range_succ, List.map_append, hkeep, List.map_singleton, hlast,
        List.take_left]
      simp [hmod]
    · have hcount : (entries.length + 1 + 15) / 16 = (entries.length + 15) / 16 := by omega
      rw [hcount, hkeep]
      simp [hmod]

/-- What lies from a restart point on are the records of the entries from there on. -/
theorem drop_restart (entries : List Entry) {j : Nat} (hj : 16 * j ≤ entries.length) :
    (ofEntries entries).data.drop (records 0 [] (entries.take (16 * j))).length =
      records (16 * j) [] (entries.drop (16 * j)) := by
  have hsplit : records 0 [] entries = records 0 [] (entries.take (16 * j)) ++
      records (16 * j) (lastKeyFrom [] (entries.take (16 * j))) (entries.drop (16 * j)) := by
    have h := records_append 0 [] (entries.take (16 * j)) (entries.drop (16 * j))
    rwa [List.take_append_drop, List.length_take, Nat.min_eq_left hj, Nat.zero_add] at h
  rw [ofEntries, hsplit, List.drop_left]
  exact records_eq_of_restart (by simp [restartInterval]) _ _ _

theorem length_restarts (entries : List Entry) :
    (ofEntries entries).restarts.length = (entries.length + 15) / 16 := by
  rw [ofEntries, restartPoints_eq, List.length_map, List.length_range]

theorem getD_restarts (entries : List Entry) {j : Nat} (hj : j < (entries.length + 15) / 16) :
    (ofEntries entries).restarts.getD j 0 =
      (records 0 [] (entries.take (16 * j))).length := by
  rw [ofEntries, restartPoints_eq]
  simp [List.getD_eq_getElem?_getD, hj]

/-- The key at a restart point is that of the entry there. -/
theorem restartKey_eq {entries : List Entry} (hstorable : ∀ e ∈ entries, e.Storable) {j : Nat}
    {e : Entry} (he : entries[16 * j]? = some e) :
    (ofEntries entries).restartKey ((ofEntries entries).restarts.getD j 0) = .ok e.key := by
  obtain ⟨hlt, hget⟩ := List.getElem?_eq_some_iff.mp he
  have hmem : e ∈ entries := hget ▸ List.getElem_mem hlt
  have hkey : e.key.length < 256 ^ 2 := by
    have := (hstorable e hmem).1
    simp only [Entry.maxKeyLength, UInt16.size] at this
    omega
  have hrest : entries.drop (16 * j) = e :: entries.drop (16 * j + 1) := by
    rw [List.drop_eq_getElem_cons hlt, hget]
  have hrecord : encodeRecord 0 e = Bytes.ofNat 2 0 ++ Bytes.ofNat 2 e.key.length ++
      Bytes.ofNat 4 ((e.value.map List.length).getD Entry.tombstoneMark) ++
        (e.key ++ e.value.getD []) := by simp [encodeRecord]
  have hzero : sharedAt (16 * j) [] e = 0 := by simp [sharedAt, restartInterval]
  rw [getD_restarts entries (by omega), restartKey, drop_restart entries (by omega), hrest, records,
    hzero, hrecord, List.append_assoc (_ ++ _),
    readHeader_append (by decide) hkey (hstorable e hmem).valueLength_lt]
  simp only [ne_eq, not_true_eq_false, if_false, List.append_assoc, Bytes.split?_append]

/-! ## Bisection -/

/-- A bisection finds where a condition that holds up to some point stops to hold. -/
theorem bisect_eq {f : Nat → Except StoreError Bool} {q : Nat → Bool} {low high : Nat}
    (hle : low ≤ high) (hf : ∀ i, low ≤ i → i < high → f i = .ok (q i))
    (hq : ∀ i j, low ≤ i → i ≤ j → j < high → q j = true → q i = true) :
    ∃ found, bisect f low high = .ok found ∧ low ≤ found ∧ found ≤ high ∧
      (∀ i, low ≤ i → i < found → q i = true) ∧ ∀ i, found ≤ i → i < high → q i = false := by
  generalize hn : high - low = n
  induction n using Nat.strongRecOn generalizing low high with
  | _ n ih =>
    rw [bisect]
    by_cases hlt : low < high
    · rw [if_pos hlt]
      generalize hmiddle : low + (high - low) / 2 = middle
      have hfrom : low ≤ middle := by omega
      have hto : middle < high := by omega
      simp only [hf middle hfrom hto]
      cases hqm : q middle with
      | true =>
        obtain ⟨found, hfound, h₁, h₂, hbelow, habove⟩ := ih (high - (middle + 1)) (by omega)
          (by omega : middle + 1 ≤ high) (fun i hi => hf i (by omega))
          (fun i j hi => hq i j (by omega)) rfl
        refine ⟨found, hfound, by omega, h₂, fun i hi hif => ?_, habove⟩
        by_cases him : i ≤ middle
        · exact hq i middle hi him hto hqm
        · exact hbelow i (by omega) hif
      | false =>
        obtain ⟨found, hfound, h₁, h₂, hbelow, habove⟩ := ih (middle - low) (by omega)
          hfrom (fun i hi him => hf i hi (by omega)) (fun i j hi hij hj => hq i j hi hij (by omega))
          rfl
        refine ⟨found, hfound, h₁, by omega, hbelow, fun i hi hih => ?_⟩
        by_cases him : i < middle
        · exact habove i hi him
        · cases hqi : q i with
          | false => rfl
          | true => exact absurd (hq middle i hfrom (by omega) hih hqi) (by simp [hqm])
    · rw [if_neg hlt]
      exact ⟨low, rfl, Nat.le_refl _, hle, fun i hi hil => absurd hi (by omega),
        fun i hi hih => absurd hi (by omega)⟩

/-! ## Seeking -/

variable {ι : Type}

/-- Moving on skips the entries before the target. -/
theorem Cursor.gives_advance [Nonempty ι] {c : Cursor} {entries : List Entry}
    (h : Pull.Gives (fun _ : ι => Cursor.pull) c (entries.map .ok)) (target : Bytes) :
    ∃ c', c.advance target = (.ok (), c') ∧ Pull.Gives (fun _ : ι => Cursor.pull) c'
      ((entries.dropWhile fun e => bytewise e.key target == .lt).map .ok) := by
  induction entries generalizing c with
  | nil =>
    have hnone := h.nil (Classical.arbitrary ι)
    rw [Cursor.pull_next] at hnone
    refine ⟨c, ?_, h⟩
    rw [Cursor.advance.eq_def]
    split
    · next hnext => rw [← Cursor.next_of_end hnone, hnext]
    · next hnext => simp [hnext] at hnone
    · next hnext => simp [hnext] at hnone
  | cons e rest ih =>
    obtain ⟨c₁, hnext, hrest⟩ := h.tail
    have hnext : c.next = (some (.ok e), c₁) := hnext (Classical.arbitrary ι)
    rw [Cursor.advance.eq_def]
    split
    · next hnone => simp [hnext] at hnone
    · next herror => simp [hnext] at herror
    · next found c₂ hfound =>
      rw [hnext] at hfound
      simp only [Prod.mk.injEq, Option.some.injEq, Except.ok.injEq] at hfound
      obtain ⟨rfl, rfl⟩ := hfound
      by_cases hlt : (bytewise e.key target == .lt) = true
      · rw [if_pos hlt, List.dropWhile_cons, if_pos hlt]
        exact ih hrest
      · rw [if_neg hlt, List.dropWhile_cons, if_neg hlt]
        exact ⟨c, rfl, h⟩

/-- The keys of a list of entries do not descend; a key may be there more than once. -/
def Ordered (entries : List Entry) : Prop :=
  entries.Pairwise fun a b => (bytewise a.key b.key).isLE

instance (entries : List Entry) : Decidable (Ordered entries) :=
  inferInstanceAs (Decidable (entries.Pairwise _))

theorem ordered_of_ascending {entries : List Entry} (h : Ascending bytewise entries) :
    Ordered entries :=
  h.imp fun hlt => by rw [hlt]; rfl

/-- Where keys do not descend, those before a target come first. -/
theorem dropWhile_eq_filter {target : Bytes} {entries : List Entry} (hordered : Ordered entries) :
    (entries.dropWhile fun e => bytewise e.key target == .lt) =
      entries.filter fun e => bytewise e.key target != .lt := by
  induction entries with
  | nil => rfl
  | cons e rest ih =>
    obtain ⟨he, hrest⟩ := List.pairwise_cons.mp hordered
    by_cases hlt : (bytewise e.key target == .lt) = true
    · rw [List.dropWhile_cons, if_pos hlt, List.filter_cons, if_neg (by simpa using hlt), ih hrest]
    · rw [List.dropWhile_cons, if_neg hlt, eq_comm, List.filter_eq_self]
      intro x hx
      rcases List.mem_cons.mp hx with rfl | hx
      · simpa using hlt
      · simp only [bne_iff_ne, ne_eq]
        intro hxt
        exact hlt (by simp [Std.TransCmp.lt_of_isLE_of_lt (he x hx) hxt])

/-- Whether the entry at a restart point comes before a target. -/
def restartBefore (entries : List Entry) (target : Bytes) (j : Nat) : Bool :=
  (entries[16 * j]?).any fun e => bytewise e.key target == .lt

/-- This is what the bisection asks. -/
theorem restartsBefore_eq {entries : List Entry} (hstorable : ∀ e ∈ entries, e.Storable)
    (target : Bytes) {j : Nat} (hj : 16 * j < entries.length) :
    Cursor.restartsBefore (ofEntries entries) target j =
      .ok (restartBefore entries target j) := by
  have hget := List.getElem?_eq_getElem hj
  rw [Cursor.restartsBefore, restartKey_eq hstorable hget]
  simp only [restartBefore, hget]
  rfl

theorem restartBefore_iff {entries : List Entry} {target : Bytes} {j : Nat} :
    restartBefore entries target j = true ↔
      ∃ h : 16 * j < entries.length, bytewise entries[16 * j].key target = .lt := by
  simp [restartBefore, Option.any_eq_true, List.getElem?_eq_some_iff]

/-- What lies before a restart point with a key before the target has such keys too. -/
theorem Ordered.lt_of_restartBefore {entries : List Entry} (hordered : Ordered entries)
    {target : Bytes} {i j : Nat} (hij : i ≤ 16 * j)
    (hbefore : restartBefore entries target j = true) :
    ∃ h : i < entries.length, bytewise entries[i].key target = .lt := by
  obtain ⟨hj, hlt⟩ := restartBefore_iff.mp hbefore
  refine ⟨by omega, ?_⟩
  rcases Nat.lt_or_eq_of_le hij with hless | rfl
  · exact Std.TransCmp.lt_of_isLE_of_lt
      (List.pairwise_iff_getElem.mp hordered _ _ (by omega) hj hless) hlt
  · exact hlt

/-- A seek leads to the entries from the target on, wherever the cursor was before. -/
theorem gives_seek [Nonempty ι] {entries : List Entry} (hordered : Ordered entries)
    (hstorable : ∀ e ∈ entries, e.Storable) {c : Cursor} (hblock : c.block = ofEntries entries)
    (target : Bytes) :
    ∃ c', c.seek target = (.ok (), c') ∧ Pull.Gives (fun _ : ι => Cursor.pull) c'
      ((entries.filter fun e => bytewise e.key target != .lt).map .ok) := by
  have hlength := length_restarts entries
  unfold Cursor.seek
  rw [hblock]
  by_cases hempty : entries = []
  · subst hempty
    exact ⟨_, rfl, .done fun _ => rfl⟩
  · have hpos : 0 < entries.length := List.length_pos_iff.mpr hempty
    rw [if_neg (by rw [List.isEmpty_iff_length_eq_zero]; omega)]
    have hasked : ∀ j, 0 ≤ j → j < (ofEntries entries).restarts.length →
        Cursor.restartsBefore (ofEntries entries) target j =
          .ok (restartBefore entries target j) :=
      fun j _ hj => restartsBefore_eq hstorable target (by omega)
    obtain ⟨found, hfound, -, hle, hbelow, -⟩ := bisect_eq (Nat.zero_le _) hasked
      fun i j _ hij _ hbefore => restartBefore_iff.mpr
        (hordered.lt_of_restartBefore (Nat.mul_le_mul_left 16 hij) hbefore)
    simp only [hfound]
    have hj : found - 1 < (entries.length + 15) / 16 := by omega
    have hfrom : 16 * (found - 1) ≤ entries.length := by omega
    -- what lies before the restart point comes before the target
    have hskipped : (entries.take (16 * (found - 1))).filter
        (fun e => bytewise e.key target != .lt) = [] := by
      rw [List.filter_eq_nil_iff]
      intro e he
      obtain ⟨i, hi, rfl⟩ := List.mem_take_iff_getElem.mp he
      have hbefore := hbelow (found - 1) (by omega) (by omega)
      have hwithin : i ≤ 16 * (found - 1) := by omega
      obtain ⟨_, hlt⟩ := hordered.lt_of_restartBefore hwithin hbefore
      simp [hlt]
    have hsuffix : Ordered (entries.drop (16 * (found - 1))) :=
      List.Pairwise.sublist (List.drop_sublist _ _) hordered
    have hrest : ∀ e ∈ entries.drop (16 * (found - 1)), e.Storable :=
      fun e he => hstorable e (List.mem_of_mem_drop he)
    have hgives : Pull.Gives (fun _ : ι => Cursor.pull) _ _ :=
      gives_records (ofEntries entries) hrest (16 * (found - 1)) []
    obtain ⟨c', hadvance, hc'⟩ := Cursor.gives_advance hgives target
    refine ⟨c', ?_, ?_⟩
    · rw [getD_restarts entries hj, drop_restart entries hfrom, hadvance]
    · rw [dropWhile_eq_filter hsuffix] at hc'
      rwa [← List.take_append_drop (16 * (found - 1)) entries, List.filter_append, hskipped,
        List.nil_append]

end Block

end LayeredStore
