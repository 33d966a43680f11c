import LayeredStore.Proofs.LayerScans

/-!
# Logs of writes

A log is a list of the writes that went into a layer of a store, the newest first. Unlike the
layer, which has only entries, it says which write an entry comes from.

* `Log.newest?` : the newest write of a key.
* `Log.entries` : the entries of the layer into which the writes went (`Log.entryOf_entries`).
* `Log.live` : what is left of a log if it is merged down to its live entries.
* `Log.read` : the live entry of a key. Two logs that read alike do so under any newer log
  (`ReadsLike.under`), and a log reads like its live part (`Log.readsLike_live`).
-/

namespace LayeredStore

/-- A write that was accepted, the writes of a store being numbered in their order. -/
structure Write where
  entry : Entry
  number : Nat
deriving DecidableEq, Repr

namespace Log

/-- The newest write of a key. -/
def newest? (log : List Write) (key : Bytes) : Option Write :=
  log.find? fun w => w.entry.key == key

/-- The newest entry of each key, in key order. -/
def entries (log : List Write) : List Entry :=
  log.foldr (fun w rest => insertEntry w.entry rest) []

/-- The newest write of each key, unless it deletes the key. -/
def live (log : List Write) : List Write :=
  log.filter fun w => decide (newest? log w.entry.key = some w) && !w.entry.isTombstone

/-- The live entry of a key. -/
def read (log : List Write) (key : Bytes) : Option Entry :=
  (newest? log key).bind fun w => w.entry.live?

variable {log front rest : List Write} {key : Bytes} {w : Write}

theorem newest?_append (front rest : List Write) (key : Bytes) :
    newest? (front ++ rest) key = (newest? front key <|> newest? rest key) := by
  rw [newest?, List.find?_append]
  cases hfront : front.find? fun w => w.entry.key == key with
  | none => simp [newest?, hfront]
  | some w => simp [newest?, hfront]

theorem key_of_newest? (h : newest? log key = some w) : w.entry.key = key := by
  simpa using List.find?_some h

theorem mem_of_newest? (h : newest? log key = some w) : w ∈ log := List.mem_of_find?_eq_some h

/-! ## The entries of a log -/

theorem ascending_entries (log : List Write) : Ascending bytewise (entries log) := by
  induction log with
  | nil => exact .nil
  | cons w rest ih => exact ascending_insertEntry w.entry ih

theorem entryOf_insertEntry {list : List Entry} (h : Ascending bytewise list) (e : Entry)
    (key : Bytes) :
    entryOf (insertEntry e list) key = if e.key = key then some e else entryOf list key := by
  induction list with
  | nil =>
    by_cases he : e.key = key
    · simp [insertEntry, entryOf, he]
    · simp [insertEntry, entryOf, he]
  | cons x list ih =>
    obtain ⟨hx, hrest⟩ := List.pairwise_cons.mp h
    have hcons (y : Entry) (l : List Entry) :
        entryOf (y :: l) key = if y.key = key then some y else entryOf l key := by
      by_cases hy : y.key = key
      · simp [entryOf, hy]
      · simp [entryOf, hy]
    rw [insertEntry]
    cases hcmp : bytewise e.key x.key with
    | lt => simp only [hcons]
    | eq =>
      have hkey : e.key = x.key := Std.LawfulEqCmp.eq_of_compare hcmp
      simp only [hcons, ← hkey]
      by_cases he : e.key = key
      · rw [if_pos he, if_pos he]
      · rw [if_neg he, if_neg he, if_neg he]
    | gt =>
      simp only [hcons, ih hrest]
      by_cases hxk : x.key = key
      · have hne : ¬ e.key = key := by
          intro he
          have hself : bytewise e.key x.key = .eq := by
            rw [he, hxk]
            exact Std.ReflCmp.compare_self
          rw [hcmp] at hself
          cases hself
        rw [if_pos hxk, if_neg hne, if_pos hxk]
      · rw [if_neg hxk, if_neg hxk]

/-- The layer has for a key the entry of the newest write. -/
theorem entryOf_entries (log : List Write) (key : Bytes) :
    entryOf (entries log) key = (newest? log key).map Write.entry := by
  induction log with
  | nil => rfl
  | cons w rest ih =>
    show entryOf (insertEntry w.entry (entries rest)) key = _
    rw [entryOf_insertEntry (ascending_entries rest), ih]
    by_cases hw : w.entry.key = key
    · simp [newest?, hw]
    · simp [newest?, hw]

theorem mem_entries {e : Entry} :
    e ∈ entries log ↔ (newest? log e.key).map Write.entry = some e := by
  rw [← entryOf_entries, entryOf_eq_some_iff (ascending_entries log)]

theorem entries_eq_nil_iff : entries log = [] ↔ log = [] := by
  constructor
  · intro h
    cases log with
    | nil => rfl
    | cons w rest =>
      have hmem : w.entry ∈ entries (w :: rest) := by
        rw [mem_entries]
        simp [newest?]
      rw [h] at hmem
      cases hmem
  · rintro rfl
    rfl

/-- The overlay of layers has for a key the entry of the newest write in all of their logs. -/
theorem overlay_entries (logs : List (List Write)) (key : Bytes) :
    overlay (logs.map entries) key = (newest? logs.flatten key).map Write.entry := by
  induction logs with
  | nil => rfl
  | cons log rest ih =>
    rw [List.map_cons, overlay_cons, List.flatten_cons, newest?_append, entryOf_entries, ih]
    cases newest? log key <;> rfl

/-! ## The live part of a log -/

theorem newest?_live (log : List Write) (key : Bytes) :
    newest? (live log) key = (newest? log key).filter fun w => !w.entry.isTombstone := by
  have hfind : newest? (live log) key = log.find? fun w =>
      (decide (newest? log key = some w) && !w.entry.isTombstone) && w.entry.key == key := by
    rw [newest?, live, List.find?_filter]
    congr 1
    funext w
    by_cases hw : w.entry.key = key
    · rw [hw]
      simp
    · simp [hw]
  rw [hfind]
  cases hnewest : newest? log key with
  | none =>
    rw [Option.filter_none, List.find?_eq_none]
    intro w _
    simp
  | some w =>
    have hkey := key_of_newest? hnewest
    by_cases hdead : w.entry.isTombstone = true
    · rw [Option.filter_some, if_neg (by simp [hdead]), List.find?_eq_none]
      intro x _ hx
      obtain ⟨⟨rfl, hlive⟩, -⟩ : (w = x ∧ x.entry.isTombstone = false) ∧ x.entry.key = key := by
        simpa using hx
      rw [hdead] at hlive
      cases hlive
    · rw [Option.filter_some, if_pos (by simpa using hdead)]
      -- only `w` can be found, and it is there to be found
      cases hfound : log.find? fun x =>
          (decide (some w = some x) && !x.entry.isTombstone) && x.entry.key == key with
      | none =>
        have := List.find?_eq_none.mp hfound w (mem_of_newest? hnewest)
        simp [hdead, hkey] at this
      | some x =>
        obtain ⟨⟨rfl, -⟩, -⟩ : (w = x ∧ x.entry.isTombstone = false) ∧ x.entry.key = key := by
          simpa using List.find?_some hfound
        rfl

theorem mem_entries_live {e : Entry} :
    e ∈ entries (live log) ↔
      (newest? log e.key).map Write.entry = some e ∧ e.isTombstone = false := by
  rw [mem_entries, newest?_live]
  cases newest? log e.key with
  | none => simp
  | some w =>
    by_cases hw : w.entry.isTombstone = true
    · rw [Option.filter_some, if_neg (by simp [hw])]
      simp only [Option.map_none, reduceCtorEq, Option.map_some, Option.some.injEq, false_iff,
        not_and, Bool.not_eq_false]
      rintro rfl
      exact hw
    · rw [Option.filter_some, if_pos (by simpa using hw)]
      simp only [Option.map_some, Option.some.injEq, iff_self_and]
      rintro rfl
      simpa using hw

/-- A merge of layers down to their live entries is the layer of the live writes. -/
theorem entries_live_eq {logs : List (List Write)} {merged : List Entry}
    (hasc : Ascending bytewise merged)
    (hmem : ∀ e, e ∈ merged ↔ overlay (logs.map entries) e.key = some e ∧ e.isTombstone = false) :
    merged = entries (live logs.flatten) := by
  refine hasc.ext (ascending_entries _) fun e => ?_
  rw [hmem, overlay_entries, mem_entries_live]

/-! ## Reading -/

theorem key_of_read {e : Entry} (h : read log key = some e) : e.key = key := by
  unfold read at h
  obtain ⟨w, hw, hlive⟩ := Option.bind_eq_some_iff.mp h
  obtain ⟨-, rfl⟩ := Entry.live?_eq_some_iff.mp hlive
  exact key_of_newest? hw

theorem read_append (front rest : List Write) (key : Bytes) :
    read (front ++ rest) key =
      if (newest? front key).isSome then read front key else read rest key := by
  rw [read, newest?_append, read, read]
  cases newest? front key <;> rfl

theorem live?_eq_of_filter (o : Option Write) :
    (o.filter fun w => !w.entry.isTombstone).bind (fun w => w.entry.live?) =
      o.bind fun w => w.entry.live? := by
  cases o with
  | none => rfl
  | some w =>
    by_cases hw : w.entry.isTombstone = true
    · simp [Option.filter_some, hw, Entry.live?]
    · simp [Option.filter_some, hw]

/-- Two logs have the same live entries. -/
def ReadsLike (log other : List Write) : Prop := ∀ key, read log key = read other key

theorem readsLike_live (log : List Write) : ReadsLike (live log) log := by
  intro key
  rw [read, newest?_live, live?_eq_of_filter]
  rfl

theorem ReadsLike.trans {middle other : List Write} (h : ReadsLike log middle)
    (h' : ReadsLike middle other) : ReadsLike log other := fun key => (h key).trans (h' key)

/-- Writes that are found again below themselves change nothing. -/
theorem readsLike_twice (front rest : List Write) :
    ReadsLike (front ++ (front ++ rest)) (front ++ rest) := by
  intro key
  rw [read_append, read_append]
  split <;> rfl

theorem ReadsLike.under {other : List Write} (h : ReadsLike log other) (front : List Write) :
    ReadsLike (front ++ log) (front ++ other) := by
  intro key
  rw [read_append, read_append, h key]

end Log

end LayeredStore
