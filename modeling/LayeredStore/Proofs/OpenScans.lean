import LayeredStore.Proofs.KeyPrefixes
import LayeredStore.Proofs.OpenMerges
import LayeredStore.Proofs.StoreGrowth

/-!
# Scans that stay open while the store changes

Between two items of a scan anything may happen to the store: writes, sealing, flushes, compactions
that remove the files the scan reads from, and closing. A source of the scan is then a buffer that is
looked at again from the last key on, or a run whose file keeps its content (`Head.Stays`); so the
merge goes on being sound whatever the buffers have become (`Scan.Open.sound`), and what it has is
what the layers had at the start or what was written since (`Scan.Open.follows`).

`Reading` lets items be drawn and events happen in any order. `Reading.Traced` is kept by each move,
and says of the answers so far what `open_scan_sound` says in the end.
-/

namespace LayeredStore

open Disk Merge

variable {d start : Disk} {dir place : Path} {l : Layers} {c c' : Core} {s : Session}
  {config : Config} {range ahead : KeyRange} {top : Nat} {m m' : Scan}
  {layers : List (Nat × List Entry)} {buffers : Nat → Buffer}

/-! ## Sources that can be read on -/

theorem KeyRange.IsRest.after_eq (h : ahead.IsRest range) (key : Bytes) :
    ahead.after key = range.after key := by
  rw [KeyRange.after, KeyRange.after, h.upper]

theorem Buffer.next_of_some {b : Buffer} {item : Item} {cursor : Buffer.Cursor}
    (h : Cursor.next b ⟨range, false⟩ = (some item, cursor)) :
    ∃ e, item = .ok e ∧ range.contains bytewise e.key = true ∧
      cursor = ⟨range.after e.key, false⟩ := by
  cases hcut : range.cut b.entries with
  | nil =>
    have hnone := next_of_cut_nil hcut
    rw [h] at hnone
    cases hnone
  | cons e rest =>
    obtain ⟨hnext, -⟩ := next_of_cut_cons hcut
    obtain ⟨hitem, hcursor⟩ := Prod.mk.inj (h.symm.trans hnext)
    have hmem : e ∈ range.cut b.entries := hcut ▸ List.mem_cons_self
    exact ⟨e, Option.some.inj hitem, (KeyRange.mem_cut.mp hmem).2, hcursor⟩

/-- A head of a scan whose source goes on giving what comes after it in the range: a buffer that the
store will not replace, or a run whose file keeps its content. -/
inductive Head.Stays (top : Nat) (range : KeyRange) (start : Disk) : Head Source → Prop
  | buffer {e : Entry} {rank id : Nat} (numbered : id ≤ top)
      (within : range.contains bytewise e.key = true) :
      Stays top range start ⟨e, rank, .buffer id ⟨range.after e.key, false⟩⟩
  | run {e : Entry} {rank : Nat} {scan : Within RunFile.Cursor} {entries : List Entry}
      (ascending : Ascending bytewise (e :: entries))
      (gives : Pull.Gives (fun d : { d : Disk // start.KeepsFiles d } => RunFile.pull d.1) scan
        (entries.map .ok)) :
      Stays top range start ⟨e, rank, .run scan⟩

namespace Head

/-- What a buffer gives first. -/
theorem stays_of_buffer (hrest : ahead.IsRest range) {id rank : Nat} (hid : id ≤ top) {e : Entry}
    {source : Source} (h : (Source.pull buffers d).next (.buffer id ⟨ahead, false⟩) =
      (some (.ok e), source)) : Stays top range start ⟨e, rank, source⟩ := by
  have hpull : (Source.pull buffers d).next (.buffer id ⟨ahead, false⟩) =
      ((Buffer.Cursor.next (buffers id) ⟨ahead, false⟩).1,
        .buffer id (Buffer.Cursor.next (buffers id) ⟨ahead, false⟩).2) := rfl
  obtain ⟨hitem, hsource⟩ := Prod.mk.inj (hpull.symm.trans h)
  obtain ⟨x, hx, hin, hcursor⟩ := Buffer.next_of_some (Prod.ext hitem rfl)
  cases hx
  rw [← hsource, show (Buffer.Cursor.next (buffers id) ⟨ahead, false⟩).2 = _ from hcursor,
    hrest.after_eq]
  exact .buffer hid (hrest.within hin)

/-- What a run gives first. -/
theorem stays_of_run {scan : Within RunFile.Cursor} {entries : List Entry} {rank : Nat}
    (hasc : Ascending bytewise entries)
    (hgives : Pull.Gives (fun d : { d : Disk // start.KeepsFiles d } => RunFile.pull d.1) scan
      (entries.map .ok)) (hkept : start.KeepsFiles d) {e : Entry} {source : Source}
    (h : (Source.pull buffers d).next (.run scan) = (some (.ok e), source)) :
    Stays top range start ⟨e, rank, source⟩ := by
  have hpull : (Source.pull buffers d).next (.run scan) =
      (((RunFile.pull d).next scan).1, .run ((RunFile.pull d).next scan).2) := rfl
  obtain ⟨hitem, rfl⟩ := Prod.mk.inj (hpull.symm.trans h)
  cases entries with
  | nil =>
    have hnone := hgives.nil ⟨d, hkept⟩
    rw [hitem] at hnone
    cases hnone
  | cons x rest =>
    obtain ⟨scan', hnext, hrest⟩ := hgives.tail
    have hx := hnext ⟨d, hkept⟩
    rw [hx] at hitem ⊢
    cases hitem
    exact .run hasc hrest

variable {head : Head Source}

/-- What stays is passed on from head to head. -/
theorem drawn_stays (buffers : Nat → Buffer) (hkept : start.KeepsFiles d) :
    Merge.Drawn (Source.pull buffers d) (Stays top range start) := by
  intro head e rest hstays hnext
  cases hstays with
  | buffer hid hin => exact stays_of_buffer (KeyRange.isRest_after hin) hid hnext
  | run hasc hgives => exact stays_of_run hasc.of_cons hgives hkept hnext

/-- Whatever the buffers are, a source that stays gives ascending entries that come after its head. -/
theorem Stays.gives (h : head.Stays top range start) (buffers : Nat → Buffer)
    (hkept : start.KeepsFiles d) :
    Pull.Gives (fun _ : Unit => Source.pull buffers d) head.rest
        (((Source.pull buffers d).rest head.rest).map .ok) ∧
      Ascending bytewise (head.entry :: (Source.pull buffers d).rest head.rest) := by
  cases h with
  | @buffer e rank id hid hin =>
    have hgives := Source.gives_buffer buffers (fun _ : Unit => d) id (range.after e.key)
    rw [Source.ofBuffer, Buffer.scan] at hgives
    have hrest := hgives.rest_eq ()
    refine ⟨by rwa [hrest], ?_⟩
    rw [hrest]
    refine List.pairwise_cons.mpr ⟨fun x hx => ?_, (buffers id).ascending.cut _⟩
    exact ((KeyRange.contains_after_iff hin).mp (KeyRange.mem_cut.mp hx).2).1
  | @run e rank scan entries hasc hgives =>
    have hscanned := Source.gives_scanned
      (hgives.comap fun _ : Unit => (⟨d, hkept⟩ : { d : Disk // start.KeepsFiles d })) buffers
    have hrest := hscanned.rest_eq ()
    exact ⟨by rwa [hrest], by rwa [hrest]⟩

/-- What a source has after the buffers have grown: for every entry that it had there is one of its
key, and what is new was written and comes after its head. -/
theorem Stays.grows (h : head.Stays top range start) {written : List Entry} {d d' : Disk}
    (hgrows : c.Grows written c') (htop : top ≤ c.activeId) (hkept : start.KeepsFiles d)
    (hkept' : start.KeepsFiles d') :
    (∀ e ∈ (Source.pull c.buffers d).rest head.rest,
        ∃ e' ∈ (Source.pull c'.buffers d').rest head.rest, e'.key = e.key) ∧
      ∀ e ∈ (Source.pull c'.buffers d').rest head.rest,
        e ∈ (Source.pull c.buffers d).rest head.rest ∨
          e ∈ written ∧ bytewise head.entry.key e.key = .lt ∧ range.contains bytewise e.key = true := by
  cases h with
  | @buffer e rank id hid hin =>
    have hrest (buffers : Nat → Buffer) (d : Disk) : (Source.pull buffers d).rest
        (.buffer id ⟨range.after e.key, false⟩) = (range.after e.key).cut (buffers id).entries :=
      (Source.gives_buffer buffers (fun _ : Unit => d) id (range.after e.key)).rest_eq ()
    have hbuffer := hgrows.buffers (Nat.le_trans hid htop)
    dsimp only
    rw [hrest, hrest]
    refine ⟨fun x hx => ?_, fun x hx => ?_⟩
    · obtain ⟨hx, hafter⟩ := KeyRange.mem_cut.mp hx
      obtain ⟨x', hx', hkey⟩ := hbuffer.keys x hx
      exact ⟨x', KeyRange.mem_cut.mpr ⟨hx', hkey ▸ hafter⟩, hkey⟩
    · obtain ⟨hx, hafter⟩ := KeyRange.mem_cut.mp hx
      rcases hbuffer.entries x hx with hold | hnew
      · exact .inl (KeyRange.mem_cut.mpr ⟨hold, hafter⟩)
      · exact .inr ⟨hnew, (KeyRange.contains_after_iff hin).mp hafter⟩
  | @run e rank scan entries hasc hgives =>
    have hrest (buffers : Nat → Buffer) {d : Disk} (hkept : start.KeepsFiles d) :
        (Source.pull buffers d).rest (.run scan) = entries :=
      (Source.gives_scanned (hgives.comap fun _ : Unit =>
        (⟨d, hkept⟩ : { d : Disk // start.KeepsFiles d })) buffers).rest_eq ()
    dsimp only
    rw [hrest _ hkept, hrest _ hkept']
    exact ⟨fun x hx => ⟨x, hx, rfl⟩, fun x hx => .inl hx⟩

end Head

/-! ## Scans that can be read on -/

/-- A scan without errors whose sources can all be read on. -/
structure Scan.Open (top : Nat) (range : KeyRange) (start : Disk) (m : Scan) : Prop where
  no_errors : m.errors = []
  ordered : m.heads.Ordered (Head.precedes bytewise)
  stays : ∀ head ∈ m.heads.toList, head.Stays top range start

namespace Scan

theorem Open.sound (h : m.Open top range start) (buffers : Nat → Buffer)
    (hkept : start.KeepsFiles d) : Merge.Sound (fun _ : Unit => Source.pull buffers d) bytewise
      (Source.pull buffers d).rest m where
  no_errors := h.no_errors
  ordered := h.ordered
  gives head hhead := ((h.stays head hhead).gives buffers hkept).1
  ascending head hhead := ((h.stays head hhead).gives buffers hkept).2

theorem open_of_sound {content : Source → List Entry} {p : Unit → Pull Source}
    (h : Merge.Sound p bytewise content m)
    (hstays : ∀ head ∈ m.heads.toList, head.Stays top range start) : m.Open top range start :=
  ⟨h.no_errors, h.ordered, hstays⟩

/-- A scan goes on following its layers when the buffers grow and the disk changes. -/
theorem Open.follows (h : m.Open top range start) {since written : List Entry} {d d' : Disk}
    (hfollows : m.Follows layers since ahead (Source.pull c.buffers d).rest)
    (hrest : ahead.IsRest range) (hgrows : c.Grows written c') (htop : top ≤ c.activeId)
    (hkept : start.KeepsFiles d) (hkept' : start.KeepsFiles d') :
    m.Follows layers (written ++ since) ahead (Source.pull c'.buffers d').rest := by
  have hheld {r : Nat} {e : Entry} (he : m.Held (Source.pull c'.buffers d').rest r e) :
      m.Held (Source.pull c.buffers d).rest r e ∨
        e ∈ written ∧ ahead.contains bytewise e.key = true := by
    obtain ⟨head, hhead, rfl, he⟩ := he
    rcases List.mem_cons.mp he with rfl | he
    · exact .inl ⟨head, hhead, rfl, List.mem_cons_self⟩
    rcases ((h.stays head hhead).grows hgrows htop hkept hkept').2 e he with hold | ⟨hnew, hlt, hin⟩
    · exact .inl ⟨head, hhead, rfl, List.mem_cons_of_mem _ hold⟩
    · have hhere := hfollows.ahead ⟨head, hhead, rfl, List.mem_cons_self⟩
      exact .inr ⟨hnew, hrest.contains_later hhere hlt hin⟩
  refine ⟨fun layer hlayer e he hin => ?_, fun {r e} he => ?_, fun {r e} he => ?_⟩
  · obtain ⟨e', hkey, head, hhead, hrank, he'⟩ := hfollows.covers layer hlayer e he hin
    rcases List.mem_cons.mp he' with rfl | he'
    · exact ⟨_, hkey, head, hhead, hrank, List.mem_cons_self⟩
    · obtain ⟨x, hx, hsame⟩ :=
        ((h.stays head hhead).grows hgrows htop hkept hkept').1 e' he'
      exact ⟨x, hsame.trans hkey, head, hhead, hrank, List.mem_cons_of_mem _ hx⟩
  · exact (hheld he).elim hfollows.ahead And.right
  · rcases hheld he with he | ⟨hnew, -⟩
    · exact (hfollows.known he).imp id (List.mem_append_right _)
    · exact .inr (List.mem_append_left _ hnew)

end Scan

/-! ## A scan that was just started -/

theorem Run.Shows.gives_scan {run : Run} {r : Nat × List Entry} (h : run.Shows d r)
    (range : KeyRange) : ∃ scan, Source.ofRun d run.file range = .run scan ∧
      Pull.Gives (fun d' : { d' : Disk // d.KeepsFiles d' } => RunFile.pull d'.1) scan
        ((range.cut r.2).map .ok) ∧ Ascending bytewise (range.cut r.2) := by
  have hreads := h.reads (fun d' : { d' : Disk // d.KeepsFiles d' } => d'.1)
    fun d' => d'.2.content h.lt_size
  obtain ⟨scan, hscan, hgives⟩ := hreads.gives_scan range
  refine ⟨scan, ?_, hgives, hreads.ascending.cut range⟩
  have hstarted := hscan ⟨d, .refl d⟩
  rw [Source.ofRun, hstarted]

/-- The layers that a scan of a core reads. -/
def Core.scanned (c : Core) (runs : List (Nat × List Entry)) : List (Nat × List Entry) :=
  rankedLayers c.buffers c.activeId c.flushing runs

namespace Layers

theorem ShownBy.ranked (h : l.ShownBy c d place) (hsane : l.Sane) :
    Ranked (c.scanned (runEntries l.runs)) where
  ranks := (h.numbered hsane).pairwise_rankedLayers _ _ _
  ascending := h.reads.ascending_layers (Generation.perm_rankedLayers _ _ _ _)

/-- A scan that was just started has of its range just what the layers have. -/
theorem ShownBy.open_scan {store : Store} (h : l.ShownBy store.core d place) (hsane : l.Sane)
    (range : KeyRange) :
    (store.scan d range).Open store.core.activeId range d ∧
      (store.scan d range).Follows (store.core.scanned (runEntries l.runs)) [] range
        (Source.pull store.core.buffers d).rest := by
  obtain ⟨ids, hids, hperm, hscan⟩ := h.scan_eq range
  obtain ⟨sources, hsources, hgives⟩ := h.reads.gives_layers store.core.buffers ids range
  have hranked := h.ranked hsane
  -- what is drawn from are the parts of the layers that lie in the range
  have hmem {layer : Nat × List Entry} : layer ∈ range.cutLayers (ids.map (fun b =>
      (b.1, (store.core.buffers b.2).entries)) ++ runEntries l.runs) ↔
      ∃ whole ∈ store.core.scanned (runEntries l.runs), (whole.1, range.cut whole.2) = layer := by
    rw [KeyRange.mem_cutLayers]
    simp only [hperm.mem_iff, Core.scanned]
  have hasc : ∀ layer ∈ range.cutLayers (ids.map (fun b =>
      (b.1, (store.core.buffers b.2).entries)) ++ runEntries l.runs), Ascending bytewise layer.2 :=
    range.ascending_cutLayers fun layer hlayer =>
      hranked.ascending layer (hperm.mem_iff.mp hlayer)
  obtain ⟨m, hm, hsound, hheld⟩ := Merge.Sound.ofSources (p := fun _ : Unit =>
    Source.pull store.core.buffers d) (fun _ _ hgives => hgives.rest_eq ())
    (List.forall₂_map_right_iff.mpr hgives) hasc Merge.sound_empty
  have hstarted : store.scan d range = m := by
    rw [hscan, hsources ()]
    exact hm ()
  have hnothing (r : Nat) (e : Entry) :
      ¬ Merge.Held (Source.pull store.core.buffers d).rest ⟨.empty, []⟩ r e := by
    simp [Merge.Held, Heap.toList]
  simp only [hnothing, false_or] at hheld
  rw [hstarted]
  refine ⟨Scan.open_of_sound hsound ?_, fun layer hlayer e he hin => ?_, fun {r e} he => ?_,
    fun {r e} he => ?_⟩
  · rw [← hstarted, hscan]
    refine Merge.heads_ofSources fun source hsource e rest hnext => ?_
    rcases List.mem_append.mp hsource with hbuffer | hrun
    · obtain ⟨b, hb, rfl⟩ := List.mem_map.mp hbuffer
      exact Head.stays_of_buffer (.refl range) (hids b hb) hnext
    · obtain ⟨run, hopened, rfl⟩ := List.mem_map.mp hrun
      obtain ⟨r, hshows⟩ := h.shows_of_mem hopened
      obtain ⟨scan, hscan, hgives, hasc⟩ := hshows.gives_scan range
      dsimp only at hnext
      rw [hscan] at hnext
      exact Head.stays_of_run hasc hgives (.refl d) hnext
  · exact ⟨e, rfl, (hheld _ _).mpr ⟨_, hmem.mpr ⟨layer, hlayer, rfl⟩, rfl,
      KeyRange.mem_cut.mpr ⟨he, hin⟩⟩⟩
  · obtain ⟨layer, hlayer, -, he⟩ := (hheld r e).mp he
    obtain ⟨whole, -, rfl⟩ := hmem.mp hlayer
    exact (KeyRange.mem_cut.mp he).2
  · obtain ⟨layer, hlayer, hrank, he'⟩ := (hheld r e).mp he
    obtain ⟨whole, hwhole, rfl⟩ := hmem.mp hlayer
    exact .inl ⟨whole, hwhole, hrank, (KeyRange.mem_cut.mp he').1⟩

end Layers

/-! ## Requests -/

/-- What a scan can be started for. -/
inductive Request where
  /-- The keys of a range. -/
  | scan (range : KeyRange)
  /-- The keys from `first` on and before `last`. -/
  | getRange (first last : Option Bytes)
  /-- The keys that start with `start`. -/
  | scanStartingWith (start : Bytes)

namespace Request

/-- The scan that a store starts. -/
def started (s : Store) (d : Disk) : Request → Scan
  | .scan range => s.scan d range
  | .getRange first last => s.getRange d first last
  | .scanStartingWith start => s.scanStartingWith d start

/-- The keys that are asked for. -/
def Wants (key : Bytes) : Request → Prop
  | .scan range => range.contains bytewise key = true
  | .getRange first last =>
    (∀ bound ∈ first, bytewise key bound ≠ .lt) ∧ ∀ bound ∈ last, bytewise key bound = .lt
  | .scanStartingWith start => start <+: key

/-- The range that is scanned for a request. -/
def keys : Request → KeyRange
  | .scan range => range
  | .getRange first last => .halfOpen first last
  | .scanStartingWith start => .startingWith start

theorem started_eq (s : Store) (d : Disk) (request : Request) :
    request.started s d = s.scan d request.keys := by
  cases request <;> rfl

/-- The range that is scanned has the keys that are asked for. -/
theorem contains_keys (request : Request) (key : Bytes) :
    request.keys.contains bytewise key = true ↔ request.Wants key := by
  cases request with
  | scan range => rfl
  | getRange first last =>
    rw [keys, Wants, KeyRange.halfOpen, KeyRange.contains, KeyRange.isBefore, KeyRange.isAfter,
      Bool.and_eq_true]
    cases first <;> cases last <;> simp
  | scanStartingWith start => exact KeyRange.contains_startingWith start key

end Request

/-! ## Readings -/

/-- What can happen while a scan is open: its next item is asked for, or something happens to the
store. -/
inductive Move where
  | next
  | event (event : Event)

/-- What happens to the store in a move. -/
def Move.event? : Move → Option Event
  | .next => none
  | .event e => some e

/-- A scan that is read while a session goes on. -/
structure Reading where
  session : Session
  scan : Scan
  /-- What the scan has answered, oldest first. -/
  answers : List (Option Item)

namespace Reading

/-- A scan that a store has just started. -/
def of (request : Request) (s : Session) : Reading := ⟨s, request.started s.store s.disk, []⟩

/-- The reading after a move. An item is drawn from the store and the disk as they are then. -/
def move (r : Reading) : Move → Reading
  | .next =>
    let (answer, scan) := (r.session.store.pull r.session.disk).next r.scan
    { r with scan, answers := r.answers ++ [answer] }
  | .event event => { r with session := r.session.step event }

/-- The reading after some moves. -/
def run (r : Reading) (moves : List Move) : Reading := moves.foldl move r

/-- What the moves so far have made of a scan: `entries` were given, and then `ends` times nothing;
`ahead` is what is left of the range. -/
structure Traced (known since : List Write) (layers : List (Nat × List Entry)) (top : Nat)
    (start : Disk) (range ahead : KeyRange) (entries : List Entry) (ends : Nat) (r : Reading) :
    Prop where
  writes : r.session.writes = since ++ known
  numbered : top ≤ r.session.store.core.activeId
  kept : start.KeepsFiles r.session.disk
  rest : ahead.IsRest range
  opened : r.scan.Open top range start
  follows : r.scan.Follows layers (since.map Write.entry) ahead
    (Source.pull r.session.store.core.buffers r.session.disk).rest
  answers : r.answers = entries.map (fun e => some (.ok e)) ++ List.replicate ends none
  ended : 0 < ends → ∀ p : Pull Source, (p.merge bytewise).live.next r.scan = (none, r.scan)
  ascending : Ascending bytewise entries
  passed : ∀ e ∈ entries, ∀ key, ahead.contains bytewise key = true → bytewise e.key key = .lt
  given : ∀ e ∈ entries, range.contains bytewise e.key = true ∧ e.isTombstone = false ∧
    Current layers (since.map Write.entry) e
  complete : ∀ e, range.contains bytewise e.key = true → liveIn layers e.key = some e →
    (∀ w ∈ since, w.entry.key ≠ e.key) →
      e ∈ entries ∨ ends = 0 ∧ ahead.contains bytewise e.key = true

variable {r : Reading} {known since more : List Write} {entries : List Entry} {ends : Nat}
  {rest : KeyRange} {s' : Session}

/-- The store goes on: what was written meanwhile is among what may be given. -/
theorem Traced.event (h : r.Traced known since layers top start range ahead entries ends)
    (honward : r.session.Onward s' more) : ({ r with session := s' } : Reading).Traced known
      (more ++ since) layers top start range ahead entries ends := by
  have hkept := h.kept.trans honward.disk
  have hfollows := h.opened.follows h.follows h.rest honward.core h.numbered h.kept hkept
  rw [← List.map_append] at hfollows
  exact {
    h with
    writes := by rw [honward.writes, h.writes, List.append_assoc]
    numbered := Nat.le_trans h.numbered honward.core.activeId_le
    kept := hkept
    follows := hfollows
    given := fun e he => by
      obtain ⟨hin, hlive, hcurrent⟩ := h.given e he
      refine ⟨hin, hlive, hcurrent.imp id fun hsince => ?_⟩
      rw [List.map_append]
      exact List.mem_append_right _ hsince
    complete := fun e hin hlive hunwritten =>
      h.complete e hin hlive fun w hw => hunwritten w (List.mem_append_right _ hw) }

theorem move_next {answer : Option Item}
    (h : (r.session.store.pull r.session.disk).next r.scan = (answer, m')) :
    r.move .next = { r with scan := m', answers := r.answers ++ [answer] } := by
  rw [move, h]

/-- A scan that has come to its end stays there. -/
theorem Traced.endAgain (h : r.Traced known since layers top start range ahead entries ends)
    (hends : 0 < ends) :
    (r.move .next).Traced known since layers top start range ahead entries (ends + 1) := by
  rw [move_next (h.ended hends _)]
  exact {
    h with
    answers := by
      show r.answers ++ [none] = _
      rw [h.answers, List.append_assoc, List.replicate_succ']
    ended := fun _ => h.ended hends
    complete := fun e hin hlive hunwritten =>
      (h.complete e hin hlive hunwritten).imp id fun hnot => absurd hnot.1 (Nat.ne_of_gt hends) }

/-- A scan comes to its end, where nothing is left that was live at the start. -/
theorem Traced.atEnd (h : r.Traced known since layers top start range ahead entries 0)
    (hnone : (r.session.store.pull r.session.disk).next r.scan = (none, m'))
    (hopened : m'.Open top range start)
    (hfollows : m'.Follows layers (since.map Write.entry) rest
      (Source.pull r.session.store.core.buffers r.session.disk).rest)
    (hrest : rest.IsRest ahead)
    (hpassed : PassedOver layers (since.map Write.entry) ahead fun _ => True) :
    (r.move .next).Traced known since layers top start range rest entries 1 := by
  rw [move_next hnone]
  exact {
    h with
    rest := hrest.trans h.rest
    opened := hopened
    follows := hfollows
    answers := by
      show r.answers ++ [none] = _
      rw [h.answers, List.replicate_zero, List.append_nil]
      rfl
    ended := fun _ p => Merge.live_of_none hnone p
    passed := fun e he key hkey => h.passed e he key (hrest.within hkey)
    complete := fun e hin hlive hunwritten => by
      rcases h.complete e hin hlive hunwritten with hmem | ⟨-, hahead⟩
      · exact .inl hmem
      · rw [hpassed e.key hahead trivial (List.forall_mem_map.mpr hunwritten)] at hlive
        cases hlive }

/-- A scan gives a live entry, before which nothing was live at the start. -/
theorem Traced.gives (h : r.Traced known since layers top start range ahead entries 0) {e : Entry}
    (hsome : (r.session.store.pull r.session.disk).next r.scan = (some (.ok e), m'))
    (hopened : m'.Open top range start)
    (hfollows : m'.Follows layers (since.map Write.entry) (ahead.after e.key)
      (Source.pull r.session.store.core.buffers r.session.disk).rest)
    (hin : ahead.contains bytewise e.key = true) (hlive : e.isTombstone = false)
    (hcurrent : Current layers (since.map Write.entry) e)
    (hpassed : PassedOver layers (since.map Write.entry) ahead fun key => bytewise key e.key = .lt) :
    (r.move .next).Traced known since layers top start range (ahead.after e.key) (entries ++ [e])
      0 := by
  have hafter {key : Bytes} : (ahead.after e.key).contains bytewise key = true ↔ _ :=
    KeyRange.contains_after_iff hin
  rw [move_next hsome]
  refine {
    h with
    rest := (KeyRange.isRest_after hin).trans h.rest
    opened := hopened
    follows := hfollows
    answers := ?_
    ended := fun hends => absurd hends (Nat.lt_irrefl 0)
    ascending := ?_
    passed := ?_
    given := ?_
    complete := ?_ }
  · show r.answers ++ [some (.ok e)] = _
    rw [h.answers, List.map_append, List.replicate_zero, List.append_nil, List.append_nil]
    rfl
  · refine List.pairwise_append.mpr ⟨h.ascending, by simp, fun x hx y hy => ?_⟩
    rw [List.mem_singleton.mp hy]
    exact h.passed x hx e.key hin
  · intro x hx key hkey
    rcases List.mem_append.mp hx with hx | hx
    · exact h.passed x hx key (hafter.mp hkey).2
    · rw [List.mem_singleton.mp hx]
      exact (hafter.mp hkey).1
  · intro x hx
    rcases List.mem_append.mp hx with hx | hx
    · exact h.given x hx
    · rw [List.mem_singleton.mp hx]
      exact ⟨h.rest.within hin, hlive, hcurrent⟩
  · intro x hx hlivex hunwritten
    rcases h.complete x hx hlivex hunwritten with hmem | ⟨-, hahead⟩
    · exact .inl (List.mem_append_left _ hmem)
    · refine (hpassed.given_or_after hin hcurrent hahead hlivex
        (List.forall_mem_map.mpr hunwritten)).imp (fun heq => ?_) fun hrest => ⟨rfl, hrest⟩
      rw [heq]
      exact List.mem_append_right _ (List.mem_singleton.mpr rfl)

/-- An item is drawn. -/
theorem Traced.next (h : r.Traced known since layers top start range ahead entries ends)
    (hranked : Ranked layers) : ∃ ahead' entries' ends', (r.move .next).Traced known since layers top
      start range ahead' entries' ends' := by
  rcases Nat.eq_zero_or_pos ends with rfl | hends
  swap
  · exact ⟨ahead, entries, ends + 1, h.endAgain hends⟩
  have hstays : ∀ head ∈ (((Source.pull r.session.store.core.buffers r.session.disk).merge
      bytewise).live.next r.scan).2.heads.toList, _ :=
    Merge.heads_live (Head.drawn_stays r.session.store.core.buffers h.kept) h.opened.stays
  rcases h.follows.live hranked (h.opened.sound _ h.kept) with
    ⟨m', rest, hnone, hsound, hfollows, hrest, hpassed⟩ |
      ⟨e, m', hsome, hsound, hfollows, hin, hlive, hcurrent, hpassed⟩
  · rw [hnone] at hstays
    exact ⟨rest, entries, 1, h.atEnd hnone (Scan.open_of_sound hsound hstays) hfollows hrest hpassed⟩
  · rw [hsome] at hstays
    exact ⟨ahead.after e.key, entries ++ [e], 0, h.gives hsome (Scan.open_of_sound hsound hstays)
      hfollows hin hlive hcurrent hpassed⟩

/-- Whatever the moves are, what is told of the scan can be told after them. -/
theorem Traced.run (h : r.Traced known since layers top start range ahead entries ends)
    (hranked : Ranked layers) (hdescribes : l.Describes d r.session dir place) (hleft : l.left = none)
    (hfaultless : d.Faultless) {moves : List Move}
    (hfits : r.session.Fits dir (moves.filterMap Move.event?))
    (hkeeps : ∀ event ∈ moves.filterMap Move.event?, event.KeepsStore) :
    ∃ since' ahead' entries' ends', (r.run moves).Traced known since' layers top start range ahead'
      entries' ends' := by
  induction moves generalizing r l since ahead entries ends with
  | nil => exact ⟨since, ahead, entries, ends, h⟩
  | cons move moves ih =>
    cases move with
    | next =>
      obtain ⟨ahead', entries', ends', h'⟩ := h.next hranked
      exact ih h' hdescribes hleft hfits hkeeps
    | event event =>
      obtain ⟨hsuits, hwithin, hrest⟩ := hfits
      obtain ⟨more, honward⟩ := hdescribes.onward hleft hfaultless
        (hkeeps event List.mem_cons_self) hwithin
      exact ih (h.event honward) (hdescribes.step hfaultless hsuits hwithin)
        (Layers.left_step hleft event) hrest fun other hother =>
          hkeeps other (List.mem_cons_of_mem _ hother)

end Reading

/-- The answers of a scan are right, if the store had accepted `known` when it was started and has
accepted `since` while it was read: it has given `entries`, and after the last of them nothing. -/
structure SoundAnswers (request : Request) (known since : List Write) (answers : List (Option Item))
    (entries : List Entry) : Prop where
  given : ∃ ends, answers = entries.map (fun e => some (.ok e)) ++ List.replicate ends none
  ascending : Ascending bytewise entries
  wanted : ∀ e ∈ entries, request.Wants e.key ∧ e.isTombstone = false
  /-- Each is the last write of its key before the start, or a later write. -/
  version : ∀ e ∈ entries, Log.read known e.key = some e ∨ ∃ w ∈ since, w.entry = e
  /-- At the end, what was live at the start was given once, unless it was written since. -/
  complete : none ∈ answers → ∀ e, request.Wants e.key → Log.read known e.key = some e →
    (∀ w ∈ since, w.entry.key ≠ e.key) → (entries.filter fun x => x.key == e.key) = [e]
  /-- What was not live at the start was not given, unless it was written since. -/
  absent : ∀ key, Log.read known key = none → (∀ w ∈ since, w.entry.key ≠ key) →
    ∀ e ∈ entries, e.key ≠ key

/-- Of ascending entries, those of a key are the one that has it. -/
theorem Ascending.filter_key {entries : List Entry} (h : Ascending bytewise entries) {e : Entry}
    (he : e ∈ entries) : (entries.filter fun x => x.key == e.key) = [e] := by
  refine Ascending.ext (List.Pairwise.filter _ h) (by simp [Ascending]) fun x => ?_
  rw [List.mem_filter, List.mem_singleton, beq_iff_eq]
  constructor
  · rintro ⟨hx, hkey⟩
    refine h.eq_of_cmp_eq hx he ?_
    rw [hkey]
    exact Std.ReflCmp.compare_self
  · rintro rfl
    exact ⟨he, rfl⟩

theorem Reading.Traced.soundAnswers {request : Request} {r : Reading} {known since : List Write}
    {entries : List Entry} {ends : Nat}
    (h : r.Traced known since layers top start request.keys ahead entries ends)
    (hlive : ∀ key, liveIn layers key = Log.read known key) :
    SoundAnswers request known since r.answers entries where
  given := ⟨ends, h.answers⟩
  ascending := h.ascending
  wanted e he := ⟨(request.contains_keys e.key).mp (h.given e he).1, (h.given e he).2.1⟩
  version e he := by
    obtain ⟨-, hdead, hnewest | hsince⟩ := h.given e he
    · left
      rw [← hlive, liveIn, hnewest, Option.bind_some, Entry.live?_eq_some_iff]
      exact ⟨hdead, rfl⟩
    · exact .inr (List.mem_map.mp hsince)
  complete hend e hwants hread hunwritten := by
    have hends : ends ≠ 0 := by
      rintro rfl
      rw [h.answers] at hend
      simp at hend
    rcases h.complete e ((request.contains_keys e.key).mpr hwants) ((hlive e.key).trans hread)
      hunwritten with hmem | ⟨hzero, -⟩
    · exact h.ascending.filter_key hmem
    · exact absurd hzero hends
  absent key hread hunwritten e he hkey := by
    subst hkey
    obtain ⟨-, hdead, hnewest | hsince⟩ := h.given e he
    · rw [← hlive, liveIn, hnewest, Option.bind_some, Entry.live?, if_neg (by simp [hdead])] at hread
      cases hread
    · obtain ⟨w, hw, heq⟩ := List.mem_map.mp hsince
      exact hunwritten w hw (congrArg Entry.key heq)

/-- However the next items of a scan are drawn between writes, flushes, compactions and the closing
of the store, its answers are right, if no file operation fails. -/
theorem open_scan_sound {before : List Event} {request : Request} {moves : List Move}
    (hstarts : s.StartsIn config d) (hbefore : s.Fits config.dir before)
    (hfits : (s.run before).Fits config.dir (moves.filterMap Move.event?))
    (hkeeps : ∀ event ∈ moves.filterMap Move.event?, event.KeepsStore) :
    ∃ since entries,
      ((Reading.of request (s.run before)).run moves).session.writes =
        since ++ (s.run before).writes ∧
      SoundAnswers request (s.run before).writes since
        ((Reading.of request (s.run before)).run moves).answers entries := by
  obtain ⟨place, l, hdescribes, hright, hleft⟩ := hstarts.right hbefore
  have hshown := hdescribes.held.toShownBy
  obtain ⟨hopened, hfollows⟩ := hshown.open_scan hdescribes.sane request.keys
  rw [← request.started_eq] at hopened hfollows
  have hlive (key : Bytes) : liveIn ((s.run before).store.core.scanned (runEntries l.runs)) key =
      Log.read (s.run before).writes key := by
    rw [liveIn, Core.scanned, hshown.overlay_eq, hdescribes.writes, ← hright.all, Log.read]
    cases Log.newest? l.all key <;> rfl
  have htraced : (Reading.of request (s.run before)).Traced (s.run before).writes []
      ((s.run before).store.core.scanned (runEntries l.runs)) (s.run before).store.core.activeId
      (s.run before).disk request.keys request.keys [] 0 := {
    writes := rfl
    numbered := Nat.le_refl _
    kept := .refl _
    rest := .refl _
    opened := hopened
    follows := hfollows
    answers := rfl
    ended := fun hends => absurd hends (Nat.lt_irrefl 0)
    ascending := .nil
    passed := fun _ he => absurd he List.not_mem_nil
    given := fun _ he => absurd he List.not_mem_nil
    complete := fun e hin _ _ => .inr ⟨rfl, hin⟩ }
  obtain ⟨since, ahead, entries, ends, hend⟩ := htraced.run (hshown.ranked hdescribes.sane) hdescribes
    hleft hstarts.faultless hfits hkeeps
  exact ⟨since, entries, hend.writes, hend.soundAnswers hlive⟩

/-- A run with two entries, and two more in the active buffer. -/
def layeredHistory : List Event :=
  [.upsert (.put [1] [10]), .upsert (.put [2] [20]), .flush, .runNext, .upsert (.put [3] [30]),
    .upsert (.put [5] [50])]

/-- Writes ahead of a scan and behind it, and then the buffer that it reads is flushed, its run is
merged away, and the store is closed. -/
def busyMoves : List Move :=
  [.next, .event (.upsert (.put [4] [40])), .event (.upsert (.put [1] [11])), .next,
    .event .scheduleFlush, .event .runNext, .event (.upsert (.put [3] [31])), .event .compact,
    .event .waitForBackground, .next, .event .close, .next, .next, .next]

theorem busyMoves_open_scan_sound : ∃ since entries,
    ((Reading.of (.getRange none none) (newSession.run layeredHistory)).run busyMoves).session.writes =
      since ++ (newSession.run layeredHistory).writes ∧
    SoundAnswers (.getRange none none) (newSession.run layeredHistory).writes since
      ((Reading.of (.getRange none none) (newSession.run layeredHistory)).run busyMoves).answers
      entries := by
  obtain ⟨hbefore, hfits, hkeeps⟩ : newSession.Fits smallConfig.dir layeredHistory ∧
      (newSession.run layeredHistory).Fits smallConfig.dir (busyMoves.filterMap Move.event?) ∧
      ∀ event ∈ busyMoves.filterMap Move.event?, event.KeepsStore := by
    decide +kernel
  exact open_scan_sound newSession_startsIn hbefore hfits hkeeps

/-- The scan sees the write ahead of it, and neither the one behind it nor those to a later buffer. -/
example : ((Reading.of (.getRange none none) (newSession.run layeredHistory)).run busyMoves).answers.map
    (fun answer => answer.bind Except.toOption) =
      [some (.put [1] [10]), some (.put [2] [20]), some (.put [3] [30]), some (.put [4] [40]),
        some (.put [5] [50]), none] := by
  decide +kernel

end LayeredStore
