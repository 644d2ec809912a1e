import OrderedMaps.Proofs.AvlMap.Session

/-!
# Cursors read what was there when they were made

A cursor keeps nothing but a slot number from one step to the next, and writers may give that slot
back in between, or fill it anew. Even so it cannot be told from a reader that was handed all
entries at the start, and is told of every write.

* `AvlMap.Reader`, `AvlMap.Reader.next`, `AvlMap.Reader.hasNext`: readers of a list of entries.
* `AvlMap.readersAfter`: the readers that stand for the cursors of a session.
* `AvlMap.Tracks`: a cursor stands where its reader does.
* `AvlMap.cursors_eq_readers`: at any time in any session, every cursor answers as its reader does.
-/

namespace OrderedMaps.AvlMap

open Avl

variable {K V : Type}

/-! ## Readers -/

/-- How far a reader has come. -/
inductive Reader.Phase where
  | running
  /-- It answered that there are no more entries. -/
  | ended
  /-- It answered that the map was written to. -/
  | failed
  deriving DecidableEq

/-- One who reads out the entries that a map had at some time. -/
structure Reader (K V : Type) where
  /-- The map at that time. -/
  origin : AvlMap K V
  /-- All entries that it had. -/
  entries : List (K × V)
  /-- The number of entries read out so far. -/
  taken : Nat := 0
  /-- The map was written to since. -/
  outdated : Bool := false
  phase : Reader.Phase := .running

namespace Reader

/-- The next entry is read out. If the map was written to, this is an error, and then, as after the
end, nothing more is read out. -/
def next (reader : Reader K V) : Option (Except MapError (K × V)) × Reader K V :=
  match reader.phase with
  | .running =>
      if reader.outdated then (some (.error .modifiedMeanwhile), { reader with phase := .failed })
      else
        match reader.entries[reader.taken]? with
        | some entry => (some (.ok entry), { reader with taken := reader.taken + 1 })
        | none => (none, { reader with phase := .ended })
  | .ended | .failed => (none, reader)

/-- No error was reported, and not all entries were read out. -/
def hasNext (reader : Reader K V) : Bool :=
  reader.phase != .failed && decide (reader.taken < reader.entries.length)

/-- The reader is told whether the map was written to. -/
def told (reader : Reader K V) (written : Bool) : Reader K V :=
  { reader with outdated := reader.outdated || written }

variable {reader : Reader K V}

theorem next_of_stopped (h : reader.phase ≠ .running) : reader.next = (none, reader) := by
  unfold next
  cases hphase : reader.phase with
  | running => exact absurd hphase h
  | ended | failed => rfl

theorem next_of_outdated (h : reader.phase = .running) (houtdated : reader.outdated = true) :
    reader.next = (some (.error .modifiedMeanwhile), { reader with phase := .failed }) := by
  unfold next
  rw [h]
  exact if_pos houtdated

theorem next_of_entry {entry : K × V} (h : reader.phase = .running)
    (houtdated : reader.outdated = false) (hentry : reader.entries[reader.taken]? = some entry) :
    reader.next = (some (.ok entry), { reader with taken := reader.taken + 1 }) := by
  unfold next
  rw [h, hentry]
  exact if_neg (by simp [houtdated])

theorem next_of_end (h : reader.phase = .running) (houtdated : reader.outdated = false)
    (hentry : reader.entries[reader.taken]? = none) :
    reader.next = (none, { reader with phase := .ended }) := by
  unfold next
  rw [h, hentry]
  exact if_neg (by simp [houtdated])

end Reader

/-- What a request to a session means for the readers that stand for its cursors. -/
def follow (readers : List (Reader K V)) (session : Session K V) :
    Request K V → Except Fault (List (Reader K V))
  | .call call => return readers.map fun reader => reader.told call.writes
  | .cursor => do return readers ++ [{ origin := session.map, entries := ← session.map.toList }]
  | .next n => return readers.modify n fun reader => reader.next.2
  | .height | .text | .lines | .audit => return readers

/-- The readers that stand for the cursors of a session, after some requests, each of which came
when the session was as given. -/
def readersAfter (readers : List (Reader K V)) :
    List (Session K V × Request K V) → Except Fault (List (Reader K V))
  | [] => return readers
  | (session, request) :: past => do readersAfter (← follow readers session request) past

/-! ## Cursors and their readers -/

/-- The cursor stands where the reader does. The slots it goes through are those of the nodes that
the map had at the start, and the map is still the same unless the reader was told otherwise. -/
structure Tracks (map : AvlMap K V) (cursor : Cursor) (reader : Reader K V) : Prop where
  version_eq : cursor.ticket.version = reader.origin.version
  current : reader.outdated = false → map = reader.origin
  outdated : reader.outdated = true → reader.origin.version < map.version
  place : ∃ t : Shape K V, Spells reader.origin.tree reader.origin.version t ∧
    reader.entries = t.toList ∧
    match reader.phase with
    | .running => cursor.done = false ∧ cursor.upcoming = t.slots[reader.taken]?
    | .ended =>
        cursor.done = true ∧ cursor.upcoming = none ∧ reader.entries.length ≤ reader.taken
    | .failed => cursor.done = true ∧ cursor.upcoming = none

variable {map map' : AvlMap K V} {t : Shape K V} {cursor : Cursor} {reader : Reader K V}
  {journal : Journal K V}

theorem Tracks.version_le (h : Tracks map cursor reader) : cursor.ticket.version ≤ map.version := by
  rw [h.version_eq]
  cases houtdated : reader.outdated with
  | false => exact Nat.le_of_eq (congrArg version (h.current houtdated)).symm
  | true => exact Nat.le_of_lt (h.outdated houtdated)

theorem Tracks.hasNext_eq (h : Tracks map cursor reader) : cursor.hasNext = reader.hasNext := by
  obtain ⟨t, -, hentries, hplace⟩ := h.place
  unfold Cursor.hasNext Reader.hasNext
  cases hphase : reader.phase with
  | running =>
    simp only [hphase] at hplace
    rw [hplace.1, hplace.2, hentries, Bool.eq_iff_iff]
    simp
  | ended =>
    simp only [hphase] at hplace
    simp [hplace.1, hplace.2.2]
  | failed =>
    simp only [hphase] at hplace
    simp [hplace.1]

/-- While the map is not written to, the next node is one of the nodes that it had at the start. -/
theorem Tracks.upcoming_used (h : Tracks map cursor reader) (hcurrent : reader.outdated = false)
    {slot : Slot} (hslot : slot ∈ cursor.upcoming) : (map.tree.pool.get? slot).isSome := by
  obtain ⟨t, hspells, -, hplace⟩ := h.place
  rw [← h.current hcurrent] at hspells
  cases hphase : reader.phase with
  | running =>
    simp only [hphase] at hplace
    rw [hplace.2] at hslot
    exact hspells.mem_slots_iff.mp (List.mem_of_getElem? hslot)
  | ended =>
    simp only [hphase] at hplace
    rw [hplace.2.1] at hslot
    cases hslot
  | failed =>
    simp only [hphase] at hplace
    rw [hplace.2] at hslot
    cases hslot

/-- An outdated cursor does not look at the tree. -/
theorem Tracks.blind (h : Tracks map cursor reader) (houtdated : reader.outdated = true)
    {other : AvlMap K V} (hversion : other.version = map.version) :
    cursor.next other = cursor.next map := by
  have hlt := h.outdated houtdated
  have hne : ∀ m : AvlMap K V, m.version = map.version →
      cursor.ticket.upgrade m.cell = .error .modifiedMeanwhile := by
    intro m hm
    have hversion : cursor.ticket.version ≠ m.version := by
      rw [h.version_eq, hm]
      exact Nat.ne_of_lt hlt
    exact if_neg hversion
  unfold Cursor.next
  rw [hne other hversion, hne map rfl]

/-- The cursor still stands where the reader does when the map is written to, or asked. -/
theorem Tracks.follow {writes : Bool} (h : Tracks map cursor reader)
    (hfollow : Follow writes map map') : Tracks map' cursor (reader.told writes) := by
  cases writes with
  | false =>
    rw [hfollow.unchanged rfl, Reader.told, Bool.or_false]
    exact h
  | true =>
    have hversion := hfollow.version_eq
    rw [if_pos rfl] at hversion
    have hle := h.version_le
    rw [h.version_eq] at hle
    refine ⟨h.version_eq, fun hcurrent => ?_, fun _ => ?_, h.place⟩
    · simp [Reader.told] at hcurrent
    · show reader.origin.version < map'.version
      omega

/-- A new cursor stands before the first entry. -/
theorem cursor_tracks (hspells : Spells map.tree map.version t) :
    ∃ cursor : Cursor, map.cursor = .ok cursor ∧
      Tracks map cursor { origin := map, entries := t.toList } := by
  unfold AvlMap.cursor
  rw [hspells.outermost?_eq, ← head?_slots]
  exact ⟨_, rfl, rfl, fun _ => rfl, by simp, t, hspells, rfl, rfl, List.head?_eq_getElem?⟩

/-- A step of the cursor yields what a step of the reader yields. -/
theorem Tracks.next (h : Tracks map cursor reader) :
    ∃ cursor', cursor.next map = .ok (reader.next.1, cursor') ∧
      Tracks map cursor' reader.next.2 := by
  obtain ⟨t, hspells, hentries, hplace⟩ := h.place
  unfold Cursor.next
  by_cases hphase : reader.phase = .running
  · simp only [hphase] at hplace
    obtain ⟨hdone, hupcoming⟩ := hplace
    rw [if_neg (by simp [hdone])]
    cases houtdated : reader.outdated with
    | true =>
      -- the ticket is checked first, so that nothing is said about the slot
      have hlt := h.outdated houtdated
      rw [← h.version_eq] at hlt
      have hupgrade : cursor.ticket.upgrade map.cell = .error .modifiedMeanwhile :=
        if_neg (Nat.ne_of_lt hlt)
      rw [hupgrade, Reader.next_of_outdated hphase houtdated]
      exact ⟨_, rfl, h.version_eq, h.current, h.outdated, t, hspells, hentries, rfl, rfl⟩
    | false =>
      -- the map is still the one whose slots the cursor goes through
      have hmap := h.current houtdated
      have hversion : cursor.ticket.version = map.cell.version := by
        rw [h.version_eq, ← hmap]
        rfl
      have hupgrade : cursor.ticket.upgrade map.cell = .ok map.cell.view := if_pos hversion
      rw [hupgrade, hupcoming]
      cases hcell : t.cells[reader.taken]? with
      | none =>
        have hslot : t.slots[reader.taken]? = none := by simp [Shape.slots, hcell]
        have hentry : reader.entries[reader.taken]? = none := by
          simp [hentries, Shape.toList, hcell]
        rw [hslot, Reader.next_of_end hphase houtdated hentry]
        exact ⟨_, rfl, h.version_eq, h.current, h.outdated, t, hspells, hentries, rfl, rfl,
          List.getElem?_eq_none_iff.mp hentry⟩
      | some x =>
        have hslot : t.slots[reader.taken]? = some x.slot := by simp [Shape.slots, hcell]
        have hentry : reader.entries[reader.taken]? = some x.entry := by
          simp [hentries, Shape.toList, hcell]
        rw [← hmap] at hspells
        have hread : map.cell.view.value.entry x.slot = .ok x.entry :=
          hspells.entry_eq (List.mem_of_getElem? hcell)
        have hsuccessor : map.cell.view.value.successor? x.slot = .ok t.slots[reader.taken + 1]? :=
          hspells.chained.successor?_eq hslot
        rw [hslot, Reader.next_of_entry hphase houtdated hentry]
        simp only [hread, hsuccessor, ok_bind]
        refine ⟨_, rfl, h.version_eq, h.current, h.outdated, t, hmap ▸ hspells, hentries, ?_⟩
        simp only [hphase]
        exact ⟨hdone, trivial⟩
  · have hdone : cursor.done = true := by
      cases hstopped : reader.phase with
      | running => exact absurd hstopped hphase
      | ended | failed =>
        simp only [hstopped] at hplace
        simp only [hplace]
    rw [if_pos hdone, Reader.next_of_stopped hphase]
    exact ⟨cursor, rfl, h⟩

/-! ## Sessions -/

/-- Each cursor of the session stands where its reader does. -/
structure Session.Reads (session : Session K V) (readers : List (Reader K V)) : Prop where
  wellFormed : WellFormed session.map
  length_eq : readers.length = session.cursors.length
  tracks : ∀ (n : Nat) (cursor : Cursor) (reader : Reader K V), session.cursors[n]? = some cursor →
    readers[n]? = some reader → Tracks session.map cursor reader

variable {session : Session K V} {readers : List (Reader K V)}

/-- One request leaves each cursor of the session where its reader is. -/
theorem Session.Reads.ends_serve [Literal K] [Literal V] (h : session.Reads readers)
    (request : Request K V) :
    Ends (session.serve request) journal fun next _ => ∃ readers',
      follow readers session request = .ok readers' ∧ next.Reads readers' := by
  obtain ⟨t, hspells⟩ := h.wellFormed
  cases request with
  | height | text | lines | audit =>
    refine ends_mono (ends_look hspells rfl) ?_
    rintro next after rfl
    exact ⟨readers, rfl, h⟩
  | call call =>
    have hholds : Holds session.map t.toList := ⟨t, hspells, rfl⟩
    refine ends_bind_of (hholds.ends_perform call) ?_
    rintro ⟨answer, map'⟩ after ⟨⟨entries', t', hspells', -⟩, hfollow⟩
    refine ⟨_, rfl, ⟨t', hspells'⟩, by simp [h.length_eq], ?_⟩
    intro n cursor reader hcursor hreader
    rw [List.getElem?_map, Option.map_eq_some_iff] at hreader
    obtain ⟨reader, hreader, rfl⟩ := hreader
    exact (h.tracks n cursor reader hcursor hreader).follow hfollow
  | cursor =>
    obtain ⟨cursor, hcursor, htracks⟩ := cursor_tracks hspells
    have hentries : session.map.toList = .ok t.toList := hspells.toList_eq
    unfold serve
    rw [ends_bind, ends_liftM]
    refine ⟨cursor, hcursor, readers ++ [{ origin := session.map, entries := t.toList }], ?_,
      h.wellFormed, by simp [h.length_eq], ?_⟩
    · rw [follow, hentries, ok_bind]
      rfl
    · intro n cursor' reader hcursor' hreader
      rcases Nat.lt_or_ge n session.cursors.length with hlt | hge
      · rw [List.getElem?_append_left hlt] at hcursor'
        rw [List.getElem?_append_left (h.length_eq ▸ hlt)] at hreader
        exact h.tracks n cursor' reader hcursor' hreader
      · rw [List.getElem?_append_right hge] at hcursor'
        rw [List.getElem?_append_right (h.length_eq ▸ hge)] at hreader
        obtain rfl := List.mem_singleton.mp (List.mem_of_getElem? hcursor')
        obtain rfl := List.mem_singleton.mp (List.mem_of_getElem? hreader)
        exact htracks
  | next n =>
    unfold serve
    cases hn : session.cursors[n]? with
    | none =>
      simp only [hn, ends_pure]
      refine ⟨_, rfl, h.wellFormed, by simp [h.length_eq], ?_⟩
      intro m cursor reader hcursor hreader
      have hne : n ≠ m := by
        rintro rfl
        simp [hn] at hcursor
      rw [List.getElem?_modify_ne _ _ hne] at hreader
      exact h.tracks m cursor reader hcursor hreader
    | some cursor =>
      obtain ⟨hlt, -⟩ := List.getElem?_eq_some_iff.mp hn
      have hlt' : n < readers.length := h.length_eq ▸ hlt
      have hreader : readers[n]? = some readers[n] := List.getElem?_eq_getElem hlt'
      obtain ⟨cursor', hnext, htracks⟩ := (h.tracks n cursor _ hn hreader).next
      simp only [hn, ends_bind, ends_liftM, ends_pure]
      refine ⟨_, hnext, _, rfl, h.wellFormed, by simp [h.length_eq], ?_⟩
      intro m other reader hother hreader'
      by_cases hm : n = m
      · subst hm
        rw [List.getElem?_set_self hlt] at hother
        rw [List.getElem?_modify_eq, hreader] at hreader'
        obtain rfl := Option.some.inj hother
        obtain rfl := Option.some.inj hreader'
        exact htracks
      · rw [List.getElem?_set_ne hm] at hother
        rw [List.getElem?_modify_ne _ _ hm] at hreader'
        exact h.tracks m other reader hother hreader'

/-- All requests do, by induction on the list of them. -/
theorem Session.Reads.ends_serveAll [Literal K] [Literal V] {requests : List (Request K V)}
    (h : session.Reads readers) :
    Ends (session.serveAll requests) journal fun sessions _ =>
      sessions.length = requests.length + 1 ∧
        ∀ (i : Nat) (later : Session K V), sessions[i]? = some later → ∃ readers',
          readersAfter readers ((sessions.zip requests).take i) = .ok readers' ∧
            later.Reads readers' := by
  induction requests generalizing session readers journal with
  | nil =>
    refine ⟨rfl, fun i later hlater => ?_⟩
    obtain rfl := List.mem_singleton.mp (List.mem_of_getElem? hlater)
    exact ⟨readers, by simp [readersAfter]; rfl, h⟩
  | cons request requests ih =>
    refine ends_bind_of (h.ends_serve request) ?_
    rintro next journal' ⟨readers₁, hfollow, hnext⟩
    refine ends_bind_of (ih hnext) ?_
    rintro sessions journal'' ⟨hlength, hall⟩
    refine ⟨by simp [hlength], fun i later hlater => ?_⟩
    cases i with
    | zero =>
      obtain rfl := Option.some.inj hlater
      exact ⟨readers, rfl, h⟩
    | succ i =>
      obtain ⟨readers', hreaders', hlater⟩ := hall i later hlater
      refine ⟨readers', ?_, hlater⟩
      rw [List.zip_cons_cons, List.take_succ_cons, readersAfter, hfollow, ok_bind]
      exact hreaders'

/-- At any time in any session on a new map, under any comparator, each cursor stands for a reader
of the entries that the map had when the cursor was made. It has the version that the map had then,
and in a step it yields what the reader reads out. While the map is not written to, the map is the
one that the cursor was made for, and the slot it goes to next is in use. After that, the cursor
looks at no tree any more. -/
theorem cursors_eq_readers [Literal K] [Literal V] (comparator : Comparator K)
    (requests : List (Request K V)) :
    ∃ (sessions : List (Session K V)) (after : Journal K V),
      (do Session.serveAll { map := ← new comparator } requests : Run K V _) {} =
        .ok (sessions, after) ∧
      sessions.length = requests.length + 1 ∧
      ∀ (i : Nat) (session : Session K V), sessions[i]? = some session →
        ∃ readers, readersAfter [] ((sessions.zip requests).take i) = .ok readers ∧
          readers.length = session.cursors.length ∧
          ∀ (n : Nat) (cursor : Cursor) (reader : Reader K V), session.cursors[n]? = some cursor →
            readers[n]? = some reader →
            cursor.version = reader.origin.version ∧ cursor.hasNext = reader.hasNext ∧
            (∃ cursor', cursor.next session.map = .ok (reader.next.1, cursor')) ∧
            (reader.outdated = false → session.map = reader.origin ∧
              ∀ slot ∈ cursor.upcoming, (session.map.tree.pool.get? slot).isSome) ∧
            (reader.outdated = true → ∀ other : AvlMap K V, other.version = session.map.version →
              cursor.next other = cursor.next session.map) := by
  have hreads : ({ map := ⟨comparator, Versioned.new Tree.empty⟩ } : Session K V).Reads [] :=
    ⟨⟨.nil, .empty _⟩, rfl, fun n cursor reader hcursor _ => nomatch hcursor⟩
  have hrun : Ends (do Session.serveAll { map := ← new comparator } requests : Run K V _) {}
      fun sessions _ => sessions.length = requests.length + 1 ∧
        ∀ (i : Nat) (later : Session K V), sessions[i]? = some later → ∃ readers,
          readersAfter [] ((sessions.zip requests).take i) = .ok readers ∧ later.Reads readers := by
    unfold new
    rw [ends_bind, ends_bind, ends_record, ends_pure]
    exact hreads.ends_serveAll
  obtain ⟨sessions, after, heq, hlength, hall⟩ := hrun.eq_ok
  refine ⟨sessions, after, heq, hlength, fun i session hsession => ?_⟩
  obtain ⟨readers, hreaders, hsession⟩ := hall i session hsession
  refine ⟨readers, hreaders, hsession.length_eq, fun n cursor reader hcursor hreader => ?_⟩
  have htracks := hsession.tracks n cursor reader hcursor hreader
  obtain ⟨cursor', hnext, -⟩ := htracks.next
  exact ⟨htracks.version_eq, htracks.hasNext_eq, ⟨cursor', hnext⟩,
    fun hcurrent => ⟨htracks.current hcurrent, fun _ => htracks.upcoming_used hcurrent⟩,
    fun houtdated _ => htracks.blind houtdated⟩

end OrderedMaps.AvlMap
