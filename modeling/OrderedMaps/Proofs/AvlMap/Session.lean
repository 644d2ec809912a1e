import OrderedMaps.AvlMap.Cursor
import OrderedMaps.Proofs.AvlMap.Effect

/-!
# Sessions on a binary tree map

Everything that can be done with a map, in any order and with any comparator: calls of the contract,
questions about height and version, written forms, audits, and steps of any number of cursors.

* `AvlMap.Request`, `AvlMap.Session.serve`, `AvlMap.Session.serveAll`: sessions.
* `AvlMap.WellFormed`: what holds of a map at any time.
* `AvlMap.session_wellFormed`: no session ends in a fault, and at any time the map is well-formed.
-/

namespace OrderedMaps.AvlMap

open Avl

variable {K V : Type}

/-- What can be asked for in a session. -/
inductive Request (K V : Type) where
  | call (call : Call K V)
  | height
  | text
  | lines
  | audit
  | cursor
  /-- A step of one of the cursors, which are numbered in the order in which they were made. -/
  | next (cursor : Nat)

/-- A map, and the cursors made so far. -/
structure Session (K V : Type) where
  map : AvlMap K V
  cursors : List Cursor := []

/-- Serves a request. -/
def Session.serve [Literal K] [Literal V] (session : Session K V) :
    Request K V → Run K V (Session K V)
  | .call call => do return { session with map := (← perform session.map call).2 }
  | .height => do
      let _ ← session.map.height
      return session
  | .text => do
      let _ ← session.map.text
      return session
  | .lines => do
      let _ ← session.map.lines
      return session
  | .audit => do
      let _ ← session.map.audit
      return session
  | .cursor => do return { session with cursors := session.cursors ++ [← session.map.cursor] }
  | .next n =>
      match session.cursors[n]? with
      | none => return session
      | some cursor => do
          let (_, cursor) ← cursor.next session.map
          return { session with cursors := session.cursors.set n cursor }

/-- Serves requests one after the other. The answer is the session before the first, between each
two, and after the last. -/
def Session.serveAll [Literal K] [Literal V] (session : Session K V) :
    List (Request K V) → Run K V (List (Session K V))
  | [] => return [session]
  | request :: requests => do
      let next ← session.serve request
      return session :: (← next.serveAll requests)

/-- The links of the tree spell out a shape: each node has the links to its children and to its
parent, the stored heights are exact, and the subtrees of every node differ in height by at most
one. The slots of the shape are all different, are those in use, and are as many as there are
entries. No stamp exceeds the version. -/
def WellFormed (map : AvlMap K V) : Prop :=
  ∃ t : Shape K V, Spells map.tree map.version t

/-- The greatest number of entries in any of the sessions. -/
def peak (sessions : List (Session K V)) : Nat :=
  (sessions.map fun session => session.map.size).foldr max 0

/-! ## Cursors -/

/-- A cursor at the current version stands before a node that is in use. -/
def Cursor.Valid (map : AvlMap K V) (cursor : Cursor) : Prop :=
  cursor.ticket.version ≤ map.version ∧
    (cursor.ticket.version = map.version →
      ∀ slot ∈ cursor.upcoming, (map.tree.pool.get? slot).isSome)

variable {map map' : AvlMap K V} {t : Shape K V} {cursor : Cursor} {journal : Journal K V}

/-- A cursor stays valid when the map is written to, because then its ticket is outdated. -/
theorem Cursor.Valid.follow {writes : Bool} (h : cursor.Valid map)
    (hfollow : Follow writes map map') : cursor.Valid map' := by
  cases writes with
  | false => rwa [hfollow.unchanged rfl]
  | true =>
    have hversion := hfollow.version_eq
    rw [if_pos rfl] at hversion
    have hle := h.1
    exact ⟨by omega, fun heq => absurd heq (by omega)⟩

theorem cursor_eq (hspells : Spells map.tree map.version t) :
    ∃ cursor : Cursor, map.cursor = .ok cursor ∧ cursor.Valid map := by
  unfold AvlMap.cursor
  rw [hspells.outermost?_eq]
  refine ⟨_, rfl, Nat.le_refl _, fun _ slot hmem => hspells.mem_slots_iff.mp ?_⟩
  rw [← head?_slots] at hmem
  exact List.mem_of_mem_head? hmem

/-- A step of a valid cursor reads no slot that is not in use, and leaves a valid cursor. -/
theorem Cursor.Valid.next_eq (h : cursor.Valid map) (hspells : Spells map.tree map.version t) :
    ∃ yielded cursor', cursor.next map = .ok (yielded, cursor') ∧ cursor'.Valid map := by
  unfold Cursor.next
  cases hdone : cursor.done with
  | true => exact ⟨_, _, rfl, h⟩
  | false =>
    by_cases hversion : cursor.ticket.version = map.version
    · have hupgrade : cursor.ticket.upgrade map.cell = .ok map.cell.view := if_pos hversion
      rw [hupgrade]
      cases hupcoming : cursor.upcoming with
      | none => exact ⟨_, _, rfl, h.1, fun _ slot hmem => by simp at hmem⟩
      | some slot =>
        have hmem := hspells.mem_slots_iff.mpr (h.2 hversion slot (by simp [hupcoming]))
        obtain ⟨x, hx, rfl⟩ := List.mem_map.mp hmem
        obtain ⟨next, hnext, hafter⟩ := hspells.chained.successor? hmem
        have hentry : map.cell.view.value.entry x.slot = .ok x.entry := hspells.entry_eq hx
        have hsuccessor : map.cell.view.value.successor? x.slot = .ok next := hnext
        simp only [Bool.false_eq_true, if_false, hentry, hsuccessor, ok_bind]
        exact ⟨_, _, rfl, h.1, fun _ after hmem => hspells.mem_slots_iff.mp (hafter after hmem)⟩
    · have hupgrade : cursor.ticket.upgrade map.cell = .error .modifiedMeanwhile := if_neg hversion
      rw [hupgrade]
      exact ⟨_, _, rfl, h.1, fun heq => absurd heq hversion⟩

/-! ## Sessions -/

/-- The map is well-formed, and its cursors are valid. -/
def Session.Good (session : Session K V) : Prop :=
  WellFormed session.map ∧ ∀ cursor ∈ session.cursors, cursor.Valid session.map

variable {session : Session K V}

/-- The request is only to look at the map. -/
def Request.looks : Request K V → Bool
  | .height | .text | .lines | .audit => true
  | .call _ | .cursor | .next _ => false

/-- To look at a well-formed map leaves the session alone. -/
theorem ends_look [Literal K] [Literal V] (hspells : Spells session.map.tree session.map.version t)
    {request : Request K V} (hlooks : request.looks = true) :
    Ends (session.serve request) journal fun next _ => next = session := by
  cases request with
  | call | cursor | next => cases hlooks
  | height =>
    unfold Session.serve
    rw [ends_bind, ends_liftM]
    refine ⟨t.height, ?_, rfl⟩
    rw [height, hspells.root_eq]
    exact Shape.heightAt_root? hspells.placed.stored
  | text =>
    unfold Session.serve
    rw [ends_bind, ends_liftM, text, toList, hspells.toList_eq]
    exact ⟨_, rfl, rfl⟩
  | lines =>
    unfold Session.serve
    rw [ends_bind, ends_liftM, lines, toList, hspells.toList_eq]
    exact ⟨_, rfl, rfl⟩
  | audit => exact ends_bind_of (ends_audit hspells) fun _ _ _ => rfl

/-- One request leaves the session in good order, whatever the comparator answers. A slot is added
only if all are in use. -/
theorem Session.Good.ends_serve [Literal K] [Literal V] (h : session.Good)
    (request : Request K V) :
    Ends (session.serve request) journal fun next _ =>
      next.Good ∧ next.map.tree.pool.slots.size ≤
        max session.map.tree.pool.slots.size next.map.size := by
  obtain ⟨t, hspells⟩ := h.1
  cases request with
  | call call =>
    have hholds : Holds session.map t.toList := ⟨t, hspells, rfl⟩
    refine ends_bind_of (hholds.ends_perform call) ?_
    intro outcome after houtcome
    obtain ⟨⟨entries', t', hspells', -⟩, hfollow⟩ := houtcome
    exact ⟨⟨⟨t', hspells'⟩, fun cursor hmem => (h.2 cursor hmem).follow hfollow⟩,
      hfollow.capacity_le⟩
  | height | text | lines | audit =>
    refine ends_mono (ends_look hspells rfl) ?_
    rintro next after rfl
    exact ⟨h, Nat.le_max_left _ _⟩
  | cursor =>
    obtain ⟨cursor, hcursor, hvalid⟩ := cursor_eq hspells
    unfold serve
    rw [ends_bind, ends_liftM]
    refine ⟨cursor, hcursor, ⟨h.1, fun other hmem => ?_⟩, Nat.le_max_left _ _⟩
    rcases List.mem_append.mp hmem with hmem | hmem
    · exact h.2 other hmem
    · rw [List.mem_singleton.mp hmem]
      exact hvalid
  | next n =>
    unfold serve
    cases hcursor : session.cursors[n]? with
    | none =>
      simp only [hcursor, ends_pure]
      exact ⟨h, Nat.le_max_left _ _⟩
    | some cursor =>
      have hvalid := h.2 cursor (List.mem_of_getElem? hcursor)
      obtain ⟨yielded, cursor', hnext, hvalid'⟩ := hvalid.next_eq hspells
      simp only [hcursor, ends_bind, ends_liftM, ends_pure]
      refine ⟨_, hnext, ⟨h.1, fun other hmem => ?_⟩, Nat.le_max_left _ _⟩
      rcases List.mem_or_eq_of_mem_set hmem with hmem | rfl
      · exact h.2 other hmem
      · exact hvalid'

theorem size_le_peak {sessions : List (Session K V)} (hmem : session ∈ sessions) :
    session.map.size ≤ peak sessions := by
  induction sessions with
  | nil => cases hmem
  | cons first rest ih =>
    simp only [peak, List.map_cons, List.foldr_cons] at ih ⊢
    rcases List.mem_cons.mp hmem with rfl | hmem
    · exact Nat.le_max_left _ _
    · exact Nat.le_trans (ih hmem) (Nat.le_max_right _ _)

/-- All requests leave the session in good order, by induction on the list of them. -/
theorem Session.Good.ends_serveAll [Literal K] [Literal V] {requests : List (Request K V)}
    {bound : Nat} (h : session.Good) (hbound : session.map.tree.pool.slots.size ≤ bound) :
    Ends (session.serveAll requests) journal fun sessions _ =>
      sessions.length = requests.length + 1 ∧ session ∈ sessions ∧
        ∀ other ∈ sessions, other.Good ∧
          other.map.tree.pool.slots.size ≤ max bound (peak sessions) := by
  induction requests generalizing session bound journal with
  | nil =>
    refine ⟨rfl, List.mem_cons_self, fun other hmem => ?_⟩
    rw [List.mem_singleton.mp hmem]
    exact ⟨h, Nat.le_trans hbound (Nat.le_max_left _ _)⟩
  | cons request requests ih =>
    refine ends_bind_of (h.ends_serve request) ?_
    intro next journal' hnext
    obtain ⟨hgood, hcapacity⟩ := hnext
    have hnext : next.map.tree.pool.slots.size ≤ max bound next.map.size := by omega
    refine ends_bind_of (ih hgood hnext) ?_
    intro sessions journal'' hsessions
    obtain ⟨hlength, hmem, hall⟩ := hsessions
    have hsize := size_le_peak hmem
    have hpeak : peak (session :: sessions) = max session.map.size (peak sessions) := rfl
    refine ⟨by simp [hlength], List.mem_cons_self, fun other hother => ?_⟩
    rw [hpeak]
    rcases List.mem_cons.mp hother with rfl | hother
    · exact ⟨h, by omega⟩
    · obtain ⟨hgood', hcapacity'⟩ := hall other hother
      exact ⟨hgood', by omega⟩

/-- Under no comparator whatsoever does a session on a new map end in a fault. At any time the map
is well-formed, no more slots were made than there were entries at one time, and an audit finds
nothing wrong but, at most, two keys out of order. -/
theorem session_wellFormed [Literal K] [Literal V] (comparator : Comparator K)
    (requests : List (Request K V)) :
    ∃ (sessions : List (Session K V)) (after : Journal K V),
      (do Session.serveAll { map := ← new comparator } requests : Run K V _) {} =
        .ok (sessions, after) ∧
      sessions.length = requests.length + 1 ∧
      ∀ session ∈ sessions, WellFormed session.map ∧
        session.map.tree.pool.slots.size ≤ peak sessions ∧
        ∀ journal, ∃ outcome later, session.map.audit journal = .ok (outcome, later) ∧
          (outcome = .ok () ∨ ∃ key next, outcome = .error (.outOfOrder key next)) := by
  have hgood : ({ map := ⟨comparator, Versioned.new Tree.empty⟩ } : Session K V).Good :=
    ⟨⟨.nil, .empty _⟩, fun cursor hmem => nomatch hmem⟩
  have hrun : Ends (do Session.serveAll { map := ← new comparator } requests : Run K V _) {}
      fun sessions _ => sessions.length = requests.length + 1 ∧ ∀ other ∈ sessions, other.Good ∧
        other.map.tree.pool.slots.size ≤ max 0 (peak sessions) := by
    unfold new
    rw [ends_bind, ends_bind, ends_record, ends_pure]
    refine ends_mono (hgood.ends_serveAll (Nat.le_refl 0)) ?_
    exact fun _ _ hsessions => ⟨hsessions.1, hsessions.2.2⟩
  obtain ⟨sessions, after, heq, hlength, hall⟩ := hrun.eq_ok
  refine ⟨sessions, after, heq, hlength, fun session hmem => ?_⟩
  obtain ⟨⟨hwellFormed, -⟩, hcapacity⟩ := hall session hmem
  refine ⟨hwellFormed, by simpa using hcapacity, fun journal => ?_⟩
  obtain ⟨t, hspells⟩ := hwellFormed
  have haudit : Ends (session.map.audit) journal _ := ends_audit hspells
  obtain ⟨outcome, later, heq, houtcome, -⟩ := haudit.eq_ok
  exact ⟨outcome, later, heq, houtcome⟩

end OrderedMaps.AvlMap
