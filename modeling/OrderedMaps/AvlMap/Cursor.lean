import OrderedMaps.AvlMap

/-!
# Cursors

A cursor goes through the entries of a map from the first to the last, one step at a time, and
notices when the map is written to between two steps.

* `AvlMap.Cursor`: a ticket for the version it was made at, and the next node.
* `AvlMap.cursor`: a cursor before the first entry.
* `AvlMap.Cursor.next`: the next entry. After the end, and after an error, there is none.
* `AvlMap.Cursor.hasNext`: an entry is left.
-/

namespace OrderedMaps.AvlMap

/-- A place between two entries of a map. -/
structure Cursor where
  /-- Tells whether the map is still at the version that the cursor was made at. -/
  ticket : Ticket
  /-- The node of the next entry. -/
  upcoming : Option Slot
  /-- The end was reached or an error reported. -/
  done : Bool := false

variable {K V : Type}

/-- A cursor before the first entry. -/
def cursor (map : AvlMap K V) : Except Fault Cursor := do
  return { ticket := map.cell.ticket, upcoming := ← map.tree.outermost? .left }

namespace Cursor

/-- An entry is left, as long as nobody writes to the map. -/
def hasNext (cursor : Cursor) : Bool := !cursor.done && cursor.upcoming.isSome

/-- The version that the cursor was made at. -/
def version (cursor : Cursor) : Nat := cursor.ticket.version

/-- The next entry, an error if the map was written to, or nothing once the end was reached or an
error reported; and the cursor after the step. The ticket is checked before the node is looked
at, so that no slot is read that a writer may have given back. -/
def next (cursor : Cursor) (map : AvlMap K V) :
    Except Fault (Option (Except MapError (K × V)) × Cursor) := do
  if cursor.done then return (none, cursor)
  match cursor.ticket.upgrade map.cell with
  | .error error => return (some (.error error), { cursor with upcoming := none, done := true })
  | .ok view =>
      match cursor.upcoming with
      | none => return (none, { cursor with done := true })
      | some slot =>
          let entry ← view.value.entry slot
          let upcoming ← view.value.successor? slot
          return (some (.ok entry), { cursor with upcoming })

end Cursor

end OrderedMaps.AvlMap
