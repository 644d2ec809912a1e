import OrderedMaps.MapError

/-!
# Versioned data

A value together with the number of times it was opened for writing. A reader that takes note of
the version can tell later whether a writer came in between, without keeping writers out.

* `Versioned`: the value and its version.
* `Versioned.write`: opens the value for writing, which advances the version in any case.
* `Versioned.view`: the value and the version, for reading.
* `Ticket`: a version taken note of, with `Ticket.recheck` and `Ticket.upgrade`.
* `storing`: a writer that stores some values and reports what it sees.
* `Access`, `Versioned.History`: single accesses and what sequences of them answer.
-/

namespace OrderedMaps

/-- A value and the number of times it was opened for writing. -/
structure Versioned (α : Type) where
  /-- The number of times the value was opened for writing. -/
  version : Nat := 0
  value : α

/-- What a reader or a writer sees: the value and the version it has. -/
structure View (α : Type) where
  version : Nat
  value : α
  deriving DecidableEq

/-- The version at the time the ticket was taken. -/
structure Ticket where
  version : Nat
  deriving DecidableEq

namespace Versioned

variable {α β : Type} {m : Type → Type} [Monad m]

/-- A new value has version zero. -/
def new (value : α) : Versioned α := { value }

/-- Opens the value for writing. The writer is told the new version. -/
def write (cell : Versioned α) (writer : Nat → StateT α m β) : m (β × Versioned α) :=
  match cell with
  | ⟨version, value⟩ => do
      let (result, value) ← writer (version + 1) value
      return (result, ⟨version + 1, value⟩)

/-- The value and its version. -/
def view (cell : Versioned α) : View α := ⟨cell.version, cell.value⟩

/-- Takes note of the version. -/
def ticket (cell : Versioned α) : Ticket := ⟨cell.version⟩

end Versioned

namespace Ticket

variable {α : Type}

/-- No writer came since the ticket was taken. -/
def recheck (ticket : Ticket) (cell : Versioned α) : Except MapError Unit :=
  if ticket.version = cell.version then .ok () else .error .modifiedMeanwhile

/-- The value, provided that no writer came since the ticket was taken. -/
def upgrade (ticket : Ticket) (cell : Versioned α) : Except MapError (View α) :=
  if ticket.version = cell.version then .ok cell.view else .error .modifiedMeanwhile

end Ticket

/-! ## Histories of accesses -/

/-- The writer that stores the given values, one after the other. It reports the version that it was
told and the value that it leaves. -/
def storing {α : Type} (stores : List α) (version : Nat) : StateT α Id (View α) := do
  stores.forM fun value => set value
  return ⟨version, ← get⟩

/-- One access to a versioned value, which is over before the next one begins. Tickets are numbered
in the order in which they are taken. -/
inductive Access (α : Type) where
  /-- Opens the value for writing and stores the given values, one after the other. -/
  | write (stores : List α)
  /-- That many readers at the same time. -/
  | read (readers : Nat)
  | take
  | recheck (ticket : Nat)
  | upgrade (ticket : Nat)
  /-- Asks for the version of a ticket. -/
  | versionOf (ticket : Nat)

/-- What an access answers. -/
inductive Access.Reply (α : Type) where
  /-- What the writer reports. -/
  | written (seen : View α)
  | seen (views : List (View α))
  | taken (ticket : Ticket)
  | rechecked (outcome : Except MapError Unit)
  | upgraded (outcome : Except MapError (View α))
  | version (version : Nat)
  /-- There is no ticket with this number. -/
  | noTicket

/-- A versioned value and the tickets taken so far. -/
structure Versioned.History (α : Type) where
  cell : Versioned α
  /-- The tickets, in the order in which they were taken. -/
  tickets : Array Ticket := #[]

namespace Versioned.History

variable {α : Type}

def start (value : α) : History α := { cell := Versioned.new value }

/-- What an access answers, and the history after it. -/
def perform (history : History α) : Access α → Access.Reply α × History α
  | .write stores =>
      let (seen, cell) := history.cell.write (storing stores)
      (.written seen, { history with cell })
  | .read readers => (.seen (List.replicate readers history.cell.view), history)
  | .take =>
      let ticket := history.cell.ticket
      (.taken ticket, { history with tickets := history.tickets.push ticket })
  | .recheck ticket =>
      match history.tickets[ticket]? with
      | some ticket => (.rechecked (ticket.recheck history.cell), history)
      | none => (.noTicket, history)
  | .upgrade ticket =>
      match history.tickets[ticket]? with
      | some ticket => (.upgraded (ticket.upgrade history.cell), history)
      | none => (.noTicket, history)
  | .versionOf ticket =>
      match history.tickets[ticket]? with
      | some ticket => (.version ticket.version, history)
      | none => (.noTicket, history)

end Versioned.History

end OrderedMaps
