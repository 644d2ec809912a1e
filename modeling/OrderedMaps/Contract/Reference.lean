import OrderedMaps.Contract.Call

/-!
# The contract on a plain list

The meaning of the contract: what each call answers and does, if a map is nothing but the list of
its entries in ascending order.

* `Reference.lookup`, `Reference.insert`, `Reference.erase`: one key in a list of entries.
* `Reference.perform`: what a call answers, and the entries after it.
* `Reference.shown`: the values that a call shows to its update function.
* `Reference.performAll`, `Reference.shownAll`: the same for calls one after the other.
-/

namespace OrderedMaps.Reference

variable {K V : Type} (cmp : K → K → Ordering)

/-- The value of the entry whose key compares equal. -/
def lookup (key : K) : List (K × V) → Option V
  | [] => none
  | (k, v) :: rest => if cmp key k = .eq then some v else lookup key rest

/-- The entries with a value under a key: in the place of the value of an equal key, which is
kept, or else in a new entry before the first larger key. -/
def insert (key : K) (value : V) : List (K × V) → List (K × V)
  | [] => [(key, value)]
  | (k, v) :: rest =>
      match cmp key k with
      | .lt => (key, value) :: (k, v) :: rest
      | .eq => (k, value) :: rest
      | .gt => (k, v) :: insert key value rest

/-- The entries without the one whose key compares equal. -/
def erase (key : K) : List (K × V) → List (K × V)
  | [] => []
  | (k, v) :: rest => if cmp key k = .eq then rest else (k, v) :: erase key rest

/-- The number of keys that are new when the given entries are written one after the other, and
the entries after that. -/
def insertMany : List (K × V) → List (K × V) → Nat × List (K × V)
  | [], entries => (0, entries)
  | (key, value) :: more, entries =>
      let (added, after) := insertMany more (insert cmp key value entries)
      (if (lookup cmp key entries).isNone then added + 1 else added, after)

/-- The entries from one key on and below another. -/
def between (low high : K) (entries : List (K × V)) : List (K × V) :=
  entries.filter fun e => (cmp e.1 low).isGE && (cmp e.1 high).isLT

/-- An answer, if there is one, or a refusal. -/
def orRefuse {α : Type} (f : α → Answer K V) (error : MapError) : Option α → Answer K V
  | some a => f a
  | none => .refused error

/-- What a call answers, and the entries after it. -/
def perform (entries : List (K × V)) : Call K V → Answer K V × List (K × V)
  | .insert key value => (.value? (lookup cmp key entries), insert cmp key value entries)
  | .insertIfNew key value =>
      match lookup cmp key entries with
      | some existing => (.value? (some existing), entries)
      | none => (.value? none, insert cmp key value entries)
  | .insertMany new =>
      let (added, entries) := insertMany cmp new entries
      (.count added, entries)
  | .erase key => (orRefuse .value .keyNotFound (lookup cmp key entries), erase cmp key entries)
  | .modify key f =>
      match lookup cmp key entries with
      | none => (.refused .keyNotFound, entries)
      | some old =>
          match f old with
          | (value, true) => (.value? (some value), insert cmp key value entries)
          | (_, false) => (.value? none, erase cmp key entries)
  | .clear => (.done, [])
  | .get key => (orRefuse .value .keyNotFound (lookup cmp key entries), entries)
  | .getD key value => (.value ((lookup cmp key entries).getD value), entries)
  | .contains key => (.flag (lookup cmp key entries).isSome, entries)
  | .size => (.count entries.length, entries)
  | .isEmpty => (.flag entries.isEmpty, entries)
  | .visit | .toList => (.entries entries, entries)
  | .keys => (.keys (entries.map Prod.fst), entries)
  | .values => (.values (entries.map Prod.snd), entries)
  | .range low high =>
      if (cmp low high).isLT then (.entries (between cmp low high entries), entries)
      else (.refused .invertedRange, entries)
  | .minEntry => (orRefuse .entry .emptyMap entries.head?, entries)
  | .maxEntry => (orRefuse .entry .emptyMap entries.getLast?, entries)

/-- What calls answer, one after the other, and the entries after them. -/
def performAll (entries : List (K × V)) : List (Call K V) → List (Answer K V) × List (K × V)
  | [] => ([], entries)
  | call :: calls =>
      let (answer, entries) := perform cmp entries call
      let (answers, entries) := performAll entries calls
      (answer :: answers, entries)

/-- The values that a call shows to its update function. -/
def shown (entries : List (K × V)) : Call K V → List V
  | .modify key _ => (lookup cmp key entries).toList
  | _ => []

/-- The values that calls show to their update functions, one after the other. -/
def shownAll (entries : List (K × V)) : List (Call K V) → List V
  | [] => []
  | call :: calls =>
      shown cmp entries call ++ shownAll (perform cmp entries call).2 calls

end OrderedMaps.Reference
