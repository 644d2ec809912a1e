import OrderedMaps.AvlMap
import OrderedMaps.BTreeMap

/-!
# The contract of an ordered map

What both kinds of map can be asked, so that code can be written once for both.

* `MapLike`: the operations of an ordered map. Its instances are `AvlMap` and `BTreeMap`.
* `Call`, `Answer`: the operations and their results as data.
* `perform`: carries out a call, with an equation for each (`perform_insert`, `perform_get`, …).
* `performAll`: carries out calls one after the other.
-/

namespace OrderedMaps

/-- The operations of an ordered map. -/
class MapLike (M : Type) (K V : outParam Type) where
  /-- Writes a value under a key; the answer is the value replaced, if any. -/
  insert : M → K → V → Run K V (Option V × M)
  /-- Writes a value under a key that has none; the answer is the value it has, if any. -/
  insertIfNew : M → K → V → Run K V (Option V × M)
  /-- Writes all entries; the answer is the number of keys that had no value. -/
  insertMany : M → List (K × V) → Run K V (Nat × M)
  /-- Removes a key; the answer is its value. -/
  erase : M → K → Run K V (Except MapError V × M)
  /-- Recomputes or removes the value of a key. -/
  modify : M → K → (V → V × Bool) → Run K V (Except MapError (Option V) × M)
  /-- Removes all entries. -/
  clear : M → Run K V (Unit × M)
  /-- The value of a key. -/
  get : M → K → Run K V (Except MapError V)
  /-- The value of a key, or the given one if there is none. -/
  getD : M → K → V → Run K V V
  /-- The key has a value. -/
  contains : M → K → Run K V Bool
  /-- The number of entries. -/
  size : M → Nat
  /-- There are no entries. -/
  isEmpty : M → Bool
  /-- Hands all entries, in ascending order, to a visitor that carries a state. -/
  foldl : {β : Type} → M → (β → K → V → β) → β → Run K V β
  /-- All entries in ascending order. -/
  toList : M → Run K V (List (K × V))
  /-- All keys in ascending order. -/
  keys : M → Run K V (List K)
  /-- All values in the order of their keys. -/
  values : M → Run K V (List V)
  /-- The entries from the first key on and below the second. -/
  range : M → K → K → Run K V (Except MapError (List (K × V)))
  /-- The entry with the smallest key. -/
  minEntry : M → Run K V (Except MapError (K × V))
  /-- The entry with the largest key. -/
  maxEntry : M → Run K V (Except MapError (K × V))

instance {K V : Type} : MapLike (AvlMap K V) K V where
  insert := AvlMap.insert
  insertIfNew := AvlMap.insertIfNew
  insertMany := AvlMap.insertMany
  erase := AvlMap.erase
  modify := AvlMap.modify
  clear := AvlMap.clear
  get := AvlMap.get
  getD := AvlMap.getD
  contains := AvlMap.contains
  size := AvlMap.size
  isEmpty := AvlMap.isEmpty
  foldl map visit start := map.foldl visit start
  toList map := map.toList
  keys map := map.keys
  values map := map.values
  range := AvlMap.range
  minEntry map := map.minEntry
  maxEntry map := map.maxEntry

instance {K V : Type} : MapLike (BTreeMap K V) K V where
  insert := BTreeMap.insert
  insertIfNew := BTreeMap.insertIfNew
  insertMany := BTreeMap.insertMany
  erase := BTreeMap.erase
  modify := BTreeMap.modify
  clear := BTreeMap.clear
  get := BTreeMap.get
  getD := BTreeMap.getD
  contains := BTreeMap.contains
  size := BTreeMap.size
  isEmpty := BTreeMap.isEmpty
  foldl map visit start := pure (map.foldl visit start)
  toList map := pure map.toList
  keys map := pure map.keys
  values map := pure map.values
  range := BTreeMap.range
  minEntry map := pure map.minEntry
  maxEntry map := pure map.maxEntry

/-! ## Calls as data -/

/-- A call of one of the operations. -/
inductive Call (K V : Type) where
  | insert (key : K) (value : V)
  | insertIfNew (key : K) (value : V)
  | insertMany (entries : List (K × V))
  | erase (key : K)
  | modify (key : K) (f : V → V × Bool)
  | clear
  | get (key : K)
  | getD (key : K) (value : V)
  | contains (key : K)
  | size
  | isEmpty
  /-- Hands all entries to a visitor, and asks for what the visitor saw. -/
  | visit
  | toList
  | keys
  | values
  | range (low high : K)
  | minEntry
  | maxEntry

/-- The call opens the map for writing. -/
def Call.writes {K V : Type} : Call K V → Bool
  | insert .. | insertIfNew .. | insertMany .. | erase .. | modify .. | clear => true
  | _ => false

/-- The result of a call. -/
inductive Answer (K V : Type) where
  | done
  | flag (holds : Bool)
  | count (n : Nat)
  | value (value : V)
  | value? (value : Option V)
  | entry (entry : K × V)
  | entries (entries : List (K × V))
  | keys (keys : List K)
  /-- Values in the order of their keys. -/
  | values (values : List V)
  | refused (error : MapError)
  deriving DecidableEq

/-- A result that may be a refusal. -/
def Answer.ofExcept {K V α : Type} (f : α → Answer K V) : Except MapError α → Answer K V
  | .ok a => f a
  | .error error => .refused error

variable {M K V : Type} [MapLike M K V]

/-- Carries out a call. The answer is its result, and the map after it. -/
def perform (map : M) : Call K V → Run K V (Answer K V × M)
  | .insert key value => do
      let (old, map) ← MapLike.insert map key value
      return (.value? old, map)
  | .insertIfNew key value => do
      let (existing, map) ← MapLike.insertIfNew map key value
      return (.value? existing, map)
  | .insertMany entries => do
      let (added, map) ← MapLike.insertMany map entries
      return (.count added, map)
  | .erase key => do
      let (removed, map) ← MapLike.erase map key
      return (.ofExcept .value removed, map)
  | .modify key f => do
      let (result, map) ← MapLike.modify map key f
      return (.ofExcept .value? result, map)
  | .clear => do
      let ((), map) ← MapLike.clear map
      return (.done, map)
  | .get key => return (.ofExcept .value (← MapLike.get map key), map)
  | .getD key value => return (.value (← MapLike.getD map key value), map)
  | .contains key => return (.flag (← MapLike.contains map key), map)
  | .size => return (.count (MapLike.size map), map)
  | .isEmpty => return (.flag (MapLike.isEmpty map), map)
  | .visit => do
      let seen ← MapLike.foldl map (fun seen key value => (key, value) :: seen) []
      return (.entries seen.reverse, map)
  | .toList => return (.entries (← MapLike.toList map), map)
  | .keys => return (.keys (← MapLike.keys map), map)
  | .values => return (.values (← MapLike.values map), map)
  | .range low high => return (.ofExcept .entries (← MapLike.range map low high), map)
  | .minEntry => return (.ofExcept .entry (← MapLike.minEntry map), map)
  | .maxEntry => return (.ofExcept .entry (← MapLike.maxEntry map), map)

/-! ### What each call comes to -/

section Perform

variable (map : M) (key : K) (value : V)

theorem perform_insert : perform map (.insert key value) =
    (MapLike.insert map key value >>= fun outcome => pure (.value? outcome.1, outcome.2)) := rfl

theorem perform_insertIfNew : perform map (.insertIfNew key value) =
    (MapLike.insertIfNew map key value >>= fun outcome =>
      pure (.value? outcome.1, outcome.2)) := rfl

theorem perform_insertMany (entries : List (K × V)) : perform map (.insertMany entries) =
    (MapLike.insertMany map entries >>= fun outcome => pure (.count outcome.1, outcome.2)) := rfl

theorem perform_erase : perform map (.erase key) =
    (MapLike.erase map key >>= fun outcome =>
      pure (.ofExcept .value outcome.1, outcome.2)) := rfl

theorem perform_modify (f : V → V × Bool) : perform map (.modify key f) =
    (MapLike.modify map key f >>= fun outcome =>
      pure (.ofExcept .value? outcome.1, outcome.2)) := rfl

theorem perform_clear : perform map .clear =
    (MapLike.clear map >>= fun outcome => pure (.done, outcome.2)) := rfl

theorem perform_get : perform map (.get key) =
    (MapLike.get map key >>= fun result => pure (.ofExcept .value result, map)) := rfl

theorem perform_getD : perform map (.getD key value) =
    (MapLike.getD map key value >>= fun result => pure (.value result, map)) := rfl

theorem perform_contains : perform map (.contains key) =
    (MapLike.contains map key >>= fun result => pure (.flag result, map)) := rfl

theorem perform_size : perform map .size = pure (.count (MapLike.size map), map) := rfl

theorem perform_isEmpty : perform map .isEmpty = pure (.flag (MapLike.isEmpty map), map) := rfl

theorem perform_visit : perform map .visit =
    (MapLike.foldl map (fun seen key value => (key, value) :: seen) [] >>= fun seen =>
      pure (.entries seen.reverse, map)) := rfl

theorem perform_toList : perform map .toList =
    (MapLike.toList map >>= fun result => pure (.entries result, map)) := rfl

theorem perform_keys : perform map .keys =
    (MapLike.keys map >>= fun result => pure (.keys result, map)) := rfl

theorem perform_values : perform map .values =
    (MapLike.values map >>= fun result => pure (.values result, map)) := rfl

theorem perform_range (low high : K) : perform map (.range low high) =
    (MapLike.range map low high >>= fun result => pure (.ofExcept .entries result, map)) := rfl

theorem perform_minEntry : perform map .minEntry =
    (MapLike.minEntry map >>= fun result => pure (.ofExcept .entry result, map)) := rfl

theorem perform_maxEntry : perform map .maxEntry =
    (MapLike.maxEntry map >>= fun result => pure (.ofExcept .entry result, map)) := rfl

end Perform

/-- Carries out calls one after the other. -/
def performAll (map : M) : List (Call K V) → Run K V (List (Answer K V) × M)
  | [] => return ([], map)
  | call :: calls => do
      let (answer, map) ← perform map call
      let (answers, map) ← performAll map calls
      return (answer :: answers, map)

end OrderedMaps
