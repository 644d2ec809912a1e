import OrderedMaps.Proofs.AvlMap.Effect

/-!
# Places in a list of entries

Where the way down for a key leads is a place in the list of entries. An insertion puts a value
there, and a removal drops what is there.

* `Spot`: a place in a list of entries, with `Avl.Descent.spot` for the place where a way leads.
* `AvlMap.ends_insert`, `AvlMap.ends_erase`: calls that put or drop the entry at the place.
-/

namespace OrderedMaps

variable {K V : Type}

/-- A place in a list of entries: between two of them, or at one. -/
structure Spot (K V : Type) where
  before : List (K × V)
  /-- The entry at the place, if there is one. -/
  here : Option (K × V)
  after : List (K × V)

namespace Spot

/-- The entries around the place and at it. -/
def entries (spot : Spot K V) : List (K × V) := spot.before ++ spot.here.toList ++ spot.after

/-- The entries after a value was put at the place. A key that is there stays. -/
def put (spot : Spot K V) (key : K) (value : V) : List (K × V) :=
  spot.before ++ ((spot.here.map Prod.fst).getD key, value) :: spot.after

/-- The entries after a value was put at the place, unless there is one. -/
def putIfNew (spot : Spot K V) (key : K) (value : V) : List (K × V) :=
  if spot.here.isSome then spot.entries else spot.put key value

/-- The entries after the one at the place was dropped. -/
def drop (spot : Spot K V) : List (K × V) := spot.before ++ spot.after

/-- The value at the place. -/
def value (spot : Spot K V) : Except MapError V :=
  spot.here.elim (.error .keyNotFound) fun e => .ok e.2

/-- The answer of a recomputation of the value at the place, and the entries after it. -/
def modify (spot : Spot K V) (key : K) (f : V → V × Bool) :
    Except MapError (Option V) × List (K × V) :=
  match spot.here with
  | none => (.error .keyNotFound, spot.entries)
  | some (_, old) =>
      match f old with
      | (new, true) => (.ok (some new), spot.put key new)
      | (_, false) => (.ok none, spot.drop)

end Spot

namespace Avl

/-- The place where the way down for a key leads. -/
def Descent.spot (d : Descent K V) : Spot K V where
  before := d.before.map Cell.entry
  here := d.here.map Cell.entry
  after := d.after.map Cell.entry

section Spot

variable {d : Descent K V}

@[simp] theorem Descent.isSome_here_spot : d.spot.here.isSome = d.here.isSome := Option.isSome_map

@[simp] theorem Descent.map_snd_here_spot : d.spot.here.map Prod.snd = d.here.map Cell.value := by
  rw [spot, Option.map_map]
  rfl

@[simp] theorem Descent.value_spot :
    d.spot.value = d.here.elim (.error .keyNotFound) fun x => .ok x.value := by
  rw [Spot.value, spot, Option.elim_map]
  rfl

end Spot

theorem Shape.entries_spot (c : Comparator K) (key : K) (n : Nat) (t : Shape K V) :
    (t.descent c key n).spot.entries = t.toList := by
  rw [toList, cells_eq_descent c key n t, List.map_append, List.map_append, Spot.entries,
    Descent.spot]
  cases (t.descent c key n).here <;> rfl

end Avl

namespace AvlMap

open Avl Shape

variable {map : AvlMap K V} {key : K} {value : V} {journal : Journal K V} {t : Shape K V}
  {d : Descent K V}

/-- A node with another value makes a map with another value at its place. -/
theorem Holds.of_differs {x : Cell K V} {tree' : Tree K V} (hspells : Spells map.tree map.version t)
    (hd : t.descent map.comparator key journal.calls.size = d) (hx : d.here = some x)
    (hdiffers : map.tree.Differs x.slot x.value value (map.version + 1) tree') :
    Holds (map.written tree') (d.spot.put key value) := by
  subst hd
  refine ⟨t.overwrite x.slot value (map.version + 1),
    hspells.overwrite (Nat.le_succ _) hdiffers, ?_⟩
  rw [toList_overwrite hspells.placed.nodup (cells_eq_of_here hx), Spot.put, Descent.spot, hx]
  rfl

/-- Insertion puts the value where the way down leads. A node that is there gets it, and nothing
else is different then. -/
theorem ends_insert (hspells : Spells map.tree map.version t)
    (hd : t.descent map.comparator key journal.calls.size = d) :
    Ends (map.insert key value) journal fun outcome after =>
      outcome.1 = d.here.map Cell.value ∧ outcome.2.version = map.version + 1 ∧
        Holds outcome.2 (d.spot.put key value) ∧ ∀ x, d.here = some x →
          map.tree.Differs x.slot x.value value outcome.2.version outcome.2.tree ∧
          after.events = journal.events := by
  subst hd
  rw [insert, ends_edit]
  cases hx : (t.descent map.comparator key journal.calls.size).here with
  | some x =>
    refine edits_mono (edits_insert_found hspells hx) ?_
    rintro old tree' after ⟨rfl, hdiffers, rfl⟩
    refine ⟨rfl, rfl, .of_differs hspells rfl hx hdiffers, ?_⟩
    rintro _ ⟨⟩
    exact ⟨hdiffers, rfl⟩
  | none =>
    refine edits_mono (edits_insert_missing hspells (Nat.le_succ _) hx) ?_
    rintro old tree' after ⟨rfl, t', slot, events, hspells', hinsertion, -, -, -⟩
    refine ⟨rfl, rfl, ⟨t', hspells', ?_⟩, by simp⟩
    rw [hinsertion.toList_eq, Spot.put, Descent.spot, hx]
    rfl

/-- Removal drops the entry where the way down leads. If there is none, nothing is different. -/
theorem ends_erase (hspells : Spells map.tree map.version t)
    (hd : t.descent map.comparator key journal.calls.size = d) :
    Ends (map.erase key) journal fun outcome after =>
      outcome.1 = d.here.elim (.error .keyNotFound) (fun x => .ok x.value) ∧
        outcome.2.version = map.version + 1 ∧ Holds outcome.2 d.spot.drop ∧
        after.shown = journal.shown ∧
        (d.here = none → outcome.2.tree = map.tree ∧ after.events = journal.events) := by
  subst hd
  rw [erase, ends_edit, edits_bind]
  cases hx : (t.descent map.comparator key journal.calls.size).here with
  | some x =>
    refine edits_mono (edits_erase_found hspells (Nat.le_succ _) hx) ?_
    rintro old tree' after ⟨rfl, t', events, hspells', hremoval, -, -, rfl⟩
    refine ⟨rfl, rfl, ⟨t', hspells', ?_⟩, rfl, by simp⟩
    rw [hremoval.toList_eq, List.map_append]
    rfl
  | none =>
    refine edits_mono (edits_erase_missing hspells hx) ?_
    rintro old tree' after ⟨rfl, rfl, rfl⟩
    refine ⟨rfl, rfl, ⟨t, hspells.mono (Nat.le_succ _), ?_⟩, rfl, fun _ => ⟨rfl, rfl⟩⟩
    exact toList_eq_of_missing hx

end AvlMap

end OrderedMaps
