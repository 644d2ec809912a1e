import OrderedMaps.Proofs.AvlMap.Effect
import OrderedMaps.Proofs.BTreeMap.Effect

/-!
# Maps that can be reached

The states that a map can be in: a new map, and what calls make of it. Nothing is assumed of what
else went on before a call, so that the comparator may have been asked other questions in between.

* `Reached`: what calls make of a map.
* `mapAfter`: the map that a list of calls makes.
* `AvlMap.Reachable`, `BTreeMap.Reachable`: the maps of each kind that can be reached.
* `AvlMap.Reachable.holds`, `BTreeMap.Reachable.holds`: such a map is in good order, and as long as
  the comparator can be trusted its entries ascend.
* `AvlMap.Reachable.spells`, `BTreeMap.Reachable.sound`: what holds of the tree of such a map,
  whatever the comparator answers.
* `AvlMap.Reachable.ends_performAll`: further calls never end in a fault.
-/

namespace OrderedMaps

variable {K V M : Type} [MapLike M K V] {start map : M}

/-- Calls make the second map of the first. -/
inductive Reached (start : M) : M → Prop
  | start : Reached start start
  | call {map next : M} (call : Call K V) {answer : Answer K V} {journal after : Journal K V}
      (reached : Reached start map)
      (hrun : perform map call journal = .ok ((answer, next), after)) : Reached start next

/-- What holds at the start and is left alone by each call holds of every map that calls make. -/
theorem Reached.invariant {P : M → Prop} (h : Reached start map) (hstart : P start)
    (hstep : ∀ map call journal, P map →
      Ends (perform map call) journal fun outcome _ => P outcome.2) : P map := by
  induction h with
  | start => exact hstart
  | @call map next call answer journal after _ hrun ih =>
    exact (hstep map call journal ih).of_eq_ok hrun

/-- A run of calls, by induction on the list of them. -/
theorem Reached.of_performAll {calls : List (Call K V)} {answers : List (Answer K V)} {next : M}
    {journal after : Journal K V} (h : Reached start map)
    (hrun : performAll map calls journal = .ok ((answers, next), after)) : Reached start next := by
  induction calls generalizing map answers journal after with
  | nil =>
    obtain rfl : map = next := congrArg (fun outcome => outcome.1.2) (Except.ok.inj hrun)
    exact h
  | cons call calls ih =>
    obtain ⟨⟨⟨answer, map'⟩, journal'⟩, hcall, hrest⟩ := bind_eq_ok_iff.mp hrun
    obtain ⟨⟨⟨answers', next'⟩, journal''⟩, hcalls, hlast⟩ := bind_eq_ok_iff.mp hrest
    cases hlast
    exact ih (.call call h hcall) hcalls

/-- The map that calls make, one after the other, beginning with an empty journal. -/
def mapAfter (start : M) (calls : List (Call K V)) : M :=
  match performAll start calls {} with
  | .ok ((_, map), _) => map
  | .error _ => start

theorem reached_mapAfter (start : M) (calls : List (Call K V)) :
    Reached start (mapAfter start calls) := by
  unfold mapAfter
  rcases hrun : performAll start calls {} with _ | ⟨⟨answers, map⟩, after⟩
  · exact .start
  · exact .of_performAll .start hrun

namespace AvlMap

variable {trust : Prop} {cmp : K → K → Ordering} {comparator : Comparator K} {map : AvlMap K V}

/-- Calls make the map of a new one with the given comparator. -/
def Reachable (comparator : Comparator K) (map : AvlMap K V) : Prop :=
  ∃ (start : AvlMap K V) (journal after : Journal K V),
    new comparator journal = .ok (start, after) ∧ Reached start map

theorem reachable_new (comparator : Comparator K) :
    (⟨comparator, Versioned.new Avl.Tree.empty⟩ : AvlMap K V).Reachable comparator :=
  ⟨_, {}, _, rfl, .start⟩

theorem Reachable.call {next : AvlMap K V} {call : Call K V} {answer : Answer K V}
    {journal after : Journal K V} (h : map.Reachable comparator)
    (hrun : perform map call journal = .ok ((answer, next), after)) :
    next.Reachable comparator := by
  obtain ⟨start, first, begun, hnew, hreached⟩ := h
  exact ⟨start, first, begun, hnew, .call call hreached hrun⟩

/-- A map that can be reached is in good order. As long as the comparator can be trusted, its
entries ascend. -/
theorem Reachable.holds (h : map.Reachable comparator) (hlaw : trust → comparator.Follows cmp) :
    map.comparator = comparator ∧
      ∃ entries, Holds map entries ∧ (trust → Ascending cmp entries) := by
  obtain ⟨start, journal, after, hnew, hreached⟩ := h
  obtain rfl : ⟨comparator, Versioned.new Avl.Tree.empty⟩ = start :=
    (Prod.mk.inj (Except.ok.inj hnew)).1
  refine hreached.invariant (P := fun map => map.comparator = comparator ∧
    ∃ entries, Holds map entries ∧ (trust → Ascending cmp entries))
    ⟨rfl, [], ⟨.nil, .empty _, rfl⟩, fun _ => .nil⟩ ?_
  rintro map call journal ⟨hcomparator, entries, hholds, hasc⟩
  refine ends_mono (ends_perform (hcomparator ▸ hlaw) hholds hasc call) ?_
  rintro outcome after ⟨entries', seen, heffect, hholds', hfollow, -⟩
  exact ⟨hfollow.comparator_eq.trans hcomparator, entries', hholds',
    heffect.ascending (fun ht => (hlaw ht).lawful) hasc⟩

/-- The tree of a map that can be reached spells out a sound shape, whatever the comparator
answers. -/
theorem Reachable.spells (h : map.Reachable comparator) :
    map.comparator = comparator ∧ ∃ t, Avl.Spells map.tree map.version t := by
  have hlaw : False → comparator.Follows fun _ _ => .eq := False.elim
  obtain ⟨hcomparator, entries, ⟨t, hspells, -⟩, -⟩ := h.holds hlaw
  exact ⟨hcomparator, t, hspells⟩

/-- Calls on a map that can be reached never end in a fault. -/
theorem Reachable.ends_performAll (h : map.Reachable comparator) (calls : List (Call K V))
    (journal : Journal K V) :
    Ends (performAll map calls) journal fun outcome _ => outcome.2.Reachable comparator := by
  induction calls generalizing map journal with
  | nil => exact h
  | cons call calls ih =>
    obtain ⟨-, t, hspells⟩ := h.spells
    have hholds : Holds map t.toList := ⟨t, hspells, rfl⟩
    obtain ⟨⟨answer, next⟩, after, hrun, -⟩ := (hholds.ends_perform call).eq_ok
    rw [performAll, ends_bind]
    refine ends_of_eq_ok hrun ?_
    rw [ends_bind]
    exact ends_mono (ih (h.call hrun) after) fun _ _ hlast => hlast

end AvlMap

namespace BTreeMap

open BTree

variable {trust : Prop} {cmp : K → K → Ordering} {comparator : Comparator K} {degree : Degree}
  {locator : Locator K V} {map : BTreeMap K V}

/-- Calls make the map of a new one with the given comparator and degree, with the given search in
its nodes. -/
def Reachable (comparator : Comparator K) (degree : Degree) (locator : Locator K V)
    (map : BTreeMap K V) : Prop :=
  ∃ (start : BTreeMap K V) (journal after : Journal K V),
    ofDegree degree comparator journal = .ok (start, after) ∧ Reached { start with locator } map

/-- A map that can be reached is in good order. As long as the comparator can be trusted, its
entries ascend. -/
theorem Reachable.holds (h : map.Reachable comparator degree locator)
    (hd : (⟨comparator, locator, degree.val⟩ : Discipline K V).Sound trust cmp) :
    map.discipline = ⟨comparator, locator, degree.val⟩ ∧
      ∃ entries, Holds map entries ∧ (trust → Ascending cmp entries) := by
  obtain ⟨start, journal, after, hnew, hreached⟩ := h
  obtain rfl : ⟨comparator, degree, .bisect, Versioned.new Tree.empty⟩ = start :=
    (Prod.mk.inj (Except.ok.inj hnew)).1
  refine hreached.invariant (P := fun map => map.discipline = ⟨comparator, locator, degree.val⟩ ∧
    ∃ entries, Holds map entries ∧ (trust → Ascending cmp entries))
    ⟨rfl, [], ⟨1, Tree.sound_empty _, rfl⟩, fun _ => .nil⟩ ?_
  rintro map call journal ⟨hdiscipline, entries, hholds, hasc⟩
  refine ends_mono (ends_perform (hdiscipline ▸ hd) hholds hasc call) ?_
  rintro outcome after ⟨entries', seen, heffect, hholds', hfollow, -⟩
  exact ⟨hfollow.discipline_eq.trans hdiscipline, entries', hholds',
    heffect.ascending (fun ht => (hd.follows ht).lawful) hasc⟩

/-- The tree of a map that can be reached is in good order, whatever the comparator answers, and
wherever the search in a node arrives. -/
theorem Reachable.sound (h : map.Reachable comparator degree locator)
    (hlocator : locator.IsInRange) : map.discipline = ⟨comparator, locator, degree.val⟩ ∧
      ∃ levels, map.tree.Sound degree.val levels := by
  have hd : (⟨comparator, locator, degree.val⟩ : Discipline K V).Sound False fun _ _ => .eq :=
    hlocator.sound degree comparator
  obtain ⟨hdiscipline, entries, ⟨levels, hsound, -⟩, -⟩ := h.holds hd
  rw [hdiscipline] at hsound
  exact ⟨hdiscipline, levels, hsound⟩

end BTreeMap

/-! ## Maps of a few keys -/

/-- A binary tree map of eight keys, one of which was removed. -/
def eightKeyAvlMap : AvlMap Nat Nat :=
  mapAfter ⟨.ofFn compare, Versioned.new Avl.Tree.empty⟩
    [.insertMany [(5, 0), (1, 1), (8, 2), (3, 3), (9, 4), (2, 5), (7, 6), (4, 7)], .erase 5]

/-- A multi-way tree map of degree two with the same keys. -/
def eightKeyBTreeMap : BTreeMap Nat Nat :=
  mapAfter ⟨.ofFn compare, .least, .bisect, Versioned.new BTree.Tree.empty⟩
    [.insertMany [(5, 0), (1, 1), (8, 2), (3, 3), (9, 4), (2, 5), (7, 6), (4, 7)], .erase 5]

theorem reachable_eightKeyAvlMap : eightKeyAvlMap.Reachable (.ofFn compare) :=
  ⟨_, {}, _, rfl, reached_mapAfter ..⟩

theorem reachable_eightKeyBTreeMap :
    eightKeyBTreeMap.Reachable (.ofFn compare) .least .bisect :=
  ⟨_, {}, _, rfl, reached_mapAfter ..⟩

end OrderedMaps
