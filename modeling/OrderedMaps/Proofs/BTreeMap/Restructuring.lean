import OrderedMaps.Proofs.Reachable

/-!
# Restructuring in a single pass

A multi-way tree is rearranged on the way down only: what has to be split or filled is split or
filled before the descent enters it. So each step finds the numbers of keys that it relies on, and
there is no more than one for each level.

* `BTreeMap.InsertsInOnePass`, `BTreeMap.ErasesInOnePass`: the steps of a call and the levels after
  it.
* `BTreeMap.restructuring_bounded`: all insertions and removals, on any map that can be reached.
-/

namespace OrderedMaps.BTreeMap

open BTree

variable {K V : Type} {t levels levels' : Nat} {map : BTreeMap K V} {key : K} {value : V}
  {journal : Journal K V}

/-- No more nodes are split than there are levels, and all steps can be taken. There is one level
more after that if and only if the root was full, which is then split before anything else. -/
def InsertsInOnePass (t : Nat) (map : BTreeMap K V) (journal : Journal K V) (map' : BTreeMap K V)
    (after : Journal K V) : Prop :=
  ∃ steps : List Event, (∀ step ∈ steps, step.Meets t) ∧
    steps.countP Event.rearranges ≤ map.height ∧
    if map.tree.root.keys.length = 2 * t - 1 then
      after.events = journal.events ++ (.splittingRoot t :: steps).toArray ∧
        map'.height = map.height + 1
    else after.events = journal.events ++ steps.toArray ∧ map'.height = map.height

/-- Nothing happens, or a descent begins at the root. Then all steps can be taken, and there are no
more of them than levels below the root. There is one level less after that if and only if the root
collapses, after anything else. -/
def ErasesInOnePass (t : Nat) (map : BTreeMap K V) (journal : Journal K V) (map' : BTreeMap K V)
    (after : Journal K V) : Prop :=
  after.events = journal.events ∧ map'.height = map.height ∨
    ∃ steps : List Event, (∀ step ∈ steps, step.Meets t) ∧
      steps.countP Event.rearranges ≤ map.height - 1 ∧
      (after.events = journal.events ++
          (.removingFrom true map.tree.root.keys.length :: steps).toArray ∧
          map'.height = map.height ∨
        after.events = journal.events ++
          (.removingFrom true map.tree.root.keys.length :: (steps ++ [.collapsingRoot])).toArray ∧
          map'.height = map.height - 1)

theorem height_eq (h : map.tree.Sound t levels) : map.height = levels := h.formed.levels_eq

/-- The steps that follow after some that are known. -/
theorem events_of_steps {n : Nat} {events : List Event} {later : Journal K V}
    (h : Steps t n (journal.noted events) later) : ∃ steps : List Event,
      (∀ step ∈ steps, step.Meets t) ∧ steps.countP Event.rearranges ≤ n ∧
        later.events = journal.events ++ (events ++ steps).toArray := by
  obtain ⟨steps, hevents, hmeets, hcount⟩ := h.events
  exact ⟨steps, hmeets, hcount, by simp [hevents, Journal.noted]⟩

theorem insertsInOnePass {map' : BTreeMap K V} {after : Journal K V}
    (h : map.tree.Sound t levels) (h' : map'.tree.Sound t levels')
    (hgrows : map.tree.Grows t levels levels' journal after) :
    map.InsertsInOnePass t journal map' after := by
  obtain ⟨steps, hmeets, hcount, hevents⟩ := events_of_steps hgrows.steps
  have hlevels := hgrows.levels_eq
  refine ⟨steps, hmeets, height_eq h ▸ hcount, ?_⟩
  rw [height_eq h, height_eq h']
  by_cases hfull : map.tree.root.isFull t = true
  · rw [if_pos hfull] at hevents hlevels
    rw [if_pos (isFull_iff.mp hfull)]
    exact ⟨hevents, hlevels⟩
  · rw [if_neg hfull] at hevents hlevels
    rw [if_neg (mt isFull_iff.mpr hfull)]
    exact ⟨hevents, hlevels⟩

theorem erasesInOnePass {map' : BTreeMap K V} {after : Journal K V}
    (h : map.tree.Sound t levels) (h' : map'.tree.Sound t levels')
    (hshrinks : map.tree.Shrinks t journal levels levels' after) :
    map.ErasesInOnePass t journal map' after := by
  rw [ErasesInOnePass, height_eq h, height_eq h']
  cases hshrinks with
  | idle quiet => exact .inl ⟨quiet.events_eq, rfl⟩
  | settled quiet steps =>
    obtain ⟨steps, hmeets, hcount, hevents⟩ := events_of_steps steps
    rw [quiet.events_eq] at hevents
    exact .inr ⟨steps, hmeets, hcount, .inl ⟨hevents, rfl⟩⟩
  | collapsed quiet steps =>
    obtain ⟨steps, hmeets, hcount, hevents⟩ := events_of_steps steps
    rw [quiet.events_eq] at hevents
    exact .inr ⟨steps, hmeets, hcount, .inr ⟨by simp [Journal.noted, hevents], rfl⟩⟩

/-- Whatever the comparator answers, and wherever the search in a node arrives, in any state of the
map: an insertion enters no full node, and a removal none below the root that cannot lose a key;
only full children are split, below nodes that are not full; keys are taken only from siblings that
can lose one, and only children that cannot are merged. An insertion splits as many nodes as there
are levels at most, and adds a level if and only if the root was full. A removal takes one step less
than there are levels at most, and drops a level if and only if the root collapses. -/
theorem restructuring_bounded (comparator : Comparator K) (degree : Degree) (locator : Locator K V)
    (hlocator : locator.IsInRange) (map : BTreeMap K V)
    (hmap : map.Reachable comparator degree locator) (key : K) (journal : Journal K V) :
    (∀ value, ∃ old map' after, map.insert key value journal = .ok ((old, map'), after) ∧
      map.InsertsInOnePass degree.val journal map' after) ∧
    ∃ result map' after, map.erase key journal = .ok ((result, map'), after) ∧
      map.ErasesInOnePass degree.val journal map' after := by
  obtain ⟨hdiscipline, levels, hsound⟩ := hmap.sound hlocator
  have hd : map.discipline.Sound False fun _ _ => .eq :=
    hdiscipline ▸ hlocator.sound degree comparator
  have hdegree : map.discipline.degree = degree.val := congrArg Discipline.degree hdiscipline
  rw [← hdegree] at hsound ⊢
  constructor
  · intro value
    have hinsert : Ends (map.insert key value) journal fun outcome after =>
        map.InsertsInOnePass map.discipline.degree journal outcome.2 after := by
      rw [insert, ends_edit]
      refine ends_mono (ends_treeInsert hd hsound False.elim) ?_
      rintro outcome after ⟨levels', -, hsound', hgrows⟩
      exact insertsInOnePass hsound hsound' hgrows
    obtain ⟨⟨old, map'⟩, after, hrun, hpass⟩ := hinsert.eq_ok
    exact ⟨old, map', after, hrun, hpass⟩
  · have herase : Ends (map.erase key) journal fun outcome after =>
        map.ErasesInOnePass map.discipline.degree journal outcome.2 after := by
      rw [erase, ends_edit]
      refine ends_bind_of (ends_treeErase hd hsound False.elim) ?_
      rintro ⟨removed, tree'⟩ after ⟨levels', -, hsound', hshrinks, -⟩
      cases removed <;> exact erasesInOnePass hsound hsound' hshrinks
    obtain ⟨⟨result, map'⟩, after, hrun, hpass⟩ := herase.eq_ok
    exact ⟨result, map', after, hrun, hpass⟩

/-- In a map of degree two, a full leaf is split before 6 enters it, and two leaves of one key each
are merged before 1 is removed from what results. -/
theorem restructuring_bounded_eight :
    (∃ old map' after, eightKeyBTreeMap.insert 6 0 {} = .ok ((old, map'), after) ∧
      after.events = #[.insertingInto 2, .splitting 2 2 3 2, .insertingInto 1] ∧
      eightKeyBTreeMap.InsertsInOnePass 2 {} map' after) ∧
    ∃ result map' after, eightKeyBTreeMap.erase 1 {} = .ok ((result, map'), after) ∧
      after.events = #[.removingFrom true 2, .merging 0 1 1, .removingFrom false 3] ∧
      eightKeyBTreeMap.ErasesInOnePass 2 {} map' after := by
  have hinsert : (eightKeyBTreeMap.insert 6 0 {}).toOption.map (fun outcome => outcome.2.events) =
      some #[.insertingInto 2, .splitting 2 2 3 2, .insertingInto 1] := by decide +kernel
  have herase : (eightKeyBTreeMap.erase 1 {}).toOption.map (fun outcome => outcome.2.events) =
      some #[.removingFrom true 2, .merging 0 1 1, .removingFrom false 3] := by decide +kernel
  constructor
  · obtain ⟨hput, -⟩ := restructuring_bounded (.ofFn compare) .least .bisect isInRange_bisect
      eightKeyBTreeMap reachable_eightKeyBTreeMap 6 ({} : Journal Nat Nat)
    obtain ⟨old, map', after, hrun, hpass⟩ := hput 0
    rw [hrun] at hinsert
    exact ⟨old, map', after, hrun, Option.some.inj hinsert, hpass⟩
  · obtain ⟨-, result, map', after, hrun, hpass⟩ := restructuring_bounded (.ofFn compare) .least
      .bisect isInRange_bisect eightKeyBTreeMap reachable_eightKeyBTreeMap 1 ({} : Journal Nat Nat)
    rw [hrun] at herase
    exact ⟨result, map', after, hrun, Option.some.inj herase, hpass⟩

end OrderedMaps.BTreeMap
