import OrderedMaps.Proofs.AvlMap.Spot
import OrderedMaps.Proofs.Reachable

/-!
# Calls that move no node

Insertion writes links on its way back from every node that it passed by, whether it added a node or
not. Where nothing was added those links are there already, so that what is written is what stands
there, in every slot and whatever the comparator answers.

* `AvlMap.Untouched`: the tree is as it was, and no step was noted.
* `AvlMap.ends_erase_untouched`, `AvlMap.ends_insertIfNew_untouched`, `AvlMap.ends_insert_differs`,
  `AvlMap.ends_modify_untouched`: what a single call leaves as it was.
* `AvlMap.untouched_unless_moved`: the whole of it, for all maps that can be reached.
-/

namespace OrderedMaps.AvlMap

open Avl

variable {K V : Type}

/-- Every slot, the order of the free ones, the root and the number of entries are as they were, and
no step was noted. -/
structure Untouched (map map' : AvlMap K V) (journal after : Journal K V) : Prop where
  tree_eq : map'.tree = map.tree
  events_eq : after.events = journal.events

section Calls

variable {map : AvlMap K V} {key : K} {value : V} {journal : Journal K V} {t : Shape K V}

theorem ends_erase_untouched (hspells : Spells map.tree map.version t) :
    Ends (map.erase key) journal fun outcome after => outcome.2.version = map.version + 1 ∧
      (outcome.1 = .error .keyNotFound → map.Untouched outcome.2 journal after) := by
  refine ends_mono (ends_erase hspells rfl) ?_
  rintro ⟨result, map'⟩ after ⟨hresult, hversion, -, -, hmissing⟩
  refine ⟨hversion, ?_⟩
  rintro rfl
  cases hx : (t.descent map.comparator key journal.calls.size).here with
  | none =>
    obtain ⟨htree, hevents⟩ := hmissing hx
    exact ⟨htree, hevents⟩
  | some x =>
    rw [hx] at hresult
    cases hresult

theorem ends_insertIfNew_untouched (hspells : Spells map.tree map.version t) :
    Ends (map.insertIfNew key value) journal fun outcome after =>
      outcome.2.version = map.version + 1 ∧
      (outcome.1.isSome → map.Untouched outcome.2 journal after) := by
  refine ends_insertIfNew hspells rfl (fun x hx => ⟨rfl, fun _ => ⟨rfl, rfl⟩⟩) fun hx => ?_
  refine ends_mono (ends_insert hspells rfl) ?_
  rintro outcome after ⟨-, hversion, -⟩
  exact ⟨hversion, by simp⟩

theorem ends_insert_differs (hspells : Spells map.tree map.version t) :
    Ends (map.insert key value) journal fun outcome after =>
      outcome.2.version = map.version + 1 ∧ ∀ old, outcome.1 = some old → ∃ slot,
        map.tree.Differs slot old value outcome.2.version outcome.2.tree ∧
        after.events = journal.events := by
  refine ends_mono (ends_insert hspells rfl) ?_
  rintro ⟨replaced, map'⟩ after ⟨hreplaced, hversion, -, hfound⟩
  refine ⟨hversion, ?_⟩
  rintro old rfl
  obtain ⟨x, hx, rfl⟩ := Option.map_eq_some_iff.mp hreplaced.symm
  exact ⟨x.slot, hfound x hx⟩

theorem ends_modify_untouched {f : V → V × Bool} (hspells : Spells map.tree map.version t) :
    Ends (map.modify key f) journal fun outcome after => outcome.2.version = map.version + 1 ∧
      (outcome.1 = .error .keyNotFound → map.Untouched outcome.2 journal after) ∧
      ∀ new, outcome.1 = .ok (some new) → ∃ slot old, f old = (new, true) ∧
        map.tree.Differs slot old new outcome.2.version outcome.2.tree ∧
        after.events = journal.events := by
  refine ends_modify hspells rfl (fun _ => ⟨rfl, fun _ => ⟨rfl, rfl⟩, by simp⟩) ?_ ?_
  · intro x new tree' hx hf hdiffers
    refine ⟨rfl, by simp, ?_⟩
    rintro _ ⟨⟩
    exact ⟨x.slot, x.value, hf, hdiffers, rfl⟩
  · intro x hx hf
    refine ends_mono (ends_erase hspells rfl) ?_
    rintro outcome after ⟨-, hversion, -⟩
    exact ⟨hversion, by simp, by simp⟩

end Calls

/-- Whatever the comparator answers, and it may change its mind, in any state of the map: a call
that removes, adds, writes or recomputes an entry always ends, and advances the version by one. If
it fails, or finds a value that is to stay, then the whole tree is as it was. If it replaces a
value, the trees differ in the value and the stamp of one node alone, and the stamp is the new
version. No step is noted in these cases. -/
theorem untouched_unless_moved (comparator : Comparator K) (map : AvlMap K V)
    (hmap : map.Reachable comparator) (key : K) (journal : Journal K V) :
    (∃ result map' after, map.erase key journal = .ok ((result, map'), after) ∧
      map'.version = map.version + 1 ∧
      (result = .error .keyNotFound → map.Untouched map' journal after)) ∧
    (∀ value, ∃ existing map' after,
      map.insertIfNew key value journal = .ok ((existing, map'), after) ∧
      map'.version = map.version + 1 ∧
      (existing.isSome → map.Untouched map' journal after)) ∧
    (∀ value, ∃ replaced map' after,
      map.insert key value journal = .ok ((replaced, map'), after) ∧
      map'.version = map.version + 1 ∧
      ∀ old, replaced = some old → ∃ slot,
        map.tree.Differs slot old value map'.version map'.tree ∧
        after.events = journal.events) ∧
    ∀ f, ∃ result map' after, map.modify key f journal = .ok ((result, map'), after) ∧
      map'.version = map.version + 1 ∧
      (result = .error .keyNotFound → map.Untouched map' journal after) ∧
      ∀ new, result = .ok (some new) → ∃ slot old, f old = (new, true) ∧
        map.tree.Differs slot old new map'.version map'.tree ∧
        after.events = journal.events := by
  obtain ⟨-, t, hspells⟩ := hmap.spells
  refine ⟨?_, fun value => ?_, fun value => ?_, fun f => ?_⟩
  · have herase : Ends (map.erase key) journal _ := ends_erase_untouched hspells
    obtain ⟨⟨result, map'⟩, after, hrun, hspares⟩ := herase.eq_ok
    exact ⟨result, map', after, hrun, hspares⟩
  · have hinsert : Ends (map.insertIfNew key value) journal _ := ends_insertIfNew_untouched hspells
    obtain ⟨⟨existing, map'⟩, after, hrun, hspares⟩ := hinsert.eq_ok
    exact ⟨existing, map', after, hrun, hspares⟩
  · have hinsert : Ends (map.insert key value) journal _ := ends_insert_differs hspells
    obtain ⟨⟨replaced, map'⟩, after, hrun, hdiffers⟩ := hinsert.eq_ok
    exact ⟨replaced, map', after, hrun, hdiffers⟩
  · have hmodify : Ends (map.modify key f) journal _ := ends_modify_untouched hspells
    obtain ⟨⟨result, map'⟩, after, hrun, hspares⟩ := hmodify.eq_ok
    exact ⟨result, map', after, hrun, hspares⟩

/-- In a map of eight keys, 6 is not found, and 3 gets another value. -/
theorem untouched_unless_moved_eight :
    (∃ map' after, eightKeyAvlMap.erase 6 {} = .ok ((.error .keyNotFound, map'), after) ∧
      eightKeyAvlMap.Untouched map' {} after) ∧
    ∃ map' after slot, eightKeyAvlMap.insert 3 9 {} = .ok ((some 3, map'), after) ∧
      eightKeyAvlMap.tree.Differs slot 3 9 3 map'.tree ∧ after.events = #[] := by
  have herase : (eightKeyAvlMap.erase 6 {}).toOption.map
      (fun outcome => Answer.ofExcept Answer.value outcome.1.1) =
        some (.refused .keyNotFound : Answer Nat Nat) := by decide +kernel
  have hinsert : (eightKeyAvlMap.insert 3 9 {}).toOption.map (fun outcome => outcome.1.1) =
      some (some 3) := by decide +kernel
  have hversion : eightKeyAvlMap.version = 2 := by decide +kernel
  have hvalue : Function.Injective (Answer.ofExcept (Answer.value (K := Nat) (V := Nat))) :=
    Answer.ofExcept_injective (fun _ _ => Answer.value.inj) (by simp)
  constructor
  · obtain ⟨⟨result, map', after, hrun, -, huntouched⟩, -⟩ := untouched_unless_moved
      (.ofFn compare) eightKeyAvlMap reachable_eightKeyAvlMap 6 ({} : Journal Nat Nat)
    rw [hrun] at herase
    obtain rfl : result = .error .keyNotFound := hvalue (Option.some.inj herase)
    exact ⟨map', after, hrun, huntouched rfl⟩
  · obtain ⟨-, -, hput, -⟩ := untouched_unless_moved
      (.ofFn compare) eightKeyAvlMap reachable_eightKeyAvlMap 3 ({} : Journal Nat Nat)
    obtain ⟨replaced, map', after, hrun, hversion', hdiffers⟩ := hput 9
    rw [hrun] at hinsert
    obtain rfl : replaced = some 3 := Option.some.inj hinsert
    obtain ⟨slot, hdiffers, hevents⟩ := hdiffers 3 rfl
    rw [hversion', hversion] at hdiffers
    exact ⟨map', after, slot, hrun, hdiffers, hevents⟩

end OrderedMaps.AvlMap
