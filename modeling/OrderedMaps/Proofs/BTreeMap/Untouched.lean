import OrderedMaps.Proofs.Reachable

/-!
# Calls that leave the nodes alone

A removal descends twice: once to see whether the key is there, and once more in a tree that changes
on the way. Under a lawful order the second descent finds what the first one found, so that nodes
are rearranged only for the sake of an entry that is really removed.

* `BTreeMap.Untouched`: the nodes are as they were, and no step was noted.
* `BTreeMap.ends_spares`: what a call that opens the map for writing does to the nodes.
* `BTreeMap.ends_erase_of_found`, `BTreeMap.ends_modify_of_found`: an entry that is found is
  removed.
* `BTreeMap.untouched_unless_removed`: the whole of it, for all maps that can be reached.
-/

namespace OrderedMaps.BTreeMap

open BTree

variable {K V : Type} {cmp : K → K → Ordering} {map map' : BTreeMap K V}
  {journal after : Journal K V} {levels : Nat} {key k : K} {v : V} {before behind : List (K × V)}

/-- All nodes are as they were, and no step was noted. -/
structure Untouched (map map' : BTreeMap K V) (journal after : Journal K V) : Prop where
  tree_eq : map'.tree = map.tree
  events_eq : after.events = journal.events

/-- What a call that opens the map for writing does under an order that can be trusted. -/
theorem ends_spares {β : Type} {run : Run K V (β × BTreeMap K V)} {g : β → Answer K V}
    {call : Call K V}
    (h : Ends run journal fun outcome after => ∃ tree', outcome.2 = map.written tree' ∧
      Performs True cmp map.discipline.degree map.tree call journal (g outcome.1) tree' after) :
    Ends run journal fun outcome after => outcome.2.version = map.version + 1 ∧
      Spares cmp map.tree journal call (g outcome.1) outcome.2.tree after ∧
      ∃ seen, Effect True cmp map.toList call (g outcome.1) outcome.2.toList seen ∧
        after.shown = journal.shown ++ seen.toArray := by
  apply ends_mono h
  rintro ⟨result, _⟩ after ⟨tree', rfl, levels, seen, -, heffect, hshown, hspares⟩
  exact ⟨rfl, hspares trivial, seen, heffect, hshown⟩

section Found

variable [Std.TransCmp cmp]

/-- An entry that a look-up finds is removed. -/
theorem ends_erase_of_found (hd : map.discipline.Sound True cmp)
    (h : map.tree.Sound map.discipline.degree levels) (hasc : Ascending cmp map.toList)
    (hsplit : map.toList = before ++ (k, v) :: behind) (hk : cmp key k = .eq) :
    Ends (map.erase key) journal fun outcome _ =>
      outcome.1 = .ok v ∧ outcome.2.toList = before ++ behind := by
  have habove := ((hsplit ▸ hasc).between hk).above
  apply ends_mono (ends_spares (performs_erase hd h fun _ => hasc))
  intro outcome after houtcome
  obtain ⟨-, -, seen, heffect, -⟩ := houtcome
  obtain ⟨hperform, -, -⟩ := heffect.eq_reference hasc
  rw [Reference.perform, hsplit, lookup_append_cons habove hk,
    erase_append_cons habove hk] at hperform
  obtain ⟨hanswer, hentries⟩ := Prod.mk.inj hperform
  have hresult : Answer.ofExcept Answer.value outcome.1 =
      (Answer.ofExcept Answer.value (.ok v) : Answer K V) := hanswer.symm
  exact ⟨Answer.ofExcept_injective (fun _ _ => Answer.value.inj) (by simp) hresult,
    hentries.symm⟩

/-- An entry that a look-up finds is removed if its key is not to keep a value. -/
theorem ends_modify_of_found {f : V → V × Bool} (hd : map.discipline.Sound True cmp)
    (h : map.tree.Sound map.discipline.degree levels) (hasc : Ascending cmp map.toList)
    (hsplit : map.toList = before ++ (k, v) :: behind) (hk : cmp key k = .eq)
    (hf : (f v).2 = false) :
    Ends (map.modify key f) journal fun outcome after => outcome.1 = .ok none ∧
      outcome.2.toList = before ++ behind ∧ after.shown = journal.shown ++ #[v] := by
  have habove := ((hsplit ▸ hasc).between hk).above
  obtain ⟨value, hdrop⟩ : ∃ value, f v = (value, false) := ⟨(f v).1, Prod.ext rfl hf⟩
  apply ends_mono (ends_spares (performs_modify hd f h fun _ => hasc))
  intro outcome after houtcome
  obtain ⟨-, -, seen, heffect, hshown⟩ := houtcome
  obtain ⟨hperform, hseen, -⟩ := heffect.eq_reference hasc
  simp only [Reference.perform, hsplit, lookup_append_cons habove hk, hdrop,
    erase_append_cons habove hk] at hperform
  rw [Reference.shown, hsplit, lookup_append_cons habove hk] at hseen
  obtain ⟨hanswer, hentries⟩ := Prod.mk.inj hperform
  have hresult : Answer.ofExcept Answer.value? outcome.1 =
      (Answer.ofExcept Answer.value? (.ok none) : Answer K V) := hanswer.symm
  exact ⟨Answer.ofExcept_injective (fun _ _ => Answer.value?.inj) (by simp) hresult,
    hentries.symm, by rw [hshown, ← hseen]; rfl⟩

end Found

/-- Under a lawful order, whatever the degree and in any state of the map, if the search in a node
finds the right place among ascending keys: a call that removes, adds or recomputes an entry always
ends, and advances the version by one. If it fails, or only looks, then all nodes are as they were.
If it recomputes a value, the nodes differ in that value alone. No step is noted in these cases.
Whatever a look-up finds is removed by a removal, and by a recomputation that is not to keep it. -/
theorem untouched_unless_removed (cmp : K → K → Ordering) [Std.TransCmp cmp] (degree : Degree)
    (locator : Locator K V) (hlocator : locator.IsExact cmp) (map : BTreeMap K V)
    (hmap : map.Reachable (.ofFn cmp) degree locator) (key : K) (journal : Journal K V) :
    (∃ result map' after, map.erase key journal = .ok ((result, map'), after) ∧
      map'.version = map.version + 1 ∧
      (result = .error .keyNotFound → map.Untouched map' journal after)) ∧
    (∀ value, ∃ existing map' after,
      map.insertIfNew key value journal = .ok ((existing, map'), after) ∧
      map'.version = map.version + 1 ∧
      (existing.isSome → map.Untouched map' journal after)) ∧
    (∀ f, ∃ result map' after, map.modify key f journal = .ok ((result, map'), after) ∧
      map'.version = map.version + 1 ∧
      (result = .error .keyNotFound → map.Untouched map' journal after) ∧
      ∀ value, result = .ok (some value) → ∃ k old, cmp key k = .eq ∧ f old = (value, true) ∧
        map.tree.root.Differs k old value map'.tree.root ∧ map'.tree.size = map.tree.size ∧
        after.events = journal.events ∧ after.shown = journal.shown ++ #[old]) ∧
    ∀ v earlier later, map.get key earlier = .ok (.ok v, later) → ∃ before k behind,
      map.toList = before ++ (k, v) :: behind ∧ cmp key k = .eq ∧
      (∃ map' after, map.erase key journal = .ok ((.ok v, map'), after) ∧
        map'.toList = before ++ behind) ∧
      ∀ f, (f v).2 = false → ∃ map' after,
        map.modify key f journal = .ok ((.ok none, map'), after) ∧
        map'.toList = before ++ behind ∧ after.shown = journal.shown ++ #[v] := by
  have hd := hlocator.sound degree
  obtain ⟨hdiscipline, _, ⟨levels, hsound, rfl⟩, hasc⟩ := hmap.holds hd
  rw [← hdiscipline] at hd
  refine ⟨?_, fun value => ?_, fun f => ?_, fun v earlier later hget => ?_⟩
  · have herase : Ends (map.erase key) journal _ :=
      ends_spares (performs_erase hd hsound hasc)
    obtain ⟨⟨result, map'⟩, after, hrun, hversion, hspares, -⟩ := herase.eq_ok
    refine ⟨result, map', after, hrun, hversion, ?_⟩
    rintro rfl
    exact ⟨hspares.1, hspares.2⟩
  · have hinsert : Ends (map.insertIfNew key value) journal _ :=
      ends_spares (performs_insertIfNew hd hsound hasc)
    obtain ⟨⟨existing, map'⟩, after, hrun, hversion, hspares, -⟩ := hinsert.eq_ok
    refine ⟨existing, map', after, hrun, hversion, fun hsome => ?_⟩
    obtain ⟨v, rfl⟩ := Option.isSome_iff_exists.mp hsome
    exact ⟨hspares.1, hspares.2⟩
  · have hmodify : Ends (map.modify key f) journal _ :=
      ends_spares (performs_modify hd f hsound hasc)
    obtain ⟨⟨result, map'⟩, after, hrun, hversion, hspares, -⟩ := hmodify.eq_ok
    refine ⟨result, map', after, hrun, hversion, ?_, ?_⟩
    · rintro rfl
      exact ⟨hspares.1, hspares.2⟩
    · rintro value rfl
      exact hspares
  · have hlookup : Ends (map.get key) earlier _ := ends_get hd hsound hasc
    obtain ⟨result, later', hrun, found, hfound, hresult, -⟩ := hlookup.eq_ok
    rw [hget] at hrun
    obtain ⟨rfl, -⟩ := Prod.mk.inj (Except.ok.inj hrun)
    -- the entry found by the look-up is the only one that the later descents can find
    cases hfound with
    | absent => cases hresult
    | present before k found behind hsplit hk =>
      obtain rfl : v = found := Except.ok.inj hresult
      refine ⟨before, k, behind, hsplit, hk trivial, ?_, fun f hf => ?_⟩
      · have herase : Ends (map.erase key) journal _ :=
          ends_erase_of_found hd hsound (hasc trivial) hsplit (hk trivial)
        obtain ⟨⟨_, map'⟩, after, hrun, rfl, hentries⟩ := herase.eq_ok
        exact ⟨map', after, hrun, hentries⟩
      · have hmodify : Ends (map.modify key f) journal _ :=
          ends_modify_of_found hd hsound (hasc trivial) hsplit (hk trivial) hf
        obtain ⟨⟨_, map'⟩, after, hrun, rfl, hentries, hshown⟩ := hmodify.eq_ok
        exact ⟨map', after, hrun, hentries, hshown⟩

/-- In a map of degree two, 6 is not found, and 3 is found in the root and removed. -/
theorem untouched_unless_removed_eight :
    (∃ map' after, eightKeyBTreeMap.erase 6 {} = .ok ((.error .keyNotFound, map'), after) ∧
      eightKeyBTreeMap.Untouched map' {} after) ∧
    ∃ map' after before k behind, eightKeyBTreeMap.toList = before ++ (k, 3) :: behind ∧
      compare 3 k = .eq ∧ eightKeyBTreeMap.erase 3 {} = .ok ((.ok 3, map'), after) ∧
      map'.toList = before ++ behind := by
  have herase : (eightKeyBTreeMap.erase 6 {}).toOption.map
      (fun outcome => Answer.ofExcept Answer.value outcome.1.1) =
        some (.refused .keyNotFound : Answer Nat Nat) := by decide +kernel
  have hget : (eightKeyBTreeMap.get 3 {}).toOption.map
      (fun outcome => Answer.ofExcept Answer.value outcome.1) =
        some (.value 3 : Answer Nat Nat) := by decide +kernel
  have hvalue : Function.Injective (Answer.ofExcept (Answer.value (K := Nat) (V := Nat))) :=
    Answer.ofExcept_injective (fun _ _ => Answer.value.inj) (by simp)
  constructor
  · obtain ⟨⟨result, map', after, hrun, -, huntouched⟩, -⟩ :=
      untouched_unless_removed compare .least .bisect isExact_bisect eightKeyBTreeMap
        reachable_eightKeyBTreeMap 6 ({} : Journal Nat Nat)
    rw [hrun] at herase
    obtain rfl : result = .error .keyNotFound := hvalue (Option.some.inj herase)
    exact ⟨map', after, hrun, huntouched rfl⟩
  · rcases hrun : eightKeyBTreeMap.get 3 {} with fault | ⟨found, later⟩
    · rw [hrun] at hget
      cases hget
    rw [hrun] at hget
    obtain rfl : found = .ok 3 := hvalue (Option.some.inj hget)
    obtain ⟨-, -, -, hremoved⟩ := untouched_unless_removed compare .least .bisect isExact_bisect
      eightKeyBTreeMap reachable_eightKeyBTreeMap 3 ({} : Journal Nat Nat)
    obtain ⟨before, k, behind, hsplit, hk, ⟨map', after, herased, hentries⟩, -⟩ :=
      hremoved 3 {} later hrun
    exact ⟨map', after, before, k, behind, hsplit, hk, herased, hentries⟩

end OrderedMaps.BTreeMap
