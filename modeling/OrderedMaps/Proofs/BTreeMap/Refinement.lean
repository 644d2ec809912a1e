import OrderedMaps.Proofs.BTreeMap.Effect

/-!
# Multi-way tree maps are sorted lists

* `BTreeMap.btree_answers_eq_reference`: whatever is asked of a new map, one call after the other,
  is answered as the plain list of its entries answers it. The degree makes no difference.
-/

namespace OrderedMaps.BTreeMap

open BTree

variable {K V : Type}

/-- A run of calls on a new map under a lawful order never ends in a fault, whatever the degree, if
the search in a node finds the right place among ascending keys. The answers are those of the sorted
list of entries, update functions are shown the values that the list has, and the map holds that
list at the end. Keys that compare equal need not be the same. -/
theorem btree_answers_eq_reference (cmp : K → K → Ordering) [Std.TransCmp cmp] (degree : Degree)
    (locator : Locator K V) (hlocator : locator.IsExact cmp) (calls : List (Call K V)) :
    ∃ (answers : List (Answer K V)) (map : BTreeMap K V) (after : Journal K V),
      (do performAll { (← ofDegree degree (.ofFn cmp)) with locator } calls :
          Run K V (List (Answer K V) × BTreeMap K V)) {} = .ok ((answers, map), after) ∧
      answers = (Reference.performAll cmp [] calls).1 ∧
      after.shown.toList = Reference.shownAll cmp [] calls ∧
      Holds map (Reference.performAll cmp [] calls).2 ∧
      Ascending cmp (Reference.performAll cmp [] calls).2 := by
  have hd : (⟨.ofFn cmp, locator, degree.val⟩ : Discipline K V).Sound True cmp :=
    hlocator.sound degree
  have hstep : ∀ (map : BTreeMap K V) entries call journal,
      map.discipline = ⟨.ofFn cmp, locator, degree.val⟩ ∧ Holds map entries →
      Ascending cmp entries →
      Ends (perform map call) journal fun outcome after => ∃ entries' seen,
        Effect True cmp entries call outcome.1 entries' seen ∧
          (outcome.2.discipline = ⟨.ofFn cmp, locator, degree.val⟩ ∧ Holds outcome.2 entries') ∧
          after.shown = journal.shown ++ seen.toArray := by
    intro map entries call journal hmap hasc
    obtain ⟨hdiscipline, hholds⟩ := hmap
    apply ends_mono (ends_perform (hdiscipline ▸ hd) hholds (fun _ => hasc) call)
    intro outcome after houtcome
    obtain ⟨entries', seen, heffect, hholds', hfollow, hshown⟩ := houtcome
    exact ⟨entries', seen, heffect, ⟨hfollow.discipline_eq.trans hdiscipline, hholds'⟩, hshown⟩
  have hnew : Holds (⟨.ofFn cmp, degree, locator, Versioned.new Tree.empty⟩ : BTreeMap K V) [] :=
    ⟨1, Tree.sound_empty _, rfl⟩
  have hrun : Ends (do performAll { (← ofDegree degree (.ofFn cmp)) with locator } calls :
      Run K V _) {} fun outcome after =>
        outcome.1 = (Reference.performAll cmp [] calls).1 ∧
          (outcome.2.discipline = ⟨.ofFn cmp, locator, degree.val⟩ ∧
            Holds outcome.2 (Reference.performAll cmp [] calls).2) ∧
          Ascending cmp (Reference.performAll cmp [] calls).2 ∧
          after.shown = #[] ++ (Reference.shownAll cmp [] calls).toArray := by
    unfold ofDegree
    rw [ends_bind, ends_bind, ends_record]
    exact performAll_eq_reference hstep calls _ [] _ ⟨rfl, hnew⟩ .nil
  obtain ⟨⟨answers, map⟩, after, heq, hanswers, ⟨-, hholds⟩, hasc, hshown⟩ := hrun.eq_ok
  exact ⟨answers, map, after, heq, hanswers, by simp [hshown], hholds, hasc⟩

/-- Repeated halving in nodes of degree two, under an order that looks at the last digit alone. The
keys are enough for the root to be split, and later to collapse. -/
theorem btree_answers_last_digit :
    ∃ (map : BTreeMap Nat Nat) (after : Journal Nat Nat),
      (do performAll { (← ofDegree .least (.ofFn (compareOn (· % 10)))) with locator := .bisect } [
            .insertMany [(13, 1), (4, 2), (5, 3), (26, 4), (7, 5)], .insert 23 6,
            .modify 33 (fun value => (value + 1, true)), .modify 8 (fun value => (value, true)),
            .erase 14, .erase 16, .erase 5, .toList] :
          Run Nat Nat (List (Answer Nat Nat) × BTreeMap Nat Nat)) {} =
        .ok (([.count 5, .value? (some 1), .value? (some 7), .refused .keyNotFound, .value 2,
          .value 4, .value 3, .entries [(13, 7), (7, 5)]], map), after) ∧
      after.shown.toList = [6] := by
  obtain ⟨answers, map, after, hrun, hanswers, hshown, -, -⟩ :=
    btree_answers_eq_reference (compareOn (· % 10)) .least .bisect isExact_bisect
      [.insertMany [(13, 1), (4, 2), (5, 3), (26, 4), (7, 5)], .insert 23 6,
        .modify 33 (fun value => (value + 1, true)), .modify 8 (fun value => (value, true)),
        .erase 14, .erase 16, .erase 5, .toList]
  refine ⟨map, after, ?_, ?_⟩
  · rw [hrun, hanswers]
    rfl
  · rw [hshown]
    rfl

end OrderedMaps.BTreeMap
