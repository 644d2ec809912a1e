import OrderedMaps.Proofs.AvlMap.Effect

/-!
# Binary tree maps are sorted lists

* `AvlMap.avl_answers_eq_reference`: whatever is asked of a new map, one call after the other, is
  answered as the plain list of its entries answers it.
-/

namespace OrderedMaps.AvlMap

variable {K V : Type}

/-- A run of calls on a new map under a lawful order never ends in a fault. The answers are those of
the sorted list of entries, update functions are shown the values that the list has, and the map
holds that list at the end. Keys that compare equal need not be the same. -/
theorem avl_answers_eq_reference (cmp : K → K → Ordering) [Std.TransCmp cmp]
    (calls : List (Call K V)) :
    ∃ (answers : List (Answer K V)) (map : AvlMap K V) (after : Journal K V),
      (do performAll (← new (.ofFn cmp)) calls : Run K V (List (Answer K V) × AvlMap K V)) {} =
        .ok ((answers, map), after) ∧
      answers = (Reference.performAll cmp [] calls).1 ∧
      after.shown.toList = Reference.shownAll cmp [] calls ∧
      Holds map (Reference.performAll cmp [] calls).2 ∧
      Ascending cmp (Reference.performAll cmp [] calls).2 := by
  have hlaw : (Comparator.ofFn cmp).Follows cmp := ⟨inferInstance, fun _ _ _ => rfl⟩
  have hstep : ∀ (map : AvlMap K V) entries call journal,
      map.comparator = .ofFn cmp ∧ Holds map entries → Ascending cmp entries →
      Ends (perform map call) journal fun outcome after => ∃ entries' seen,
        Effect True cmp entries call outcome.1 entries' seen ∧
          (outcome.2.comparator = .ofFn cmp ∧ Holds outcome.2 entries') ∧
          after.shown = journal.shown ++ seen.toArray := by
    intro map entries call journal hmap hasc
    obtain ⟨hcomparator, hholds⟩ := hmap
    apply ends_mono
      (ends_perform (fun _ : True => hcomparator ▸ hlaw) hholds (fun _ => hasc) call)
    intro outcome after houtcome
    obtain ⟨entries', seen, heffect, hholds', hfollow, hshown⟩ := houtcome
    exact ⟨entries', seen, heffect, ⟨hfollow.comparator_eq.trans hcomparator, hholds'⟩, hshown⟩
  have hnew : Holds (⟨.ofFn cmp, Versioned.new Avl.Tree.empty⟩ : AvlMap K V) [] :=
    ⟨.nil, .empty _, rfl⟩
  have hrun : Ends (do performAll (← new (.ofFn cmp)) calls : Run K V _) {} fun outcome after =>
      outcome.1 = (Reference.performAll cmp [] calls).1 ∧
        (outcome.2.comparator = .ofFn cmp ∧ Holds outcome.2 (Reference.performAll cmp [] calls).2) ∧
        Ascending cmp (Reference.performAll cmp [] calls).2 ∧
        after.shown = #[] ++ (Reference.shownAll cmp [] calls).toArray := by
    unfold new
    rw [ends_bind, ends_bind, ends_record]
    exact performAll_eq_reference hstep calls _ [] _ ⟨rfl, hnew⟩ .nil
  obtain ⟨⟨answers, map⟩, after, heq, hanswers, ⟨-, hholds⟩, hasc, hshown⟩ := hrun.eq_ok
  exact ⟨answers, map, after, heq, hanswers, by simp [hshown], hholds, hasc⟩

/-- Under an order that looks at the last digit alone, the key stored first stays in place. -/
theorem avl_answers_last_digit :
    ∃ (map : AvlMap Nat Nat) (after : Journal Nat Nat),
      (do performAll (← new (.ofFn (compareOn (· % 10)))) [.insert 13 1, .insert 4 2, .insert 23 3,
        .modify 33 (fun value => (value + 1, true)), .modify 5 (fun value => (value, true)), .toList,
        .insertMany [(6, 7), (14, 8), (16, 9)], .erase 43, .keys, .values] :
          Run Nat Nat (List (Answer Nat Nat) × AvlMap Nat Nat)) {} =
        .ok (([.value? none, .value? none, .value? (some 1), .value? (some 4),
          .refused .keyNotFound, .entries [(13, 4), (4, 2)], .count 1, .value 4, .keys [4, 6],
          .values [8, 9]], map), after) ∧
      after.shown.toList = [3] := by
  obtain ⟨answers, map, after, hrun, hanswers, hshown, -, -⟩ :=
    avl_answers_eq_reference (compareOn (· % 10)) [.insert 13 1, .insert 4 2, .insert 23 3,
      .modify 33 (fun value => (value + 1, true)), .modify 5 (fun value => (value, true)), .toList,
      .insertMany [(6, 7), (14, 8), (16, 9)], .erase 43, .keys, .values]
  refine ⟨map, after, ?_, ?_⟩
  · rw [hrun, hanswers]
    rfl
  · rw [hshown]
    rfl

end OrderedMaps.AvlMap
