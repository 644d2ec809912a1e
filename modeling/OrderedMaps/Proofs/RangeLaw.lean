import OrderedMaps.Proofs.Reachable

/-!
# Ranges

A range of a map is a part of the list of its entries, for both kinds of map. A binary tree leaves
out subtrees on both sides of the range; a multi-way tree leaves out what comes before the place of
the lower bound and stops at the first key that is not below the upper bound, which it logs.

* `rangeOf`: the range between two keys in a list of entries.
* `AvlMap.ends_rangeOf`, `BTreeMap.ends_rangeOf`: what a map answers is the range of its entries.
* `range_eq_rangeOf`: so it is for all maps that can be reached.
-/

namespace OrderedMaps

variable {K V : Type} {cmp : K → K → Ordering} {low high : K} {entries : List (K × V)}
  {journal : Journal K V}

/-- The entries from `low` on and below `high`, provided that `low` is below `high`. -/
def rangeOf (cmp : K → K → Ordering) (low high : K) (entries : List (K × V)) :
    Except MapError (List (K × V)) :=
  if (cmp low high).isLT then .ok (Reference.between cmp low high entries)
  else .error .invertedRange

/-- As long as the order can be trusted, a range can only be the one of the list. -/
theorem Effect.eq_rangeOf {result : Except MapError (List (K × V))} {entries' : List (K × V)}
    {seen : List V}
    (h : Effect True cmp entries (.range low high) (.ofExcept .entries result) entries' seen) :
    result = rangeOf cmp low high entries := by
  obtain ⟨-, -, hanswer⟩ := h
  have hanswer := hanswer trivial
  apply Answer.ofExcept_injective (f := Answer.entries (K := K) (V := V))
    (fun _ _ => Answer.entries.inj) (by simp)
  rw [hanswer, Reference.perform, rangeOf]
  split <;> rfl

theorem AvlMap.ends_rangeOf {map : AvlMap K V} (hlaw : map.comparator.Follows cmp)
    (hholds : map.Holds entries) (hasc : Ascending cmp entries) :
    Ends (map.range low high) journal fun result _ => result = rangeOf cmp low high entries := by
  obtain ⟨t, hspells, rfl⟩ := hholds
  apply ends_mono (AvlMap.ends_range (fun _ : True => hlaw) hspells fun _ => hasc)
  intro result after hresult
  exact hresult.1.eq_rangeOf

/-- A scan that stops is logged. -/
theorem BTreeMap.ends_rangeOf {map : BTreeMap K V} (hd : map.discipline.Sound True cmp)
    (hholds : map.Holds entries) (hasc : Ascending cmp entries) :
    Ends (map.range low high) journal fun result after =>
      result = rangeOf cmp low high entries ∧
        after.lines = journal.lines ++
          if (cmp low high).isLT ∧ ∃ e ∈ entries, ¬ (cmp e.1 high).isLT
          then ["TRACE range scan stopped at upper bound"] else [] := by
  obtain ⟨levels, hsound, rfl⟩ := hholds
  apply ends_mono (BTreeMap.ends_range hd hsound fun _ => hasc)
  intro result after hresult
  obtain ⟨heffect, -, hevents⟩ := hresult
  refine ⟨heffect.eq_rangeOf, ?_⟩
  rw [Journal.lines, Journal.lines, hevents trivial]
  split <;> simp [Event.line?]

/-- Under a lawful order, the range of a map is the range of its entries, for any two keys, whatever
state a map of either kind is in, and whatever its degree, if the search in a node finds the right
place among ascending keys. So two maps of the two kinds with the same entries answer the same. A
multi-way tree map logs that it stopped at the upper bound just if the range is valid and there is a
key that is not below that bound, and it logs nothing else. -/
theorem range_eq_rangeOf (cmp : K → K → Ordering) [Std.TransCmp cmp] (low high : K)
    (journal : Journal K V) :
    (∀ map : AvlMap K V, map.Reachable (.ofFn cmp) →
      ∃ entries after, map.toList = .ok entries ∧
        map.range low high journal = .ok (rangeOf cmp low high entries, after)) ∧
    (∀ (degree : Degree) (locator : BTree.Locator K V), locator.IsExact cmp →
      ∀ map : BTreeMap K V, map.Reachable (.ofFn cmp) degree locator →
        ∃ after, map.range low high journal =
            .ok (rangeOf cmp low high map.toList, after) ∧
          after.lines = journal.lines ++
            if (cmp low high).isLT ∧ ∃ e ∈ map.toList, ¬ (cmp e.1 high).isLT
            then ["TRACE range scan stopped at upper bound"] else []) ∧
    ∀ (degree : Degree) (locator : BTree.Locator K V), locator.IsExact cmp →
      ∀ (map : AvlMap K V) (map' : BTreeMap K V), map.Reachable (.ofFn cmp) →
        map'.Reachable (.ofFn cmp) degree locator → map.toList = .ok map'.toList →
        ∃ result after after', map.range low high journal = .ok (result, after) ∧
          map'.range low high journal = .ok (result, after') := by
  have havl : ∀ map : AvlMap K V, map.Reachable (.ofFn cmp) →
      ∃ entries after, map.toList = .ok entries ∧
        map.range low high journal = .ok (rangeOf cmp low high entries, after) := by
    intro map hmap
    have hlaw : (Comparator.ofFn cmp).Follows cmp := ⟨inferInstance, fun _ _ _ => rfl⟩
    obtain ⟨hcomparator, entries, hholds, hasc⟩ := hmap.holds fun _ : True => hlaw
    obtain ⟨_, after, hrun, rfl⟩ :=
      (AvlMap.ends_rangeOf (hcomparator ▸ hlaw) hholds (hasc trivial)).eq_ok
    exact ⟨entries, after, hholds.toList_eq, hrun⟩
  have hbtree : ∀ (degree : Degree) (locator : BTree.Locator K V), locator.IsExact cmp →
      ∀ map : BTreeMap K V, map.Reachable (.ofFn cmp) degree locator →
        ∃ after, map.range low high journal =
            .ok (rangeOf cmp low high map.toList, after) ∧
          after.lines = journal.lines ++
            if (cmp low high).isLT ∧ ∃ e ∈ map.toList, ¬ (cmp e.1 high).isLT
            then ["TRACE range scan stopped at upper bound"] else [] := by
    intro degree locator hlocator map hmap
    have hd := hlocator.sound degree
    obtain ⟨hdiscipline, entries, hholds, hasc⟩ := hmap.holds hd
    obtain ⟨_, after, hrun, rfl, hlines⟩ :=
      (BTreeMap.ends_rangeOf (hdiscipline ▸ hd) hholds (hasc trivial)).eq_ok
    rw [hholds.toList_eq]
    exact ⟨after, hrun, hlines⟩
  refine ⟨havl, hbtree, ?_⟩
  intro degree locator hlocator map map' hmap hmap' hsame
  obtain ⟨entries, after, hentries, hrun⟩ := havl map hmap
  obtain ⟨after', hrun', -⟩ := hbtree degree locator hlocator map' hmap'
  obtain rfl : entries = map'.toList := Except.ok.inj (hentries.symm.trans hsame)
  exact ⟨_, after, after', hrun, hrun'⟩

/-- The lower bound is a key of the maps, and the upper bound is not. -/
theorem range_eq_rangeOf_eight :
    ∃ after after', eightKeyAvlMap.range 3 6 {} = .ok (.ok [(3, 3), (4, 7)], after) ∧
      eightKeyBTreeMap.range 3 6 {} = .ok (.ok [(3, 3), (4, 7)], after') ∧
      after'.lines = ["TRACE range scan stopped at upper bound"] := by
  have hentries : eightKeyBTreeMap.toList =
      [(1, 1), (2, 5), (3, 3), (4, 7), (7, 6), (8, 2), (9, 4)] := by decide +kernel
  have hsame : eightKeyAvlMap.toList.toOption =
      some [(1, 1), (2, 5), (3, 3), (4, 7), (7, 6), (8, 2), (9, 4)] := by decide +kernel
  obtain ⟨hread, hlog, -⟩ := range_eq_rangeOf compare 3 6 ({} : Journal Nat Nat)
  obtain ⟨entries, after, hlist, hrun⟩ := hread _ reachable_eightKeyAvlMap
  obtain ⟨after', hrun', hlines⟩ :=
    hlog .least .bisect BTree.isExact_bisect _ reachable_eightKeyBTreeMap
  rw [hlist] at hsame
  obtain rfl := Option.some.inj hsame
  rw [hentries] at hrun' hlines
  exact ⟨after, after', hrun, hrun', hlines⟩

end OrderedMaps
