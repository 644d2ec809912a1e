import OrderedMaps.BTree.Search
import OrderedMaps.Proofs.BTree.Node
import OrderedMaps.Proofs.Contract.Change

/-!
# Places of keys in nodes

* `BTree.Place.Fits`: a place is the right one for a key.
* `BTree.Locator.IsExact`: a locator finds the right place in ascending keys.
* `BTree.Discipline.Sound`: what the operations on a tree rely on.
* `BTree.isInRange_bisect`, `BTree.isExact_bisect`: repeated halving meets both demands. The first
  does not need an order.
-/

namespace OrderedMaps.BTree

variable {K V : Type} {trust : Prop} {cmp : K → K → Ordering} {c : Comparator K} {key : K}

/-- The keys ascend strictly. -/
def Ascend (cmp : K → K → Ordering) (keys : List K) : Prop :=
  keys.Pairwise fun a b => cmp a b = .lt

/-- The place is the right one for a key among the given ones: where they hold an equal key, or
between the smaller and the larger ones. -/
def Place.Fits (cmp : K → K → Ordering) (key : K) (keys : List K) : Place → Prop
  | found position => ∃ before k after, keys = before ++ k :: after ∧ before.length = position ∧
      cmp key k = .eq
  | gap position => ∃ before after, keys = before ++ after ∧ before.length = position ∧
      (∀ k ∈ before, cmp key k = .gt) ∧ ∀ k ∈ after, cmp key k = .lt

/-- In ascending keys, the locator finds the right place, and does nothing but compare keys. -/
def Locator.IsExact (locator : Locator K V) (cmp : K → K → Ordering) : Prop :=
  ∀ keys key journal, Ascend cmp keys → ∃ place journal',
    (locator.locate (.ofFn cmp) keys key).run journal = .ok (place, journal') ∧
      place.Fits cmp key keys ∧ journal'.events = journal.events ∧ journal'.shown = journal.shown

/-- The operations on a tree can go by the discipline. Places always exist, and they are the right
ones as long as the comparator can be trusted. -/
structure Discipline.Sound (d : Discipline K V) (trust : Prop) (cmp : K → K → Ordering) : Prop where
  follows : trust → d.comparator.Follows cmp
  least_le : 2 ≤ d.degree
  locate : ∀ keys key journal, (trust → Ascend cmp keys) →
    Ends (d.locate keys key) journal fun place later =>
      place.InRange keys.length ∧ (trust → place.Fits cmp key keys) ∧ journal.Quiet later

theorem Place.Fits.inRange {keys : List K} {place : Place} (h : place.Fits cmp key keys) :
    place.InRange keys.length := by
  cases place with
  | found position =>
    obtain ⟨before, k, after, rfl, rfl, -⟩ := h
    simp [InRange]
  | gap position =>
    obtain ⟨before, after, rfl, rfl, -⟩ := h
    simp [InRange]

theorem Locator.IsInRange.sound {locator : Locator K V} (h : locator.IsInRange) (degree : Degree)
    (comparator : Comparator K) :
    (⟨comparator, locator, degree.val⟩ : Discipline K V).Sound False cmp := by
  refine ⟨False.elim, degree.least_le, fun keys key journal _ => ?_⟩
  obtain ⟨place, later, hrun, hrange, hevents, hshown⟩ := h comparator keys key journal
  exact ends_of_eq_ok hrun ⟨hrange, False.elim, hevents, hshown⟩

theorem Locator.IsExact.sound [Std.TransCmp cmp] {locator : Locator K V} (h : locator.IsExact cmp)
    (degree : Degree) :
    (⟨.ofFn cmp, locator, degree.val⟩ : Discipline K V).Sound True cmp := by
  refine ⟨fun _ => ⟨inferInstance, fun _ _ _ => rfl⟩, degree.least_le, ?_⟩
  intro keys key journal hasc
  obtain ⟨place, later, hrun, hfits, hevents, hshown⟩ := h keys key journal (hasc trivial)
  exact ends_of_eq_ok hrun ⟨hfits.inRange, fun _ => hfits, hevents, hshown⟩

/-! ## Repeated halving -/

/-- What narrowing down a window arrives at: one of its keys. What comes after it is above the key,
and it is not above the key itself, unless it is the first of the window. -/
def Narrowed (trust : Prop) (cmp : K → K → Ordering) (key : K) (window : List K) (base : Nat)
    (position : Nat) : Prop :=
  ∃ before k after, window = before ++ k :: after ∧ position = base + before.length ∧
    (trust → (before = [] ∨ cmp key k ≠ .lt) ∧ ∀ k' ∈ after, cmp key k' = .lt)

/-- Narrowing down a window, by induction on the number of steps left. All that is in the list after
the window is above the key. -/
theorem ends_narrow (hlaw : trust → c.Follows cmp) {steps base size : Nat} {window : List K}
    {journal : Journal K V} (hpos : 1 ≤ size) (hsize : size ≤ window.length)
    (hsteps : size ≤ steps + 1) (hasc : trust → Ascend cmp window)
    (hbehind : trust → ∀ k ∈ window.drop size, cmp key k = .lt) :
    Ends (Locator.narrow c key steps window base size) journal fun position later =>
      Narrowed trust cmp key window base position ∧ later.events = journal.events ∧
        later.shown = journal.shown := by
  induction steps generalizing window base size journal with
  | zero =>
    obtain rfl : size = 1 := by omega
    obtain ⟨k, after, rfl⟩ := List.exists_cons_of_length_pos hsize
    exact ⟨⟨[], k, after, rfl, rfl, fun ht => ⟨.inl rfl, hbehind ht⟩⟩, rfl, rfl⟩
  | succ steps ih =>
    rw [Locator.narrow]
    by_cases hone : size ≤ 1
    · rw [if_pos hone]
      obtain rfl : size = 1 := by omega
      obtain ⟨k, after, rfl⟩ := List.exists_cons_of_length_pos hsize
      exact ⟨⟨[], k, after, rfl, rfl, fun ht => ⟨.inl rfl, hbehind ht⟩⟩, rfl, rfl⟩
    rw [if_neg hone]
    have hhalf : size / 2 < window.length := by omega
    obtain ⟨front, k, upper, rfl, hfront⟩ : ∃ front k upper, window = front ++ k :: upper ∧
        front.length = size / 2 :=
      ⟨window.take (size / 2), window[size / 2], window.drop (size / 2 + 1), by simp,
        by simp; omega⟩
    have hupper : (front ++ k :: upper).drop (size / 2) = k :: upper := by simp [← hfront]
    simp only [hupper, ends_bind, ends_liftM]
    refine ⟨k, rfl, ?_⟩
    rw [ends_ask]
    have hrest : trust → Ascend cmp (k :: upper) := fun ht =>
      (List.pairwise_append.mp (hasc ht)).2.1
    by_cases hgt : (c.answer journal.calls.size k key).isGT
    · rw [if_pos hgt]
      -- the middle key is above the key, and so is everything after it
      refine ih (by omega) (by omega) (by omega) hasc fun ht k' hk' => ?_
      have := (hlaw ht).lawful
      rw [(hlaw ht).answer_eq, Ordering.isGT_iff_eq_gt] at hgt
      have hlt : cmp key k = .lt := Std.OrientedCmp.lt_of_gt hgt
      have hmem : k' ∈ k :: upper :=
        hupper ▸ List.drop_subset_drop_left _ (show size / 2 ≤ size - size / 2 by omega) hk'
      rcases List.mem_cons.mp hmem with rfl | hmem
      · exact hlt
      · exact Std.TransCmp.lt_trans hlt ((List.pairwise_cons.mp (hrest ht)).1 k' hmem)
    · rw [if_neg hgt]
      have hsum : size / 2 + (size - size / 2) = size := by omega
      have hdrop : (k :: upper).drop (size - size / 2) = (front ++ k :: upper).drop size := by
        calc (k :: upper).drop (size - size / 2)
            = ((front ++ k :: upper).drop (size / 2)).drop (size - size / 2) := by rw [hupper]
          _ = (front ++ k :: upper).drop size := by rw [List.drop_drop, hsum]
      rw [List.length_append, hfront] at hsize
      refine ends_mono (ih (by omega) (by omega) (by omega) hrest (hdrop ▸ hbehind)) ?_
      intro position later hposition
      obtain ⟨⟨before, m, after, hsplit, hposition, h⟩, hsame⟩ := hposition
      refine ⟨⟨front ++ before, m, after, by simp [hsplit], ?_, ?_⟩, hsame⟩
      · rw [hposition, List.length_append, hfront]
        omega
      · intro ht
        refine ⟨.inr ?_, (h ht).2⟩
        rcases (h ht).1 with rfl | hne
        · -- the key arrived at is the one in the middle
          have := (hlaw ht).lawful
          obtain rfl : k = m := by simpa using congrArg List.head? hsplit
          rw [(hlaw ht).answer_eq, Ordering.isGT_iff_eq_gt] at hgt
          exact fun hlt => hgt (Std.OrientedCmp.gt_of_lt hlt)
        · exact hne

theorem ends_bisect (hlaw : trust → c.Follows cmp) {keys : List K} {journal : Journal K V}
    (hasc : trust → Ascend cmp keys) :
    Ends (Locator.bisect.locate c keys key) journal fun place later =>
      place.InRange keys.length ∧ (trust → place.Fits cmp key keys) ∧
        later.events = journal.events ∧ later.shown = journal.shown := by
  unfold Locator.bisect
  dsimp only
  rcases keys with _ | ⟨first, rest⟩
  · exact ⟨Nat.le_refl 0, fun _ => ⟨[], [], rfl, rfl, by simp, by simp⟩, rfl, rfl⟩
  rw [if_neg (by simp)]
  generalize hkeys : first :: rest = keys at hasc ⊢
  have hpos : 1 ≤ keys.length := by simp [← hkeys]
  refine ends_bind_of (ends_narrow hlaw hpos (Nat.le_refl _) (Nat.le_succ _) hasc (by simp)) ?_
  intro position later hposition
  obtain ⟨⟨before, k, after, rfl, hposition, h⟩, hevents, hshown⟩ := hposition
  rw [Nat.zero_add] at hposition
  subst hposition
  rw [ends_bind, ends_liftM]
  refine ⟨k, Checked.nth_middle rfl, ?_⟩
  rw [ends_bind, ends_ask]
  have hbefore : trust → ∀ k' ∈ before, cmp k k' = .gt := by
    intro ht k' hk'
    have := (hlaw ht).lawful
    exact Std.OrientedCmp.gt_of_lt
      ((List.pairwise_append.mp (hasc ht)).2.2 k' hk' k List.mem_cons_self)
  split
  · rename_i heq
    refine ⟨by simp [Place.InRange], fun ht => ⟨before, k, after, rfl, rfl, ?_⟩, hevents, hshown⟩
    have := (hlaw ht).lawful
    rw [(hlaw ht).answer_eq] at heq
    exact Std.OrientedCmp.eq_symm heq
  · rename_i hlt
    refine ⟨by simp [Place.InRange], fun ht => ?_, hevents, hshown⟩
    refine ⟨before ++ [k], after, by simp, by simp, ?_, (h ht).2⟩
    have := (hlaw ht).lawful
    rw [(hlaw ht).answer_eq] at hlt
    have hgt : cmp key k = .gt := Std.OrientedCmp.gt_of_lt hlt
    intro k' hk'
    rcases List.mem_append.mp hk' with hk' | hk'
    · exact Std.TransCmp.gt_trans hgt (hbefore ht k' hk')
    · rw [List.mem_singleton.mp hk']
      exact hgt
  · rename_i hgt
    refine ⟨by simp [Place.InRange], fun ht => ⟨before, k :: after, rfl, rfl, ?_⟩, hevents, hshown⟩
    have := (hlaw ht).lawful
    rw [(hlaw ht).answer_eq] at hgt
    have hlt : cmp key k = .lt := Std.OrientedCmp.lt_of_gt hgt
    obtain rfl : before = [] := (h ht).1.resolve_right fun hne => hne hlt
    refine ⟨by simp, fun k' hk' => ?_⟩
    rcases List.mem_cons.mp hk' with rfl | hk'
    · exact hlt
    · exact (h ht).2 k' hk'

/-- Repeated halving finds a place that exists, whatever the comparator answers. -/
theorem isInRange_bisect : (Locator.bisect : Locator K V).IsInRange := by
  intro comparator keys key journal
  have hends := @ends_bisect K V False (fun _ _ => .eq) comparator key False.elim keys journal
    False.elim
  obtain ⟨place, later, hrun, hrange, -, hevents, hshown⟩ := hends.eq_ok
  exact ⟨place, later, hrun, hrange, hevents, hshown⟩

/-- In ascending keys, repeated halving finds the right place. -/
theorem isExact_bisect [Std.TransCmp cmp] : (Locator.bisect : Locator K V).IsExact cmp := by
  intro keys key journal hasc
  have hlaw : (Comparator.ofFn cmp).Follows cmp := ⟨inferInstance, fun _ _ _ => rfl⟩
  have hends := @ends_bisect K V True cmp _ key (fun _ => hlaw) keys journal fun _ => hasc
  obtain ⟨place, later, hrun, -, hfits, hevents, hshown⟩ := hends.eq_ok
  exact ⟨place, later, hrun, hfits trivial, hevents, hshown⟩

end OrderedMaps.BTree
