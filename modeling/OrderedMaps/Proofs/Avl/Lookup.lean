import OrderedMaps.Proofs.Avl.Insert

/-!
# Look-ups in binary trees

* `Avl.ends_find?_iff`, `Avl.edits_findSlot_iff`: a look-up takes the way down for its key, and
  never ends in a fault, whatever the comparator answers.
* `Avl.ends_range`: neither does a range scan. Its entries are those between the bounds as long as
  the comparator can be trusted.
-/

namespace OrderedMaps.Avl

open Shape

variable {K V : Type} {trust : Prop} {cmp : K → K → Ordering} {c : Comparator K} {key : K}
  {tree : Tree K V} {journal : Journal K V} {parent : Option Slot} {t : Shape K V} {version : Nat}

/-! ## Single keys -/

/-- The node that the way down for a key leads to. -/
theorem Spells.get?_of_here {n : Nat} {x : Cell K V} (h : Spells tree version t)
    (hx : (t.descent c key n).here = some x) :
    ∃ height left right above, tree.pool.get? x.slot = some (x.node height left right above) :=
  h.placed.stored.get?_of_mem (by simp [cells_eq_of_here hx])

/-- A look-up takes the way down for its key, by induction on the number of steps left. -/
theorem ends_findFrom {steps : Nat} (hstored : t.Stored tree.pool parent)
    (hsteps : t.levels ≤ steps) :
    Ends (tree.findFrom c key steps t.root?) journal fun found after =>
      found = (t.descent c key journal.calls.size).here.map Cell.slot ∧
        after = journal.compared key (t.descent c key journal.calls.size).keys := by
  induction steps generalizing t parent journal with
  | zero =>
    cases t with
    | nil => exact ⟨rfl, (Journal.compared_nil ..).symm⟩
    | node l x h r => exact absurd hsteps (Nat.not_succ_le_zero _)
  | succ steps ih =>
    cases t with
    | nil => exact ⟨rfl, (Journal.compared_nil ..).symm⟩
    | node l x h r =>
      rw [root?, Tree.findFrom, ends_bind, ends_liftM]
      refine ⟨_, node_of_get? hstored.1, ?_⟩
      rw [ends_bind, ends_ask]
      split
      · rename_i hside
        rw [descent_here hside]
        exact ⟨rfl, (Journal.compared_singleton ..).symm⟩
      · rename_i side hside
        obtain ⟨near, far, hjoin, hchild⟩ := node_eq_join side l r x h
        rw [hchild]
        rw [hjoin] at hstored hsteps ⊢
        rw [levels_join] at hsteps
        refine ends_mono (ih (stored_join.mp hstored).2.1 (by omega)) ?_
        rintro found after ⟨rfl, rfl⟩
        rw [descent_join hside]
        exact ⟨by simp, by simp⟩

/-- The outcome of a look-up, whatever the comparator answers. -/
theorem ends_find?_iff {Q : Option Slot → Journal K V → Prop} (hspells : Spells tree version t) :
    Ends (tree.find? c key) journal Q ↔
      Q ((t.descent c key journal.calls.size).here.map Cell.slot)
        (journal.compared key (t.descent c key journal.calls.size).keys) := by
  refine ends_of_outcome ?_
  unfold Tree.find?
  rw [hspells.root_eq]
  exact ends_findFrom hspells.placed.stored hspells.levels_le

theorem edits_findSlot_iff {Q : Option Slot → Tree K V → Journal K V → Prop}
    (hspells : Spells tree version t) :
    Edits (findSlot c key) tree journal Q ↔
      Q ((t.descent c key journal.calls.size).here.map Cell.slot) tree
        (journal.compared key (t.descent c key journal.calls.size).keys) := by
  unfold findSlot
  rw [edits_bind, edits_get, edits_liftM_run, ends_find?_iff hspells]

/-! ## Ranges -/

/-- The entries between two keys, by induction on the number of steps left. -/
theorem ends_rangeFrom (hlaw : trust → c.Follows cmp) {low high : K} {steps : Nat}
    (hstored : t.Stored tree.pool parent) (hasc : trust → Ascending cmp t.toList)
    (hsteps : t.levels ≤ steps) :
    Ends (tree.rangeFrom c low high steps t.root?) journal fun entries after =>
      (trust → entries = Reference.between cmp low high t.toList) ∧
        after.shown = journal.shown := by
  induction steps generalizing t parent journal with
  | zero =>
    cases t with
    | nil => exact ⟨fun _ => rfl, rfl⟩
    | node l x h r => exact absurd hsteps (Nat.not_succ_le_zero _)
  | succ steps ih =>
    cases t with
    | nil => exact ⟨fun _ => rfl, rfl⟩
    | node l x h r =>
      obtain ⟨hnode, hl, hr⟩ := hstored
      simp only [levels] at hsteps
      have hsplit := fun ht => ascending_node (hasc ht)
      rw [root?, Tree.rangeFrom, ends_bind, ends_liftM]
      refine ⟨_, node_of_get? hnode, ?_⟩
      rw [ends_bind, ends_ask, ends_bind, ends_ask]
      have hlow := fun ht => (hlaw ht).answer_eq journal.calls.size x.key low
      have hhigh := fun ht =>
        (hlaw ht).answer_eq (journal.asked x.key low).calls.size x.key high
      -- a subtree that is not visited has no entry in the range
      refine ends_ite_bind.mpr (ends_mono (Q := fun entries after =>
        (trust → entries = Reference.between cmp low high l.toList) ∧
          after.shown = journal.shown) ?_ ?_)
      · split
        · exact ih hl (fun ht => (hsplit ht).1) (by omega)
        · rename_i hgt
          refine ⟨fun ht => ?_, rfl⟩
          have := (hlaw ht).lawful
          exact (between_eq_nil_of_low (hsplit ht).2.2.1 (hlow ht ▸ hgt)).symm
      intro before after₁ hbefore
      obtain ⟨hentries, hshown⟩ := hbefore
      refine ends_ite_bind.mpr (ends_mono (Q := fun entries after =>
        (trust → entries = Reference.between cmp low high r.toList) ∧
          after.shown = journal.shown) ?_ ?_)
      · split
        · refine ends_mono (ih hr (fun ht => (hsplit ht).2.1) (by omega)) ?_
          exact fun entries after₂ hafter => ⟨hafter.1, hafter.2.trans hshown⟩
        · rename_i hlt
          refine ⟨fun ht => ?_, hshown⟩
          have := (hlaw ht).lawful
          exact (between_eq_nil_of_high (hsplit ht).2.2.2 (hhigh ht ▸ hlt)).symm
      intro after after₂ hafter
      obtain ⟨hentries', hshown'⟩ := hafter
      refine ⟨fun ht => ?_, hshown'⟩
      simp only [hentries ht, hentries' ht, Cell.node, hlow ht, hhigh ht, toList_node,
        List.append_assoc, between_append]
      congr 1
      simp only [Reference.between, List.filter_cons, Cell.entry]
      split <;> rfl

theorem ends_range (hlaw : trust → c.Follows cmp) {low high : K} (hspells : Spells tree version t)
    (hasc : trust → Ascending cmp t.toList) :
    Ends (tree.range c low high) journal fun entries after =>
      (trust → entries = Reference.between cmp low high t.toList) ∧
        after.shown = journal.shown := by
  unfold Tree.range
  rw [hspells.root_eq]
  exact ends_rangeFrom hlaw hspells.placed.stored hasc hspells.levels_le

end OrderedMaps.Avl
