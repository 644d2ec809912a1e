import OrderedMaps.AvlMap
import OrderedMaps.Proofs.Avl.Erase
import OrderedMaps.Proofs.Avl.Lookup

/-!
# Calls for a single key

Every call for a key takes the way down for it, and some take it twice. Here is what a call does in
terms of where the way leads, under any comparator.

* `AvlMap.ends_edit`: a call that opens a map for writing edits its tree.
* `AvlMap.ends_contains_iff`, `AvlMap.ends_get_iff`: the outcome of a look-up.
* `AvlMap.ends_insertIfNew`, `AvlMap.ends_modify`: calls that look first, and then insert, overwrite
  or remove.
-/

namespace OrderedMaps.AvlMap

open Avl Shape

variable {K V : Type} {map : AvlMap K V} {key : K} {value : V} {journal : Journal K V}
  {t : Shape K V} {d : Descent K V}

/-! ## Reading -/

theorem ends_contains_iff {Q : Bool → Journal K V → Prop}
    (hspells : Spells map.tree map.version t)
    (hd : t.descent map.comparator key journal.calls.size = d) :
    Ends (map.contains key) journal Q ↔ Q d.here.isSome (journal.compared key d.keys) := by
  subst hd
  unfold contains
  rw [ends_bind, ends_find?_iff hspells, ends_pure, Option.isSome_map]

theorem ends_get_iff {Q : Except MapError V → Journal K V → Prop}
    (hspells : Spells map.tree map.version t)
    (hd : t.descent map.comparator key journal.calls.size = d) :
    Ends (map.get key) journal Q ↔
      Q (d.here.elim (.error .keyNotFound) fun x => .ok x.value) (journal.compared key d.keys) := by
  subst hd
  unfold get
  rw [ends_bind, ends_find?_iff hspells]
  cases hx : (t.descent map.comparator key journal.calls.size).here with
  | none => exact Iff.rfl
  | some x =>
    obtain ⟨height, left, right, above, hnode⟩ := hspells.get?_of_here hx
    have hread : map.tree.node x.slot = .ok (x.node height left right above) := node_of_get? hnode
    simp only [Option.map_some, Option.elim_some, ends_bind, ends_liftM, ends_pure, hread]
    simp [Cell.node]

/-! ## Writing -/

/-- The map after a call that opened it for writing and left the given tree. -/
def written (map : AvlMap K V) (tree : Tree K V) : AvlMap K V :=
  ⟨map.comparator, map.version + 1, tree⟩

theorem ends_edit {β : Type} {f : Comparator K → Nat → Edit K V β}
    {Q : β × AvlMap K V → Journal K V → Prop} :
    Ends (map.edit f) journal Q ↔
      Edits (f map.comparator (map.version + 1)) map.tree journal fun result tree' after =>
        Q (result, map.written tree') after := by
  obtain ⟨comparator, version, tree⟩ := map
  unfold edit Versioned.write
  simp only [ends_bind, ends_pure]
  exact Iff.rfl

/-- A key that is looked up and not found is inserted. If it is found, then nothing is different. -/
theorem ends_insertIfNew {Q : Option V × AvlMap K V → Journal K V → Prop}
    (hspells : Spells map.tree map.version t)
    (hd : t.descent map.comparator key journal.calls.size = d)
    (hfound : ∀ x, d.here = some x →
      Q (some x.value, map.written map.tree) (journal.compared key d.keys))
    (hmissing : d.here = none → Ends (map.insert key value) (journal.compared key d.keys)
      fun outcome after => Q (none, outcome.2) after) :
    Ends (map.insertIfNew key value) journal Q := by
  subst hd
  rw [insertIfNew, ends_edit, edits_bind, edits_findSlot_iff hspells]
  cases hx : (t.descent map.comparator key journal.calls.size).here with
  | some x =>
    obtain ⟨height, left, right, above, hnode⟩ := hspells.get?_of_here hx
    dsimp only [Option.map_some]
    rw [edits_bind, edits_readNode hnode]
    exact hfound x hx
  | none =>
    have hinsert := hmissing hx
    rw [insert, ends_edit] at hinsert
    exact edits_bind.mpr hinsert

/-- A key that is looked up and found gets another value, and nothing else is different, or it is
removed. If it is not found, then nothing is different. -/
theorem ends_modify {f : V → V × Bool}
    {Q : Except MapError (Option V) × AvlMap K V → Journal K V → Prop}
    (hspells : Spells map.tree map.version t)
    (hd : t.descent map.comparator key journal.calls.size = d)
    (hmissing : d.here = none →
      Q (.error .keyNotFound, map.written map.tree) (journal.compared key d.keys))
    (hkeep : ∀ x new tree', d.here = some x → f x.value = (new, true) →
      map.tree.Differs x.slot x.value new (map.version + 1) tree' →
      Q (.ok (some new), map.written tree') ((journal.compared key d.keys).showing [x.value]))
    (hdrop : ∀ x, d.here = some x → (f x.value).2 = false →
      Ends (map.erase key) ((journal.compared key d.keys).showing [x.value])
        fun outcome after => Q (.ok none, outcome.2) after) :
    Ends (map.modify key f) journal Q := by
  subst hd
  rw [modify, ends_edit, edits_bind, edits_findSlot_iff hspells]
  cases hx : (t.descent map.comparator key journal.calls.size).here with
  | none => exact hmissing hx
  | some x =>
    obtain ⟨height, left, right, above, hnode⟩ := hspells.get?_of_here hx
    have hmem : x ∈ t.cells := by simp [cells_eq_of_here hx]
    have hvalue : (x.node height left right above).value = x.value := rfl
    dsimp only [Option.map_some]
    rw [edits_bind, edits_readNode hnode, edits_bind, edits_noteShown, hvalue]
    rcases hf : f x.value with ⟨new, _ | _⟩
    · have herase := hdrop x hx (by rw [hf])
      rw [erase, ends_edit, edits_bind] at herase
      refine edits_bind.mpr (edits_mono herase ?_)
      intro old tree' after hold
      cases old <;> exact hold
    · refine edits_bind_of (edits_writeNode_differs hspells.placed.stored hmem) ?_
      rintro _ tree' after ⟨hdiffers, rfl⟩
      exact hkeep x new tree' hx hf hdiffers

end OrderedMaps.AvlMap
