import OrderedMaps.Proofs.Reachable

/-!
# Walks and traversals

A walk goes from node to node by links up and down. A traversal visits the left subtree, the node
and the right subtree, and needs no links up. In every map that can be reached the two are the same,
whatever the comparator answers.

* `Avl.Tree.InOrder`: the traversal of a linked subtree.
* `Avl.Tree.InOrder.unique`: a subtree has one traversal at most.
* `Avl.Shape.Stored.inOrder`: the traversal of a stored shape.
* `AvlMap.walk_eq_traversal`: the walk is the traversal, and everything that is reported in order is
  reported in the order of it.
-/

namespace OrderedMaps

variable {K V : Type}

namespace Avl

/-- The nodes of a linked subtree in order, as the links down have it. -/
inductive Tree.InOrder (tree : Tree K V) : Option Slot → List Slot → Prop
  | missing : InOrder tree none []
  | node {slot : Slot} {node : Node K V} {before after : List Slot}
      (hnode : tree.pool.get? slot = some node) (left : InOrder tree node.left before)
      (right : InOrder tree node.right after) : InOrder tree (some slot) (before ++ slot :: after)

theorem Tree.InOrder.unique {tree : Tree K V} {root : Option Slot} {slots slots' : List Slot}
    (h : tree.InOrder root slots) (h' : tree.InOrder root slots') : slots = slots' := by
  induction h generalizing slots' with
  | missing =>
    cases h'
    rfl
  | node hnode left right ihl ihr =>
    cases h' with
    | node hnode' left' right' =>
      cases hnode.symm.trans hnode'
      rw [ihl left', ihr right']

theorem Shape.Stored.inOrder {tree : Tree K V} {parent : Option Slot} {t : Shape K V}
    (h : t.Stored tree.pool parent) : tree.InOrder t.root? t.slots := by
  induction t generalizing parent with
  | nil => exact .missing
  | node l x height r ihl ihr =>
    obtain ⟨hnode, hl, hr⟩ := h
    rw [slots_node]
    exact .node hnode (ihl hl) (ihr hr)

end Avl

namespace AvlMap

open Avl

/-- Whatever the comparator answers, in any state of the map: the traversal from the root visits
every node once. The step from any node leads to the next one of the traversal, and nowhere from the
last one, so that the walk from the first node comes to an end after as many steps as there are
entries. Lists and folds of the entries have the order of it, and the outermost entries are its
ends. -/
theorem walk_eq_traversal (comparator : Comparator K) (map : AvlMap K V)
    (hmap : map.Reachable comparator) :
    ∃ (slots : List Slot) (entries : List (K × V)),
      (∀ other, map.tree.InOrder map.tree.root other ↔ other = slots) ∧ slots.Nodup ∧
      (∀ slot, slot ∈ slots ↔ (map.tree.pool.get? slot).isSome) ∧ slots.length = map.size ∧
      (∀ (i : Nat) (slot : Slot), slots[i]? = some slot →
        map.tree.successor? slot = .ok slots[i + 1]?) ∧
      map.tree.outermost? .left = .ok slots.head? ∧
      (∀ steps, map.size ≤ steps → map.tree.walk steps slots.head? = .ok slots) ∧
      slots.mapM map.tree.entry = .ok entries ∧ map.toList = .ok entries ∧
      (∀ (β : Type) (visit : β → K → V → β) (start : β), map.foldl visit start =
        .ok (entries.foldl (fun state e => visit state e.1 e.2) start)) ∧
      map.keys = .ok (entries.map Prod.fst) ∧ map.values = .ok (entries.map Prod.snd) ∧
      map.minEntry = .ok (entries.head?.elim (.error .emptyMap) .ok) ∧
      map.maxEntry = .ok (entries.getLast?.elim (.error .emptyMap) .ok) := by
  obtain ⟨-, t, hspells⟩ := hmap.spells
  have htraversal : map.tree.InOrder map.tree.root t.slots := by
    rw [hspells.root_eq]
    exact hspells.placed.stored.inOrder
  have hsize : t.slots.length = map.size := by
    have hlength : map.size = t.toList.length := hspells.size_eq
    simp [hlength]
  have hwalk (steps : Nat) (hsteps : map.size ≤ steps) :
      map.tree.walk steps t.slots.head? = .ok t.slots :=
    walk_chained hspells.chained (hsize.trans_le hsteps)
  have hentries : map.toList = .ok t.toList := hspells.toList_eq
  refine ⟨t.slots, t.toList, fun other => ⟨fun h => h.unique htraversal, fun h => h ▸ htraversal⟩,
    hspells.placed.nodup, fun slot => hspells.mem_slots_iff, hsize,
    fun i slot hslot => hspells.chained.successor?_eq hslot, ?_, hwalk, hspells.mapM_entry_eq,
    hentries, fun β visit start => ?_, ?_, ?_, ?_, ?_⟩
  · rw [hspells.outermost?_eq, head?_slots]
  · rw [foldl, hentries]
    rfl
  · rw [keys, hentries]
    rfl
  · rw [values, hentries]
    rfl
  · rw [minEntry, outermost_eq hspells, Shape.outermost?, Shape.toList, List.head?_map]
    cases t.cells.head? <;> rfl
  · rw [maxEntry, outermost_eq hspells, Shape.outermost?, Shape.toList, List.getLast?_map]
    cases t.cells.getLast? <;> rfl

/-- A walk of seven steps through a map of seven entries. -/
theorem walk_eq_traversal_eight : ∃ slots : List Slot,
    eightKeyAvlMap.tree.InOrder eightKeyAvlMap.tree.root slots ∧
    eightKeyAvlMap.tree.walk 7 slots.head? = .ok slots ∧
    eightKeyAvlMap.keys = .ok [1, 2, 3, 4, 7, 8, 9] := by
  have hsize : eightKeyAvlMap.size = 7 := by decide +kernel
  have hlist : eightKeyAvlMap.keys.toOption = some [1, 2, 3, 4, 7, 8, 9] := by decide +kernel
  obtain ⟨slots, entries, htraversal, -, -, -, -, -, hwalk, -, -, -, hkeys, -⟩ :=
    walk_eq_traversal (.ofFn compare) eightKeyAvlMap reachable_eightKeyAvlMap
  rw [hkeys] at hlist ⊢
  exact ⟨slots, (htraversal slots).mpr rfl, hwalk 7 hsize.le, congrArg _ (Option.some.inj hlist)⟩

end AvlMap

end OrderedMaps
