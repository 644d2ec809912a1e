import OrderedMaps.Proofs.Avl.Stored

/-!
# Overwritten nodes

A node that gets another value keeps its place. In the pool that is a change of one slot, and
nothing else in the tree is different: not even the order in which free slots will be used.

* `Avl.Tree.Differs`: two trees that differ in the value and the stamp of one node.
* `Avl.Shape.overwrite`: the same for shapes, and what it leaves as it was.
* `Avl.Shape.Stored.overwrite`: the tree after the change spells out the overwritten shape.
* `Avl.edits_writeNode_differs`: writing the value and the stamp of a node makes that change.
* `Avl.edits_setChild_self`, `Avl.edits_adoptRoot_self`: links that are there already can be written
  again, and nothing changes.
-/

namespace OrderedMaps.Avl

variable {K V : Type}

/-- The second tree is the first one, but for a node that has another value and another stamp. Its
key and its links are kept, as is everything else. -/
def Tree.Differs (slot : Slot) (old value : V) (stamp : Nat) (tree tree' : Tree K V) : Prop :=
  ∃ node, tree.pool.get? slot = some node ∧ node.value = old ∧
    tree' = { tree with pool := tree.pool.put slot (some { node with value, stamp }) }

section Differs

variable {tree tree' : Tree K V} {slot : Slot} {old value : V} {stamp : Nat}

theorem Tree.Differs.touches (h : tree.Differs slot old value stamp tree') :
    Touches [slot] tree tree' := by
  obtain ⟨node, hnode, -, rfl⟩ := h
  exact .put hnode

end Differs

/-! ## Overwritten shapes -/

/-- The cell, with another value and stamp if it is the one in the given slot. -/
def Cell.overwrite (slot : Slot) (value : V) (stamp : Nat) (x : Cell K V) : Cell K V :=
  if x.slot = slot then { x with value, stamp } else x

namespace Shape

variable {slot : Slot} {value : V} {stamp : Nat} {t near far : Shape K V} {x : Cell K V}

@[simp] theorem slot_overwrite : (x.overwrite slot value stamp).slot = x.slot := by
  unfold Cell.overwrite
  split <;> rfl

theorem overwrite_of_ne (h : x.slot ≠ slot) : x.overwrite slot value stamp = x := if_neg h

/-- The shape with another value and stamp in the given slot. -/
def overwrite (slot : Slot) (value : V) (stamp : Nat) : Shape K V → Shape K V
  | nil => nil
  | node l x height r =>
      node (l.overwrite slot value stamp) (x.overwrite slot value stamp) height
        (r.overwrite slot value stamp)

theorem overwrite_join {side : Side} {height : Int} :
    (join side near x height far).overwrite slot value stamp =
      join side (near.overwrite slot value stamp) (x.overwrite slot value stamp) height
        (far.overwrite slot value stamp) := by
  cases side <;> rfl

theorem cells_overwrite : (t.overwrite slot value stamp).cells =
    t.cells.map (Cell.overwrite slot value stamp) := by
  induction t with
  | nil => rfl
  | node l x height r ihl ihr => simp [overwrite, cells, ihl, ihr]

theorem slots_overwrite : (t.overwrite slot value stamp).slots = t.slots := by
  rw [slots, slots, cells_overwrite, List.map_map]
  exact List.map_congr_left fun x _ => slot_overwrite

theorem height_overwrite : (t.overwrite slot value stamp).height = t.height := by
  cases t <;> rfl

theorem root?_overwrite : (t.overwrite slot value stamp).root? = t.root? := by
  cases t with
  | nil => rfl
  | node l x height r => simp [overwrite, root?]

theorem Sound.overwrite (h : t.Sound) : (t.overwrite slot value stamp).Sound := by
  induction t with
  | nil => trivial
  | node l x height r ihl ihr =>
    obtain ⟨hheight, hdiff, hdiff', hl, hr⟩ := h
    simp only [Shape.overwrite, Sound, height_overwrite]
    exact ⟨hheight, hdiff, hdiff', ihl hl, ihr hr⟩

theorem StampedBy.overwrite (h : t.StampedBy stamp) :
    (t.overwrite slot value stamp).StampedBy stamp := by
  intro x hmem
  rw [cells_overwrite] at hmem
  obtain ⟨y, hy, rfl⟩ := List.mem_map.mp hmem
  by_cases hslot : y.slot = slot
  · rw [Cell.overwrite, if_pos hslot]
  · rw [overwrite_of_ne hslot]
    exact h y hy

/-- In a list of cells with different slots, one cell is overwritten. -/
theorem toList_overwrite {before after : List (Cell K V)} (hnodup : t.slots.Nodup)
    (hsplit : t.cells = before ++ x :: after) : (t.overwrite x.slot value stamp).toList =
      before.map Cell.entry ++ (x.key, value) :: after.map Cell.entry := by
  have hother : ∀ cells : List (Cell K V), x.slot ∉ cells.map Cell.slot →
      cells.map (Cell.overwrite x.slot value stamp) = cells := by
    intro cells hnot
    have hid : ∀ y ∈ cells, y.overwrite x.slot value stamp = id y := by
      intro y hy
      refine overwrite_of_ne fun he => hnot ?_
      rw [← he]
      exact List.mem_map_of_mem hy
    rw [List.map_congr_left hid, List.map_id]
  rw [slots, hsplit, List.map_append, List.map_cons, List.nodup_append, List.nodup_cons] at hnodup
  obtain ⟨-, ⟨hafter, -⟩, hbefore⟩ := hnodup
  rw [toList, cells_overwrite, hsplit, List.map_append, List.map_cons, hother after hafter,
    hother before fun hmem => hbefore _ hmem _ List.mem_cons_self rfl]
  simp [Cell.entry, Cell.overwrite]

theorem Stored.overwrite {tree tree' : Tree K V} {parent : Option Slot} {old : V}
    (h : t.Stored tree.pool parent) (hdiffers : tree.Differs slot old value stamp tree') :
    (t.overwrite slot value stamp).Stored tree'.pool parent := by
  obtain ⟨content, hget, -, rfl⟩ := hdiffers
  induction t generalizing parent with
  | nil => trivial
  | node l x height r ihl ihr =>
    obtain ⟨hnode, hl, hr⟩ := h
    simp only [Shape.overwrite, Stored, slot_overwrite, root?_overwrite]
    refine ⟨?_, ihl hl, ihr hr⟩
    by_cases hx : x.slot = slot
    · subst hx
      obtain rfl : x.node height l.root? r.root? parent = content :=
        Option.some.inj (hnode.symm.trans hget)
      rw [SlotPool.get?_put_self (SlotPool.lt_of_get? hget), Cell.overwrite, if_pos rfl]
      rfl
    · rw [SlotPool.get?_put_of_ne hx, hnode, overwrite_of_ne hx]

end Shape

/-- A node gets another value and stamp, and nothing else in the tree is different. -/
theorem edits_writeNode_differs {tree : Tree K V} {journal : Journal K V} {t : Shape K V}
    {parent : Option Slot} {x : Cell K V} {value : V} {stamp : Nat}
    (hstored : t.Stored tree.pool parent) (hmem : x ∈ t.cells) :
    Edits (writeNode x.slot ({ · with value, stamp })) tree journal fun _ tree' after =>
      tree.Differs x.slot x.value value stamp tree' ∧ after = journal := by
  obtain ⟨height, left, right, above, hnode⟩ := hstored.get?_of_mem hmem
  rw [edits_writeNode hnode]
  exact ⟨⟨_, hnode, rfl, rfl⟩, rfl⟩

/-! ## Links that are there already -/

section Self

variable {tree : Tree K V} {journal : Journal K V} {side : Side} {near far t : Shape K V}
  {x : Cell K V} {height : Int} {parent : Option Slot} {Q : Unit → Tree K V → Journal K V → Prop}

theorem edits_writeNode_self {slot : Slot} {node : Node K V} {f : Node K V → Node K V}
    (h : tree.pool.get? slot = some node) (hf : f node = node) :
    Edits (writeNode slot f) tree journal Q ↔ Q () tree journal := by
  rw [edits_writeNode h, hf, SlotPool.put_self h]

/-- The near subtree of a node is hung under it once more. -/
theorem edits_setChild_self {slot : Slot} {child : Option Slot} (hslot : x.slot = slot)
    (hchild : near.root? = child)
    (hstored : (Shape.join side near x height far).Stored tree.pool parent) :
    Edits (setChild side slot child) tree journal Q ↔ Q () tree journal := by
  obtain ⟨hnode, hnear, -⟩ := Shape.stored_join.mp hstored
  subst hslot hchild
  unfold setChild
  rw [edits_bind, edits_writeNode_self hnode (withChild_linked _)]
  cases near with
  | nil => exact Iff.rfl
  | node l y h r => exact edits_writeNode_self hnear.1 rfl

/-- The whole tree is made the whole tree once more. -/
theorem edits_adoptRoot_self {root : Option Slot} (hroot : t.root? = root)
    (htree : tree.root = root) (hstored : t.Stored tree.pool none) :
    Edits (adoptRoot root) tree journal Q ↔ Q () tree journal := by
  subst hroot
  have hself : { tree with root := t.root? : Tree K V } = tree := by rw [← htree]
  unfold adoptRoot
  rw [edits_bind, edits_modify, hself]
  cases t with
  | nil => exact Iff.rfl
  | node l y h r => exact edits_writeNode_self hstored.1 rfl

end Self

end OrderedMaps.Avl
