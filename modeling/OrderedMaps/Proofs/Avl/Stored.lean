import OrderedMaps.Proofs.Avl.Edit
import OrderedMaps.Proofs.Avl.Shape

/-!
# Shapes in a pool

How the linked nodes of a pool spell out a shape, and what the elementary changes of links and
heights do to it.

* `Avl.Shape.Stored`: every cell of the shape is in its slot, with links to its children and to the
  node above.
* `Avl.Touches`: a change of a tree that leaves all but some nodes as they are, and takes no slot.
* `Avl.Houses`: the slots in use are the given ones, and the count of entries fits.
* `Avl.edits_setChild`, `Avl.edits_updateHeight`, `Avl.edits_adoptRoot`: links and heights.
-/

namespace OrderedMaps.Avl

variable {K V : Type}

/-! ## Nodes seen from one side -/

/-- The node with links to a near child, on the given side, and to a far one. -/
def Cell.linked (cell : Cell K V) (side : Side) (height : Int) (near far parent : Option Slot) :
    Node K V :=
  match side with
  | .left => cell.node height near far parent
  | .right => cell.node height far near parent

section Linked

variable {cell : Cell K V} {side : Side} {height : Int} {near far parent : Option Slot}

@[simp] theorem child_linked : (cell.linked side height near far parent).child side = near := by
  cases side <;> rfl

@[simp] theorem child_flip_linked :
    (cell.linked side height near far parent).child side.flip = far := by
  cases side <;> rfl

@[simp] theorem withChild_linked (child : Option Slot) :
    (cell.linked side height near far parent).withChild side child =
      cell.linked side height child far parent := by
  cases side <;> rfl

@[simp] theorem parent_linked : (cell.linked side height near far parent).parent = parent := by
  cases side <;> rfl

theorem withParent_linked (above : Option Slot) :
    { cell.linked side height near far parent with parent := above } =
      cell.linked side height near far above := by
  cases side <;> rfl

theorem linked_flip :
    cell.linked side.flip height near far parent = cell.linked side height far near parent := by
  cases side <;> rfl

end Linked

/-! ## Stored shapes -/

namespace Shape

/-- Every cell of the shape is in its slot, linked to its children and to the node above it. -/
def Stored (pool : SlotPool (Node K V)) (parent : Option Slot) : Shape K V → Prop
  | nil => True
  | node l cell height r =>
      pool.get? cell.slot = some (cell.node height l.root? r.root? parent) ∧
        l.Stored pool (some cell.slot) ∧ r.Stored pool (some cell.slot)

variable {pool pool' : SlotPool (Node K V)} {parent : Option Slot} {t : Shape K V}

theorem stored_join {side : Side} {near far : Shape K V} {cell : Cell K V} {height : Int} :
    (join side near cell height far).Stored pool parent ↔
      pool.get? cell.slot = some (cell.linked side height near.root? far.root? parent) ∧
        near.Stored pool (some cell.slot) ∧ far.Stored pool (some cell.slot) := by
  cases side with
  | left => exact Iff.rfl
  | right =>
    simp only [join, Stored, Cell.linked]
    exact and_congr_right fun _ => and_comm

/-- A stored shape depends on nothing but the slots in it. -/
theorem Stored.congr (h : t.Stored pool parent)
    (heq : ∀ slot ∈ t.slots, pool'.get? slot = pool.get? slot) : t.Stored pool' parent := by
  induction t generalizing parent with
  | nil => trivial
  | node l cell height r ihl ihr =>
    obtain ⟨hnode, hl, hr⟩ := h
    simp only [slots_node, List.mem_append, List.mem_cons] at heq
    refine ⟨?_, ihl hl fun slot hmem => heq slot (.inl hmem),
      ihr hr fun slot hmem => heq slot (.inr (.inr hmem))⟩
    rw [heq _ (.inr (.inl rfl)), hnode]

theorem Stored.put_of_not_mem {slot : Slot} {content : Option (Node K V)}
    (h : t.Stored pool parent) (hslot : slot ∉ t.slots) :
    t.Stored (pool.put slot content) parent :=
  h.congr fun _ hmem => SlotPool.get?_put_of_ne fun he => hslot (he ▸ hmem)

/-- The node in the slot of a cell. -/
theorem Stored.get?_of_mem {cell : Cell K V} (h : t.Stored pool parent) (hmem : cell ∈ t.cells) :
    ∃ height left right above, pool.get? cell.slot = some (cell.node height left right above) := by
  induction t generalizing parent with
  | nil => cases hmem
  | node l other height r ihl ihr =>
    obtain ⟨hnode, hl, hr⟩ := h
    rcases List.mem_append.mp hmem with hmem | hmem
    · exact ihl hl hmem
    · rcases List.mem_cons.mp hmem with rfl | hmem
      · exact ⟨_, _, _, _, hnode⟩
      · exact ihr hr hmem

theorem heightAt_root? {tree : Tree K V} (h : t.Stored tree.pool parent) :
    tree.heightAt t.root? = .ok t.height := by
  cases t with
  | nil => rfl
  | node l cell height r =>
    simp only [root?, Tree.heightAt, node_of_get? h.1]
    rfl

end Shape

/-! ## Changes of a tree -/

/-- The second tree differs from the first one in the nodes in the given slots at most. No slot was
taken or given back. -/
structure Touches (slots : List Slot) (tree tree' : Tree K V) : Prop where
  root_eq : tree'.root = tree.root
  size_eq : tree'.size = tree.size
  capacity_eq : tree'.pool.slots.size = tree.pool.slots.size
  occupied : ∀ used, tree.pool.Occupied used → tree'.pool.Occupied used
  get?_eq : ∀ slot, slot ∉ slots → tree'.pool.get? slot = tree.pool.get? slot

namespace Touches

variable {slots slots' : List Slot} {tree tree' tree'' : Tree K V}

theorem trans (h : Touches slots tree tree') (h' : Touches slots tree' tree'') :
    Touches slots tree tree'' where
  root_eq := h'.root_eq.trans h.root_eq
  size_eq := h'.size_eq.trans h.size_eq
  capacity_eq := h'.capacity_eq.trans h.capacity_eq
  occupied used hused := h'.occupied used (h.occupied used hused)
  get?_eq slot hslot := (h'.get?_eq slot hslot).trans (h.get?_eq slot hslot)

theorem mono (h : Touches slots tree tree') (hsub : ∀ slot ∈ slots, slot ∈ slots') :
    Touches slots' tree tree' :=
  { h with get?_eq := fun slot hslot => h.get?_eq slot fun hmem => hslot (hsub slot hmem) }

theorem put {slot : Slot} {node node' : Node K V} (h : tree.pool.get? slot = some node) :
    Touches [slot] tree { tree with pool := tree.pool.put slot (some node') } where
  root_eq := rfl
  size_eq := rfl
  capacity_eq := SlotPool.size_slots_put
  occupied _ hused := hused.write h
  get?_eq _ hslot := SlotPool.get?_put_of_ne (by simpa using hslot)

theorem stored {t : Shape K V} {parent : Option Slot} (h : Touches slots tree tree')
    (hstored : t.Stored tree.pool parent) (hslots : ∀ slot ∈ t.slots, slot ∉ slots) :
    t.Stored tree'.pool parent :=
  hstored.congr fun slot hmem => h.get?_eq slot (hslots slot hmem)

end Touches

/-- Exactly the given slots are in use, and there are as many entries. -/
structure Houses (tree : Tree K V) (slots : List Slot) : Prop where
  occupied : tree.pool.Occupied slots
  size_eq : tree.size = slots.length

namespace Houses

variable {slots slots' : List Slot} {tree tree' : Tree K V}

theorem perm (h : Houses tree slots) (hperm : slots.Perm slots') : Houses tree slots' :=
  ⟨h.occupied.perm hperm, h.size_eq.trans hperm.length_eq⟩

theorem touches {touched : List Slot} (h : Houses tree slots)
    (htouches : Touches touched tree tree') : Houses tree' slots :=
  ⟨htouches.occupied slots h.occupied, htouches.size_eq.trans h.size_eq⟩

theorem nodup (h : Houses tree slots) : slots.Nodup := h.occupied.nodup

end Houses

/-! ## Links and heights -/

section Links

variable {tree : Tree K V} {journal : Journal K V} {side : Side} {near far : Shape K V}
  {cell : Cell K V} {height : Int} {old parent above : Option Slot}

/-- Hanging a stored subtree under a node makes it the near subtree of the node. -/
theorem edits_setChild {child : Option Slot} (hroot : near.root? = child)
    (hnode : tree.pool.get? cell.slot = some (cell.linked side height old far.root? parent))
    (hnear : near.Stored tree.pool above) (hfar : far.Stored tree.pool (some cell.slot))
    (hnodup : (Shape.join side near cell height far).slots.Nodup) :
    Edits (setChild side cell.slot child) tree journal fun _ tree' after =>
      after = journal ∧ (Shape.join side near cell height far).Stored tree'.pool parent ∧
        Touches (cell.slot :: child.toList) tree tree' := by
  subst hroot
  obtain ⟨hcelln, hcellf, hnodupn, -, hapart⟩ := Shape.nodup_slots_join.mp hnodup
  unfold setChild
  rw [edits_bind, edits_writeNode hnode, withChild_linked]
  have hlt := SlotPool.lt_of_get? hnode
  cases near with
  | nil =>
    refine ⟨rfl, Shape.stored_join.mpr ⟨?_, trivial, hfar.put_of_not_mem hcellf⟩, .put hnode⟩
    exact SlotPool.get?_put_self hlt
  | node l below h r =>
    obtain ⟨hbelow, hl, hr⟩ := hnear
    obtain ⟨hnotl, hnotr, -⟩ := Shape.nodup_slots_node.mp hnodupn
    simp only [Shape.slots_node, List.mem_append, List.mem_cons, not_or] at hcelln
    have hnotfar : below.slot ∉ far.slots := hapart _ (by simp)
    have hbelow' : (tree.pool.put cell.slot (some (cell.linked side height (some below.slot)
        far.root? parent))).get? below.slot = some (below.node h l.root? r.root? above) := by
      rw [SlotPool.get?_put_of_ne (Ne.symm hcelln.2.1), hbelow]
    rw [Shape.root?, edits_writeNode hbelow']
    refine ⟨rfl, Shape.stored_join.mpr ⟨?_, ⟨?_, ?_, ?_⟩, ?_⟩, ?_⟩
    · rw [SlotPool.get?_put_of_ne hcelln.2.1, SlotPool.get?_put_self hlt]
      rfl
    · exact SlotPool.get?_put_self (SlotPool.lt_of_get? hbelow')
    · exact (hl.put_of_not_mem hcelln.1).put_of_not_mem hnotl
    · exact (hr.put_of_not_mem hcelln.2.2).put_of_not_mem hnotr
    · exact (hfar.put_of_not_mem hcellf).put_of_not_mem hnotfar
    · refine ((Touches.put hnode).mono ?_).trans ((Touches.put hbelow').mono ?_) <;> simp

/-- The topmost node of a stored subtree gets another parent. -/
theorem edits_setParent
    (hstored : (Shape.join side near cell height far).Stored tree.pool old)
    (hnodup : (Shape.join side near cell height far).slots.Nodup) :
    Edits (writeNode cell.slot ({ · with parent })) tree journal fun _ tree' after =>
      after = journal ∧ (Shape.join side near cell height far).Stored tree'.pool parent ∧
        Touches [cell.slot] tree tree' := by
  obtain ⟨hnode, hnear, hfar⟩ := Shape.stored_join.mp hstored
  obtain ⟨hcelln, hcellf, -⟩ := Shape.nodup_slots_join.mp hnodup
  rw [edits_writeNode hnode, withParent_linked]
  exact ⟨rfl, Shape.stored_join.mpr ⟨SlotPool.get?_put_self (SlotPool.lt_of_get? hnode),
    hnear.put_of_not_mem hcelln, hfar.put_of_not_mem hcellf⟩, .put hnode⟩

/-- Updating the height of a node makes it fit the subtrees. -/
theorem edits_updateHeight
    (hstored : (Shape.join side near cell height far).Stored tree.pool parent)
    (hnodup : (Shape.join side near cell height far).slots.Nodup) :
    Edits (updateHeight cell.slot) tree journal fun _ tree' after =>
      after = journal ∧ (Shape.grow side near cell far).Stored tree'.pool parent ∧
        Touches [cell.slot] tree tree' := by
  obtain ⟨hnode, hnear, hfar⟩ := Shape.stored_join.mp hstored
  obtain ⟨hcelln, hcellf, -⟩ := Shape.nodup_slots_join.mp hnodup
  unfold updateHeight
  simp only [edits_bind, edits_get, edits_liftM]
  refine ⟨_, node_of_get? hnode, ?_⟩
  have hstored' : (Shape.grow side near cell far).Stored
      (tree.pool.put cell.slot (some (cell.linked side (1 + max near.height far.height) near.root?
        far.root? parent))) parent :=
    Shape.stored_join.mpr ⟨SlotPool.get?_put_self (SlotPool.lt_of_get? hnode),
      hnear.put_of_not_mem hcelln, hfar.put_of_not_mem hcellf⟩
  cases side with
  | left =>
    refine ⟨_, Shape.heightAt_root? hnear, _, Shape.heightAt_root? hfar, ?_⟩
    rw [edits_writeNode hnode]
    exact ⟨rfl, hstored', .put hnode⟩
  | right =>
    refine ⟨_, Shape.heightAt_root? hfar, _, Shape.heightAt_root? hnear, ?_⟩
    rw [edits_writeNode hnode, Int.max_comm]
    exact ⟨rfl, hstored', .put hnode⟩

/-- A stored subtree that becomes the whole tree has no parent any more. -/
theorem edits_adoptRoot {t : Shape K V} {slots : List Slot} (hstored : t.Stored tree.pool above)
    (hnodup : t.slots.Nodup) (hhouses : Houses tree slots) :
    Edits (adoptRoot t.root?) tree journal fun _ tree' after =>
      after = journal ∧ t.Stored tree'.pool none ∧ tree'.root = t.root? ∧ Houses tree' slots ∧
        tree'.pool.slots.size = tree.pool.slots.size := by
  unfold adoptRoot
  rw [edits_bind, edits_modify]
  cases t with
  | nil => exact ⟨rfl, trivial, rfl, ⟨hhouses.occupied, hhouses.size_eq⟩, rfl⟩
  | node l cell h r =>
    obtain ⟨hnode, hl, hr⟩ := hstored
    obtain ⟨hnotl, hnotr, -⟩ := Shape.nodup_slots_node.mp hnodup
    have hnode' : { tree with root := some cell.slot : Tree K V }.pool.get? cell.slot =
        some (cell.node h l.root? r.root? above) := hnode
    rw [Shape.root?, edits_writeNode hnode']
    refine ⟨rfl, ⟨?_, ?_, ?_⟩, rfl, ⟨hhouses.occupied.write hnode, hhouses.size_eq⟩,
      SlotPool.size_slots_put⟩
    · exact SlotPool.get?_put_self (SlotPool.lt_of_get? hnode)
    · exact hl.put_of_not_mem hnotl
    · exact hr.put_of_not_mem hnotr

end Links

end OrderedMaps.Avl
