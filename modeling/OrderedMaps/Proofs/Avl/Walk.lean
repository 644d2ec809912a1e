import OrderedMaps.Avl.Walk
import OrderedMaps.Proofs.Avl.Lookup

/-!
# Walks through binary trees

The links of a stored shape lead through its nodes in order.

* `Avl.Shape.outermost?`: the first cell seen from one side, where `Avl.descend_stored` arrives.
* `Avl.Chained`: each of some slots is the one after the slot before it.
* `Avl.chained_stored`: the slots of a stored shape are chained.
* `Avl.Spells.slots_eq`, `Avl.Spells.toList_eq`: the walk through a tree visits all nodes in order.
-/

namespace OrderedMaps.Avl

open Shape

variable {K V : Type} {tree : Tree K V} {parent up : Option Slot} {t : Shape K V} {version : Nat}

/-! ## Outermost nodes -/

/-- The first cell seen from one side. -/
def Shape.outermost? (side : Side) (t : Shape K V) : Option (Cell K V) :=
  match side with
  | .left => t.cells.head?
  | .right => t.cells.getLast?

theorem outermost?_join {side : Side} {near far : Shape K V} {x : Cell K V} {height : Int} :
    (join side near x height far).outermost? side = (near.outermost? side).or (some x) := by
  cases side with
  | left => simp only [join, Shape.outermost?, cells, List.head?_append, List.head?_cons]
  | right =>
    simp only [join, Shape.outermost?, cells, List.getLast?_append, List.getLast?_cons]
    cases near.cells.getLast? <;> rfl

theorem outermost?_isSome {side : Side} {l r : Shape K V} {x : Cell K V} {height : Int} :
    ∃ y, (node l x height r).outermost? side = some y := by
  obtain ⟨near, far, hjoin, -⟩ := node_eq_join side l r x height
  rw [hjoin, outermost?_join]
  cases near.outermost? side with
  | none => exact ⟨x, rfl⟩
  | some y => exact ⟨y, rfl⟩

/-- The links on one side lead to the outermost node there. -/
theorem descend_stored {side : Side} {steps : Nat} {l r : Shape K V} {x y : Cell K V} {height : Int}
    (hstored : (node l x height r).Stored tree.pool parent)
    (hsteps : (node l x height r).levels ≤ steps)
    (hy : (node l x height r).outermost? side = some y) :
    tree.descend side steps x.slot = .ok y.slot := by
  induction steps generalizing l x height r parent with
  | zero => exact absurd hsteps (Nat.not_succ_le_zero _)
  | succ steps ih =>
    obtain ⟨near, far, hjoin, hchild⟩ := node_eq_join side l r x height
    rw [Tree.descend, node_of_get? hstored.1, ok_bind, hchild]
    rw [hjoin] at hstored hsteps hy
    rw [outermost?_join] at hy
    rw [levels_join] at hsteps
    cases near with
    | nil =>
      have hx : (nil : Shape K V).outermost? side = none := by cases side <;> rfl
      rw [hx] at hy
      cases hy
      rfl
    | node nl z k nr =>
      obtain ⟨w, hw⟩ := @outermost?_isSome K V side nl nr z k
      rw [hw] at hy
      cases hy
      exact ih (stored_join.mp hstored).2.1 (by omega) hw

theorem Spells.outermost?_eq (h : Spells tree version t) (side : Side) :
    tree.outermost? side = .ok ((t.outermost? side).map Cell.slot) := by
  unfold Tree.outermost?
  rw [h.root_eq]
  cases t with
  | nil => cases side <;> rfl
  | node l x height r =>
    obtain ⟨y, hy⟩ := @outermost?_isSome K V side l r x height
    rw [hy]
    simp only [root?, Tree.outermost, descend_stored h.placed.stored h.levels_le hy, ok_bind]
    rfl

/-! ## From one node to the next -/

/-- The node after each of the slots is the next one, and after the last one it is `up`. -/
def Chained (tree : Tree K V) (up : Option Slot) : List Slot → Prop
  | [] => True
  | slot :: rest => tree.successor? slot = .ok (rest.head?.or up) ∧ Chained tree up rest

theorem chained_append {before after : List Slot} :
    Chained tree up (before ++ after) ↔
      Chained tree (after.head?.or up) before ∧ Chained tree up after := by
  induction before with
  | nil => simp [Chained]
  | cons slot rest ih =>
    simp only [List.cons_append, Chained, ih, List.head?_append, Option.or_assoc, and_assoc]

theorem head?_slots (t : Shape K V) : t.slots.head? = (t.outermost? .left).map Cell.slot :=
  List.head?_map

/-- Slots of a stored shape are chained, if climbing from its top comes out at `up`. The induction
is on the shape, with the number of levels above it. -/
theorem chained_stored {above : Nat} (hstored : t.Stored tree.pool parent) (hnodup : t.slots.Nodup)
    (hup : ∀ steps slot, above ≤ steps → t.root? = some slot →
      tree.climb steps slot parent = .ok up)
    (hbound : above + t.levels ≤ tree.pathBound) : Chained tree up t.slots := by
  induction t generalizing parent up above with
  | nil => trivial
  | node l x height r ihl ihr =>
    obtain ⟨hnode, hl, hr⟩ := hstored
    obtain ⟨hxl, hxr, hnodupl, hnodupr, hapart⟩ := nodup_slots_node.mp hnodup
    simp only [levels] at hbound
    rw [slots_node, chained_append]
    refine ⟨?_, ?_, ?_⟩
    · -- from the left subtree, the first step up leads to the node
      refine @ihl (some x.slot) (some x.slot) 1 hl hnodupl ?_ (by omega)
      intro steps slot hsteps hroot
      obtain ⟨steps, rfl⟩ : ∃ k, steps = k + 1 := ⟨steps - 1, by omega⟩
      rw [Tree.climb, node_of_get? hnode, ok_bind]
      exact if_pos hroot
    · -- from the node, the way goes down into the right subtree, or else up
      unfold Tree.successor?
      rw [node_of_get? hnode, ok_bind, head?_slots]
      cases r with
      | nil => exact hup _ _ (by omega) rfl
      | node rl y k rr =>
        obtain ⟨z, hz⟩ := @outermost?_isSome K V .left rl rr y k
        rw [hz]
        have hlevels : (node rl y k rr).levels ≤ tree.pathBound := by omega
        simp only [Cell.node, root?, Tree.outermost, descend_stored hr hlevels hz, ok_bind]
        rfl
    · -- from the right subtree, the climb passes by the node
      refine @ihr (some x.slot) up (above + 1) hr hnodupr ?_ (by omega)
      intro steps slot hsteps hroot
      obtain ⟨steps, rfl⟩ : ∃ k, steps = k + 1 := ⟨steps - 1, by omega⟩
      have hright : l.root? ≠ some slot :=
        fun hleft => hapart slot (root?_mem_slots hleft) (root?_mem_slots hroot)
      rw [Tree.climb, node_of_get? hnode, ok_bind]
      exact (if_neg hright).trans (hup steps x.slot (by omega) rfl)

theorem Spells.chained (h : Spells tree version t) : Chained tree none t.slots := by
  have hlevels := h.levels_le
  refine @chained_stored K V tree none none t 0 h.placed.stored h.placed.nodup ?_ (by omega)
  intro steps slot _ _
  cases steps <;> rfl

/-- The node after the one at a position is the one at the next position. -/
theorem Chained.successor?_eq {slots : List Slot} {position : Nat} {slot : Slot}
    (h : Chained tree none slots) (hslot : slots[position]? = some slot) :
    tree.successor? slot = .ok slots[position + 1]? := by
  induction slots generalizing position with
  | nil => cases hslot
  | cons first rest ih =>
    cases position with
    | zero =>
      obtain rfl : first = slot := Option.some.inj hslot
      have hfirst := h.1
      rwa [Option.or_none, List.head?_eq_getElem?] at hfirst
    | succ position => exact ih h.2 hslot

/-- The node after a given one is one of the nodes again. -/
theorem Chained.successor? {slots : List Slot} {slot : Slot} (h : Chained tree none slots)
    (hmem : slot ∈ slots) :
    ∃ next, tree.successor? slot = .ok next ∧ ∀ after ∈ next, after ∈ slots := by
  obtain ⟨position, hslot⟩ := List.mem_iff_getElem?.mp hmem
  exact ⟨_, h.successor?_eq hslot, fun after hafter => List.mem_of_getElem? hafter⟩

/-! ## Whole walks -/

theorem walk_chained {slots : List Slot} {steps : Nat} (h : Chained tree none slots)
    (hsteps : slots.length ≤ steps) : tree.walk steps slots.head? = .ok slots := by
  induction slots generalizing steps with
  | nil => cases steps <;> rfl
  | cons slot rest ih =>
    obtain ⟨steps, rfl⟩ : ∃ k, steps = k + 1 := ⟨steps - 1, by simp at hsteps; omega⟩
    have hrest := ih h.2 (Nat.le_of_succ_le_succ hsteps)
    rw [List.head?_cons, Tree.walk, h.1, ok_bind, Option.or_none, hrest]
    rfl

theorem Spells.slots_eq (h : Spells tree version t) : tree.slots = .ok t.slots := by
  have hlength := h.placed.houses.occupied.length_le
  rw [List.append_nil] at hlength
  unfold Tree.slots
  rw [h.outermost?_eq, ok_bind, ← head?_slots]
  exact walk_chained h.chained hlength

theorem Spells.entry_eq (h : Spells tree version t) {x : Cell K V} (hmem : x ∈ t.cells) :
    tree.entry x.slot = .ok x.entry := by
  obtain ⟨height, left, right, above, hnode⟩ := h.placed.stored.get?_of_mem hmem
  rw [Tree.entry, node_of_get? hnode]
  rfl

theorem Spells.mapM_entry_eq (h : Spells tree version t) :
    t.slots.mapM tree.entry = .ok t.toList := by
  have hentries : ∀ cells : List (Cell K V), (∀ x ∈ cells, x ∈ t.cells) →
      (cells.map Cell.slot).mapM tree.entry = .ok (cells.map Cell.entry) := by
    intro cells hsub
    induction cells with
    | nil => rfl
    | cons x rest ih =>
      rw [List.map_cons, List.mapM_cons, h.entry_eq (hsub x List.mem_cons_self), ok_bind,
        ih fun y hy => hsub y (List.mem_cons_of_mem _ hy)]
      rfl
  exact hentries t.cells fun _ hmem => hmem

theorem Spells.toList_eq (h : Spells tree version t) : tree.toList = .ok t.toList := by
  unfold Tree.toList
  rw [h.slots_eq, ok_bind, h.mapM_entry_eq]

end OrderedMaps.Avl
