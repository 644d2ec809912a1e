import OrderedMaps.Avl.Tree
import OrderedMaps.Proofs.Run

/-!
# Shapes of binary trees

A binary tree without its pool: every node stands where its links put it. Shapes are what the slots
of a pool spell out (`Stored`, in the next module), and what the operations on linked nodes are
described with.

* `Avl.Cell`: a node without its links and its height.
* `Avl.Shape`: a tree of cells with stored heights.
* `Avl.Shape.cells`, `Avl.Shape.slots`, `Avl.Shape.toList`: what stands in it, in order.
* `Avl.Shape.Sound`: the stored heights are exact, and the tree is balanced.
* `Avl.Shape.join`, `Avl.Shape.grow`: a node with a near subtree on one side and a far one on the
  other, the height being given or measured.
* `Avl.Shape.rebalance`: the shape after the rotations that a node needs, with `cells_rebalance`,
  `sound_rebalance` and the bounds of its height.
-/

namespace OrderedMaps.Avl

/-- A node without its links and its height. -/
structure Cell (K V : Type) where
  slot : Slot
  key : K
  value : V
  /-- The version of the write that last touched the entry. -/
  stamp : Nat

/-- The key and value of a cell. -/
def Cell.entry {K V : Type} (cell : Cell K V) : K × V := (cell.key, cell.value)

/-- The node with the given height and links. -/
def Cell.node {K V : Type} (cell : Cell K V) (height : Int) (left right parent : Option Slot) :
    Node K V :=
  ⟨cell.key, cell.value, height, left, right, parent, cell.stamp⟩

@[simp] theorem Cell.key_node {K V : Type} (cell : Cell K V) (height : Int)
    (left right parent : Option Slot) : (cell.node height left right parent).key = cell.key := rfl

/-- A binary tree of cells with stored heights. -/
inductive Shape (K V : Type) where
  | nil
  | node (left : Shape K V) (cell : Cell K V) (height : Int) (right : Shape K V)

namespace Shape

variable {K V : Type}

/-! ## Views -/

/-- The slot of the topmost node. -/
def root? : Shape K V → Option Slot
  | nil => none
  | node _ cell _ _ => some cell.slot

/-- The stored height of the topmost node; one below zero if there is none. -/
def height : Shape K V → Int
  | nil => -1
  | node _ _ height _ => height

/-- The number of nodes on the longest path from the top. -/
def levels : Shape K V → Nat
  | nil => 0
  | node left _ _ right => max left.levels right.levels + 1

/-- All cells in order. -/
def cells : Shape K V → List (Cell K V)
  | nil => []
  | node left cell _ right => left.cells ++ cell :: right.cells

/-- The slots of all nodes in order. -/
def slots (t : Shape K V) : List Slot := t.cells.map Cell.slot

/-- The entries in order. -/
def toList (t : Shape K V) : List (K × V) := t.cells.map Cell.entry

/-- No node was written after the given version. -/
def StampedBy (t : Shape K V) (version : Nat) : Prop := ∀ cell ∈ t.cells, cell.stamp ≤ version

@[simp] theorem height_nil : (nil : Shape K V).height = -1 := rfl

@[simp] theorem height_node (l r : Shape K V) (cell : Cell K V) (h : Int) :
    (node l cell h r).height = h := rfl

@[simp] theorem slots_nil : (nil : Shape K V).slots = [] := rfl

@[simp] theorem slots_node (l r : Shape K V) (cell : Cell K V) (h : Int) :
    (node l cell h r).slots = l.slots ++ cell.slot :: r.slots := by
  simp [slots, cells]

@[simp] theorem toList_nil : (nil : Shape K V).toList = [] := rfl

@[simp] theorem toList_node (l r : Shape K V) (cell : Cell K V) (h : Int) :
    (node l cell h r).toList = l.toList ++ cell.entry :: r.toList := by
  simp [toList, cells]

@[simp] theorem length_slots (t : Shape K V) : t.slots.length = t.cells.length := by
  simp [slots]

@[simp] theorem length_toList (t : Shape K V) : t.toList.length = t.cells.length := by
  simp [toList]

theorem levels_le_length (t : Shape K V) : t.levels ≤ t.cells.length := by
  induction t with
  | nil => exact Nat.le_refl 0
  | node l cell h r ihl ihr =>
    simp only [levels, cells, List.length_append, List.length_cons]
    omega

theorem root?_mem_slots {t : Shape K V} {slot : Slot} (h : t.root? = some slot) :
    slot ∈ t.slots := by
  cases t with
  | nil => cases h
  | node l cell height r =>
    cases h
    simp

/-! ## Balance -/

/-- Every stored height is one more than that of the higher subtree, and the subtrees of every node
differ in height by at most one. -/
def Sound : Shape K V → Prop
  | nil => True
  | node l _ height r =>
      height = 1 + max l.height r.height ∧ l.height - r.height ≤ 1 ∧ r.height - l.height ≤ 1 ∧
        l.Sound ∧ r.Sound

theorem Sound.neg_one_le {t : Shape K V} (h : t.Sound) : -1 ≤ t.height := by
  cases t with
  | nil => exact Int.le_refl (-1)
  | node l cell height r =>
    have hl := h.2.2.2.1.neg_one_le
    have hr := h.2.2.2.2.neg_one_le
    have := h.1
    simp only [Shape.height]
    omega

/-- A sound tree that is higher than the empty one has a node. -/
theorem Sound.eq_node {t : Shape K V} (h : -1 < t.height) : ∃ l cell height r,
    t = node l cell height r := by
  cases t with
  | nil => exact absurd h (Int.lt_irrefl _)
  | node l cell height r => exact ⟨l, cell, height, r, rfl⟩

/-! ## Near and far subtrees -/

/-- A node with the subtree `near` on the given side and `far` on the other. -/
def join (side : Side) (near : Shape K V) (cell : Cell K V) (height : Int) (far : Shape K V) :
    Shape K V :=
  match side with
  | .left => node near cell height far
  | .right => node far cell height near

/-- The same with a height that fits the subtrees. -/
def grow (side : Side) (near : Shape K V) (cell : Cell K V) (far : Shape K V) : Shape K V :=
  join side near cell (1 + max near.height far.height) far

/-- The parts of a tree, seen from one side: the near subtree, the node, the far subtree. -/
def parts? (side : Side) : Shape K V → Option (Shape K V × Cell K V × Shape K V)
  | nil => none
  | node l cell _ r => match side with
      | .left => some (l, cell, r)
      | .right => some (r, cell, l)

variable {side : Side} {near far : Shape K V} {cell : Cell K V} {height : Int}

theorem eq_join (side : Side) (l r : Shape K V) (cell : Cell K V) (height : Int) :
    ∃ near far, node l cell height r = join side near cell height far := by
  cases side with
  | left => exact ⟨l, r, rfl⟩
  | right => exact ⟨r, l, rfl⟩

@[simp] theorem join_flip :
    join side.flip near cell height far = join side far cell height near := by
  cases side <;> rfl

@[simp] theorem root?_join : (join side near cell height far).root? = some cell.slot := by
  cases side <;> rfl

@[simp] theorem height_join : (join side near cell height far).height = height := by
  cases side <;> rfl

@[simp] theorem levels_join :
    (join side near cell height far).levels = max near.levels far.levels + 1 := by
  cases side with
  | left => rfl
  | right => simp only [join, levels, Nat.max_comm]

@[simp] theorem parts?_join :
    (join side near cell height far).parts? side = some (near, cell, far) := by
  cases side <;> rfl

@[simp] theorem root?_grow : (grow side near cell far).root? = some cell.slot := root?_join

@[simp] theorem height_grow :
    (grow side near cell far).height = 1 + max near.height far.height := height_join

/-- The slots of a node and its subtrees, seen from one side. -/
theorem slots_join_perm : (join side near cell height far).slots.Perm
    (near.slots ++ cell.slot :: far.slots) := by
  cases side with
  | left => simp only [join, slots_node, List.Perm.refl]
  | right =>
    simp only [join, slots_node]
    exact List.perm_middle.trans ((List.perm_append_comm.cons _).trans List.perm_middle.symm)

theorem mem_slots_join {slot : Slot} : slot ∈ (join side near cell height far).slots ↔
    slot = cell.slot ∨ slot ∈ near.slots ∨ slot ∈ far.slots := by
  rw [slots_join_perm.mem_iff, List.mem_append, List.mem_cons]
  exact or_left_comm

theorem nodup_slots_join : (join side near cell height far).slots.Nodup ↔
    cell.slot ∉ near.slots ∧ cell.slot ∉ far.slots ∧ near.slots.Nodup ∧ far.slots.Nodup ∧
      ∀ slot ∈ near.slots, slot ∉ far.slots := by
  rw [(slots_join_perm.trans List.perm_middle).nodup_iff, List.nodup_cons, List.mem_append, not_or,
    List.nodup_append]
  constructor
  · rintro ⟨⟨hnear, hfar⟩, hnn, hnf, hne⟩
    exact ⟨hnear, hfar, hnn, hnf, fun slot hn hf => hne slot hn slot hf rfl⟩
  · rintro ⟨hnear, hfar, hnn, hnf, hne⟩
    exact ⟨⟨hnear, hfar⟩, hnn, hnf, fun slot hn slot' hf he => hne slot hn (he ▸ hf)⟩

theorem nodup_slots_node : (node near cell height far).slots.Nodup ↔
    cell.slot ∉ near.slots ∧ cell.slot ∉ far.slots ∧ near.slots.Nodup ∧ far.slots.Nodup ∧
      ∀ slot ∈ near.slots, slot ∉ far.slots :=
  @nodup_slots_join K V .left near far cell height

theorem sound_join : (join side near cell height far).Sound ↔
    height = 1 + max near.height far.height ∧ near.height - far.height ≤ 1 ∧
      far.height - near.height ≤ 1 ∧ near.Sound ∧ far.Sound := by
  cases side with
  | left => exact Iff.rfl
  | right =>
    simp only [join, Sound, Int.max_comm far.height near.height]
    constructor <;> (rintro ⟨h, hnear, hfar, hsn, hsf⟩; exact ⟨h, hfar, hnear, hsf, hsn⟩)

theorem sound_grow : (grow side near cell far).Sound ↔
    near.height - far.height ≤ 1 ∧ far.height - near.height ≤ 1 ∧ near.Sound ∧ far.Sound := by
  simp [grow, sound_join]

@[simp] theorem grow_flip : grow side.flip near cell far = grow side far cell near := by
  simp [grow, Int.max_comm]

theorem cells_join_congr {near' far' : Shape K V} {height' : Int} (hnear : near.cells = near'.cells)
    (hfar : far.cells = far'.cells) :
    (join side near cell height far).cells = (join side near' cell height' far').cells := by
  cases side <;> simp [join, cells, hnear, hfar]

/-- A node and the child on one side of it can change places without a change of order. -/
theorem cells_join_join {a b c : Shape K V} {x y : Cell K V} {h h' : Int} (h'' h''' : Int) :
    (join side a x h (join side b y h' c)).cells =
      (join side (join side a x h'' b) y h''' c).cells := by
  cases side <;> simp [join, cells]

/-! ## Repair -/

/-- The shape of a node whose subtree `near`, on the side `heavy`, is too high by one, after the one
or two rotations that mend it, and the events of the repair. The child on the heavy side takes the
place of the node, unless it is itself higher on its inner side; then the child between takes it. -/
def repair (heavy : Side) (near : Shape K V) (x : Cell K V) (far : Shape K V) :
    Shape K V × List Event :=
  match near.parts? heavy with
  | none => (grow heavy near x far, [])
  | some (outer, y, inner) =>
      match inner.parts? heavy with
      | some (b, z, c) =>
          if outer.height < inner.height then
            (grow heavy (grow heavy outer y b) z (grow heavy c x far),
              [.unbalanced x.slot heavy, .rotated heavy y.slot z.slot,
                .rotated heavy.flip x.slot z.slot])
          else
            (grow heavy outer y (grow heavy inner x far),
              [.unbalanced x.slot heavy, .rotated heavy.flip x.slot y.slot])
      | none =>
          (grow heavy outer y (grow heavy inner x far),
            [.unbalanced x.slot heavy, .rotated heavy.flip x.slot y.slot])

/-- The shape of a node after it was rebalanced, and the events of that. -/
def rebalance (l : Shape K V) (cell : Cell K V) (r : Shape K V) : Shape K V × List Event :=
  if 1 < l.height - r.height then repair .left l cell r
  else if l.height - r.height < -1 then repair .right r cell l
  else (grow .left l cell r, [])

section Repair

variable {heavy : Side} {outer inner b c far : Shape K V} {x y z : Cell K V} {h' h'' : Int}

/-- The child on the heavy side comes up if it is not higher on its inner side. -/
theorem repair_single (hlow : inner.height ≤ outer.height) :
    repair heavy (join heavy outer y h' inner) x far =
      (grow heavy outer y (grow heavy inner x far),
        [.unbalanced x.slot heavy, .rotated heavy.flip x.slot y.slot]) := by
  simp only [repair, parts?_join]
  split
  · rw [if_neg (Int.not_lt.mpr hlow)]
  · rfl

/-- Otherwise the node between the two comes up. -/
theorem repair_double (hhigh : outer.height < h'') :
    repair heavy (join heavy outer y h' (join heavy b z h'' c)) x far =
      (grow heavy (grow heavy outer y b) z (grow heavy c x far),
        [.unbalanced x.slot heavy, .rotated heavy y.slot z.slot,
          .rotated heavy.flip x.slot z.slot]) := by
  simp only [repair, parts?_join, height_join, if_pos hhigh]

end Repair

/-- A node that is too high on one side has a child there, which is higher on its outer side, or
else on its inner side, where it then has a child as well. -/
theorem heavy_cases {heavy : Side} (hnear : near.Sound) (hfar : far.Sound)
    (hheavy : near.height = far.height + 2) :
    (∃ outer y h' inner, near = join heavy outer y h' inner ∧ inner.height ≤ outer.height) ∨
      ∃ outer y h' b z h'' c, near = join heavy outer y h' (join heavy b z h'' c) ∧
        outer.height < h'' := by
  have hlow := hfar.neg_one_le
  obtain ⟨l, y, h', r, rfl⟩ := Sound.eq_node (by omega : -1 < near.height)
  obtain ⟨outer, inner, hsplit⟩ := eq_join heavy l r y h'
  rw [hsplit] at hnear ⊢
  obtain ⟨-, -, -, houter, -⟩ := sound_join.mp hnear
  rcases Int.lt_or_le outer.height inner.height with hhigh | hle
  · have hlow := houter.neg_one_le
    obtain ⟨il, z, h'', ir, rfl⟩ := Sound.eq_node (by omega : -1 < inner.height)
    obtain ⟨b, c, hinner⟩ := eq_join heavy il ir z h''
    rw [hinner] at hhigh ⊢
    exact .inr ⟨outer, y, h', b, z, h'', c, rfl, by simpa using hhigh⟩
  · exact .inl ⟨outer, y, h', inner, rfl, hle⟩

/-- A repair changes neither the order of the nodes nor what is in them. -/
theorem cells_repair (heavy : Side) (near far : Shape K V) (x : Cell K V) (h : Int) :
    (repair heavy near x far).1.cells = (join heavy near x h far).cells := by
  cases near with
  | nil => exact cells_join_congr rfl rfl
  | node l y h' r =>
    obtain ⟨outer, inner, hnear⟩ := eq_join heavy l r y h'
    rw [hnear]
    rcases Int.lt_or_le outer.height inner.height with hhigh | hle
    · cases inner with
      | nil =>
        simp only [repair, parts?_join]
        exact cells_join_join h' h
      | node il z h'' ir =>
        obtain ⟨b, c, hinner⟩ := eq_join heavy il ir z h''
        rw [hinner, height_join] at hhigh
        rw [hinner, repair_double hhigh]
        calc (grow heavy (grow heavy outer y b) z (grow heavy c x far)).cells
          _ = (join heavy (join heavy (grow heavy outer y b) z 0 c) x h far).cells :=
            cells_join_join 0 h
          _ = (join heavy (join heavy outer y h' (join heavy b z h'' c)) x h far).cells :=
            cells_join_congr (cells_join_join _ 0).symm rfl
    · rw [repair_single hle]
      exact cells_join_join h' h

theorem cells_rebalance (l r : Shape K V) (cell : Cell K V) :
    (rebalance l cell r).1.cells = l.cells ++ cell :: r.cells := by
  unfold rebalance
  by_cases hleft : 1 < l.height - r.height
  · rw [if_pos hleft]
    exact cells_repair .left l r cell 0
  · rw [if_neg hleft]
    by_cases hright : l.height - r.height < -1
    · rw [if_pos hright]
      exact cells_repair .right r l cell 0
    · rw [if_neg hright]
      rfl

@[simp] theorem slots_rebalance (l r : Shape K V) (cell : Cell K V) :
    (rebalance l cell r).1.slots = l.slots ++ cell.slot :: r.slots := by
  simp [slots, cells_rebalance]

/-- A subtree that is too high by one is mended by a repair, which lets its height grow no more
than by one over that of the higher child. -/
theorem sound_repair (heavy : Side) (x : Cell K V) (hnear : near.Sound) (hfar : far.Sound)
    (hheavy : near.height = far.height + 2) :
    (repair heavy near x far).1.Sound ∧ near.height ≤ (repair heavy near x far).1.height ∧
      (repair heavy near x far).1.height ≤ near.height + 1 := by
  rcases @heavy_cases _ _ near far heavy hnear hfar hheavy with
    ⟨outer, y, h', inner, rfl, hle⟩ | ⟨outer, y, h', b, z, h'', c, rfl, hhigh⟩
  · obtain ⟨hh', hdiff, hdiff', houter, hinner⟩ := sound_join.mp hnear
    rw [height_join] at hheavy ⊢
    rw [repair_single hle]
    simp only [sound_grow, height_grow]
    refine ⟨⟨?_, ?_, houter, ?_, ?_, hinner, hfar⟩, ?_, ?_⟩ <;> omega
  · obtain ⟨hh', hdiff, hdiff', houter, hinner⟩ := sound_join.mp hnear
    obtain ⟨hh'', hble, hbge, hb, hc⟩ := sound_join.mp hinner
    rw [height_join] at hheavy hh' hdiff hdiff' ⊢
    rw [repair_double hhigh]
    simp only [sound_grow, height_grow]
    refine ⟨⟨?_, ?_, ⟨?_, ?_, houter, hb⟩, ?_, ?_, hc, hfar⟩, ?_, ?_⟩ <;> omega

/-- Rebalancing a node whose subtrees are sound and differ in height by at most two makes a sound
tree. Its height is that of the higher subtree or one more, and one more if there was nothing to
mend. -/
theorem sound_rebalance {l r : Shape K V} (cell : Cell K V) (hl : l.Sound) (hr : r.Sound)
    (hlr : l.height - r.height ≤ 2) (hrl : r.height - l.height ≤ 2) :
    (rebalance l cell r).1.Sound ∧ max l.height r.height ≤ (rebalance l cell r).1.height ∧
      (rebalance l cell r).1.height ≤ max l.height r.height + 1 ∧
      (l.height - r.height ≤ 1 → r.height - l.height ≤ 1 →
        (rebalance l cell r).1.height = max l.height r.height + 1) := by
  unfold rebalance
  by_cases hleft : 1 < l.height - r.height
  · rw [if_pos hleft]
    obtain ⟨hsound, hle, hge⟩ := sound_repair .left cell hl hr (by omega)
    exact ⟨hsound, by omega, by omega, by omega⟩
  · rw [if_neg hleft]
    by_cases hright : l.height - r.height < -1
    · rw [if_pos hright]
      obtain ⟨hsound, hle, hge⟩ := sound_repair .right cell hr hl (by omega)
      exact ⟨hsound, by omega, by omega, by omega⟩
    · rw [if_neg hright]
      simp only [sound_grow, height_grow]
      exact ⟨⟨by omega, by omega, hl, hr⟩, by omega, by omega, by omega⟩

end Shape

end OrderedMaps.Avl
