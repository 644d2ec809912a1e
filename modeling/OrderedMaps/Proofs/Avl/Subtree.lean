import OrderedMaps.Proofs.Avl.Balance
import OrderedMaps.Proofs.Avl.Repair
import OrderedMaps.Proofs.Contract.Change

/-!
# Subtrees under change

Insertion and removal work on a subtree, hang what became of it under the node above, and rebalance
that node. Here is what one such step up keeps: the subtree stays in the pool, the rest of the
tree is left alone, and what happened to the entries of the part happened to those of the whole.

* `Avl.Placed`: a stored subtree and the slots of the rest of the tree.
* `Avl.Spares`: a change that leaves the rest alone, and takes slots only when it has to.
* `Avl.Mended`: what rebalancing makes of a node and its subtrees.
* `Avl.edits_hang`, `Avl.edits_mend`: a changed subtree is hung under its node, which is rebalanced.
* `Avl.edits_rewrite`, `Avl.edits_unlink`: a node gets another entry, or is taken out.
* `Avl.Shape.fore`, `Avl.Shape.aft`: the entries of the whole that are not in the near subtree.
-/

namespace OrderedMaps.Avl

variable {K V : Type}

/-! ## Where a key belongs -/

namespace Shape

variable {side : Side} {near far : Shape K V} {x : Cell K V} {height : Int}

/-- The entries before those of the near subtree of a node. -/
def fore (side : Side) (x : Cell K V) (far : Shape K V) : List (K × V) :=
  match side with
  | .left => []
  | .right => far.toList ++ [x.entry]

/-- The entries after those of the near subtree of a node. -/
def aft (side : Side) (x : Cell K V) (far : Shape K V) : List (K × V) :=
  match side with
  | .left => x.entry :: far.toList
  | .right => []

theorem toList_join :
    (join side near x height far).toList = fore side x far ++ near.toList ++ aft side x far := by
  cases side <;> simp [join, fore, aft]

theorem ascending_near {cmp : K → K → Ordering}
    (h : Ascending cmp (join side near x height far).toList) : Ascending cmp near.toList := by
  rw [toList_join] at h
  exact h.sublist ((List.sublist_append_right _ _).trans (List.sublist_append_left _ _))

theorem ascending_node {cmp : K → K → Ordering} {l r : Shape K V}
    (h : Ascending cmp (node l x height r).toList) :
    Ascending cmp l.toList ∧ Ascending cmp r.toList ∧ (∀ e ∈ l.toList, cmp e.1 x.key = .lt) ∧
      ∀ e ∈ r.toList, cmp x.key e.1 = .lt := by
  rw [toList_node] at h
  obtain ⟨hl, hxr, hcross⟩ := List.pairwise_append.mp h
  obtain ⟨habove, hr⟩ := List.pairwise_cons.mp hxr
  exact ⟨hl, hr, fun e he => hcross e he x.entry List.mem_cons_self, habove⟩

/-- A key that a trusted comparator sends to one side is above all entries before the subtree on
that side, and below all entries after it. -/
theorem between_of_answer {c : Comparator K} {cmp : K → K → Ordering} {key : K} {n : Nat}
    (hlaw : c.Follows cmp) (hasc : Ascending cmp (join side near x height far).toList)
    (hside : Side.ofOrdering? (c.answer n key x.key) = some side) :
    Between cmp key (fore side x far) (aft side x far) := by
  have := hlaw.lawful
  rw [hlaw.answer_eq] at hside
  cases side with
  | left =>
    have hlt : cmp key x.key = .lt := by
      revert hside
      cases cmp key x.key <;> simp [Side.ofOrdering?]
    rw [join, toList_node] at hasc
    exact ⟨by simp [fore], below_of_lt (List.pairwise_append.mp hasc).2.1 hlt⟩
  | right =>
    have hgt : cmp key x.key = .gt := by
      revert hside
      cases cmp key x.key <;> simp [Side.ofOrdering?]
    have hsplit : (join .right near x height far).toList =
        far.toList ++ [x.entry] ++ near.toList := by simp [join]
    rw [hsplit] at hasc
    exact ⟨above_of_gt (List.pairwise_append.mp hasc).1 hgt, by simp [aft]⟩

theorem eq_of_answer {c : Comparator K} {cmp : K → K → Ordering} {key : K} {n : Nat}
    (hlaw : c.Follows cmp) (hside : Side.ofOrdering? (c.answer n key x.key) = none) :
    cmp key x.key = .eq := by
  rw [hlaw.answer_eq] at hside
  exact Side.ofOrdering?_eq_none_iff.mp hside

theorem stampedBy_join {version : Nat} : (join side near x height far).StampedBy version ↔
    x.stamp ≤ version ∧ near.StampedBy version ∧ far.StampedBy version := by
  cases side with
  | left =>
    simp only [StampedBy, join, cells, List.mem_append, List.mem_cons, or_imp, forall_and,
      forall_eq]
    exact and_left_comm
  | right =>
    simp only [StampedBy, join, cells, List.mem_append, List.mem_cons, or_imp, forall_and,
      forall_eq]
    exact and_left_comm.trans (and_congr_right' and_comm)

theorem stampedBy_node {version : Nat} : (node near x height far).StampedBy version ↔
    x.stamp ≤ version ∧ near.StampedBy version ∧ far.StampedBy version :=
  @stampedBy_join K V .left near far x height version

/-- A node seen from the side on which its given child is. -/
theorem node_eq_join (side : Side) (l r : Shape K V) (x : Cell K V) (height : Int) :
    ∃ near far, node l x height r = join side near x height far ∧
      ∀ parent, (x.node height l.root? r.root? parent).child side = near.root? := by
  cases side with
  | left => exact ⟨l, r, rfl, fun _ => rfl⟩
  | right => exact ⟨r, l, rfl, fun _ => rfl⟩

end Shape

/-! ## A subtree and the rest -/

/-- A subtree is stored below the given parent. Its slots, and those of the rest, are all that are
in use. -/
structure Placed (tree : Tree K V) (parent : Option Slot) (t : Shape K V) (rest : List Slot) :
    Prop where
  stored : t.Stored tree.pool parent
  houses : Houses tree (t.slots ++ rest)

/-- A change leaves the root link and the nodes of the rest alone. It takes no more slots than were
there or than there are entries now. -/
structure Spares (rest : List Slot) (tree tree' : Tree K V) : Prop where
  root_eq : tree'.root = tree.root
  /-- The nodes of the rest are the same. -/
  get?_eq : ∀ slot ∈ rest, tree'.pool.get? slot = tree.pool.get? slot
  /-- New slots are made only if all are in use. -/
  capacity_le : tree'.pool.slots.size ≤ max tree.pool.slots.size tree'.size

variable {tree tree' tree'' : Tree K V} {parent : Option Slot} {t : Shape K V}
  {rest rest' slots : List Slot} {journal : Journal K V}

theorem Placed.nodup (h : Placed tree parent t rest) : t.slots.Nodup :=
  (List.nodup_append.mp h.houses.nodup).1

theorem Placed.apart (h : Placed tree parent t rest) {slot : Slot} (hmem : slot ∈ t.slots) :
    slot ∉ rest :=
  fun hrest => (List.nodup_append.mp h.houses.nodup).2.2 slot hmem slot hrest rfl

namespace Spares

theorem mono (h : Spares rest tree tree') (hsub : ∀ slot ∈ rest', slot ∈ rest) :
    Spares rest' tree tree' :=
  { h with get?_eq := fun slot hslot => h.get?_eq slot (hsub slot hslot) }

theorem touches (h : Spares rest tree tree') (htouches : Touches slots tree' tree'')
    (hapart : ∀ slot ∈ slots, slot ∉ rest) : Spares rest tree tree'' where
  root_eq := htouches.root_eq.trans h.root_eq
  get?_eq slot hslot :=
    (htouches.get?_eq slot fun hmem => hapart slot hmem hslot).trans (h.get?_eq slot hslot)
  capacity_le := by
    rw [htouches.capacity_eq, htouches.size_eq]
    exact h.capacity_le

theorem stored (h : Spares rest tree tree') (hstored : t.Stored tree.pool parent)
    (hsub : ∀ slot ∈ t.slots, slot ∈ rest) : t.Stored tree'.pool parent :=
  hstored.congr fun slot hmem => h.get?_eq slot (hsub slot hmem)

end Spares

/-! ## One step up -/

/-- A sound shape with the nodes of a node and its two subtrees. Its height is that of the higher
subtree or one more, and one more if the two are balanced. -/
structure Mended (side : Side) (near : Shape K V) (x : Cell K V) (far t : Shape K V) : Prop where
  /-- The nodes are the same, in the same order. -/
  cells_eq : ∀ height, t.cells = (Shape.join side near x height far).cells
  /-- The heights are exact, and the shape is balanced. -/
  sound : t.Sound
  /-- It is as high as the higher subtree. -/
  le_height : max near.height far.height ≤ t.height
  /-- It is higher by one at most. -/
  height_le : t.height ≤ max near.height far.height + 1
  /-- Where there is nothing to mend, it is higher by one. -/
  height_eq : near.height - far.height ≤ 1 → far.height - near.height ≤ 1 →
    t.height = max near.height far.height + 1

theorem Mended.toList_eq {side : Side} {near far : Shape K V} {x : Cell K V}
    (h : Mended side near x far t) (height : Int) :
    t.toList = (Shape.join side near x height far).toList :=
  congrArg (List.map Cell.entry) (h.cells_eq height)

theorem Mended.stampedBy {side : Side} {near far : Shape K V} {x : Cell K V} {version : Nat}
    (h : Mended side near x far t) (hx : x.stamp ≤ version) (hnear : near.StampedBy version)
    (hfar : far.StampedBy version) : t.StampedBy version := by
  rw [Shape.StampedBy, h.cells_eq 0]
  exact Shape.stampedBy_join.mpr ⟨hx, hnear, hfar⟩

section Step

variable {side : Side} {near near' far : Shape K V} {x : Cell K V} {height : Int}
  {above : Option Slot}

/-- The slots of a node and its subtrees and of the rest, seen from the near subtree. -/
theorem placed_slots_perm : ((Shape.join side near x height far).slots ++ rest).Perm
    (near.slots ++ (x.slot :: far.slots ++ rest)) := by
  rw [← List.append_assoc]
  exact Shape.slots_join_perm.append_right rest

/-- For the near subtree of a node, the node and the far subtree belong to the rest. -/
theorem Placed.part (h : Placed tree parent (Shape.join side near x height far) rest) :
    Placed tree (some x.slot) near (x.slot :: far.slots ++ rest) :=
  ⟨(Shape.stored_join.mp h.stored).2.1, h.houses.perm placed_slots_perm⟩

/-- What became of the near subtree of a node is hung under the node. -/
theorem edits_hang (hplaced : Placed tree parent (Shape.join side near x height far) rest)
    (hnear : Placed tree' above near' (x.slot :: far.slots ++ rest))
    (hspares : Spares (x.slot :: far.slots ++ rest) tree tree') :
    Edits (setChild side x.slot near'.root?) tree' journal fun _ tree'' after =>
      after = journal ∧ Placed tree'' parent (Shape.join side near' x height far) rest ∧
        Spares rest tree tree'' := by
  obtain ⟨hnode, -, hfar⟩ := Shape.stored_join.mp hplaced.stored
  have hnode' := (hspares.get?_eq x.slot (by simp)).trans hnode
  have hfar' := hspares.stored hfar fun slot hmem => by simp [hmem]
  have hhouses' : Houses tree' ((Shape.join side near' x height far).slots ++ rest) :=
    hnear.houses.perm placed_slots_perm.symm
  obtain ⟨hnodup, -, hapart⟩ := List.nodup_append.mp hhouses'.nodup
  refine edits_mono (edits_setChild rfl hnode' hnear.stored hfar' hnodup) ?_
  intro outcome tree'' _ houtcome
  obtain ⟨rfl, hstored, htouches⟩ := houtcome
  refine ⟨rfl, ⟨hstored, hhouses'.touches htouches⟩,
    (hspares.mono fun slot hmem => by simp [hmem]).touches htouches fun slot hmem hrest => ?_⟩
  refine hapart slot (Shape.mem_slots_join.mpr ?_) slot hrest rfl
  rcases List.mem_cons.mp hmem with rfl | hmem
  · exact .inl rfl
  · exact .inr (.inl (Shape.root?_mem_slots (by simpa using hmem)))

/-- Rebalancing mends a node whose subtrees are sound and differ in height by at most two. -/
theorem mended_mend (side : Side) (x : Cell K V) (hnear : near.Sound) (hfar : far.Sound)
    (hdiff : near.height - far.height ≤ 2) (hdiff' : far.height - near.height ≤ 2) :
    Mended side near x far (Shape.mend side near x far).1 := by
  cases side with
  | left =>
    obtain ⟨hsound, hle, hge, heq⟩ := Shape.sound_rebalance x hnear hfar hdiff hdiff'
    exact ⟨fun _ => Shape.cells_rebalance near far x, hsound, hle, hge, heq⟩
  | right =>
    obtain ⟨hsound, hle, hge, heq⟩ := Shape.sound_rebalance x hfar hnear hdiff' hdiff
    rw [Int.max_comm] at hle hge heq
    exact ⟨fun _ => Shape.cells_rebalance far near x, hsound, hle, hge, fun h h' => heq h' h⟩

/-- A node over sound subtrees whose heights differ by at most two is rebalanced. -/
theorem edits_mend (hplaced : Placed tree' parent (Shape.join side near x height far) rest)
    (hspares : Spares rest tree tree') (hnear : near.Sound) (hfar : far.Sound)
    (hdiff : near.height - far.height ≤ 2) (hdiff' : far.height - near.height ≤ 2) :
    Edits (rebalance x.slot) tree' journal fun slot tree'' after =>
      (Shape.mend side near x far).1.root? = some slot ∧
        Placed tree'' parent (Shape.mend side near x far).1 rest ∧ Spares rest tree tree'' ∧
        after = journal.noted (Shape.mend side near x far).2 := by
  have hmend : ∀ {l r : Shape K V}, Placed tree' parent (Shape.node l x height r) rest →
      l.Sound → r.Sound → l.height - r.height ≤ 2 → r.height - l.height ≤ 2 →
      Edits (rebalance x.slot) tree' journal fun slot tree'' after =>
        (Shape.rebalance l x r).1.root? = some slot ∧
          Placed tree'' parent (Shape.rebalance l x r).1 rest ∧ Spares rest tree tree'' ∧
          after = journal.noted (Shape.rebalance l x r).2 := by
    intro l r hplaced hl hr hlr hrl
    refine edits_mono (edits_rebalance hplaced.stored hplaced.nodup hl hr hlr hrl) ?_
    intro slot tree'' after hslot
    obtain ⟨hroot, hstored, hafter, htouches⟩ := hslot
    have hapart : ∀ other ∈ Shape.reached l x r, other ∉ rest := fun other hmem =>
      hplaced.apart (Shape.mem_slots_of_reached hmem height)
    refine ⟨hroot, ⟨hstored, ?_⟩, hspares.touches htouches hapart, hafter⟩
    have hhouses := hplaced.houses.touches htouches
    rwa [Shape.slots_rebalance, ← Shape.slots_node l r x height]
  cases side with
  | left => exact hmend hplaced hnear hfar hdiff hdiff'
  | right => exact hmend hplaced hfar hnear hdiff' hdiff

/-- The topmost node of a subtree gets another entry or stamp. -/
theorem edits_rewrite {l r : Shape K V} {x' : Cell K V} {f : Node K V → Node K V}
    (hplaced : Placed tree' parent (Shape.node l x height r) rest)
    (hspares : Spares rest tree tree')
    (hslot : x'.slot = x.slot)
    (hf : f (x.node height l.root? r.root? parent) = x'.node height l.root? r.root? parent) :
    Edits (writeNode x.slot f) tree' journal fun _ tree'' after =>
      after = journal ∧ Placed tree'' parent (Shape.node l x' height r) rest ∧
        Spares rest tree tree'' := by
  obtain ⟨hnode, hl, hr⟩ := hplaced.stored
  obtain ⟨hxl, hxr, -⟩ := Shape.nodup_slots_node.mp hplaced.nodup
  have htouches : Touches [x.slot] tree' { tree' with
      pool := tree'.pool.put x.slot (some (f (x.node height l.root? r.root? parent))) } :=
    .put hnode
  rw [edits_writeNode hnode]
  refine ⟨rfl, ⟨⟨?_, ?_, ?_⟩, ?_⟩, hspares.touches htouches ?_⟩
  · rw [hslot, SlotPool.get?_put_self (SlotPool.lt_of_get? hnode), hf]
  · rw [hslot]
    exact hl.put_of_not_mem hxl
  · rw [hslot]
    exact hr.put_of_not_mem hxr
  · have hslots : (Shape.node l x' height r).slots = (Shape.node l x height r).slots := by
      simp [hslot]
    rw [hslots]
    exact hplaced.houses.touches htouches
  · intro slot hmem
    rw [List.mem_singleton.mp hmem]
    exact hplaced.apart (by simp)

/-- A node with one subtree at most is taken out. -/
theorem edits_unlink (hplaced : Placed tree parent (Shape.join side near x height .nil) rest) :
    Edits (removeNode x.slot) tree journal fun node tree' after =>
      after = journal ∧ node = x.linked side height near.root? none parent ∧
        Placed tree' (some x.slot) near rest ∧ Spares rest tree tree' := by
  obtain ⟨hnode, hnear, -⟩ := Shape.stored_join.mp hplaced.stored
  have hhouses : Houses tree (x.slot :: (near.slots ++ rest)) :=
    hplaced.houses.perm ((Shape.slots_join_perm.trans List.perm_middle).append_right rest |>.trans
      (by simp))
  obtain ⟨hnew, -⟩ := List.nodup_cons.mp hhouses.nodup
  obtain ⟨pool, hrelease, hoccupied, hother, hcapacity⟩ := hhouses.occupied.release hnode
  have hsize : tree.size = (near.slots ++ rest).length + 1 := hhouses.size_eq
  rw [edits_removeNode hsize hrelease]
  refine ⟨rfl, rfl, ⟨hnear.congr fun slot hmem => hother slot ?_, hoccupied, rfl⟩, rfl,
    fun slot hmem => hother slot ?_, ?_⟩
  · exact fun he => hnew (he ▸ List.mem_append_left _ hmem)
  · exact fun he => hnew (he ▸ List.mem_append_right _ hmem)
  · rw [hcapacity]
    exact Nat.le_max_left _ _

end Step

end OrderedMaps.Avl
