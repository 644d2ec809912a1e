import OrderedMaps.Avl.Balance
import OrderedMaps.Proofs.Avl.Stored

/-!
# Rotations of stored shapes

What rotations and rebalancing do to the shape that a pool spells out. The parent link of the
subtree stays what it was, also where another node comes to stand on top.

* `Avl.edits_rotate`: one rotation.
* `Avl.Shape.relinked`, `Avl.Shape.reached`: the nodes that a repair and a rebalancing work on.
* `Avl.edits_repair`, `Avl.edits_rebalance`: the repairs are those of `Shape.repair` and
  `Shape.rebalance`, and leave all other nodes alone.
* `Avl.rebalance_restores`: what rebalancing a node brings about, in any pool.
-/

namespace OrderedMaps.Avl

open Shape

variable {K V : Type} {tree : Tree K V} {journal : Journal K V} {parent : Option Slot}

/-- A node sinks to one side, and its child on the other side takes its place. -/
theorem edits_rotate {toward : Side} {a b c : Shape K V} {x y : Cell K V} {h h' : Int}
    (hstored : (join toward a x h (join toward b y h' c)).Stored tree.pool parent)
    (hnodup : (join toward a x h (join toward b y h' c)).slots.Nodup) :
    Edits (rotate toward x.slot) tree journal fun pivot tree' after =>
      pivot = y.slot ∧ (grow toward (grow toward a x b) y c).Stored tree'.pool parent ∧
        after = journal.noted [.rotated toward x.slot y.slot] ∧
        Touches (x.slot :: y.slot :: b.root?.toList) tree tree' := by
  obtain ⟨hx, ha, hy⟩ := stored_join.mp hstored
  obtain ⟨hy, hb, hc⟩ := stored_join.mp hy
  rw [root?_join] at hx
  simp only [nodup_slots_join, mem_slots_join, not_or] at hnodup
  obtain ⟨hxa, ⟨hxy, hxb, hxc⟩, hna, ⟨hyb, hyc, hnb, hnc, hbc⟩, hacross⟩ := hnodup
  have hyb' : y.slot ∉ b.root?.toList := by
    intro hmem
    exact hyb (root?_mem_slots (by simpa using hmem))
  have hbc' : ∀ slot ∈ c.slots, slot ∉ b.root?.toList := by
    intro slot hmem hroot
    exact hbc slot (root?_mem_slots (by simpa using hroot)) hmem
  unfold rotate
  rw [edits_bind, edits_readNode hx, child_flip_linked]
  simp only [edits_bind, edits_note, edits_readNode hy, child_linked, parent_linked]
  -- the subtree between the two goes over to the sinking node
  rw [← linked_flip] at hx
  refine edits_mono (edits_setChild rfl hx hb ha ?_) ?_
  · rw [join_flip, nodup_slots_join]
    exact ⟨hxa, hxb, hna, hnb, fun slot hmem => (hacross slot hmem).2.1⟩
  intro outcome tree₁ _ houtcome
  obtain ⟨rfl, hx₁, htouches₁⟩ := houtcome
  rw [join_flip] at hx₁
  have hy₁ : tree₁.pool.get? y.slot = some (y.linked toward h' b.root? c.root? (some x.slot)) := by
    rw [htouches₁.get?_eq y.slot (by simp [Ne.symm hxy, hyb']), hy]
  have hc₁ : c.Stored tree₁.pool (some y.slot) :=
    htouches₁.stored hc fun slot hmem =>
      List.not_mem_cons_of_ne_of_not_mem (fun he => hxc (he ▸ hmem)) (hbc' slot hmem)
  have hnodup₁ : ∀ k, (join toward (join toward a x k b) y h' c).slots.Nodup := by
    intro k
    simp only [nodup_slots_join, mem_slots_join, not_or]
    refine ⟨⟨Ne.symm hxy, fun hmem => (hacross _ hmem).1 rfl, hyb⟩, hyc, ⟨hxa, hxb, hna, hnb,
      fun slot hmem => (hacross slot hmem).2.1⟩, hnc, ?_⟩
    rintro slot (rfl | hmem | hmem)
    · exact hxc
    · exact (hacross slot hmem).2.2
    · exact hbc slot hmem
  -- the sinking node goes under its child, which gets its parent
  refine edits_mono (edits_setChild root?_join hy₁ hx₁ hc₁ (hnodup₁ h)) ?_
  intro outcome tree₂ _ houtcome
  obtain ⟨rfl, hy₂, htouches₂⟩ := houtcome
  refine edits_mono (edits_setParent hy₂ (hnodup₁ h)) ?_
  intro outcome tree₃ _ houtcome
  obtain ⟨rfl, hy₃, htouches₃⟩ := houtcome
  -- its height comes first, because that of the child depends on it
  obtain ⟨hy₃', hx₃, hc₃⟩ := stored_join.mp hy₃
  obtain ⟨hyx, hyc, hnodupx, -, hapart⟩ := nodup_slots_join.mp (hnodup₁ h)
  refine edits_mono (edits_updateHeight hx₃ hnodupx) ?_
  intro outcome tree₄ _ houtcome
  obtain ⟨rfl, hx₄, htouches₄⟩ := houtcome
  have hy₄ : (join toward (grow toward a x b) y h' c).Stored tree₄.pool parent := by
    refine stored_join.mpr ⟨?_, hx₄, htouches₄.stored hc₃ ?_⟩
    · rw [htouches₄.get?_eq y.slot (by simpa using Ne.symm hxy), hy₃', root?_join, root?_grow]
    · exact fun slot hmem he => hxc (by simpa using (List.mem_singleton.mp he) ▸ hmem)
  refine edits_mono (edits_updateHeight hy₄ (hnodup₁ _)) ?_
  intro outcome tree₅ _ houtcome
  obtain ⟨rfl, hy₅, htouches₅⟩ := houtcome
  refine ⟨rfl, hy₅, rfl, ?_⟩
  refine ((((htouches₁.mono ?_).trans (htouches₂.mono ?_)).trans (htouches₃.mono ?_)).trans
    (htouches₄.mono ?_)).trans (htouches₅.mono ?_) <;> simp +contextual

theorem tilt_stored {side : Side} {near far : Shape K V} {cell : Cell K V} {height : Int}
    (h : (join side near cell height far).Stored tree.pool parent) :
    tree.tilt side cell.slot = .ok (near.height - far.height) := by
  obtain ⟨hnode, hnear, hfar⟩ := stored_join.mp h
  simp only [Tree.tilt, node_of_get? hnode, ok_bind, child_linked, child_flip_linked,
    heightAt_root? hnear, heightAt_root? hfar]
  rfl

/-! ## Repairs -/

namespace Shape

/-- The slots of the topmost nodes of the two subtrees. -/
def childSlots : Shape K V → List Slot
  | nil => []
  | node l _ _ r => l.root?.toList ++ r.root?.toList

/-- The slots of the nodes that get other links when a node is repaired for the sake of its subtree
`near` on the side `heavy`, apart from the node itself: its child on that side, the child's inner
child and, if it is the latter that comes up, the topmost nodes of the two subtrees below it. -/
def relinked (heavy : Side) (near : Shape K V) : List Slot :=
  match near.parts? heavy with
  | none => []
  | some (outer, y, inner) =>
      y.slot :: inner.root?.toList ++ if outer.height < inner.height then inner.childSlots else []

/-- The slots of the nodes that rebalancing a node works on: the node itself and, if one of its
subtrees is too high, those that a repair links anew. -/
def reached (l : Shape K V) (x : Cell K V) (r : Shape K V) : List Slot :=
  x.slot :: if 1 < l.height - r.height then l.relinked .left
    else if l.height - r.height < -1 then r.relinked .right
    else []

section Relinked

variable {side heavy : Side} {near far outer inner b c t : Shape K V} {x y z : Cell K V}
  {h h' h'' : Int} {slot : Slot}

theorem mem_childSlots_join : slot ∈ (join side near x h far).childSlots ↔
    near.root? = some slot ∨ far.root? = some slot := by
  cases side with
  | left => simp [join, childSlots]
  | right =>
    simp only [join, childSlots, List.mem_append, Option.mem_toList]
    exact or_comm

theorem relinked_single (hlow : inner.height ≤ outer.height) :
    relinked heavy (join heavy outer y h' inner) = y.slot :: inner.root?.toList := by
  simp only [relinked, parts?_join, if_neg (Int.not_lt.mpr hlow), List.append_nil]

theorem mem_relinked_double (hhigh : outer.height < h'') :
    slot ∈ relinked heavy (join heavy outer y h' (join heavy b z h'' c)) ↔
      slot = y.slot ∨ slot = z.slot ∨ b.root? = some slot ∨ c.root? = some slot := by
  simp [relinked, hhigh, mem_childSlots_join]

theorem mem_slots_of_childSlots (h : slot ∈ t.childSlots) : slot ∈ t.slots := by
  cases t with
  | nil => exact h
  | node l x height r =>
    obtain ⟨near, far, hjoin⟩ := eq_join .left l r x height
    rw [hjoin, mem_childSlots_join] at h
    rw [hjoin, mem_slots_join]
    exact .inr (h.imp root?_mem_slots root?_mem_slots)

/-- A repair works within the subtree. -/
theorem mem_slots_of_relinked (h : slot ∈ near.relinked heavy) : slot ∈ near.slots := by
  cases near with
  | nil => exact h
  | node l y height r =>
    obtain ⟨outer, inner, hjoin⟩ := eq_join heavy l r y height
    rw [hjoin, relinked, parts?_join] at h
    rw [hjoin, mem_slots_join]
    simp only [List.cons_append, List.mem_cons, List.mem_append, Option.mem_toList] at h
    rcases h with rfl | hroot | hbelow
    · exact .inl rfl
    · exact .inr (.inr (root?_mem_slots hroot))
    · split at hbelow
      · exact .inr (.inr (mem_slots_of_childSlots hbelow))
      · cases hbelow

theorem mem_slots_of_reached {l r : Shape K V} (h : slot ∈ reached l x r) (height : Int) :
    slot ∈ (node l x height r).slots := by
  rw [slots_node, List.mem_append, List.mem_cons]
  rcases List.mem_cons.mp h with rfl | h
  · exact .inr (.inl rfl)
  · split at h
    · exact .inl (mem_slots_of_relinked h)
    · split at h
      · exact .inr (.inr (mem_slots_of_relinked h))
      · cases h

end Relinked

end Shape

/-- The child on the heavy side comes up if it is not higher on its inner side. -/
theorem edits_repair_single {heavy : Side} {outer inner far : Shape K V} {x y : Cell K V}
    {h h' : Int}
    (hstored : (join heavy (join heavy outer y h' inner) x h far).Stored tree.pool parent)
    (hnodup : (join heavy (join heavy outer y h' inner) x h far).slots.Nodup) :
    Edits (rotate heavy.flip x.slot) tree journal fun slot tree' after =>
      slot = y.slot ∧ (grow heavy outer y (grow heavy inner x far)).Stored tree'.pool parent ∧
        after = journal.noted [.rotated heavy.flip x.slot y.slot] ∧
        Touches (x.slot :: y.slot :: inner.root?.toList) tree tree' := by
  have hside : join heavy (join heavy outer y h' inner) x h far =
      join heavy.flip far x h (join heavy.flip inner y h' outer) := by simp
  rw [hside] at hstored hnodup
  refine edits_mono (edits_rotate hstored hnodup) ?_
  intro outcome tree' _ houtcome
  obtain ⟨rfl, hstored', rfl, htouches⟩ := houtcome
  exact ⟨rfl, by simpa using hstored', rfl, htouches⟩

/-- Otherwise the node between the two comes up, in two rotations. -/
theorem edits_repair_double {heavy : Side} {outer b c far : Shape K V} {x y z : Cell K V}
    {h h' h'' : Int}
    (hstored : (join heavy (join heavy outer y h' (join heavy b z h'' c)) x h far).Stored
      tree.pool parent)
    (hnodup : (join heavy (join heavy outer y h' (join heavy b z h'' c)) x h far).slots.Nodup) :
    Edits (do
        let child ← rotate heavy y.slot
        setChild heavy x.slot (some child)
        rotate heavy.flip x.slot) tree journal fun slot tree' after =>
      slot = z.slot ∧
        (grow heavy (grow heavy outer y b) z (grow heavy c x far)).Stored tree'.pool parent ∧
        after = journal.noted
          [.rotated heavy y.slot z.slot, .rotated heavy.flip x.slot z.slot] ∧
        Touches (x.slot :: y.slot :: z.slot :: (b.root?.toList ++ c.root?.toList)) tree tree' := by
  obtain ⟨hx, hnear, hfar⟩ := stored_join.mp hstored
  obtain ⟨hxnear, -, hnodupn, -, hapart⟩ := nodup_slots_join.mp hnodup
  -- the first rotation keeps the order of the slots below `x`
  have hslots : (join heavy (join heavy (grow heavy outer y b) z
      (1 + max (grow heavy outer y b).height c.height) c) x h far).slots =
      (join heavy (join heavy outer y h' (join heavy b z h'' c)) x h far).slots := by
    exact congrArg (List.map Cell.slot) (cells_join_congr (cells_join_join _ _).symm rfl)
  rw [edits_bind]
  refine edits_mono (edits_rotate hnear hnodupn) ?_
  intro outcome tree₁ _ houtcome
  obtain ⟨rfl, hz₁, rfl, htouches₁⟩ := houtcome
  have hbelow : ∀ slot ∈ y.slot :: z.slot :: b.root?.toList,
      slot ∈ (join heavy outer y h' (join heavy b z h'' c)).slots := by
    intro slot hmem
    simp only [List.mem_cons, Option.mem_toList] at hmem
    simp only [mem_slots_join]
    rcases hmem with rfl | rfl | hroot
    · exact .inl rfl
    · exact .inr (.inr (.inl rfl))
    · exact .inr (.inr (.inr (.inl (root?_mem_slots hroot))))
  have hx₁ := (htouches₁.get?_eq x.slot fun hmem => hxnear (hbelow _ hmem)).trans hx
  have hfar₁ := htouches₁.stored hfar fun slot hmem hnear => hapart slot (hbelow _ hnear) hmem
  rw [edits_bind]
  have hgrow := hslots ▸ hnodup
  refine edits_mono (edits_setChild root?_grow hx₁ hz₁ hfar₁ hgrow) ?_
  intro outcome tree₂ _ houtcome
  obtain ⟨rfl, hx₂, htouches₂⟩ := houtcome
  refine edits_mono (edits_repair_single hx₂ (by rw [hslots]; exact hnodup)) ?_
  intro outcome tree₃ _ houtcome
  obtain ⟨rfl, hz₃, rfl, htouches₃⟩ := houtcome
  refine ⟨rfl, hz₃, by simp, ?_⟩
  refine ((htouches₁.mono ?_).trans (htouches₂.mono ?_)).trans (htouches₃.mono ?_) <;>
    simp +contextual

/-- A repair brings up the child on the heavy side or the one between. -/
theorem edits_repair {heavy : Side} {near far : Shape K V} {x : Cell K V} {h : Int}
    (hstored : (join heavy near x h far).Stored tree.pool parent)
    (hnodup : (join heavy near x h far).slots.Nodup) (hnear : near.Sound) (hfar : far.Sound)
    (hheavy : near.height = far.height + 2) :
    Edits (Avl.repair heavy x.slot) tree journal fun slot tree' after =>
      (Shape.repair heavy near x far).1.root? = some slot ∧
        (Shape.repair heavy near x far).1.Stored tree'.pool parent ∧
        after = journal.noted (Shape.repair heavy near x far).2 ∧
        Touches (x.slot :: near.relinked heavy) tree tree' := by
  have htilt : ∀ {outer inner y h'}, near = join heavy outer y h' inner →
      tree.tilt heavy.flip y.slot = .ok (inner.height - outer.height) := by
    rintro outer inner y h' rfl
    obtain ⟨-, hnear', -⟩ := stored_join.mp hstored
    rw [← join_flip] at hnear'
    exact tilt_stored hnear'
  obtain ⟨hx, -⟩ := stored_join.mp hstored
  unfold Avl.repair
  simp only [edits_bind, edits_note, edits_readNode hx, child_linked]
  rcases @heavy_cases _ _ near far heavy hnear hfar hheavy with
    ⟨outer, y, h', inner, rfl, hle⟩ | ⟨outer, y, h', b, z, h'', c, rfl, hhigh⟩
  · simp only [root?_join, edits_bind, edits_get, edits_liftM, htilt rfl]
    refine ⟨_, rfl, ?_⟩
    rw [if_neg (by omega), repair_single hle]
    refine edits_mono (edits_repair_single hstored hnodup) ?_
    intro outcome tree' _ houtcome
    obtain ⟨rfl, hstored', rfl, htouches⟩ := houtcome
    rw [relinked_single hle]
    exact ⟨root?_grow, hstored', by simp, htouches⟩
  · simp only [root?_join, edits_bind, edits_get, edits_liftM, htilt rfl, height_join]
    refine ⟨_, rfl, ?_⟩
    rw [if_pos (by omega), repair_double hhigh]
    refine edits_mono (edits_repair_double hstored hnodup) ?_
    intro outcome tree' _ houtcome
    obtain ⟨rfl, hstored', rfl, htouches⟩ := houtcome
    refine ⟨root?_grow, hstored', by simp, htouches.mono fun slot hmem => ?_⟩
    rw [List.mem_cons, mem_relinked_double hhigh]
    simpa using hmem

/-- Rebalancing a node whose subtrees are sound brings the shape into that of
`Shape.rebalance`. -/
theorem edits_rebalance {l r : Shape K V} {cell : Cell K V} {h : Int}
    (hstored : (node l cell h r).Stored tree.pool parent)
    (hnodup : (node l cell h r).slots.Nodup) (hl : l.Sound) (hr : r.Sound)
    (hlr : l.height - r.height ≤ 2) (hrl : r.height - l.height ≤ 2) :
    Edits (Avl.rebalance cell.slot) tree journal fun slot tree' after =>
      (Shape.rebalance l cell r).1.root? = some slot ∧
        (Shape.rebalance l cell r).1.Stored tree'.pool parent ∧
        after = journal.noted (Shape.rebalance l cell r).2 ∧
        Touches (reached l cell r) tree tree' := by
  have hslots : ∀ slot ∈ [cell.slot], slot ∈ reached l cell r := by simp [reached]
  unfold Avl.rebalance
  refine edits_bind_of
    (@edits_updateHeight K V tree journal .left l r cell h parent hstored hnodup) ?_
  intro outcome tree₁ _ houtcome
  obtain ⟨rfl, hstored₁, htouches₁⟩ := houtcome
  simp only [edits_bind, edits_get, edits_liftM, tilt_stored hstored₁]
  refine ⟨_, rfl, ?_⟩
  have hnodup₁ : ∀ k, (node l cell k r).slots.Nodup := fun _ => by simpa using hnodup
  unfold Shape.rebalance
  by_cases hleft : 1 < l.height - r.height
  · rw [if_pos hleft, if_pos hleft]
    refine edits_mono (edits_repair hstored₁ (hnodup₁ _) hl hr (by omega)) ?_
    intro slot tree₂ _ hslot
    obtain ⟨hroot, hstored₂, rfl, htouches₂⟩ := hslot
    refine ⟨hroot, hstored₂, rfl, (htouches₁.mono hslots).trans ?_⟩
    rwa [reached, if_pos hleft]
  · rw [if_neg hleft, if_neg hleft]
    by_cases hlight : l.height - r.height < -1
    · rw [if_pos hlight, if_pos hlight]
      have hright : Shape.grow .left l cell r =
          join .right r cell (1 + max l.height r.height) l := rfl
      rw [hright] at hstored₁
      refine edits_mono (edits_repair hstored₁ (hnodup₁ _) hr hl (by omega)) ?_
      intro slot tree₂ _ hslot
      obtain ⟨hroot, hstored₂, rfl, htouches₂⟩ := hslot
      refine ⟨hroot, hstored₂, rfl, (htouches₁.mono hslots).trans ?_⟩
      rwa [reached, if_neg hleft, if_pos hlight]
    · rw [if_neg hlight, if_neg hlight, edits_pure, Journal.noted_nil]
      exact ⟨@root?_grow K V .left l r cell, hstored₁, rfl, htouches₁.mono hslots⟩

/-- Rebalancing a node, in any pool and whatever height is stored in the node, if its links lead to
a proper tree and its two subtrees are sound and differ in height by at most two. The answer is the
topmost node of a sound tree of the same nodes in the same order, which has the parent that the node
had. The tree is one level higher than the higher subtree, or just as high if one of them was two
levels higher. Nothing is changed but the node, its child on the higher side, the inner child of
that and the topmost nodes of the subtrees that are hung elsewhere. -/
theorem rebalance_restores (tree : Tree K V) (journal : Journal K V) (parent : Option Slot)
    (l r : Shape K V) (x : Cell K V) (height : Int)
    (hstored : (node l x height r).Stored tree.pool parent)
    (hnodup : (node l x height r).slots.Nodup) (hl : l.Sound) (hr : r.Sound)
    (hlr : l.height - r.height ≤ 2) (hrl : r.height - l.height ≤ 2) :
    ∃ (t : Shape K V) (slot : Slot) (tree' : Tree K V) (after : Journal K V),
      Avl.rebalance x.slot tree journal = .ok ((slot, tree'), after) ∧
      t.root? = some slot ∧ t.Stored tree'.pool parent ∧ t.Sound ∧
      t.cells = (node l x height r).cells ∧
      (t.height = max l.height r.height + 1 ∨ t.height = max l.height r.height ∧
        (l.height = r.height + 2 ∨ r.height = l.height + 2)) ∧
      Touches (reached l x r) tree tree' := by
  have hends : Edits (Avl.rebalance x.slot) tree journal _ :=
    edits_rebalance hstored hnodup hl hr hlr hrl
  obtain ⟨⟨slot, tree'⟩, after, hrun, hroot, hstored', -, htouches⟩ := hends.eq_ok
  obtain ⟨hsound, hle, hge, heq⟩ := sound_rebalance x hl hr hlr hrl
  refine ⟨_, slot, tree', after, hrun, hroot, hstored', hsound, cells_rebalance l r x, ?_,
    htouches⟩
  by_cases hbalanced : l.height - r.height ≤ 1 ∧ r.height - l.height ≤ 1
  · exact .inl (heq hbalanced.1 hbalanced.2)
  · omega

/-- A node that is too high on the left, where the child is higher on its inner side. -/
def zigzag : Shape Nat Nat :=
  node (node (node nil ⟨4, 10, 0, 1⟩ 0 nil) ⟨1, 20, 0, 1⟩ 2
      (node (node nil ⟨5, 25, 0, 1⟩ 0 nil) ⟨2, 30, 0, 1⟩ 1 (node nil ⟨6, 40, 0, 1⟩ 0 nil)))
    ⟨3, 50, 0, 1⟩ 0 (node nil ⟨0, 60, 0, 1⟩ 0 nil)

/-- A pool with that node under another one. -/
def zigzagTree : Tree Nat Nat where
  pool.slots := #[some ⟨60, 0, 0, none, none, some 3, 1⟩,
    some ⟨20, 0, 2, some 4, some 2, some 3, 1⟩, some ⟨30, 0, 1, some 5, some 6, some 1, 1⟩,
    some ⟨50, 0, 0, some 1, some 0, some 7, 1⟩, some ⟨10, 0, 0, none, none, some 1, 1⟩,
    some ⟨25, 0, 0, none, none, some 2, 1⟩, some ⟨40, 0, 0, none, none, some 2, 1⟩,
    some ⟨70, 0, 3, some 3, none, none, 1⟩]
  root := some 7
  size := 8

/-- The node between the two comes up, and the outer subtree stays as it is. -/
theorem rebalance_restores_zigzag : zigzag.Stored zigzagTree.pool (some 7) ∧
    ∃ (t : Shape Nat Nat) (tree' : Tree Nat Nat) (after : Journal Nat Nat),
      Avl.rebalance 3 zigzagTree {} = .ok ((2, tree'), after) ∧
      t.root? = some 2 ∧ t.Stored tree'.pool (some 7) ∧ t.Sound ∧ t.slots = zigzag.slots ∧
      tree'.pool.get? 4 = zigzagTree.pool.get? 4 := by
  have hstored : zigzag.Stored zigzagTree.pool (some 7) :=
    ⟨rfl, ⟨rfl, ⟨rfl, trivial, trivial⟩, rfl, ⟨rfl, trivial, trivial⟩, rfl, trivial, trivial⟩, rfl,
      trivial, trivial⟩
  have hslot : (Avl.rebalance 3 zigzagTree {}).toOption.map (·.1.1) = some 2 := by
    decide +kernel
  refine ⟨hstored, ?_⟩
  obtain ⟨t, slot, tree', after, hrun, hroot, hstored', hsound, hcells, -, htouches⟩ :=
    rebalance_restores zigzagTree {} (some 7) _ _ _ 0 hstored (by decide) (by simp [Sound])
      (by simp [Sound]) (by decide) (by decide)
  rw [hrun] at hslot
  obtain rfl : slot = 2 := Option.some.inj hslot
  exact ⟨t, tree', after, hrun, hroot, hstored', hsound, congrArg (List.map Cell.slot) hcells,
    htouches.get?_eq 4 (by decide)⟩

end OrderedMaps.Avl
