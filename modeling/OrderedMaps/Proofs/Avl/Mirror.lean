import OrderedMaps.Proofs.Avl.Walk

/-!
# Mirror images

Under the order the other way round, an insertion does to the mirror image of a tree what it does
to the tree under the order itself: left and right change places, and so do they in the journal, but
no slot, height or stamp is another. This holds of whatever the code does with links and heights,
whether or not the tree is in good order. It does not hold of removals, which always look to the
right for a successor.

* `Avl.Tree.mirror`, `Journal.mirror`: mirror images.
* `Reflects`, `Avl.Mirrors`: one computation does on the mirror image what another one does.
* `Avl.mirrors_bind`, `Avl.mirrors_setChild`, …: the elementary steps.
* `Avl.mirrors_rebalance`, `Avl.mirrors_insert`, `Avl.mirrors_findSlot`: what calls are made of.
* `Avl.Shape.mirror`: the shape that the mirror image of a tree spells out, with
  `Avl.Spells.mirror`.
-/

namespace OrderedMaps

variable {K V α β γ : Type}

/-! ## Mirror images -/

/-- Exchanging two keys reverses the answer, whichever comparison it is. -/
def Comparator.IsOriented (c : Comparator K) : Prop :=
  ∀ n a b, c.answer n b a = (c.answer n a b).swap

theorem Comparator.isOriented_ofFn (cmp : K → K → Ordering) [Std.OrientedCmp cmp] :
    (ofFn cmp).IsOriented := fun _ a b => @Std.OrientedCmp.eq_swap K cmp _ b a

/-- What is noted on the other side. -/
def Event.mirror : Event → Event
  | unbalanced node heavy => unbalanced node heavy.flip
  | rotated toward node pivot => rotated toward.flip node pivot
  | event => event

/-- The journal with left and right exchanged in binary trees. -/
def Journal.mirror (journal : Journal K V) : Journal K V :=
  ⟨journal.calls, journal.events.map Event.mirror, journal.shown⟩

namespace SlotPool

variable {pool : SlotPool α} {slot : Slot}

/-- The pool with every element changed. -/
def map (f : α → β) (pool : SlotPool α) : SlotPool β := ⟨pool.slots.map (Option.map f), pool.free⟩

@[simp] theorem get?_map (f : α → β) : (pool.map f).get? slot = (pool.get? slot).map f := by
  simp only [map, get?, Array.getElem?_map]
  cases pool.slots[slot]? with
  | none => rfl
  | some content => rfl

theorem read_map (f : α → β) : (pool.map f).read slot = (pool.read slot).map f := by
  unfold read
  rw [get?_map]
  cases pool.get? slot with
  | none => rfl
  | some a => rfl

/-- A change that has a counterpart after another change of every element. -/
theorem write_map {f : α → β} {g : α → α} {g' : β → β} (h : ∀ a, g' (f a) = f (g a)) :
    (pool.map f).write slot g' = (pool.write slot g).map (map f) := by
  unfold write
  rw [get?_map]
  cases pool.get? slot with
  | none => rfl
  | some a => simp [map, h, Except.map]

theorem allocate_map (f : α → β) (a : α) :
    (pool.map f).allocate (f a) = ((pool.allocate a).1, (pool.allocate a).2.map f) := by
  unfold allocate map
  cases pool.free with
  | nil => simp
  | cons slot free => simp

theorem Occupied.map {slots : List Slot} (h : pool.Occupied slots) (f : α → β) :
    (pool.map f).Occupied slots where
  nodup := h.nodup
  mem_iff slot := by
    rw [get?_map, Option.isSome_map]
    exact h.mem_iff slot
  free_nodup := h.free_nodup
  free_iff slot := by
    have hsize : (pool.map f).slots.size = pool.slots.size := Array.size_map
    rw [get?_map, Option.map_eq_none_iff, hsize]
    exact h.free_iff slot

end SlotPool

namespace Avl

/-- The node with its children exchanged. -/
def Node.mirror (node : Node K V) : Node K V := { node with left := node.right, right := node.left }

/-- The tree with the children of every node exchanged. Every node stays in its slot. -/
def Tree.mirror (tree : Tree K V) : Tree K V := { tree with pool := tree.pool.map Node.mirror }

@[simp] theorem Node.child_mirror (node : Node K V) (side : Side) :
    node.mirror.child side.flip = node.child side := by
  cases side <;> rfl

theorem Node.withChild_mirror (node : Node K V) (side : Side) (child : Option Slot) :
    node.mirror.withChild side.flip child = (node.withChild side child).mirror := by
  cases side <;> rfl

namespace Tree

variable (tree : Tree K V)

theorem node_mirror (slot : Slot) : tree.mirror.node slot = (tree.node slot).map Node.mirror :=
  SlotPool.read_map Node.mirror

theorem node_mirror_of_eq_ok {tree : Tree K V} {slot : Slot} {node : Node K V}
    (h : tree.node slot = .ok node) : tree.mirror.node slot = .ok node.mirror := by
  rw [node_mirror, h]
  rfl

theorem node_mirror_bind (slot : Slot) (f : Node K V → Except Fault α) :
    tree.mirror.node slot >>= f = tree.node slot >>= fun node => f node.mirror := by
  rw [node_mirror]
  cases tree.node slot with
  | error fault => rfl
  | ok node => rfl

@[simp] theorem entry_mirror (slot : Slot) : tree.mirror.entry slot = tree.entry slot :=
  tree.node_mirror_bind slot _

@[simp] theorem pathBound_mirror : tree.mirror.pathBound = tree.pathBound :=
  Array.size_map

@[simp] theorem heightAt_mirror (link : Option Slot) :
    tree.mirror.heightAt link = tree.heightAt link := by
  cases link with
  | none => rfl
  | some slot => exact tree.node_mirror_bind slot _

theorem tilt_mirror (side : Side) (slot : Slot) :
    tree.mirror.tilt side.flip slot = tree.tilt side slot := by
  unfold tilt
  rw [node_mirror_bind]
  simp only [Node.child_mirror, heightAt_mirror]

/-- Seen from the other side, the difference of the heights is the opposite number. -/
theorem tilt_flip {tree : Tree K V} {side : Side} {slot : Slot} {n : Int}
    (h : tree.tilt side slot = .ok n) : tree.tilt side.flip slot = .ok (-n) := by
  simp only [tilt, bind_eq_ok_iff] at h ⊢
  obtain ⟨node, hnode, near, hnear, far, hfar, hn⟩ := h
  obtain rfl : near - far = n := Except.ok.inj hn
  refine ⟨node, hnode, far, hfar, near, ?_, congrArg Except.ok (by omega)⟩
  rw [Side.flip_flip, hnear]

end Tree

end Avl

/-! ## Runs on mirror images -/

/-- Wherever the first run ends with a result of the given kind, the second one, begun with the
mirror image of the journal, ends with the image of the result and of the journal. -/
def Reflects (kind : α → Prop) (f : α → β) (run : Run K V α) (run' : Run K V β) : Prop :=
  ∀ journal a after, run journal = .ok (a, after) → kind a →
    run' journal.mirror = .ok (f a, after.mirror)

section Reflects

variable {kind : α → Prop} {f : α → β} {run : Run K V α} {run' : Run K V β}

theorem reflects_mono {kind' : α → Prop} (h : Reflects kind f run run')
    (hkind : ∀ a, kind' a → kind a) : Reflects kind' f run run' :=
  fun journal a after hrun ha => h journal a after hrun (hkind a ha)

theorem reflects_pure (a : α) : Reflects kind f (pure a : Run K V α) (pure (f a)) := by
  rintro journal a after ⟨⟩ -
  rfl

theorem reflects_throw (fault : Fault) : Reflects kind f (throw fault) run' := by
  rintro journal a after ⟨⟩

theorem reflects_bind {δ : Type} {kind : γ → Prop} {g : γ → δ} {next : α → Run K V γ}
    {next' : β → Run K V δ} (h : Reflects (fun _ => True) f run run')
    (hnext : ∀ a, Reflects kind g (next a) (next' (f a))) :
    Reflects kind g (run >>= next) (run' >>= next') := by
  intro journal c last hrun hkind
  obtain ⟨⟨a, after⟩, hfirst, hlast⟩ := bind_eq_ok_iff.mp hrun
  exact bind_eq_ok_iff.mpr
    ⟨(f a, after.mirror), h journal a after hfirst trivial, hnext a after c last hlast hkind⟩

/-- A run whose result is handed on in another form. -/
theorem reflects_bind_pure {δ : Type} {kind : γ → Prop} {g : γ → δ} {p : α → γ} {p' : β → δ}
    (h : Reflects (fun a => kind (p a)) f run run') (hp : ∀ a, p' (f a) = g (p a)) :
    Reflects kind g (run >>= fun a => pure (p a)) (run' >>= fun b => pure (p' b)) := by
  intro journal c last hrun hkind
  obtain ⟨⟨a, after⟩, hfirst, hlast⟩ := bind_eq_ok_iff.mp hrun
  cases hlast
  rw [← hp]
  exact bind_eq_ok_iff.mpr ⟨(f a, last.mirror), h journal a last hfirst hkind, rfl⟩

theorem reflects_liftM {x : Except Fault α} {x' : Except Fault β}
    (h : ∀ a, x = .ok a → kind a → x' = .ok (f a)) :
    Reflects kind f (liftM x : Run K V α) (liftM x') := by
  intro journal a after hrun hkind
  cases x with
  | error fault => cases hrun
  | ok first =>
    cases hrun
    rw [h a rfl hkind]
    rfl

/-- A comparison. It is the same question that is put to the order the other way round. -/
theorem reflects_ask {c : Comparator K} {kind : Ordering → Prop} (hc : c.IsOriented) (a b : K) :
    Reflects kind Ordering.swap (c.ask a b : Run K V Ordering) (c.reverse.ask a b) := by
  rintro journal order after ⟨⟩ -
  exact congrArg (fun order => Except.ok (order, (journal.asked a b).mirror)) (hc ..)

theorem reflects_record {kind : Unit → Prop} (event : Event) :
    Reflects kind id (record event : Run K V Unit) (record event.mirror) := by
  rintro journal ⟨⟩ after ⟨⟩ -
  simp [record, Journal.mirror]

theorem reflects_recordShown {kind : Unit → Prop} (value : V) :
    Reflects kind id (recordShown value : Run K V Unit) (recordShown value) := by
  rintro journal ⟨⟩ after ⟨⟩ -
  rfl

end Reflects

namespace Avl

/-! ## Edits of mirror images -/

/-- Wherever the first edit ends with an answer of the given kind, the second one, begun with the
mirror images of tree and journal, ends with the same answer, and with the mirror images. -/
def Mirrors (kind : α → Prop) (edit edit' : Edit K V α) : Prop :=
  ∀ tree, Reflects (fun outcome => kind outcome.1) (Prod.map id Tree.mirror) (edit tree)
    (edit' tree.mirror)

variable {kind : α → Prop} {kind' : β → Prop} {edit edit' : Edit K V α}
  {next next' : α → Edit K V β}

theorem mirrors_pure (a : α) : Mirrors kind (pure a : Edit K V α) (pure a) := by
  rintro tree journal _ _ ⟨⟩ -
  rfl

theorem mirrors_throw (fault : Fault) : Mirrors kind (throw fault) edit' :=
  fun _ => reflects_throw fault

theorem mirrors_bind (h : Mirrors (fun _ => True) edit edit')
    (hnext : ∀ a, Mirrors kind' (next a) (next' a)) :
    Mirrors kind' (edit >>= next) (edit' >>= next') := by
  intro tree
  change Reflects _ _ (edit tree >>= fun outcome => next outcome.1 outcome.2)
    (edit' tree.mirror >>= fun outcome => next' outcome.1 outcome.2)
  exact reflects_bind (h tree) fun outcome => hnext outcome.1 outcome.2

/-- An edit that ends with another answer. -/
theorem mirrors_bind_pure_of_not {a : β} (h : ¬ kind' a) {other : Edit K V β} :
    Mirrors kind' (edit >>= fun _ => pure a) other := by
  intro tree journal outcome after hrun hkind
  obtain ⟨first, -, hlast⟩ := bind_eq_ok_iff.mp hrun
  cases hlast
  exact absurd hkind h

theorem mirrors_ite {p : Prop} [Decidable p] {other other' : Edit K V α}
    (h : Mirrors kind edit edit') (h' : Mirrors kind other other') :
    Mirrors kind (if p then edit else other) (if p then edit' else other') := by
  split
  · exact h
  · exact h'

theorem mirrors_get_bind {next next' : Tree K V → Edit K V β}
    (hnext : ∀ tree, Mirrors kind' (next tree) (next' tree.mirror)) :
    Mirrors kind' (get >>= next) (get >>= next') :=
  fun tree => hnext tree tree

theorem mirrors_modify {g g' : Tree K V → Tree K V} {kind : PUnit → Prop}
    (h : ∀ tree, g' tree.mirror = (g tree).mirror) :
    Mirrors kind (modify g : Edit K V PUnit) (modify g') := by
  rintro tree journal _ _ ⟨⟩ -
  exact congrArg (fun tree => Except.ok (((), tree), journal.mirror)) (h tree)

/-- A run leaves the tree alone. -/
theorem mirrors_run_bind {run : Run K V α} {run' : Run K V γ} {f : α → γ}
    {next' : γ → Edit K V β} (h : Reflects (fun _ => True) f run run')
    (hnext : ∀ a, Mirrors kind' (next a) (next' (f a))) :
    Mirrors kind' (liftM run >>= next) (liftM run' >>= next') := by
  intro tree
  change Reflects _ _
    ((run >>= fun a => pure (a, tree)) >>= fun outcome => next outcome.1 outcome.2)
    ((run' >>= fun b => pure (b, tree.mirror)) >>= fun outcome => next' outcome.1 outcome.2)
  rw [bind_assoc, bind_assoc]
  exact reflects_bind h fun a => hnext a tree

theorem mirrors_run {run run' : Run K V α} (h : Reflects (fun _ => True) id run run') :
    Mirrors kind (liftM run : Edit K V α) (liftM run') := by
  rw [← bind_pure (liftM run : Edit K V α), ← bind_pure (liftM run' : Edit K V α)]
  exact mirrors_run_bind h mirrors_pure

theorem mirrors_liftM_bind {x : Except Fault α} {x' : Except Fault γ} {f : α → γ}
    {next' : γ → Edit K V β} (h : ∀ a, x = .ok a → x' = .ok (f a))
    (hnext : ∀ a, Mirrors kind' (next a) (next' (f a))) :
    Mirrors kind' (liftM x >>= next) (liftM x' >>= next') :=
  mirrors_run_bind (reflects_liftM fun a hx _ => h a hx) hnext

theorem mirrors_liftM (x : Except Fault α) :
    Mirrors kind (liftM x : Edit K V α) (liftM x) := by
  rw [← bind_pure (liftM x : Edit K V α)]
  exact mirrors_liftM_bind (f := fun a => a) (fun _ h => h) mirrors_pure

/-- Two checked steps of which the second one does not depend on the first, in either order. -/
theorem mirrors_liftM_swap {x y : Except Fault α} {next next' : α → α → Edit K V β}
    (hnext : ∀ a b, Mirrors kind' (next a b) (next' b a)) :
    Mirrors kind' (liftM x >>= fun a => liftM y >>= fun b => next a b)
      (liftM y >>= fun b => liftM x >>= fun a => next' b a) := by
  cases x with
  | error fault => exact mirrors_throw fault
  | ok a =>
    cases y with
    | error fault => exact mirrors_throw fault
    | ok b => exact hnext a b

theorem mirrors_note {kind : Unit → Prop} (event : Event) :
    Mirrors kind (note event : Edit K V Unit) (note event.mirror) :=
  mirrors_run (reflects_record event)

theorem mirrors_noteShown {kind : Unit → Prop} (value : V) :
    Mirrors kind (noteShown value : Edit K V Unit) (noteShown value) :=
  mirrors_run (reflects_recordShown value)

theorem mirrors_ask_bind {c : Comparator K} (hc : c.IsOriented) {a b : K}
    {next next' : Ordering → Edit K V β}
    (hnext : ∀ order, Mirrors kind' (next order) (next' order.swap)) :
    Mirrors kind' (ask c a b >>= next) (ask c.reverse a b >>= next') :=
  mirrors_run_bind (reflects_ask hc a b) hnext

theorem mirrors_readNode_bind {slot : Slot} {next next' : Node K V → Edit K V β}
    (hnext : ∀ node, Mirrors kind' (next node) (next' node.mirror)) :
    Mirrors kind' (readNode slot >>= next) (readNode slot >>= next') := by
  unfold readNode
  rw [bind_assoc, bind_assoc]
  refine mirrors_get_bind fun tree => mirrors_liftM_bind (f := Node.mirror) ?_ hnext
  exact fun _ => Tree.node_mirror_of_eq_ok

theorem mirrors_writeNode {kind : Unit → Prop} {slot : Slot} {g g' : Node K V → Node K V}
    (h : ∀ node, g' node.mirror = (g node).mirror) :
    Mirrors kind (writeNode slot g : Edit K V Unit) (writeNode slot g') := by
  intro tree
  change Reflects _ _ (liftM (tree.pool.write slot g) >>= fun pool => pure ((), { tree with pool }))
    (liftM (tree.mirror.pool.write slot g') >>= fun pool =>
      pure ((), { tree.mirror with pool }))
  refine reflects_bind (f := SlotPool.map Node.mirror) (reflects_liftM ?_) fun pool => ?_
  · intro pool hpool _
    change (tree.pool.map Node.mirror).write slot g' = _
    rw [SlotPool.write_map h, hpool]
    rfl
  · exact reflects_pure _

theorem mirrors_addNode {kind : Slot → Prop} (node : Node K V) :
    Mirrors kind (addNode node : Edit K V Slot) (addNode node.mirror) := by
  intro tree
  have hadd : ∀ (tree : Tree K V) (node : Node K V), addNode node tree =
      (pure ((tree.pool.allocate node).1, ⟨(tree.pool.allocate node).2, tree.root, tree.size + 1⟩) :
        Run K V (Slot × Tree K V)) := fun _ _ => rfl
  rw [hadd, hadd, Tree.mirror, SlotPool.allocate_map]
  exact reflects_pure _

/-! ## Links and heights -/

theorem mirrors_setChild {kind : Unit → Prop} (side : Side) (slot : Slot) (child : Option Slot) :
    Mirrors kind (setChild side slot child : Edit K V Unit) (setChild side.flip slot child) := by
  unfold setChild
  refine mirrors_bind (mirrors_writeNode fun node => node.withChild_mirror side child) fun _ => ?_
  cases child with
  | none => exact mirrors_pure ()
  | some child => exact mirrors_writeNode fun _ => rfl

theorem mirrors_adoptRoot {kind : Unit → Prop} (root : Option Slot) :
    Mirrors kind (adoptRoot root : Edit K V Unit) (adoptRoot root) := by
  unfold adoptRoot
  refine mirrors_bind (mirrors_modify fun _ => rfl) fun _ => ?_
  cases root with
  | none => exact mirrors_pure ()
  | some root => exact mirrors_writeNode fun _ => rfl

/-- The height of a node is that over the higher child, whichever child is read first. -/
theorem mirrors_updateHeight {kind : Unit → Prop} (slot : Slot) :
    Mirrors kind (updateHeight slot : Edit K V Unit) (updateHeight slot) := by
  unfold updateHeight
  refine mirrors_get_bind fun tree => mirrors_liftM_bind (f := Node.mirror) ?_ fun node => ?_
  · exact fun _ => Tree.node_mirror_of_eq_ok
  · rw [Tree.heightAt_mirror, Tree.heightAt_mirror]
    refine mirrors_liftM_swap fun left right => mirrors_writeNode fun node => ?_
    rw [Int.max_comm]
    rfl

/-! ## Balance -/

theorem mirrors_rotate {kind : Slot → Prop} (toward : Side) (slot : Slot) :
    Mirrors kind (rotate toward slot : Edit K V Slot) (rotate toward.flip slot) := by
  unfold rotate
  refine mirrors_readNode_bind fun node => ?_
  rw [Node.child_mirror]
  cases node.child toward.flip with
  | none => exact mirrors_throw _
  | some pivot =>
    refine mirrors_bind (mirrors_note _) fun _ => mirrors_readNode_bind fun below => ?_
    rw [Node.child_mirror]
    refine mirrors_bind (mirrors_setChild _ _ _) fun _ => ?_
    refine mirrors_bind (mirrors_setChild _ _ _) fun _ => ?_
    refine mirrors_bind (mirrors_writeNode fun _ => rfl) fun _ => ?_
    refine mirrors_bind (mirrors_updateHeight slot) fun _ => ?_
    exact mirrors_bind (mirrors_updateHeight pivot) fun _ => mirrors_pure pivot

theorem mirrors_repair {kind : Slot → Prop} (heavy : Side) (slot : Slot) :
    Mirrors kind (repair heavy slot : Edit K V Slot) (repair heavy.flip slot) := by
  unfold repair
  refine mirrors_bind (mirrors_note _) fun _ => mirrors_readNode_bind fun node => ?_
  rw [Node.child_mirror]
  cases node.child heavy with
  | none => exact mirrors_throw _
  | some child =>
    refine mirrors_get_bind fun tree => ?_
    rw [Tree.tilt_mirror]
    refine mirrors_liftM_bind (f := fun tilt => tilt) (fun _ h => h) fun tilt => mirrors_ite ?_ ?_
    · refine mirrors_bind (mirrors_rotate heavy child) fun child => ?_
      exact mirrors_bind (mirrors_setChild _ _ _) fun _ => mirrors_rotate heavy.flip slot
    · exact mirrors_rotate heavy.flip slot

/-- A node that is too high on one side is too high on the other one in the mirror image. -/
theorem mirrors_rebalance {kind : Slot → Prop} (slot : Slot) :
    Mirrors kind (rebalance slot : Edit K V Slot) (rebalance slot) := by
  unfold rebalance
  refine mirrors_bind (mirrors_updateHeight slot) fun _ => mirrors_get_bind fun tree => ?_
  refine mirrors_liftM_bind (f := fun tilt => -tilt) ?_ fun tilt => ?_
  · intro tilt htilt
    have hright : tree.mirror.tilt .left slot = tree.tilt .right slot :=
      tree.tilt_mirror .right slot
    rw [hright]
    exact Tree.tilt_flip htilt
  · by_cases hleft : 1 < tilt
    · rw [if_pos hleft, if_neg (by omega), if_pos (by omega)]
      exact mirrors_repair .left slot
    · by_cases hright : tilt < -1
      · rw [if_neg hleft, if_pos hright, if_pos (by omega)]
        exact mirrors_repair .right slot
      · rw [if_neg hleft, if_neg hright, if_neg (by omega), if_neg (by omega)]
        exact mirrors_pure slot

/-! ## Insertions and look-ups -/

section Ordered

variable {c : Comparator K}

/-- Insertion into a subtree, by induction on the number of steps left. -/
theorem mirrors_insertAt {kind : Slot × Option V → Prop} (hc : c.IsOriented) (key : K) (value : V)
    (stamp steps : Nat) (link parent : Option Slot) :
    Mirrors kind (insertAt c key value stamp steps link parent)
      (insertAt c.reverse key value stamp steps link parent) := by
  induction steps generalizing kind link parent with
  | zero =>
    cases link with
    | none => exact mirrors_bind (mirrors_addNode _) fun slot => mirrors_pure _
    | some slot => exact mirrors_throw _
  | succ steps ih =>
    cases link with
    | none => exact mirrors_bind (mirrors_addNode _) fun slot => mirrors_pure _
    | some slot =>
      rw [insertAt, insertAt]
      refine mirrors_readNode_bind fun node => mirrors_ask_bind hc fun order => ?_
      rw [Side.ofOrdering?_swap]
      cases Side.ofOrdering? order with
      | none => exact mirrors_bind (mirrors_writeNode fun _ => rfl) fun _ => mirrors_pure _
      | some side =>
        rw [Option.map_some]
        dsimp only
        rw [Node.child_mirror]
        refine mirrors_bind (ih _ _) fun outcome => ?_
        refine mirrors_bind (mirrors_setChild side slot (some outcome.1)) fun _ => ?_
        exact mirrors_ite (mirrors_pure _)
          (mirrors_bind (mirrors_rebalance slot) fun _ => mirrors_pure _)

theorem mirrors_insert {kind : Option V → Prop} (hc : c.IsOriented) (key : K) (value : V)
    (stamp : Nat) :
    Mirrors kind (insert c key value stamp) (insert c.reverse key value stamp) := by
  unfold insert
  refine mirrors_get_bind fun tree => ?_
  rw [Tree.pathBound_mirror]
  refine mirrors_bind (mirrors_insertAt hc key value stamp _ _ _) fun outcome => ?_
  exact mirrors_bind (mirrors_adoptRoot _) fun _ => mirrors_pure _

/-- A look-up, by induction on the number of steps left. -/
theorem reflects_findFrom {kind : Option Slot → Prop} (hc : c.IsOriented) (tree : Tree K V)
    (key : K) (steps : Nat) (link : Option Slot) :
    Reflects kind id (tree.findFrom c key steps link)
      (tree.mirror.findFrom c.reverse key steps link) := by
  induction steps generalizing link with
  | zero =>
    cases link with
    | none => exact reflects_pure _
    | some slot => exact reflects_throw _
  | succ steps ih =>
    cases link with
    | none => exact reflects_pure _
    | some slot =>
      rw [Tree.findFrom, Tree.findFrom]
      refine reflects_bind (f := Node.mirror) (reflects_liftM ?_) fun node => ?_
      · exact fun _ hnode _ => Tree.node_mirror_of_eq_ok hnode
      · refine reflects_bind (reflects_ask hc _ _) fun order => ?_
        rw [Side.ofOrdering?_swap]
        cases Side.ofOrdering? order with
        | none => exact reflects_pure _
        | some side =>
          rw [Option.map_some]
          dsimp only
          rw [Node.child_mirror]
          exact ih _

theorem mirrors_findSlot {kind : Option Slot → Prop} (hc : c.IsOriented) (key : K) :
    Mirrors kind (findSlot c key : Edit K V (Option Slot)) (findSlot c.reverse key) := by
  unfold findSlot
  refine mirrors_get_bind fun tree => mirrors_run ?_
  rw [Tree.find?, Tree.find?, Tree.pathBound_mirror]
  exact reflects_findFrom hc tree key _ _

end Ordered

/-! ## Outermost nodes -/

/-- What is outermost on one side is so on the other side in the mirror image. -/
theorem Tree.descend_mirror (tree : Tree K V) (side : Side) (steps : Nat) (slot : Slot) :
    tree.mirror.descend side.flip steps slot = tree.descend side steps slot := by
  induction steps generalizing slot with
  | zero => rfl
  | succ steps ih =>
    rw [descend, descend, node_mirror_bind]
    refine congrArg (tree.node slot >>= ·) (funext fun node => ?_)
    rw [Node.child_mirror]
    cases node.child side with
    | none => rfl
    | some child => exact ih child

theorem Tree.outermost?_mirror (tree : Tree K V) (side : Side) :
    tree.mirror.outermost? side.flip = tree.outermost? side := by
  have hroot : tree.mirror.root = tree.root := rfl
  unfold outermost? outermost
  rw [hroot, pathBound_mirror]
  simp only [descend_mirror]

/-! ## Shapes -/

namespace Shape

/-- The shape with left and right exchanged. -/
def mirror : Shape K V → Shape K V
  | nil => nil
  | node l x height r => node r.mirror x height l.mirror

variable {t : Shape K V}

@[simp] theorem root?_mirror (t : Shape K V) : t.mirror.root? = t.root? := by
  cases t with
  | nil => rfl
  | node l x height r => rfl

@[simp] theorem height_mirror (t : Shape K V) : t.mirror.height = t.height := by
  cases t with
  | nil => rfl
  | node l x height r => rfl

@[simp] theorem cells_mirror (t : Shape K V) : t.mirror.cells = t.cells.reverse := by
  induction t with
  | nil => rfl
  | node l x height r ihl ihr => simp [mirror, cells, ihl, ihr]

@[simp] theorem slots_mirror (t : Shape K V) : t.mirror.slots = t.slots.reverse := by
  rw [slots, cells_mirror, List.map_reverse, slots]

@[simp] theorem toList_mirror (t : Shape K V) : t.mirror.toList = t.toList.reverse := by
  rw [toList, cells_mirror, List.map_reverse, toList]

theorem Sound.mirror (h : t.Sound) : t.mirror.Sound := by
  induction t with
  | nil => trivial
  | node l x height r ihl ihr =>
    obtain ⟨hheight, hdiff, hdiff', hl, hr⟩ := h
    refine ⟨?_, ?_, ?_, ihr hr, ihl hl⟩
    · rw [height_mirror, height_mirror, Int.max_comm, hheight]
    · rwa [height_mirror, height_mirror]
    · rwa [height_mirror, height_mirror]

theorem Stored.mirror {pool : SlotPool (Node K V)} {parent : Option Slot}
    (h : t.Stored pool parent) : t.mirror.Stored (pool.map Node.mirror) parent := by
  induction t generalizing parent with
  | nil => trivial
  | node l x height r ihl ihr =>
    obtain ⟨hnode, hl, hr⟩ := h
    refine ⟨?_, ihr hr, ihl hl⟩
    rw [SlotPool.get?_map, hnode, root?_mirror, root?_mirror]
    rfl

end Shape

theorem Spells.mirror {tree : Tree K V} {version : Nat} {t : Shape K V}
    (h : Spells tree version t) : Spells tree.mirror version t.mirror where
  root_eq := by
    rw [Shape.root?_mirror]
    exact h.root_eq
  placed := by
    have hperm : (t.slots ++ []).Perm (t.mirror.slots ++ []) := by simp
    have hhouses := h.placed.houses.perm hperm
    exact ⟨h.placed.stored.mirror, hhouses.occupied.map Node.mirror, hhouses.size_eq⟩
  sound := h.sound.mirror
  stamped := by
    intro cell hmem
    rw [Shape.cells_mirror, List.mem_reverse] at hmem
    exact h.stamped cell hmem

end Avl

end OrderedMaps
