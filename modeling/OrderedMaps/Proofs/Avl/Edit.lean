import OrderedMaps.Avl.Lookup
import OrderedMaps.Proofs.Run
import OrderedMaps.Proofs.SlotPool

/-!
# Edits that end without a fault

`Edits edit tree journal Q` says that the edit, begun with the given tree and journal, ends without
a fault, in a result, a tree and a journal that satisfy `Q`.

* `edits_bind`, `edits_mono`: edits one after the other, and weaker postconditions.
* `edits_readNode`, `edits_writeNode`, `edits_note`, `edits_ask`, …: the elementary steps.
-/

namespace OrderedMaps.Avl

variable {K V α β : Type}

/-- The edit ends without a fault, and its result, tree and journal satisfy `Q`. -/
def Edits (edit : Edit K V α) (tree : Tree K V) (journal : Journal K V)
    (Q : α → Tree K V → Journal K V → Prop) : Prop :=
  Ends (edit tree) journal fun outcome after => Q outcome.1 outcome.2 after

variable {edit : Edit K V α} {f : α → Edit K V β} {tree : Tree K V} {journal : Journal K V}
  {Q R : α → Tree K V → Journal K V → Prop} {P : β → Tree K V → Journal K V → Prop}

theorem edits_mono (h : Edits edit tree journal Q)
    (hQR : ∀ a tree' after, Q a tree' after → R a tree' after) : Edits edit tree journal R :=
  ends_mono h fun outcome after hQ => hQR outcome.1 outcome.2 after hQ

@[simp] theorem edits_pure (a : α) :
    Edits (pure a : Edit K V α) tree journal Q ↔ Q a tree journal := Iff.rfl

@[simp] theorem edits_bind :
    Edits (edit >>= f) tree journal P ↔
      Edits edit tree journal fun a tree' after => Edits (f a) tree' after P := by
  have hbind : ((edit >>= f) tree : Run K V (β × Tree K V)) =
      edit tree >>= fun outcome => f outcome.1 outcome.2 := rfl
  unfold Edits
  rw [hbind, ends_bind]

/-- Two edits one after the other, by way of a statement about what lies between them. -/
theorem edits_bind_of (hedit : Edits edit tree journal Q)
    (hf : ∀ a tree' after, Q a tree' after → Edits (f a) tree' after P) :
    Edits (edit >>= f) tree journal P :=
  edits_bind.2 (edits_mono hedit hf)

@[simp] theorem edits_map (g : α → β) :
    Edits (g <$> edit) tree journal P ↔
      Edits edit tree journal fun a tree' after => P (g a) tree' after := by
  rw [← bind_pure_comp]
  exact edits_bind

@[simp] theorem edits_discard {Q : Unit → Tree K V → Journal K V → Prop} :
    Edits (discard edit) tree journal Q ↔
      Edits edit tree journal fun _ tree' after => Q () tree' after := by
  have h : (discard edit : Edit K V Unit) = (fun _ => ()) <$> edit := rfl
  rw [h, edits_map]

/-! ## Elementary steps -/

@[simp] theorem edits_get {Q : Tree K V → Tree K V → Journal K V → Prop} :
    Edits (get : Edit K V (Tree K V)) tree journal Q ↔ Q tree tree journal := Iff.rfl

@[simp] theorem edits_getThe {Q : Tree K V → Tree K V → Journal K V → Prop} :
    Edits (getThe (Tree K V) : Edit K V (Tree K V)) tree journal Q ↔ Q tree tree journal := Iff.rfl

@[simp] theorem edits_modify (g : Tree K V → Tree K V)
    {Q : PUnit → Tree K V → Journal K V → Prop} :
    Edits (modify g : Edit K V PUnit) tree journal Q ↔ Q ⟨⟩ (g tree) journal := Iff.rfl

@[simp] theorem edits_liftM_run (run : Run K V α) :
    Edits (liftM run) tree journal Q ↔ Ends run journal fun a after => Q a tree after := by
  have h : (liftM run : Edit K V α) tree = run >>= fun a => pure (a, tree) := rfl
  unfold Edits
  rw [h]
  simp

@[simp] theorem edits_liftM (x : Except Fault α) :
    Edits (liftM x) tree journal Q ↔ ∃ a, x = .ok a ∧ Q a tree journal := by
  have h : (liftM x : Edit K V α) = liftM (liftM x : Run K V α) := rfl
  rw [h, edits_liftM_run, ends_liftM]

@[simp] theorem edits_note (event : Event) {Q : Unit → Tree K V → Journal K V → Prop} :
    Edits (note event) tree journal Q ↔ Q () tree (journal.noted [event]) := by
  unfold note
  rw [edits_liftM_run, ends_record]

@[simp] theorem edits_ask (c : Comparator K) (a b : K)
    {Q : Ordering → Tree K V → Journal K V → Prop} :
    Edits (ask c a b) tree journal Q ↔
      Q (c.answer journal.calls.size a b) tree (journal.asked a b) := by
  unfold ask
  rw [edits_liftM_run, ends_ask]

@[simp] theorem edits_noteShown (value : V) {Q : Unit → Tree K V → Journal K V → Prop} :
    Edits (noteShown value) tree journal Q ↔ Q () tree (journal.showing [value]) := by
  unfold noteShown
  rw [edits_liftM_run, ends_recordShown]

theorem node_of_get? {slot : Slot} {node : Node K V} (h : tree.pool.get? slot = some node) :
    tree.node slot = .ok node := SlotPool.read_of_get? h

theorem edits_readNode {slot : Slot} {node : Node K V}
    {Q : Node K V → Tree K V → Journal K V → Prop} (h : tree.pool.get? slot = some node) :
    Edits (readNode slot) tree journal Q ↔ Q node tree journal := by
  simp [readNode, node_of_get? h]

theorem edits_writeNode {slot : Slot} {node : Node K V} {g : Node K V → Node K V}
    {Q : Unit → Tree K V → Journal K V → Prop} (h : tree.pool.get? slot = some node) :
    Edits (writeNode slot g) tree journal Q ↔
      Q () { tree with pool := tree.pool.put slot (some (g node)) } journal := by
  have hwrite : (writeNode slot g tree : Run K V (Unit × Tree K V)) = liftM (tree.pool.write slot g)
      >>= fun pool => pure ((), { tree with pool }) := rfl
  unfold Edits
  rw [hwrite, SlotPool.write_of_get? h]
  simp

theorem edits_addNode {slot : Slot} {node : Node K V} {pool : SlotPool (Node K V)}
    {Q : Slot → Tree K V → Journal K V → Prop} (h : tree.pool.allocate node = (slot, pool)) :
    Edits (addNode node) tree journal Q ↔
      Q slot { tree with pool, size := tree.size + 1 } journal := by
  have hadd : (addNode node tree : Run K V (Slot × Tree K V)) =
      pure (slot, { tree with pool, size := tree.size + 1 }) := by
    simp only [addNode, h]
  unfold Edits
  rw [hadd]
  exact Iff.rfl

theorem edits_removeNode {slot : Slot} {node : Node K V} {pool : SlotPool (Node K V)} {size : Nat}
    {Q : Node K V → Tree K V → Journal K V → Prop} (hsize : tree.size = size + 1)
    (h : tree.pool.release slot = .ok (node, pool)) :
    Edits (removeNode slot) tree journal Q ↔ Q node { tree with pool, size } journal := by
  have hremove : (removeNode slot tree : Run K V (Node K V × Tree K V)) =
      liftM (tree.pool.release slot) >>= fun released => pure (released.1,
        { tree with pool := released.2, size }) := by
    obtain ⟨pool, root, count⟩ := tree
    subst hsize
    rfl
  unfold Edits
  rw [hremove, h]
  simp

end OrderedMaps.Avl
