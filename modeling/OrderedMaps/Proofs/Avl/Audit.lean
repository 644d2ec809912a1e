import OrderedMaps.Avl.Audit
import OrderedMaps.Proofs.Avl.Walk

/-!
# Audits of trees in good order

* `Avl.auditNode_stored`: the audit of a sound shape finds nothing wrong.
* `Avl.passes_auditCounts`: nor do the counts and the walk along the successors.
* `Avl.ends_audit`: the audit of a tree that spells out a sound shape never ends in a fault, and
  finds nothing wrong but, at most, two keys out of order.
-/

namespace OrderedMaps.Avl

open Shape

variable {K V : Type} {tree : Tree K V} {version : Nat} {t : Shape K V} {c : Comparator K}
  {journal : Journal K V} {violation : Violation K}

/-! ## Links, balance, heights and stamps -/

theorem auditParent_stored {slot : Slot} {key : K} (hstored : t.Stored tree.pool (some slot)) :
    tree.auditParent slot key t.root? = pure () := by
  cases t with
  | nil => rfl
  | node l x height r =>
    have hnode := node_of_get? hstored.1
    have hlift : tree.auditParent slot key (some x.slot) =
        ((liftM (tree.node x.slot) : ExceptT (Violation K) (Except Fault) (Node K V)) >>=
          fun child => expect (child.parent == some slot)
            (.wrongParent x.slot slot key child.parent)) := rfl
    rw [root?, hlift, hnode]
    have hparent : ((x.node height l.root? r.root? (some slot)).parent == some slot) = true :=
      beq_self_eq_true _
    exact if_pos hparent

/-- A sound shape passes the audit of its nodes. The induction is on the number of steps left. -/
theorem auditNode_stored {steps : Nat} {parent : Option Slot} (hstored : t.Stored tree.pool parent)
    (hsound : t.Sound) (hstamp : t.StampedBy version) (hsteps : t.levels ≤ steps) :
    tree.auditNode version steps t.root? = pure (t.height, t.cells.map Cell.key) := by
  induction steps generalizing t parent with
  | zero =>
    cases t with
    | nil => rfl
    | node l x height r => exact absurd hsteps (Nat.not_succ_le_zero _)
  | succ steps ih =>
    cases t with
    | nil => rfl
    | node l x height r =>
      obtain ⟨hnode, hl, hr⟩ := hstored
      obtain ⟨hheight, hdiff, hdiff', hsoundl, hsoundr⟩ := hsound
      obtain ⟨hstampx, hstampl, hstampr⟩ := stampedBy_node.mp hstamp
      simp only [levels] at hsteps
      have hbalanced : (-1 ≤ l.height - r.height && l.height - r.height ≤ 1 : Bool) = true := by
        simp only [Bool.and_eq_true, decide_eq_true_eq]
        omega
      have hfresh : (height == 1 + max l.height r.height) = true := by simpa using hheight
      have hlift : ∀ f : Node K V → ExceptT (Violation K) (Except Fault) (Int × List K),
          ((liftM (Except.ok (x.node height l.root? r.root? parent) : Except Fault (Node K V)) :
            ExceptT (Violation K) (Except Fault) (Node K V)) >>= f) =
              f (x.node height l.root? r.root? parent) := fun _ => rfl
      rw [root?, Tree.auditNode, node_of_get? hnode, hlift]
      simp only [Cell.node, auditParent_stored hl, auditParent_stored hr, pure_bind,
        ih hl hsoundl hstampl (by omega), ih hr hsoundr hstampr (by omega), expect, hbalanced,
        hfresh, if_true]
      simp [cells, hstampx]

/-! ## Audits that keep a journal -/

/-- Two keys are not in the order that they should be in. -/
def Violation.IsOrder : Violation K → Prop
  | outOfOrder .. => True
  | _ => False

theorem passes_expect {holds : Bool} (h : holds = true) :
    Passes Violation.IsOrder (expect holds violation : ExceptT (Violation K) (Run K V) Unit)
      journal fun _ => True := by
  rw [expect, if_pos h]
  exact passes_pure trivial

theorem passes_auditOrder {keys : List K} :
    Passes Violation.IsOrder (Tree.auditOrder c keys : ExceptT (Violation K) (Run K V) Unit)
      journal fun _ => True := by
  induction keys generalizing journal with
  | nil => exact passes_pure trivial
  | cons key rest ih =>
    cases rest with
    | nil => exact passes_pure trivial
    | cons next rest =>
      rw [Tree.auditOrder]
      apply passes_bind
        (passes_lift (P := fun _ => True) ((ends_ask c key next).mpr ⟨trivial, rfl⟩))
      intro order after _
      by_cases hlt : order.isLT = true
      · exact passes_bind (passes_expect hlt) fun _ _ _ => ih
      · rw [expect, if_neg hlt]
        exact passes_bind (P := fun _ => True) (passes_throw trivial) fun _ _ _ => ih

/-- The checks that follow that of the links: the counts, the order of the keys, and the walk. -/
theorem passes_auditCounts (h : Spells tree version t) :
    Passes Violation.IsOrder (do
      expect ((t.cells.map Cell.key).length == tree.size)
        (.wrongCount (t.cells.map Cell.key).length tree.size)
      expect (tree.pool.size == tree.size) (.wrongPoolSize tree.pool.size tree.size)
      Tree.auditOrder c (t.cells.map Cell.key)
      let walked := (← tree.slots).length
      expect (walked == tree.size) (.wrongWalk walked tree.size) :
        ExceptT (Violation K) (Run K V) Unit) journal fun _ => True := by
  have hoccupied := h.placed.houses.occupied.size_eq
  rw [List.append_nil, length_slots] at hoccupied
  have hsize := h.size_eq
  rw [length_toList] at hsize
  apply passes_bind (passes_expect (by simp [hsize]))
  intro _ _ _
  apply passes_bind (passes_expect (by simp [hoccupied, hsize]))
  intro _ _ _
  apply passes_bind passes_auditOrder
  intro _ _ _
  rw [h.slots_eq]
  apply passes_bind (passes_liftM_ok (P := fun slots => slots = t.slots) rfl)
  rintro _ _ rfl
  exact passes_expect (by simp [hsize])

theorem passes_audit (h : Spells tree version t) :
    Passes Violation.IsOrder (tree.audit c version) journal fun _ => True := by
  have hnodes := auditNode_stored h.placed.stored h.sound h.stamped h.levels_le
  unfold Tree.audit
  rw [h.root_eq, hnodes]
  cases t with
  | nil => exact passes_auditCounts h
  | node l x height r =>
    dsimp only [root?]
    rw [node_of_get? h.placed.stored.1]
    exact passes_auditCounts h

/-- The audit of a tree that spells out a sound shape finds nothing but two keys out of order. -/
theorem ends_audit (h : Spells tree version t) :
    Ends (tree.audit c version) journal fun outcome after =>
      (outcome = .ok () ∨ ∃ key next, outcome = .error (.outOfOrder key next)) ∧
        after.shown = journal.shown := by
  apply ends_mono (passes_audit h)
  intro outcome after houtcome
  obtain ⟨houtcome, hshown⟩ := houtcome
  refine ⟨?_, hshown⟩
  cases outcome with
  | ok _ => exact .inl rfl
  | error violation =>
    cases violation with
    | outOfOrder key next => exact .inr ⟨key, next, rfl⟩
    | _ => exact absurd houtcome id

end OrderedMaps.Avl
