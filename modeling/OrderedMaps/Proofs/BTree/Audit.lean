import OrderedMaps.BTree.Audit
import OrderedMaps.Proofs.BTree.Insert

/-!
# Audits of multi-way trees in good order

* `BTree.Violation.IsOrder`: the violations that only a comparator can be blamed for.
* `BTree.passes_nodeAudit`: the audit of a well-formed subtree finds no other.
* `BTree.ends_treeAudit`: the same for a whole tree.
-/

namespace OrderedMaps.BTree

variable {K V : Type} {cmp : Comparator K} {t levels depth deepest : Nat} {atRoot : Bool}
  {leafDepth : Option Nat} {lower upper : Option K} {node : Node K V} {violation : Violation K}
  {journal : Journal K V}

/-- Two keys are not in the order that they should be in. -/
def Violation.IsOrder : Violation K → Prop
  | unsorted .. | notAbove .. | notBelow .. => True
  | _ => False

/-! ## Single checks -/

theorem passes_expect {holds : Bool} (h : holds = true) :
    Passes Violation.IsOrder (expect holds violation : Audit K V Unit) journal fun _ => True := by
  rw [expect, if_pos h]
  exact passes_pure trivial

theorem passes_expectBelow {a b : K} (hviolation : violation.IsOrder) :
    Passes Violation.IsOrder (expectBelow cmp a b violation : Audit K V Unit) journal
      fun _ => True := by
  unfold expectBelow
  apply passes_bind (passes_lift (P := fun _ => True) ((ends_ask cmp a b).mpr ⟨trivial, rfl⟩))
  intro order after _
  by_cases hlt : order.isLT = true
  · exact passes_expect hlt
  · rw [expect, if_neg hlt]
    exact passes_throw hviolation

theorem passes_auditOrder {keys : List K} (hviolation : violation.IsOrder) :
    Passes Violation.IsOrder (auditOrder cmp violation keys : Audit K V Unit) journal
      fun _ => True := by
  induction keys generalizing journal with
  | nil => exact passes_pure trivial
  | cons key rest ih =>
    cases rest with
    | nil => exact passes_pure trivial
    | cons next rest =>
      rw [auditOrder]
      exact passes_bind (passes_expectBelow hviolation) fun _ _ _ => ih

/-- The last key is compared with the separator above the node, if there are both. -/
theorem passes_auditLast {keys : List K} :
    Passes Violation.IsOrder (match (upper, keys.getLast?) with
      | (some upper, some last) => expectBelow cmp last upper (.notBelow last upper)
      | _ => pure () : Audit K V Unit) journal fun _ => True := by
  cases upper with
  | none => exact passes_pure trivial
  | some upper =>
    cases keys.getLast? with
    | none => exact passes_pure trivial
    | some last => exact passes_expectBelow trivial

theorem passes_auditKeys {keys : List K} {values : List V} (hmost : keys.length ≤ 2 * t - 1)
    (hleast : atRoot = true ∨ t - 1 ≤ keys.length) (hpaired : keys.length = values.length) :
    Passes Violation.IsOrder (auditKeys cmp t atRoot depth lower upper keys values) journal
      fun _ => True := by
  unfold auditKeys
  apply passes_bind (passes_expect (by simpa using hmost))
  intro _ _ _
  apply passes_bind (passes_expect (by simpa using hleast))
  intro _ _ _
  apply passes_bind (passes_expect (by simpa using hpaired))
  intro _ _ _
  apply passes_bind (passes_auditOrder (show (Violation.unsorted keys).IsOrder from trivial))
  intro _ _ _
  cases lower with
  | none => exact passes_auditLast
  | some lower =>
    cases keys.head? with
    | none => exact passes_auditLast
    | some first => exact passes_bind (passes_expectBelow trivial) fun _ _ _ => passes_auditLast

theorem passes_auditDepth {keys : List K} (h : leafDepth = none ∨ leafDepth = some depth) :
    Passes Violation.IsOrder (auditDepth depth leafDepth keys : Audit K V Nat) journal
      fun found => found = depth := by
  rcases h with rfl | rfl
  · exact passes_pure rfl
  · exact passes_bind (passes_expect (by simp)) fun _ _ _ => passes_pure rfl

/-! ## Subtrees and trees -/

/-- The audit of siblings, by induction on the list of them. The depth of the first leaf is known
after the first sibling, if it was not known before. -/
theorem passes_auditIn {children : List (Node K V)} {keys : List K}
    (haudit : ∀ child ∈ children, ∀ leafDepth lower upper journal,
      (leafDepth = none ∨ leafDepth = some deepest) →
        Passes Violation.IsOrder (child.audit cmp t false depth leafDepth lower upper) journal
          fun found => found = (child.toList.length, some deepest))
    (hseen : leafDepth = none ∨ leafDepth = some deepest)
    (hsome : children ≠ [] ∨ leafDepth = some deepest) :
    Passes Violation.IsOrder (Node.auditIn cmp t depth leafDepth lower upper children keys) journal
      fun found => found = ((children.map fun child => child.toList.length).sum, some deepest) := by
  induction children generalizing leafDepth lower keys journal with
  | nil =>
    obtain rfl : leafDepth = some deepest := hsome.resolve_left fun h => h rfl
    exact passes_pure rfl
  | cons child rest ih =>
    rw [Node.auditIn]
    apply passes_bind (haudit child List.mem_cons_self _ _ _ _ hseen)
    rintro _ later rfl
    apply passes_bind (ih (fun other hmem => haudit other (List.mem_cons_of_mem _ hmem)) (.inr rfl)
      (.inr rfl))
    rintro _ later' rfl
    exact passes_pure rfl

/-- The audit of a subtree, by induction on the number of its levels. -/
theorem passes_nodeAudit (h : Formed t levels node)
    (hleast : atRoot = true ∨ t - 1 ≤ node.keys.length)
    (hrooted : levels = 1 ∨ 1 ≤ node.keys.length) (ht : 2 ≤ t)
    (hdepth : depth + levels = deepest + 1)
    (hseen : leafDepth = none ∨ leafDepth = some deepest) :
    Passes Violation.IsOrder (node.audit cmp t atRoot depth leafDepth lower upper) journal
      fun found => found = (node.toList.length, some deepest) := by
  induction levels generalizing node atRoot depth leafDepth lower upper journal with
  | zero => exact absurd h Formed.not_zero
  | succ levels ih =>
    have hlength := h.length_toList
    cases h with
    | leaf hpaired hmost =>
      rw [Node.audit]
      apply passes_bind (passes_auditKeys hmost hleast hpaired)
      intro _ later _
      obtain rfl : depth = deepest := by omega
      apply passes_bind (passes_auditDepth hseen)
      rintro _ later' rfl
      apply passes_pure
      rw [hlength]
      simp
    | @inner _ keys values children hpaired hmost hfan hstout hlower =>
      have hchildren : children ≠ [] := by
        intro hnil
        simp [hnil] at hfan
      rw [Node.audit]
      apply passes_bind (passes_auditKeys hmost hleast hpaired)
      intro _ later _
      rw [if_neg (by simpa using hchildren)]
      apply passes_bind (passes_expect (by simpa using hfan))
      intro _ later' _
      have hpos : 1 ≤ keys.length := by
        apply hrooted.resolve_left
        intro hone
        obtain rfl : levels = 0 := by omega
        obtain ⟨child, rest, rfl⟩ := List.exists_cons_of_ne_nil hchildren
        exact Formed.not_zero (hlower child List.mem_cons_self)
      have hbare : (!atRoot || decide (1 ≤ keys.length)) = true := by simp [hpos]
      apply passes_bind (passes_expect hbare)
      intro _ later'' _
      refine passes_bind (passes_auditIn ?_ hseen (.inl hchildren)) ?_
      · intro child hmem leafDepth lower upper journal hseen'
        have hkeys : 1 ≤ child.keys.length := by
          have := hstout child hmem
          omega
        exact ih (hlower child hmem) (.inr (hstout child hmem)) (.inr hkeys) (by omega) hseen'
      · rintro _ last rfl
        apply passes_pure
        rw [hlength]

/-- The audit of a tree in good order finds nothing wrong but, at most, keys out of order. -/
theorem ends_treeAudit {tree : Tree K V} (h : tree.Sound t levels) (ht : 2 ≤ t) :
    Ends (tree.audit cmp t) journal fun outcome later =>
      (outcome = .ok () ∨
        ∃ violation : Violation K, outcome = .error violation ∧ violation.IsOrder) ∧
        later.shown = journal.shown := by
  obtain ⟨deepest, hdepth⟩ : ∃ deepest, 0 + levels = deepest + 1 := by
    cases levels with
    | zero => exact absurd h.formed Formed.not_zero
    | succ levels => exact ⟨levels, by omega⟩
  have hcount : (tree.root.toList.length == tree.size) = true := by simp [h.size_eq]
  have hpasses : Passes Violation.IsOrder (tree.audit cmp t) journal fun _ => True := by
    unfold Tree.audit
    apply passes_bind (passes_nodeAudit h.formed (.inl rfl) h.rooted ht hdepth (.inl rfl))
    rintro _ later rfl
    exact passes_expect hcount
  apply ends_mono hpasses
  intro outcome later houtcome
  obtain ⟨houtcome, hshown⟩ := houtcome
  refine ⟨?_, hshown⟩
  cases outcome with
  | ok _ => exact .inl rfl
  | error violation => exact .inr ⟨violation, rfl, houtcome⟩

end OrderedMaps.BTree
