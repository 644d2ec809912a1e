import OrderedMaps.Proofs.Avl.Subtree

/-!
# Descents

A look-up, an insertion and a removal each find their own way down. Here is the way that all three
take, under any comparator: the cells that the key is compared with, and how the way splits the
cells of the tree in order.

* `Avl.Descent`, `Avl.Shape.descent`: where the way down for a key leads.
* `Avl.Shape.cells_eq_descent`: the cells passed by on both sides and the one found are all cells.
* `Avl.Shape.descent_ofFn`: a pure comparator leads the same way each time.
* `Avl.Shape.length_path_le`: the way is no longer than the tree is high.
* `Avl.Shape.descent_between`, `Avl.Shape.found_descent`: as long as the comparator can be trusted,
  the way leads to the place of the key.
-/

namespace OrderedMaps.Avl

variable {K V : Type}

/-- Where the way down for a key leads. -/
structure Descent (K V : Type) where
  /-- The cells that the key is compared with, from the top down. -/
  path : List (Cell K V) := []
  /-- The cells passed by on the left, in order. -/
  before : List (Cell K V) := []
  /-- The cell whose key compares equal, if the way ends at one. -/
  here : Option (Cell K V) := none
  /-- The cells passed by on the right, in order. -/
  after : List (Cell K V) := []

namespace Descent

/-- The keys compared with. -/
def keys (d : Descent K V) : List K := d.path.map Cell.key

/-- The same way, begun at a node that is passed by on its way to one side. -/
def under (d : Descent K V) (side : Side) (x : Cell K V) (far : Shape K V) : Descent K V :=
  match side with
  | .left => ⟨x :: d.path, d.before, d.here, d.after ++ x :: far.cells⟩
  | .right => ⟨x :: d.path, far.cells ++ x :: d.before, d.here, d.after⟩

variable {d : Descent K V} {side : Side} {x : Cell K V} {far : Shape K V}

@[simp] theorem path_under : (d.under side x far).path = x :: d.path := by cases side <;> rfl

@[simp] theorem keys_under : (d.under side x far).keys = x.key :: d.keys := by simp [keys]

@[simp] theorem here_under : (d.under side x far).here = d.here := by cases side <;> rfl

theorem before_under : (d.under side x far).before.map Cell.entry =
    Shape.fore side x far ++ d.before.map Cell.entry := by
  cases side <;> simp [under, Shape.fore, Shape.toList]

theorem after_under : (d.under side x far).after.map Cell.entry =
    d.after.map Cell.entry ++ Shape.aft side x far := by
  cases side <;> simp [under, Shape.aft, Shape.toList]

end Descent

namespace Shape

/-- The way down for a key, if the first comparison on it has the given number. -/
def descent (c : Comparator K) (key : K) : Nat → Shape K V → Descent K V
  | _, nil => {}
  | n, node l x _ r =>
      match Side.ofOrdering? (c.answer n key x.key) with
      | some .left => (descent c key (n + 1) l).under .left x r
      | some .right => (descent c key (n + 1) r).under .right x l
      | none => ⟨[x], l.cells, some x, r.cells⟩

variable {trust : Prop} {cmp : K → K → Ordering} {c : Comparator K} {key : K} {n : Nat}
  {t l r near far : Shape K V} {x : Cell K V} {height : Int} {side : Side}

theorem descent_join (hside : Side.ofOrdering? (c.answer n key x.key) = some side) :
    (join side near x height far).descent c key n =
      (near.descent c key (n + 1)).under side x far := by
  cases side <;> simp only [join, descent, hside]

theorem descent_here (hside : Side.ofOrdering? (c.answer n key x.key) = none) :
    (node l x height r).descent c key n = ⟨[x], l.cells, some x, r.cells⟩ := by
  simp only [descent, hside]

/-- Induction along the way down for a key: the way ends at a missing child, or at a cell, or it
passes by a cell and goes on in the subtree on one side of it. -/
theorem descent_induction (c : Comparator K) (key : K) {P : Nat → Shape K V → Prop}
    (missing : ∀ n, P n nil)
    (here : ∀ n l x height r, Side.ofOrdering? (c.answer n key x.key) = none →
      P n (node l x height r))
    (under : ∀ n side near x height far, Side.ofOrdering? (c.answer n key x.key) = some side →
      P (n + 1) near → P n (join side near x height far)) (n : Nat) (t : Shape K V) : P n t := by
  induction t generalizing n with
  | nil => exact missing n
  | node l x height r ihl ihr =>
    rcases hside : Side.ofOrdering? (c.answer n key x.key) with _ | side
    · exact here n l x height r hside
    · cases side with
      | left => exact under n .left l x height r hside (ihl (n + 1))
      | right => exact under n .right r x height l hside (ihr (n + 1))

theorem cells_eq_descent (c : Comparator K) (key : K) (n : Nat) (t : Shape K V) :
    t.cells = (t.descent c key n).before ++ (t.descent c key n).here.toList ++
      (t.descent c key n).after := by
  induction n, t using descent_induction c key with
  | missing n => rfl
  | here n l x height r hside => simp [descent_here hside, cells]
  | under n side near x height far hside ih =>
    rw [descent_join hside]
    cases side <;> simp [join, cells, Descent.under, ih]

/-- A way that ends at a cell splits the cells of the tree there. -/
theorem cells_eq_of_here (hx : (t.descent c key n).here = some x) :
    t.cells = (t.descent c key n).before ++ x :: (t.descent c key n).after := by
  rw [cells_eq_descent c key n t, hx, Option.toList_some, List.append_assoc, List.singleton_append]

theorem cells_eq_of_missing (hx : (t.descent c key n).here = none) :
    t.cells = (t.descent c key n).before ++ (t.descent c key n).after := by
  rw [cells_eq_descent c key n t, hx, Option.toList_none, List.append_nil]

theorem toList_eq_of_here (hx : (t.descent c key n).here = some x) :
    t.toList = (t.descent c key n).before.map Cell.entry ++
      (x.key, x.value) :: (t.descent c key n).after.map Cell.entry := by
  rw [toList, cells_eq_of_here hx, List.map_append, List.map_cons]
  rfl

theorem toList_eq_of_missing (hx : (t.descent c key n).here = none) :
    t.toList = (t.descent c key n).before.map Cell.entry ++
      (t.descent c key n).after.map Cell.entry := by
  rw [toList, cells_eq_of_missing hx, List.map_append]

/-- A pure comparator leads the same way each time. -/
theorem descent_ofFn (m n : Nat) :
    t.descent (.ofFn cmp) key m = t.descent (.ofFn cmp) key n := by
  induction t generalizing m n with
  | nil => rfl
  | node l x height r ihl ihr =>
    simp only [descent, Comparator.answer_ofFn, ihl (m + 1) (n + 1), ihr (m + 1) (n + 1)]

/-- The way meets one cell at most on each level. -/
theorem length_path_le (c : Comparator K) (key : K) (n : Nat) (t : Shape K V) :
    (t.descent c key n).path.length ≤ t.levels := by
  induction n, t using descent_induction c key with
  | missing n => exact Nat.le_refl 0
  | here n l x height r hside =>
    rw [descent_here hside]
    exact Nat.succ_le_succ (Nat.zero_le _)
  | under n side near x height far hside ih =>
    rw [descent_join hside, Descent.path_under, List.length_cons, levels_join]
    omega

/-- At the cell where the way ends, the answer was that its key is equal. -/
theorem answer_of_here (hx : (t.descent c key n).here = some x) :
    ∃ m, c.answer m key x.key = .eq := by
  induction n, t using descent_induction c key with
  | missing n => cases hx
  | here n l y height r hside =>
    rw [descent_here hside] at hx
    cases hx
    exact ⟨n, Side.ofOrdering?_eq_none_iff.mp hside⟩
  | under n side near y height far hside ih =>
    rw [descent_join hside, Descent.here_under] at hx
    exact ih hx

/-! ## Comparators that can be trusted -/

/-- The way down for a key leads to its place. -/
theorem descent_between (hlaw : c.Follows cmp) (hasc : Ascending cmp t.toList) :
    Between cmp key ((t.descent c key n).before.map Cell.entry)
      ((t.descent c key n).after.map Cell.entry) := by
  have := hlaw.lawful
  induction n, t using descent_induction c key with
  | missing n => exact ⟨by simp [descent], by simp [descent]⟩
  | here n l x height r hside =>
    rw [descent_here hside]
    rw [toList_node] at hasc
    exact hasc.between (eq_of_answer hlaw hside)
  | under n side near x height far hside ih =>
    rw [descent_join hside, Descent.before_under, Descent.after_under]
    exact (between_of_answer hlaw hasc hside).append (ih (ascending_near hasc))

theorem eq_of_here (hlaw : c.Follows cmp) (hx : (t.descent c key n).here = some x) :
    cmp key x.key = .eq := by
  obtain ⟨m, hm⟩ := answer_of_here hx
  rwa [hlaw.answer_eq] at hm

theorem absent_of_missing (hlaw : c.Follows cmp) (hasc : Ascending cmp t.toList)
    (hx : (t.descent c key n).here = none) : Absent cmp key t.toList := by
  rw [toList_eq_of_missing hx]
  exact (descent_between hlaw hasc).absent_append

/-- What is found for a key is the value where the way down leads. -/
theorem found_descent (hlaw : trust → c.Follows cmp) (hasc : trust → Ascending cmp t.toList)
    (n : Nat) : Found trust cmp key t.toList ((t.descent c key n).here.map Cell.value) := by
  cases hx : (t.descent c key n).here with
  | none => exact .absent fun ht => absent_of_missing (hlaw ht) (hasc ht) hx
  | some x =>
    exact .present _ x.key x.value _ (toList_eq_of_here hx) fun ht => eq_of_here (hlaw ht) hx

end Shape

end OrderedMaps.Avl
