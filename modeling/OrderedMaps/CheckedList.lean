import OrderedMaps.Fault

/-!
# Lists with checked positions

Reads and changes of a list at a position. A position that the list does not have is a fault.

* `Checked.nth`, `Checked.replace`: read and overwrite a position.
* `Checked.insert`, `Checked.remove`: make and close a gap.
* `Checked.removeLast`, `Checked.split`: take off the last element, cut in two.
-/

namespace OrderedMaps.Checked

variable {α : Type}

/-- The element at `position`. -/
def nth (xs : List α) (position : Nat) : Except Fault α :=
  match xs[position]? with
  | some x => .ok x
  | none => .error (.outOfRange position xs.length)

/-- The list with `x` at `position`. -/
def replace (xs : List α) (position : Nat) (x : α) : Except Fault (List α) :=
  if position < xs.length then .ok (xs.set position x)
  else .error (.outOfRange position xs.length)

/-- The list with `x` between the first `position` elements and the others. -/
def insert (xs : List α) (position : Nat) (x : α) : Except Fault (List α) :=
  if position ≤ xs.length then .ok (xs.insertIdx position x)
  else .error (.outOfRange position xs.length)

/-- The element at `position` and the list without it. -/
def remove (xs : List α) (position : Nat) : Except Fault (α × List α) :=
  match xs[position]? with
  | some x => .ok (x, xs.eraseIdx position)
  | none => .error (.outOfRange position xs.length)

/-- The last element and the list without it. -/
def removeLast (xs : List α) : Except Fault (α × List α) :=
  match xs.getLast? with
  | some x => .ok (x, xs.dropLast)
  | none => .error (.outOfRange 0 0)

/-- The first `position` elements and the others. -/
def split (xs : List α) (position : Nat) : Except Fault (List α × List α) :=
  if position ≤ xs.length then .ok (xs.take position, xs.drop position)
  else .error (.outOfRange position xs.length)

/-! ## Positions that the list has -/

theorem replace_of_lt {xs : List α} {position : Nat} (h : position < xs.length) (x : α) :
    replace xs position x = .ok (xs.set position x) := if_pos h

theorem insert_of_le {xs : List α} {position : Nat} (h : position ≤ xs.length) (x : α) :
    insert xs position x = .ok (xs.insertIdx position x) := if_pos h

theorem removeLast_append (xs : List α) (x : α) : removeLast (xs ++ [x]) = .ok (x, xs) := by
  simp [removeLast]

theorem split_of_le {xs : List α} {position : Nat} (h : position ≤ xs.length) :
    split xs position = .ok (xs.take position, xs.drop position) := if_pos h

end OrderedMaps.Checked
