/-!
# Degrees

The degree of a multi-way tree says how many keys its nodes hold: at least one less than the
degree, the root apart, and at most one less than twice the degree.

* `Degree`: a number that can be a degree.
* `Degree.ofNat?`: the degree of a number, if it can be one.
* `Degree.standard`: the degree of a tree when none is asked for.
-/

namespace OrderedMaps

/-- A number that can be the degree of a multi-way tree. It is at least two, so that a node that
is cut in two leaves no empty half, and twice it is still a machine word. -/
structure Degree where
  val : Nat
  /-- Below two there would be nodes without keys. -/
  least_le : 2 ≤ val
  /-- Twice the degree stays below `2 ^ 64`. -/
  le_greatest : val ≤ 0x7fffffffffffffff
  deriving DecidableEq

namespace Degree

def least : Degree := ⟨2, by decide, by decide⟩

def greatest : Degree := ⟨0x7fffffffffffffff, by decide, by decide⟩

/-- The degree of a tree when none is asked for. -/
def standard : Degree := ⟨32, by decide, by decide⟩

/-- The degree `n`, if it is one. -/
def ofNat? (n : Nat) : Option Degree :=
  if h : least.val ≤ n ∧ n ≤ greatest.val then some ⟨n, h.1, h.2⟩ else none

theorem ofNat?_val (degree : Degree) : ofNat? degree.val = some degree :=
  dif_pos ⟨degree.least_le, degree.le_greatest⟩

theorem ofNat?_eq_none_iff {n : Nat} : ofNat? n = none ↔ n < 2 ∨ 0x7fffffffffffffff < n := by
  by_cases h : 2 ≤ n ∧ n ≤ 0x7fffffffffffffff
  · rw [show ofNat? n = some ⟨n, h.1, h.2⟩ from dif_pos h]
    simp only [reduceCtorEq, false_iff]
    omega
  · rw [show ofNat? n = none from dif_neg h]
    simp only [true_iff]
    omega

end Degree

end OrderedMaps
