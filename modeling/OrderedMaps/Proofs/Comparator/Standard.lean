import OrderedMaps.Comparator.Standard
import OrderedMaps.Proofs.Comparator.Utf8

/-!
# Standard comparators are total orders

Each standard comparator compares its keys by something that determines them: an integer by its
value, a string by its bytes, a floating-point number by its place in the IEEE 754 total order. The
laws of a total order are therefore those of what is compared.

* `compareBytes_eq_compare`: strings are in the same order by their bytes and by their scalar values.
* `Comparator.IsTotalOrder`: the laws, with no two keys in one place.
* `Comparator.isTotalOrder_on`: keys compared by what determines them.
* `Comparator.Standard`: the standard comparators.
* `Comparator.standard_isTotalOrder`: the standard comparators, reversed any number of times, and
  the order of strings.
-/

namespace OrderedMaps

/-! ## What is compared -/

/-- Lists that are compared element by element are in lexicographic order. -/
theorem compare_list_eq_lt_iff {α : Type} [Ord α] [LT α] [Std.LawfulEqOrd α] [Std.LawfulLTOrd α]
    {xs ys : List α} : compare xs ys = .lt ↔ xs < ys := by
  induction xs generalizing ys with
  | nil =>
    cases ys with
    | nil => simp
    | cons y ys => simp [List.compare_nil_cons]
  | cons x xs ih =>
    cases ys with
    | nil => simp [List.compare_cons_nil]
    | cons y ys =>
      rw [List.compare_cons_cons, Ordering.then_eq_lt, Std.LawfulLTCmp.eq_lt_iff_lt,
        Std.LawfulEqCmp.compare_eq_iff_eq, ih, List.cons_lt_cons_iff]

theorem compareBytes_eq (a b : String) :
    compareBytes a b = compare a.toUTF8.toList b.toUTF8.toList := by
  rw [compareBytes, List.compare_eq_compareLex]

theorem compareBytes_eq_lt_iff {a b : String} :
    compareBytes a b = .lt ↔ a.toUTF8.toList < b.toUTF8.toList := by
  rw [compareBytes_eq]
  exact compare_list_eq_lt_iff

/-- The order of strings by their bytes is the one that they come with, which is that of their
scalar values. -/
theorem compareBytes_eq_compare (a b : String) : compareBytes a b = compare a b := by
  have hlt : ∀ {a b : String}, a < b → compareBytes a b = .lt ∧ compare a b = .lt := fun h =>
    ⟨compareBytes_eq_lt_iff.mpr (toUTF8_lt_iff.mpr h), Std.LawfulLTCmp.eq_lt_iff_lt.mpr h⟩
  rcases lt_trichotomy a b with hbefore | rfl | hafter
  · obtain ⟨hbytes, hcompare⟩ := hlt hbefore
    rw [hbytes, hcompare]
  · rw [compareBytes_eq, Std.ReflOrd.compare_self, Std.ReflOrd.compare_self]
  · obtain ⟨hbytes, hcompare⟩ := hlt hafter
    rw [compareBytes_eq] at hbytes ⊢
    rw [Std.OrientedOrd.eq_swap, hbytes, Std.OrientedOrd.eq_swap, hcompare]

/-- Numbers that differ in any bit have different places in the total order. -/
theorem Binary64.rank_injective : Function.Injective rank := by
  intro x y h
  have hx := x.bits.toNat_lt
  have hy := y.bits.toNat_lt
  have hbits : x.bits.toNat = y.bits.toNat := by
    simp only [rank, isNegative, magnitude, decide_eq_true_eq] at h
    split_ifs at h <;> omega
  obtain ⟨bits⟩ := x
  obtain ⟨bits'⟩ := y
  exact congrArg mk (UInt64.toNat_inj.mp hbits)

namespace Comparator

variable {K : Type} {c : Comparator K}

/-! ## Total orders -/

/-- The answers are those of one total order, in which no two keys share a place. -/
structure IsTotalOrder (c : Comparator K) : Prop where
  isPure : c.IsPure
  self : ∀ n a, c.answer n a a = .eq
  /-- Exchanged keys get the opposite answer. -/
  swap : ∀ n a b, c.answer n b a = (c.answer n a b).swap
  trans : ∀ n a b d, (c.answer n a b).isLE → (c.answer n b d).isLE → (c.answer n a d).isLE
  /-- Keys that compare equal are one and the same. -/
  eq_of_answer : ∀ n a b, c.answer n a b = .eq → a = b

/-- Keys that are compared by what determines them. -/
theorem isTotalOrder_on {α : Type} [Ord α] [Std.TransOrd α] [Std.LawfulEqOrd α] {f : K → α}
    (hf : Function.Injective f) : (ofFn fun a b => compare (f a) (f b)).IsTotalOrder where
  isPure := isPure_ofFn _
  self _ _ := Std.ReflOrd.compare_self
  swap _ _ _ := Std.OrientedOrd.eq_swap
  trans _ _ _ _ hab hbd := Std.TransOrd.isLE_trans hab hbd
  eq_of_answer _ _ _ h := hf (Std.LawfulEqOrd.eq_of_compare h)

theorem IsTotalOrder.reverse (h : c.IsTotalOrder) : c.reverse.IsTotalOrder where
  isPure := h.isPure.reverse
  self n a := h.self n a
  swap n a b := h.swap n b a
  trans n a b d hab hbd := h.trans n d b a hbd hab
  eq_of_answer n a b heq := (h.eq_of_answer n b a heq).symm

/-- Reversing is undone by reversing. -/
theorem reverse_involutive : Function.Involutive (reverse : Comparator K → Comparator K) :=
  reverse_reverse

/-! ## Standard comparators -/

/-- The comparators of the usual key types. -/
inductive Standard : {K : Type} → Comparator K → Prop
  | integers : Standard integers
  | strings : Standard strings
  | floats : Standard floats
  | naturalIntegers : Standard (natural : Comparator Int64)
  | naturalWords : Standard (natural : Comparator UInt64)
  | naturalStrings : Standard (natural : Comparator String)

theorem natural_eq_integers : natural = integers := by
  refine congrArg ofFn (funext fun a => funext fun b => ?_)
  show compareOfLessAndEq a b = compareOfLessAndEq a.toInt b.toInt
  simp only [compareOfLessAndEq, Int64.lt_iff_toInt_lt, Int64.toInt_inj]

theorem natural_eq_strings : natural = strings :=
  congrArg ofFn (funext fun a => funext fun b => (compareBytes_eq_compare a b).symm)

theorem isTotalOrder_strings : strings.IsTotalOrder := by
  have hbytes : strings = ofFn fun a b => compare a.toUTF8.toList b.toUTF8.toList :=
    congrArg ofFn (funext fun a => funext fun b => compareBytes_eq a b)
  rw [hbytes]
  exact isTotalOrder_on toList_toUTF8_injective

theorem Standard.isTotalOrder (h : c.Standard) : c.IsTotalOrder := by
  cases h with
  | integers => exact isTotalOrder_on fun _ _ => Int64.toInt_inj.mp
  | strings => exact isTotalOrder_strings
  | floats => exact isTotalOrder_on Binary64.rank_injective
  | naturalIntegers => exact isTotalOrder_on Function.injective_id
  | naturalWords => exact isTotalOrder_on Function.injective_id
  | naturalStrings =>
    rw [natural_eq_strings]
    exact isTotalOrder_strings

/-- Every standard comparator, reversed any number of times, is a total order in which only
identical keys are equal. An even number of reversals changes nothing, and an odd number is one
reversal. Strings are in the order of their bytes, which is that of their scalar values. The orders
that strings and signed integers come with are the standard ones. -/
theorem standard_isTotalOrder :
    (∀ (K : Type) (base : Comparator K), Standard base → ∀ n : Nat,
      (reverse^[n] base).IsTotalOrder ∧ (Even n → reverse^[n] base = base) ∧
        (Odd n → reverse^[n] base = base.reverse)) ∧
    (∀ n a b, (strings.answer n a b = .lt ↔ a.toUTF8.toList < b.toUTF8.toList) ∧
      (strings.answer n a b = .lt ↔ a.toList < b.toList)) ∧
    natural = strings ∧ natural = integers := by
  refine ⟨fun K base hbase n => ?_, fun n a b => ⟨?_, ?_⟩, natural_eq_strings,
    natural_eq_integers⟩
  · have heven (h : Even n) : reverse^[n] base = base :=
      congrFun (reverse_involutive.iterate_even h) base
    have hodd (h : Odd n) : reverse^[n] base = base.reverse :=
      congrFun (reverse_involutive.iterate_odd h) base
    refine ⟨?_, heven, hodd⟩
    rcases Nat.even_or_odd n with h | h
    · rw [heven h]
      exact hbase.isTotalOrder
    · rw [hodd h]
      exact hbase.isTotalOrder.reverse
  · exact compareBytes_eq_lt_iff
  · calc strings.answer n a b = .lt
      _ ↔ a.toUTF8.toList < b.toUTF8.toList := compareBytes_eq_lt_iff
      _ ↔ a < b := toUTF8_lt_iff
      _ ↔ a.toList < b.toList := String.lt_iff_toList_lt

/-- Two not-a-numbers that differ in one bit, the two zeros, and a letter of one byte beside one of
two bytes. -/
theorem standard_isTotalOrder_nan : Standard floats ∧ (reverse^[3] floats).IsTotalOrder ∧
    (reverse^[3] floats).answer 0 ⟨0x7ff8000000000001⟩ ⟨0x7ff8000000000000⟩ = .lt ∧
    (reverse^[2] floats).answer 0 ⟨0x8000000000000000⟩ ⟨0⟩ = .lt ∧
    strings.answer 0 "z" "é" = .lt := by
  obtain ⟨hfloats, hstrings, -⟩ := standard_isTotalOrder
  obtain ⟨htotal, -, hodd⟩ := hfloats Binary64 floats .floats 3
  obtain ⟨-, heven, -⟩ := hfloats Binary64 floats .floats 2
  refine ⟨.floats, htotal, ?_, ?_, (hstrings 0 "z" "é").2.mpr (by decide)⟩
  · rw [hodd (by decide)]
    decide
  · rw [heven (by decide)]
    decide

end Comparator

end OrderedMaps
