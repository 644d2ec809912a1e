/-!
# Comparators

The maps of this library never look at their keys themselves. They put every question about the
order of two keys to a comparator.

* `Comparator`: the answers of an order, one for each comparison in the sequence of comparisons.
* `Comparator.ofFn`: the comparator of a function, which answers the same each time.
* `Comparator.reverse`: the comparator with its two arguments exchanged.
* `Comparator.IsPure`: the answers do not depend on when the question is put.
-/

namespace OrderedMaps

/-- An order on keys, asked one comparison at a time.

`answer n a b` is the answer to comparison number `n`, about `a` and `b`. A function of the two
keys alone is the usual case; the number admits orders that change their mind, which the maps
must survive as well. -/
structure Comparator (K : Type) where
  /-- The answer to a numbered comparison. -/
  answer : Nat → K → K → Ordering

namespace Comparator

variable {K : Type}

/-- The comparator that answers every question with `cmp`. -/
def ofFn (cmp : K → K → Ordering) : Comparator K where
  answer _ a b := cmp a b

/-- The comparator that is asked about `b` and `a` where `c` would be asked about `a` and `b`. -/
def reverse (c : Comparator K) : Comparator K where
  answer n a b := c.answer n b a

/-- The answer depends on the two keys alone. -/
def IsPure (c : Comparator K) : Prop :=
  ∀ m n a b, c.answer m a b = c.answer n a b

@[simp] theorem answer_ofFn (cmp : K → K → Ordering) (n : Nat) (a b : K) :
    (ofFn cmp).answer n a b = cmp a b := rfl

@[simp] theorem answer_reverse (c : Comparator K) (n : Nat) (a b : K) :
    c.reverse.answer n a b = c.answer n b a := rfl

@[simp] theorem reverse_reverse (c : Comparator K) : c.reverse.reverse = c := rfl

theorem isPure_ofFn (cmp : K → K → Ordering) : (ofFn cmp).IsPure := fun _ _ _ _ => rfl

theorem IsPure.reverse {c : Comparator K} (h : c.IsPure) : c.reverse.IsPure :=
  fun m n a b => h m n b a

end Comparator

end OrderedMaps
