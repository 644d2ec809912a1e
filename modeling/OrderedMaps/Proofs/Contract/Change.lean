import Mathlib
import OrderedMaps.Contract.Reference

/-!
# Changes of a list of entries

What a look-up, a write and a removal can do to the entries of a map, listed in the order in which
the map keeps them. The three relations say it for any order whatsoever: one entry is inserted, one
value is replaced, one entry is deleted, or nothing happens. What they say about *where* that is
holds as long as the order can be `trust`ed.

* `Comparator.Follows`: a comparator that can be trusted.
* `Found`, `Written`, `Removed`: the three relations.
* `Found.extend`, `Written.extend`, `Removed.extend`: what happens in a part of the entries, the key
  being in that part, happens to all of them.
* `Found.eq_lookup`, `Written.eq_insert`, `Removed.eq_erase`: for ascending entries under a lawful
  order, the three are look-up, insertion and removal in a sorted list.
-/

namespace OrderedMaps

variable {K V : Type} {trust : Prop} {cmp : K → K → Ordering} {key : K} {value : V}

/-- The comparator can be trusted: it answers each question as a lawful order does. -/
structure Comparator.Follows (c : Comparator K) (cmp : K → K → Ordering) : Prop where
  lawful : Std.TransCmp cmp
  /-- The answers are those of the order, whenever the question is put. -/
  answer_eq : ∀ n a b, c.answer n a b = cmp a b

/-- The keys of the entries ascend strictly. -/
def Ascending (cmp : K → K → Ordering) (entries : List (K × V)) : Prop :=
  entries.Pairwise fun a b => cmp a.1 b.1 = .lt

/-- The place of `key` is between the two parts of the entries. -/
structure Between (cmp : K → K → Ordering) (key : K) (before after : List (K × V)) : Prop where
  /-- The key is above everything in the first part. -/
  above : ∀ e ∈ before, cmp key e.1 = .gt
  /-- The key is below everything in the second part. -/
  below : ∀ e ∈ after, cmp key e.1 = .lt

/-- No entry has a key that compares equal. -/
def Absent (cmp : K → K → Ordering) (key : K) (entries : List (K × V)) : Prop :=
  ∀ e ∈ entries, cmp key e.1 ≠ .eq

theorem Between.append {outer inner inner' outer' : List (K × V)}
    (h : Between cmp key outer outer') (hinner : Between cmp key inner inner') :
    Between cmp key (outer ++ inner) (inner' ++ outer') := by
  constructor
  · intro e he
    rcases List.mem_append.mp he with he | he
    · exact h.above e he
    · exact hinner.above e he
  · intro e he
    rcases List.mem_append.mp he with he | he
    · exact hinner.below e he
    · exact h.below e he

theorem Between.absent {before middle after : List (K × V)} (h : Between cmp key before after)
    (hmiddle : Absent cmp key middle) : Absent cmp key (before ++ middle ++ after) := by
  intro e he
  simp only [List.mem_append, or_assoc] at he
  rcases he with he | he | he
  · simp [h.above e he]
  · exact hmiddle e he
  · simp [h.below e he]

theorem Between.absent_append {before after : List (K × V)} (h : Between cmp key before after) :
    Absent cmp key (before ++ after) := by
  have habsent := h.absent (show Absent cmp key [] by simp [Absent])
  simpa using habsent

/-- The neighbours of an entry with an equal key are on their sides of the key. -/
theorem Ascending.between [Std.TransCmp cmp] {before after : List (K × V)} {k : K} {v : V}
    (h : Ascending cmp (before ++ (k, v) :: after)) (hk : cmp key k = .eq) :
    Between cmp key before after := by
  obtain ⟨-, hafter, hcross⟩ := List.pairwise_append.mp h
  constructor
  · intro e he
    have hek : cmp e.1 k = .lt := hcross e he (k, v) List.mem_cons_self
    exact Std.TransCmp.gt_of_eq_of_gt hk (Std.OrientedCmp.gt_of_lt hek)
  · intro e he
    exact Std.TransCmp.lt_of_eq_of_lt hk ((List.pairwise_cons.mp hafter).1 e he)

/-- A key above the last entry is above all. -/
theorem above_of_gt [Std.TransCmp cmp] {entries : List (K × V)} {k : K} {v : V}
    (h : Ascending cmp (entries ++ [(k, v)])) (hk : cmp key k = .gt) :
    ∀ e ∈ entries ++ [(k, v)], cmp key e.1 = .gt := by
  intro e he
  rcases List.mem_append.mp he with he | he
  · have hlt : cmp e.1 k = .lt := (List.pairwise_append.mp h).2.2 e he (k, v) List.mem_cons_self
    exact Std.TransCmp.gt_trans hk (Std.OrientedCmp.gt_of_lt hlt)
  · rw [List.mem_singleton.mp he]
    exact hk

/-- A key below the first entry is below all. -/
theorem below_of_lt [Std.TransCmp cmp] {entries : List (K × V)} {k : K} {v : V}
    (h : Ascending cmp ((k, v) :: entries)) (hk : cmp key k = .lt) :
    ∀ e ∈ (k, v) :: entries, cmp key e.1 = .lt := by
  intro e he
  rcases List.mem_cons.mp he with rfl | he
  · exact hk
  · exact Std.TransCmp.lt_trans hk ((List.pairwise_cons.mp h).1 e he)

/-! ## The three relations -/

/-- What a look-up finds. -/
inductive Found (trust : Prop) (cmp : K → K → Ordering) (key : K) (entries : List (K × V)) :
    Option V → Prop
  /-- Nothing, because there is no such key. -/
  | absent (h : trust → Absent cmp key entries) : Found trust cmp key entries none
  /-- The value of an entry, because its key compares equal. -/
  | present (before : List (K × V)) (k : K) (v : V) (after : List (K × V))
      (split : entries = before ++ (k, v) :: after) (h : trust → cmp key k = .eq) :
      Found trust cmp key entries (some v)

/-- What a write does: the answer is the value replaced, if any. -/
inductive Written (trust : Prop) (cmp : K → K → Ordering) (key : K) (value : V)
    (entries : List (K × V)) : Option V → List (K × V) → Prop
  /-- The entry is put between two others. -/
  | inserted (before after : List (K × V)) (split : entries = before ++ after)
      (h : trust → Between cmp key before after) :
      Written trust cmp key value entries none (before ++ (key, value) :: after)
  /-- The value of an entry with an equal key is replaced. -/
  | replaced (before : List (K × V)) (k : K) (old : V) (after : List (K × V))
      (split : entries = before ++ (k, old) :: after) (h : trust → cmp key k = .eq) :
      Written trust cmp key value entries (some old) (before ++ (k, value) :: after)

/-- What a removal does: the answer is the value removed, if any. -/
inductive Removed (trust : Prop) (cmp : K → K → Ordering) (key : K) (entries : List (K × V)) :
    Option V → List (K × V) → Prop
  /-- Nothing, because there is no such key. -/
  | absent (h : trust → Absent cmp key entries) : Removed trust cmp key entries none entries
  /-- An entry is deleted, because its key compares equal. -/
  | deleted (before : List (K × V)) (k : K) (v : V) (after : List (K × V))
      (split : entries = before ++ (k, v) :: after) (h : trust → cmp key k = .eq) :
      Removed trust cmp key entries (some v) (before ++ after)

/-! ## From a part to the whole -/

section Extend

variable {entries outer inner outer' : List (K × V)} {answer : Option V}

theorem Found.extend (hinner : Found trust cmp key inner answer)
    (hsplit : entries = outer ++ inner ++ outer') (h : trust → Between cmp key outer outer') :
    Found trust cmp key entries answer := by
  cases hinner with
  | absent hnone => exact .absent fun ht => hsplit ▸ (h ht).absent (hnone ht)
  | present before k v after hin hk =>
    exact .present (outer ++ before) k v (after ++ outer') (by simp [hsplit, hin]) hk

theorem Written.extend {inner' : List (K × V)}
    (hinner : Written trust cmp key value inner answer inner')
    (hsplit : entries = outer ++ inner ++ outer') (h : trust → Between cmp key outer outer') :
    Written trust cmp key value entries answer (outer ++ inner' ++ outer') := by
  cases hinner with
  | inserted before after hin hplace =>
    have hwhole : Written trust cmp key value entries none
        (outer ++ before ++ (key, value) :: (after ++ outer')) :=
      .inserted _ _ (by simp [hsplit, hin]) fun ht => (h ht).append (hplace ht)
    simpa using hwhole
  | replaced before k old after hin hk =>
    have hwhole : Written trust cmp key value entries (some old)
        (outer ++ before ++ (k, value) :: (after ++ outer')) :=
      .replaced _ k old _ (by simp [hsplit, hin]) hk
    simpa using hwhole

theorem Removed.extend {inner' : List (K × V)} (hinner : Removed trust cmp key inner answer inner')
    (hsplit : entries = outer ++ inner ++ outer') (h : trust → Between cmp key outer outer') :
    Removed trust cmp key entries answer (outer ++ inner' ++ outer') := by
  cases hinner with
  | absent hnone =>
    subst hsplit
    exact .absent fun ht => (h ht).absent (hnone ht)
  | deleted before k v after hin hk =>
    have hwhole : Removed trust cmp key entries (some v)
        (outer ++ before ++ (after ++ outer')) :=
      .deleted _ k v _ (by simp [hsplit, hin]) hk
    simpa using hwhole

end Extend

/-- Less is known of a write if less can be trusted. -/
theorem Written.imp {trust' : Prop} {entries entries' : List (K × V)} {answer : Option V}
    (h : Written trust cmp key value entries answer entries') (himp : trust' → trust) :
    Written trust' cmp key value entries answer entries' := by
  cases h with
  | inserted before after hsplit hplace =>
    exact .inserted before after hsplit fun ht => hplace (himp ht)
  | replaced before k old after hsplit hk =>
    exact .replaced before k old after hsplit fun ht => hk (himp ht)

/-- What is there is removed. -/
theorem Removed.ne_none {entries entries' before after : List (K × V)} {answer : Option V} {k : K}
    {v : V} (h : Removed trust cmp key entries answer entries')
    (hsplit : entries = before ++ (k, v) :: after) (hk : trust → cmp key k = .eq) (htrust : trust) :
    answer ≠ none := by
  rintro rfl
  cases h with
  | absent hnone => exact hnone htrust (k, v) (by simp [hsplit]) (hk htrust)

/-! ## Numbers of entries -/

theorem Written.length_eq {entries entries' : List (K × V)} {answer : Option V}
    (h : Written trust cmp key value entries answer entries') :
    entries'.length = if answer.isNone then entries.length + 1 else entries.length := by
  cases h with
  | inserted before after hsplit _ => simp [hsplit, Nat.add_assoc]
  | replaced before k old after hsplit _ => simp [hsplit]

theorem Removed.length_eq {entries entries' : List (K × V)} {answer : Option V}
    (h : Removed trust cmp key entries answer entries') :
    entries.length = if answer.isNone then entries'.length else entries'.length + 1 := by
  cases h with
  | absent _ => simp
  | deleted before k v after hsplit _ => simp [hsplit, Nat.add_assoc]

/-! ## Under an order that can be trusted -/

section Reference

variable {entries before after : List (K × V)}

theorem lookup_of_absent (h : Absent cmp key entries) :
    Reference.lookup cmp key entries = none := by
  induction entries with
  | nil => rfl
  | cons e rest ih =>
    have hne : cmp key e.1 ≠ .eq := h e List.mem_cons_self
    rw [Reference.lookup, if_neg hne]
    exact ih fun e' he' => h e' (List.mem_cons_of_mem _ he')

theorem lookup_append_cons {k : K} {v : V} (h : ∀ e ∈ before, cmp key e.1 = .gt)
    (hk : cmp key k = .eq) :
    Reference.lookup cmp key (before ++ (k, v) :: after) = some v := by
  induction before with
  | nil => simp [Reference.lookup, hk]
  | cons e rest ih =>
    have hgt : cmp key e.1 = .gt := h e List.mem_cons_self
    simp only [List.cons_append, Reference.lookup, hgt, reduceCtorEq, if_false]
    exact ih fun e' he' => h e' (List.mem_cons_of_mem _ he')

theorem insert_append (h : ∀ e ∈ before, cmp key e.1 = .gt) :
    Reference.insert cmp key value (before ++ after) =
      before ++ Reference.insert cmp key value after := by
  induction before with
  | nil => rfl
  | cons e rest ih =>
    have hgt : cmp key e.1 = .gt := h e List.mem_cons_self
    simp only [List.cons_append, Reference.insert, hgt]
    rw [ih fun e' he' => h e' (List.mem_cons_of_mem _ he')]

theorem insert_of_below (h : ∀ e ∈ after, cmp key e.1 = .lt) :
    Reference.insert cmp key value after = (key, value) :: after := by
  cases after with
  | nil => rfl
  | cons e rest => simp only [Reference.insert, h e List.mem_cons_self]

theorem erase_of_absent (h : Absent cmp key entries) :
    Reference.erase cmp key entries = entries := by
  induction entries with
  | nil => rfl
  | cons e rest ih =>
    have hne : cmp key e.1 ≠ .eq := h e List.mem_cons_self
    rw [Reference.erase, if_neg hne, ih fun e' he' => h e' (List.mem_cons_of_mem _ he')]

theorem erase_append_cons {k : K} {v : V} (h : ∀ e ∈ before, cmp key e.1 = .gt)
    (hk : cmp key k = .eq) :
    Reference.erase cmp key (before ++ (k, v) :: after) = before ++ after := by
  induction before with
  | nil => simp [Reference.erase, hk]
  | cons e rest ih =>
    have hgt : cmp key e.1 = .gt := h e List.mem_cons_self
    simp only [List.cons_append, Reference.erase, hgt, reduceCtorEq, if_false]
    rw [ih fun e' he' => h e' (List.mem_cons_of_mem _ he')]

end Reference

section Lawful

variable [Std.TransCmp cmp] {entries entries' : List (K × V)} {answer : Option V}

theorem Found.eq_lookup (h : Found True cmp key entries answer) (hasc : Ascending cmp entries) :
    answer = Reference.lookup cmp key entries := by
  cases h with
  | absent hnone => exact (lookup_of_absent (hnone trivial)).symm
  | present before k v after hsplit hk =>
    subst hsplit
    exact (lookup_append_cons (hasc.between (hk trivial)).above (hk trivial)).symm

theorem Written.eq_insert (h : Written True cmp key value entries answer entries')
    (hasc : Ascending cmp entries) :
    answer = Reference.lookup cmp key entries ∧
      entries' = Reference.insert cmp key value entries := by
  cases h with
  | inserted before after hsplit hplace =>
    have hplace := hplace trivial
    rw [hsplit, insert_append hplace.above, insert_of_below hplace.below]
    exact ⟨(lookup_of_absent hplace.absent_append).symm, rfl⟩
  | replaced before k old after hsplit hk =>
    subst hsplit
    have habove := (hasc.between (hk trivial)).above
    rw [lookup_append_cons habove (hk trivial), insert_append habove]
    simp [Reference.insert, hk trivial]

theorem Removed.eq_erase (h : Removed True cmp key entries answer entries')
    (hasc : Ascending cmp entries) :
    answer = Reference.lookup cmp key entries ∧ entries' = Reference.erase cmp key entries := by
  cases h with
  | absent hnone =>
    exact ⟨(lookup_of_absent (hnone trivial)).symm, (erase_of_absent (hnone trivial)).symm⟩
  | deleted before k v after hsplit hk =>
    subst hsplit
    have habove := (hasc.between (hk trivial)).above
    exact ⟨(lookup_append_cons habove (hk trivial)).symm,
      (erase_append_cons habove (hk trivial)).symm⟩

theorem Written.ascending (h : Written True cmp key value entries answer entries')
    (hasc : Ascending cmp entries) : Ascending cmp entries' := by
  cases h with
  | inserted before after hsplit hplace =>
    subst hsplit
    obtain ⟨hbefore, hafter, hcross⟩ := List.pairwise_append.mp hasc
    refine List.pairwise_append.mpr ⟨hbefore, List.pairwise_cons.mpr ⟨?_, hafter⟩, ?_⟩
    · exact fun e he => (hplace trivial).below e he
    · intro e he e' he'
      rcases List.mem_cons.mp he' with rfl | he'
      · exact Std.OrientedCmp.lt_of_gt ((hplace trivial).above e he)
      · exact hcross e he e' he'
  | replaced before k old after hsplit hk =>
    subst hsplit
    -- only values differ, and the order looks at keys alone
    have hkeys : ∀ v : V, Ascending cmp (before ++ (k, v) :: after) ↔
        (before.map Prod.fst ++ k :: after.map Prod.fst).Pairwise fun a b => cmp a b = .lt := by
      intro v
      simp [Ascending, List.pairwise_append, List.pairwise_map]
    rw [hkeys] at hasc ⊢
    exact hasc

omit [Std.TransCmp cmp] in
theorem Removed.ascending (h : Removed True cmp key entries answer entries')
    (hasc : Ascending cmp entries) : Ascending cmp entries' := by
  cases h with
  | absent _ => exact hasc
  | deleted before k v after hsplit _ =>
    subst hsplit
    exact hasc.sublist ((List.sublist_cons_self (k, v) after).append_left before)

end Lawful

/-! ## Ranges -/

section Ranges

variable {low high k : K} {entries more : List (K × V)}

theorem between_append : Reference.between cmp low high (entries ++ more) =
    Reference.between cmp low high entries ++ Reference.between cmp low high more :=
  List.filter_append ..

/-- Entries below a key that is not above the lower bound are not in the range. -/
theorem between_eq_nil_of_low [Std.TransCmp cmp] (h : ∀ e ∈ entries, cmp e.1 k = .lt)
    (hlow : ¬ (cmp k low).isGT) : Reference.between cmp low high entries = [] := by
  unfold Reference.between
  rw [List.filter_eq_nil_iff]
  intro e he
  have hle : (cmp k low).isLE := by
    revert hlow
    cases cmp k low <;> simp
  have hlt : cmp e.1 low = .lt := Std.TransCmp.lt_of_lt_of_isLE (h e he) hle
  simp [hlt]

/-- Entries above a key that is not below the upper bound are not in the range. -/
theorem between_eq_nil_of_high [Std.TransCmp cmp] (h : ∀ e ∈ entries, cmp k e.1 = .lt)
    (hhigh : ¬ (cmp k high).isLT) : Reference.between cmp low high entries = [] := by
  unfold Reference.between
  rw [List.filter_eq_nil_iff]
  intro e he
  have hge : (cmp k high).isGE := by
    revert hhigh
    cases cmp k high <;> simp
  have hgt : cmp e.1 high = .gt :=
    Std.TransCmp.gt_of_gt_of_isGE (Std.OrientedCmp.gt_of_lt (h e he)) hge
  simp [hgt]

end Ranges

end OrderedMaps
