import Mathlib
import OrderedMaps.SlotPool

/-!
# Slots in use

* `SlotPool.Occupied`: exactly the given slots of a pool hold an element, and the free list has
  every other slot once.
* `SlotPool.Occupied.write`, `SlotPool.Occupied.allocate`, `SlotPool.Occupied.release`: what the
  operations of a pool do to the slots in use, and that they leave all other elements alone.
* `SlotPool.Occupied.size_eq`: the number of elements is the number of slots in use.
-/

namespace OrderedMaps.SlotPool

variable {α : Type} {pool : SlotPool α} {slot other : Slot} {a b : α} {slots : List Slot}

/-! ## Single slots -/

/-- The pool with another content of a slot that it has. -/
def put (pool : SlotPool α) (slot : Slot) (content : Option α) : SlotPool α :=
  { pool with slots := pool.slots.setIfInBounds slot content }

theorem lt_of_get? (h : pool.get? slot = some a) : slot < pool.slots.size := by
  rcases Nat.lt_or_ge slot pool.slots.size with hlt | hge
  · exact hlt
  · rw [get?, Array.getElem?_eq_none hge] at h
    cases h

theorem get?_put_self {content : Option α} (h : slot < pool.slots.size) :
    (pool.put slot content).get? slot = content := by
  simp [put, get?, Array.getElem?_setIfInBounds_self_of_lt h]

theorem get?_put_of_ne {content : Option α} (h : other ≠ slot) :
    (pool.put slot content).get? other = pool.get? other := by
  simp [put, get?, Array.getElem?_setIfInBounds_ne (Ne.symm h)]

@[simp] theorem size_slots_put {content : Option α} :
    (pool.put slot content).slots.size = pool.slots.size := by
  simp [put]

/-- Nothing changes if a slot gets the content that it has. -/
theorem put_self (h : pool.get? slot = some a) : pool.put slot (some a) = pool := by
  obtain ⟨slots, free⟩ := pool
  have hlt : slot < slots.size := lt_of_get? h
  simp only [get?, Array.getElem?_eq_getElem hlt, Option.join_some] at h
  simp only [put, SlotPool.mk.injEq, and_true]
  rw [Array.setIfInBounds_def, dif_pos hlt, ← h, Array.set_getElem_self]

theorem read_of_get? (h : pool.get? slot = some a) : pool.read slot = .ok a :=
  read_eq_ok_iff.2 h

theorem write_of_get? {f : α → α} (h : pool.get? slot = some a) :
    pool.write slot f = .ok (pool.put slot (some (f a))) := by
  simp [write, h, put]

/-! ## All slots -/

/-- Exactly the given slots hold an element. The free list has each of the other slots once. -/
structure Occupied (pool : SlotPool α) (slots : List Slot) : Prop where
  nodup : slots.Nodup
  /-- The given slots are those that hold an element. -/
  mem_iff : ∀ slot, slot ∈ slots ↔ (pool.get? slot).isSome
  free_nodup : pool.free.Nodup
  /-- The free slots are those that hold nothing. -/
  free_iff : ∀ slot, slot ∈ pool.free ↔ slot < pool.slots.size ∧ pool.get? slot = none

namespace Occupied

theorem empty : (SlotPool.empty : SlotPool α).Occupied [] where
  nodup := List.nodup_nil
  mem_iff slot := by simp
  free_nodup := List.nodup_nil
  free_iff slot := by simp [SlotPool.empty]

theorem perm {slots' : List Slot} (h : pool.Occupied slots) (hperm : slots.Perm slots') :
    pool.Occupied slots' :=
  { h with
    nodup := hperm.nodup_iff.mp h.nodup
    mem_iff := fun slot => by rw [← hperm.mem_iff, h.mem_iff] }

theorem get?_of_mem (h : pool.Occupied slots) (hmem : slot ∈ slots) :
    ∃ a, pool.get? slot = some a :=
  Option.isSome_iff_exists.mp ((h.mem_iff slot).mp hmem)

/-- Every slot is in use or free, and none is both. -/
theorem length_add_free (h : pool.Occupied slots) :
    slots.length + pool.free.length = pool.slots.size := by
  have hnodup : (slots ++ pool.free).Nodup := by
    refine List.nodup_append.mpr ⟨h.nodup, h.free_nodup, ?_⟩
    rintro slot hmem _ hfree rfl
    have := (h.mem_iff slot).mp hmem
    simp [((h.free_iff slot).mp hfree).2] at this
  have hperm : (slots ++ pool.free).Perm (List.range pool.slots.size) := by
    refine (List.perm_ext_iff_of_nodup hnodup List.nodup_range).mpr fun slot => ?_
    rw [List.mem_append, h.mem_iff, h.free_iff, List.mem_range]
    constructor
    · rintro (hsome | ⟨hlt, -⟩)
      · obtain ⟨a, ha⟩ := Option.isSome_iff_exists.mp hsome
        exact lt_of_get? ha
      · exact hlt
    · intro hlt
      cases hget : pool.get? slot with
      | none => exact Or.inr ⟨hlt, rfl⟩
      | some a => exact Or.inl rfl
  simpa using hperm.length_eq

theorem length_le (h : pool.Occupied slots) : slots.length ≤ pool.slots.size := by
  have := h.length_add_free
  omega

/-- The number of elements is the number of slots in use. -/
theorem size_eq (h : pool.Occupied slots) : pool.size = slots.length := by
  have := h.length_add_free
  unfold SlotPool.size
  omega

/-! ## The operations -/

theorem write (h : pool.Occupied slots) (hget : pool.get? slot = some a) :
    (pool.put slot (some b)).Occupied slots := by
  have hsome : ∀ other,
      ((pool.put slot (some b)).get? other).isSome = (pool.get? other).isSome := by
    intro other
    by_cases hother : other = slot
    · rw [hother, get?_put_self (lt_of_get? hget), hget]
      rfl
    · rw [get?_put_of_ne hother]
  refine { h with mem_iff := fun other => ?_, free_iff := fun other => ?_ }
  · rw [hsome, h.mem_iff]
  · rw [size_slots_put, ← Option.not_isSome_iff_eq_none, hsome, Option.not_isSome_iff_eq_none]
    exact h.free_iff other

/-- One more slot is in use, all others are as before. -/
theorem cons {pool' : SlotPool α} (h : pool.Occupied slots) (hnew : slot ∉ slots)
    (hself : pool'.get? slot = some a)
    (hother : ∀ other, other ≠ slot → pool'.get? other = pool.get? other)
    (hsize : ∀ other, other ≠ slot → (other < pool'.slots.size ↔ other < pool.slots.size))
    (hnodup : pool'.free.Nodup)
    (hfree : ∀ other, other ∈ pool'.free ↔ other ≠ slot ∧ other ∈ pool.free) :
    pool'.Occupied (slot :: slots) where
  nodup := List.nodup_cons.mpr ⟨hnew, h.nodup⟩
  mem_iff other := by
    by_cases hne : other = slot
    · simp [hne, hself]
    · rw [hother other hne, ← h.mem_iff]
      simp [hne]
  free_nodup := hnodup
  free_iff other := by
    by_cases hne : other = slot
    · simp [hfree, hne, hself]
    · rw [hfree, hother other hne, hsize other hne, h.free_iff]
      simp [hne]

/-- A new element goes to a slot that held nothing. A slot is added only if all are in use. -/
theorem allocate (h : pool.Occupied slots) (a : α) :
    ∃ slot pool', pool.allocate a = (slot, pool') ∧ slot ∉ slots ∧ pool'.Occupied (slot :: slots) ∧
      pool'.get? slot = some a ∧ (∀ other, other ≠ slot → pool'.get? other = pool.get? other) ∧
      pool'.slots.size ≤ max pool.slots.size (slots.length + 1) := by
  rcases hfree : pool.free with _ | ⟨slot, free⟩
  · have hself : (SlotPool.mk (pool.slots.push (some a)) []).get? pool.slots.size = some a := by
      simp [get?]
    have hother : ∀ other, other ≠ pool.slots.size →
        (SlotPool.mk (pool.slots.push (some a)) []).get? other = pool.get? other := by
      intro other hne
      simp [get?, Array.getElem?_push, hne]
    have hnew : pool.slots.size ∉ slots := by
      intro hmem
      obtain ⟨b, hb⟩ := h.get?_of_mem hmem
      exact Nat.lt_irrefl _ (lt_of_get? hb)
    have hfull : slots.length = pool.slots.size := by simpa [hfree] using h.length_add_free
    refine ⟨pool.slots.size, ⟨pool.slots.push (some a), []⟩, by simp [SlotPool.allocate, hfree],
      hnew, h.cons hnew hself hother ?_ List.nodup_nil ?_, hself, hother, by simp [hfull]⟩
    · intro other hne
      rw [Array.size_push]
      exact ⟨fun hlt => Nat.lt_of_le_of_ne (Nat.le_of_lt_succ hlt) hne, Nat.lt_succ_of_lt⟩
    · simp [hfree]
  · obtain ⟨hlt, hnone⟩ := (h.free_iff slot).mp (by simp [hfree])
    have hself : (pool.put slot (some a)).get? slot = some a := get?_put_self hlt
    have hnew : slot ∉ slots := by simp [h.mem_iff, hnone]
    have hnodup := h.free_nodup
    rw [hfree, List.nodup_cons] at hnodup
    have hsize : (pool.put slot (some a)).slots.size ≤ max pool.slots.size (slots.length + 1) := by
      rw [size_slots_put]
      exact Nat.le_max_left _ _
    refine ⟨slot, { pool.put slot (some a) with free }, by simp [SlotPool.allocate, hfree, put],
      hnew, h.cons hnew hself (fun other hne => get?_put_of_ne hne) (by simp) hnodup.2 ?_, hself,
      fun other hne => get?_put_of_ne hne, hsize⟩
    intro other
    rw [hfree, List.mem_cons]
    constructor
    · exact fun hmem => ⟨fun he => hnodup.1 (he ▸ hmem), Or.inr hmem⟩
    · rintro ⟨hne, he | hmem⟩
      · exact absurd he hne
      · exact hmem

/-- A slot that is given back is free. -/
theorem release (h : pool.Occupied (slot :: slots)) (hget : pool.get? slot = some a) :
    ∃ pool', pool.release slot = .ok (a, pool') ∧ pool'.Occupied slots ∧
      (∀ other, other ≠ slot → pool'.get? other = pool.get? other) ∧
      pool'.slots.size = pool.slots.size := by
  refine ⟨{ pool.put slot none with free := slot :: pool.free },
    by simp [SlotPool.release, hget, put], ?_⟩
  have hcontent : ∀ other, ({ pool.put slot none with free := slot :: pool.free } :
      SlotPool α).get? other = (pool.put slot none).get? other := fun _ => rfl
  have hself : (pool.put slot none).get? slot = none := get?_put_self (lt_of_get? hget)
  obtain ⟨hnot, hnodup⟩ := List.nodup_cons.mp h.nodup
  have hused : slot ∉ pool.free := by simp [h.free_iff, hget]
  refine ⟨⟨hnodup, ?_, List.nodup_cons.mpr ⟨hused, h.free_nodup⟩, ?_⟩,
    fun other hne => get?_put_of_ne hne, by simp⟩
  · intro other
    rw [hcontent]
    by_cases hne : other = slot
    · simp [hne, hself, hnot]
    · have := h.mem_iff other
      rw [get?_put_of_ne hne, ← this]
      simp [hne]
  · intro other
    rw [hcontent]
    by_cases hne : other = slot
    · subst hne
      simp [hself, lt_of_get? hget]
    · have := h.free_iff other
      simpa [hne, get?_put_of_ne hne] using this

end Occupied

end OrderedMaps.SlotPool
