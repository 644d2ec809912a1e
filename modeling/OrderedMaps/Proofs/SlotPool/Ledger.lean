import OrderedMaps.Proofs.SlotPool

/-!
# The ledger of a pool

Everything that is done with a pool is booked in a ledger: which elements are in which slots, which
slots were given back, and how many elements there were at most at one time. The ledger knows
nothing of how the pool keeps its elements. Still it is enough to tell what every read answers,
which slot comes next, and how many slots were made.

* `Ledger`: the books, with `Ledger.allocate`, `Ledger.write` and `Ledger.release`.
* `SlotPool.Booked`: a pool and its ledger after any uses of elements that are there.
* `SlotPool.Balances`: what a pool and its ledger have to do with each other, which every use of the
  pool keeps up.
* `SlotPool.ledger_exact`: what can be told from the ledger.
-/

namespace OrderedMaps

variable {α : Type}

/-- What was done with a pool since it was last emptied. -/
structure Ledger (α : Type) where
  /-- The elements in the pool, each with its slot, as last written. -/
  live : List (Slot × α) := []
  /-- The slots given back and not taken again, the one given back last in front. -/
  freed : List Slot := []
  /-- The greatest number of elements at one time. -/
  peak : Nat := 0

namespace Ledger

/-- The slots in use. -/
def slots (ledger : Ledger α) : List Slot := ledger.live.map Prod.fst

/-- An element was put into a slot. -/
def allocate (ledger : Ledger α) (slot : Slot) (a : α) : Ledger α where
  live := (slot, a) :: ledger.live
  freed := ledger.freed.erase slot
  peak := max ledger.peak (ledger.live.length + 1)

/-- The element in a slot was overwritten. -/
def write (ledger : Ledger α) (slot : Slot) (a : α) : Ledger α :=
  { ledger with live := ledger.live.map fun e => if e.1 = slot then (slot, a) else e }

/-- A slot was given back. -/
def release (ledger : Ledger α) (slot : Slot) : Ledger α :=
  { ledger with
    live := ledger.live.filter fun e => e.1 != slot
    freed := slot :: ledger.freed }

variable {ledger : Ledger α} {slot other : Slot} {a b : α}

theorem mem_slots_of_mem (h : (slot, a) ∈ ledger.live) : slot ∈ ledger.slots :=
  List.mem_map_of_mem h

@[simp] theorem slots_allocate : (ledger.allocate slot a).slots = slot :: ledger.slots := rfl

@[simp] theorem slots_write : (ledger.write slot a).slots = ledger.slots := by
  have hfst : (Prod.fst ∘ fun e : Slot × α => if e.1 = slot then (slot, a) else e) = Prod.fst := by
    ext e
    by_cases h : e.1 = slot
    · simp [h]
    · simp [h]
  rw [slots, slots, write, List.map_map, hfst]

theorem slots_release (hnodup : ledger.slots.Nodup) :
    (ledger.release slot).slots = ledger.slots.erase slot := by
  rw [hnodup.erase_eq_filter, slots, slots, List.filter_map]
  rfl

theorem mem_write (h : (other, b) ∈ (ledger.write slot a).live) :
    other = slot ∧ b = a ∨ other ≠ slot ∧ (other, b) ∈ ledger.live := by
  obtain ⟨e, hmem, he⟩ := List.mem_map.mp h
  by_cases hslot : e.1 = slot
  · rw [if_pos hslot, Prod.mk.injEq] at he
    exact .inl ⟨he.1.symm, he.2.symm⟩
  · rw [if_neg hslot] at he
    subst he
    exact .inr ⟨hslot, hmem⟩

theorem mem_release : (other, b) ∈ (ledger.release slot).live ↔
    (other, b) ∈ ledger.live ∧ other ≠ slot := by
  simp [release]

end Ledger

namespace SlotPool

/-- Elements are put into a new pool, overwritten and taken out again, and the pool is emptied, in
any order. Only elements that are there are overwritten or taken out. All of it is booked. -/
inductive Booked : SlotPool α → Ledger α → Prop
  | new : Booked .empty {}
  | allocate {pool : SlotPool α} {ledger : Ledger α} (a : α) (booked : Booked pool ledger) :
      Booked (pool.allocate a).2 (ledger.allocate (pool.allocate a).1 a)
  | write {pool pool' : SlotPool α} {ledger : Ledger α} {slot : Slot} {a : α} (f : α → α)
      (booked : Booked pool ledger) (live : (slot, a) ∈ ledger.live)
      (hrun : pool.write slot f = .ok pool') : Booked pool' (ledger.write slot (f a))
  | release {pool pool' : SlotPool α} {ledger : Ledger α} {slot : Slot} {a b : α}
      (booked : Booked pool ledger) (live : (slot, a) ∈ ledger.live)
      (hrun : pool.release slot = .ok (b, pool')) : Booked pool' (ledger.release slot)
  | clear {pool : SlotPool α} {ledger : Ledger α} (booked : Booked pool ledger) :
      Booked pool.clear {}

/-- The ledger is right about the pool. -/
structure Balances (pool : SlotPool α) (ledger : Ledger α) : Prop where
  /-- The slots in use are those of the ledger. -/
  occupied : pool.Occupied ledger.slots
  /-- Each of them holds the element as last written. -/
  get?_eq : ∀ slot a, (slot, a) ∈ ledger.live → pool.get? slot = some a
  free_eq : pool.free = ledger.freed
  /-- No slot was made as long as there was an empty one. -/
  size_slots : pool.slots.size = ledger.peak

variable {pool pool' : SlotPool α} {ledger : Ledger α} {slot : Slot} {a b : α}

/-! ## Which slot comes next -/

theorem fst_allocate (pool : SlotPool α) (a : α) :
    (pool.allocate a).1 = pool.free.headD pool.slots.size := by
  unfold SlotPool.allocate
  cases pool.free with
  | nil => rfl
  | cons slot free => rfl

theorem free_allocate (pool : SlotPool α) (a : α) :
    (pool.allocate a).2.free = pool.free.tail := by
  unfold SlotPool.allocate
  cases pool.free with
  | nil => rfl
  | cons slot free => rfl

theorem size_slots_allocate (pool : SlotPool α) (a : α) : (pool.allocate a).2.slots.size =
    if pool.free = [] then pool.slots.size + 1 else pool.slots.size := by
  unfold SlotPool.allocate
  cases pool.free with
  | nil => simp
  | cons slot free => simp

/-! ## Single uses -/

namespace Balances

theorem new : Balances (.empty : SlotPool α) {} where
  occupied := .empty
  get?_eq _ _ hmem := nomatch hmem
  free_eq := rfl
  size_slots := rfl

theorem get?_eq_some_iff (h : Balances pool ledger) :
    pool.get? slot = some a ↔ (slot, a) ∈ ledger.live := by
  constructor
  · intro hget
    have hmem : slot ∈ ledger.slots := (h.occupied.mem_iff slot).mpr (by simp [hget])
    obtain ⟨e, hlive, rfl⟩ := List.mem_map.mp hmem
    obtain rfl : e.2 = a := Option.some.inj ((h.get?_eq e.1 e.2 hlive).symm.trans hget)
    exact hlive
  · exact h.get?_eq slot a

/-- There are as many slots as elements and empty slots. -/
theorem length_add_free (h : Balances pool ledger) :
    ledger.live.length + pool.free.length = ledger.peak := by
  have hlength := h.occupied.length_add_free
  rw [Ledger.slots, List.length_map] at hlength
  rw [hlength, h.size_slots]

/-- An element is put into the slot given back last, or else into a new one. -/
theorem allocate (h : Balances pool ledger) (a : α) :
    (pool.allocate a).1 = ledger.freed.headD ledger.peak ∧ (pool.allocate a).1 ∉ ledger.slots ∧
      Balances (pool.allocate a).2 (ledger.allocate (pool.allocate a).1 a) := by
  have hnext : (pool.allocate a).1 = ledger.freed.headD ledger.peak := by
    rw [fst_allocate, h.free_eq, h.size_slots]
  have hcount := h.length_add_free
  obtain ⟨slot, pool', hrun, hnew, hoccupied, hself, hother, -⟩ := h.occupied.allocate a
  have hfree := free_allocate pool a
  have hsize := size_slots_allocate pool a
  rw [hrun] at hnext hfree hsize ⊢
  dsimp only at hnext hfree hsize ⊢
  refine ⟨hnext, hnew, ⟨hoccupied, ?_, ?_, ?_⟩⟩
  · intro other b hmem
    rcases List.mem_cons.mp hmem with he | hmem
    · obtain ⟨rfl, rfl⟩ := Prod.mk.inj he
      exact hself
    · have hne : other ≠ slot := fun he => hnew (he ▸ Ledger.mem_slots_of_mem hmem)
      rw [hother other hne]
      exact h.get?_eq other b hmem
  · rw [hfree, h.free_eq]
    cases hfreed : ledger.freed with
    | nil => simp [Ledger.allocate, hfreed]
    | cons first rest =>
      rw [hfreed, List.headD_cons] at hnext
      simp [Ledger.allocate, hfreed, hnext]
  · have hpeak : (ledger.allocate slot a).peak = max ledger.peak (ledger.live.length + 1) := rfl
    rw [hsize, h.size_slots, hpeak]
    by_cases hempty : pool.free = []
    · rw [hempty, List.length_nil] at hcount
      rw [if_pos hempty]
      omega
    · have hpos := List.length_pos_of_ne_nil hempty
      rw [if_neg hempty]
      omega

/-- The element in a slot is overwritten, and no other slot is touched. -/
theorem write (h : Balances pool ledger) (f : α → α) (hlive : (slot, a) ∈ ledger.live) :
    ∃ pool', pool.write slot f = .ok pool' ∧ Balances pool' (ledger.write slot (f a)) := by
  have hget := h.get?_eq slot a hlive
  refine ⟨_, write_of_get? hget, ⟨?_, ?_, h.free_eq, ?_⟩⟩
  · rw [Ledger.slots_write]
    exact h.occupied.write hget
  · intro other b hmem
    rcases Ledger.mem_write hmem with ⟨rfl, rfl⟩ | ⟨hne, hmem⟩
    · exact get?_put_self (lt_of_get? hget)
    · rw [get?_put_of_ne hne]
      exact h.get?_eq other b hmem
  · rw [size_slots_put]
    exact h.size_slots

/-- The element is handed over, and its slot is the first to be taken again. -/
theorem release (h : Balances pool ledger) (hlive : (slot, a) ∈ ledger.live) :
    ∃ pool', pool.release slot = .ok (a, pool') ∧ Balances pool' (ledger.release slot) := by
  have hget := h.get?_eq slot a hlive
  have hperm := List.perm_cons_erase (Ledger.mem_slots_of_mem hlive)
  obtain ⟨pool', hrun, hoccupied, hother, hsize⟩ := (h.occupied.perm hperm).release hget
  refine ⟨pool', hrun, ⟨?_, ?_, ?_, hsize.trans h.size_slots⟩⟩
  · rw [Ledger.slots_release h.occupied.nodup]
    exact hoccupied
  · intro other b hmem
    obtain ⟨hmem, hne⟩ := Ledger.mem_release.mp hmem
    rw [hother other hne]
    exact h.get?_eq other b hmem
  · simp only [SlotPool.release, hget] at hrun
    obtain ⟨-, rfl⟩ := Prod.mk.inj (Except.ok.inj hrun)
    exact congrArg (slot :: ·) h.free_eq

end Balances

/-! ## All uses -/

/-- Whatever was done with a pool, its ledger is right about it. -/
theorem Booked.balances (h : Booked pool ledger) : Balances pool ledger := by
  induction h with
  | new => exact .new
  | allocate a _ ih => exact (ih.allocate a).2.2
  | write f _ hlive hrun ih =>
    obtain ⟨pool', hrun', hbalances⟩ := ih.write f hlive
    obtain rfl := Except.ok.inj (hrun'.symm.trans hrun)
    exact hbalances
  | release _ hlive hrun ih =>
    obtain ⟨pool', hrun', hbalances⟩ := ih.release hlive
    obtain ⟨-, rfl⟩ := Prod.mk.inj (Except.ok.inj (hrun'.symm.trans hrun))
    exact hbalances
  | clear _ _ => exact .new

/-- Let elements be put into a new pool, overwritten and taken out again, and let it be emptied now
and then, in any order, as long as only elements that are there are overwritten or taken out.
Then every read of a slot answers the element last written there, if the slot is in use, and there
is no other answer. Each empty slot is on the free list, once, and no slot in use is. The count of
elements is right, and is the difference of two numbers of which the first is not the smaller. There
are just as many slots as there were elements at one time since the pool was last emptied, so that
no slot has a greater number. The next element goes to a slot that is not in use, which is the one
given back last, if any is empty, and else a new one. After the pool is emptied, the first slot is
zero again. Elements that are there can always be overwritten and taken out, and the one taken out
is the one last written. -/
theorem ledger_exact (pool : SlotPool α) (ledger : Ledger α) (h : pool.Booked ledger) :
    (∀ slot a, pool.read slot = .ok a ↔ (slot, a) ∈ ledger.live) ∧
    ledger.slots.Nodup ∧ pool.free = ledger.freed ∧ ledger.freed.Nodup ∧
    (∀ slot, slot ∈ ledger.freed ↔ slot < pool.slots.size ∧ slot ∉ ledger.slots) ∧
    pool.free.length ≤ pool.slots.size ∧ pool.size = ledger.live.length ∧
    pool.slots.size = ledger.peak ∧ (∀ slot ∈ ledger.slots, slot < ledger.peak) ∧
    (∀ a, (pool.allocate a).1 = ledger.freed.headD ledger.peak ∧
      (pool.allocate a).1 ∉ ledger.slots ∧ (pool.clear.allocate a).1 = 0) ∧
    (∀ slot a f, (slot, a) ∈ ledger.live →
      ∃ pool', pool.write slot f = .ok pool' ∧ pool'.Booked (ledger.write slot (f a))) ∧
    ∀ slot a, (slot, a) ∈ ledger.live →
      ∃ pool', pool.release slot = .ok (a, pool') ∧ pool'.Booked (ledger.release slot) := by
  have hbalances := h.balances
  have hoccupied := hbalances.occupied
  have hmem : ∀ slot, slot ∉ ledger.slots ↔ pool.get? slot = none := by
    intro slot
    rw [hoccupied.mem_iff, Option.not_isSome_iff_eq_none]
  refine ⟨?_, hoccupied.nodup, hbalances.free_eq, ?_, ?_, ?_, ?_, hbalances.size_slots, ?_, ?_, ?_,
    ?_⟩
  · intro slot a
    rw [read_eq_ok_iff, hbalances.get?_eq_some_iff]
  · rw [← hbalances.free_eq]
    exact hoccupied.free_nodup
  · intro slot
    rw [← hbalances.free_eq, hoccupied.free_iff, hmem]
  · have hlength := hoccupied.length_add_free
    omega
  · rw [hoccupied.size_eq, Ledger.slots, List.length_map]
  · intro slot hslot
    obtain ⟨a, ha⟩ := hoccupied.get?_of_mem hslot
    rw [← hbalances.size_slots]
    exact lt_of_get? ha
  · intro a
    obtain ⟨hnext, hnew, -⟩ := hbalances.allocate a
    exact ⟨hnext, hnew, rfl⟩
  · intro slot a f hlive
    obtain ⟨pool', hrun, -⟩ := hbalances.write f hlive
    exact ⟨pool', hrun, .write f h hlive hrun⟩
  · intro slot a hlive
    obtain ⟨pool', hrun, -⟩ := hbalances.release hlive
    exact ⟨pool', hrun, .release h hlive hrun⟩

/-- Two elements are put into a pool, the first is taken out, and the second is overwritten. -/
theorem ledger_exact_reused : ∃ pool : SlotPool Nat, pool.Booked ⟨[(1, 9)], [0], 2⟩ ∧
    pool.read 1 = .ok 9 ∧ pool.size = 1 ∧ pool.slots.size = 2 ∧ (pool.allocate 5).1 = 0 := by
  have hlive : ((0, 7) : Slot × Nat) ∈ [(1, 8), (0, 7)] := by decide
  have htaken : Booked ⟨#[none, some 8], [0]⟩ (⟨[(1, 8)], [0], 2⟩ : Ledger Nat) :=
    .release (.allocate 8 (.allocate 7 .new)) hlive rfl
  have hbooked : Booked ⟨#[none, some 9], [0]⟩ (⟨[(1, 9)], [0], 2⟩ : Ledger Nat) := by
    have hwritten := Booked.write (· + 1) htaken List.mem_cons_self rfl
    exact hwritten
  obtain ⟨hread, -, -, -, -, -, hsize, hslots, -, hnext, -⟩ := ledger_exact _ _ hbooked
  exact ⟨_, hbooked, (hread 1 9).mpr List.mem_cons_self, hsize, hslots, (hnext 5).1⟩

end SlotPool

end OrderedMaps
