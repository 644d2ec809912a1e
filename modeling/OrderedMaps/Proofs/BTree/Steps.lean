import OrderedMaps.Proofs.Run

/-!
# The steps of one descent

A descent into a multi-way tree notes the nodes that it enters and each split, loan and merge on its
way, with the numbers of keys that these rely on.

* `Event.Meets`: the numbers are such that the step can be taken below a root.
* `BTree.Steps`: a part of a descent, all the steps of which can be taken, and that rearranges no
  more nodes than a given number.
-/

namespace OrderedMaps

/-- The step moves entries between neighbours. -/
def Event.rearranges : Event → Bool
  | splitting .. => true
  | borrowing .. => true
  | merging .. => true
  | _ => false

/-- The step is one below the root of a tree of degree `t`, and the nodes that it works on have the
numbers of keys that it relies on: an insertion reaches nodes with room for a key, and splits full
children; a removal reaches nodes that can lose a key, takes keys from siblings that can lose one,
and merges children that cannot. -/
def Event.Meets (t : Nat) : Event → Prop
  | insertingInto keys => keys < 2 * t - 1
  | splitting _ degree childKeys parentKeys =>
      degree = t ∧ childKeys = 2 * t - 1 ∧ parentKeys < 2 * t - 1
  | removingFrom atRoot keys => atRoot = false ∧ t ≤ keys
  | poppingFrom _ keys => t ≤ keys
  | borrowing _ _ donorKeys => t ≤ donorKeys
  | merging _ leftKeys rightKeys => leftKeys = t - 1 ∧ rightKeys = t - 1
  | _ => False

namespace BTree

variable {K V α : Type} {t m n total : Nat} {event : Event} {journal later last : Journal K V}

/-- No values were shown, and the steps that were taken since the first journal can be taken. At
most `n` of them moved entries between neighbours. -/
structure Steps (t n : Nat) (journal later : Journal K V) : Prop where
  shown_eq : later.shown = journal.shown
  events : ∃ events : List Event, later.events = journal.events ++ events.toArray ∧
    (∀ event ∈ events, event.Meets t) ∧ events.countP Event.rearranges ≤ n

theorem Steps.of_quiet (h : journal.Quiet later) : Steps t 0 journal later :=
  ⟨h.shown_eq, [], by simp [h.events_eq], by simp, Nat.le_refl 0⟩

theorem Steps.refl (t : Nat) (journal : Journal K V) : Steps t 0 journal journal :=
  .of_quiet (.refl journal)

theorem Steps.mono (h : Steps t m journal later) (hle : m ≤ n) : Steps t n journal later := by
  obtain ⟨events, hevents, hmeets, hcount⟩ := h.events
  exact ⟨h.shown_eq, events, hevents, hmeets, Nat.le_trans hcount hle⟩

theorem Steps.trans (h : Steps t m journal later) (h' : Steps t n later last) :
    Steps t (m + n) journal last := by
  obtain ⟨events, hevents, hmeets, hcount⟩ := h.events
  obtain ⟨more, hmore, hmeets', hcount'⟩ := h'.events
  refine ⟨h'.shown_eq.trans h.shown_eq, events ++ more, by simp [hmore, hevents], ?_, ?_⟩
  · intro event hmem
    rcases List.mem_append.mp hmem with hmem | hmem
    · exact hmeets event hmem
    · exact hmeets' event hmem
  · rw [List.countP_append]
    exact Nat.add_le_add hcount hcount'

/-- The rest of a descent, after a part of it. -/
theorem Steps.prepend {run : Run K V α} {R : α → Prop} (h : Steps t m journal later)
    (htotal : m + n ≤ total) (hrun : Ends run later fun a last => R a ∧ Steps t n later last) :
    Ends run later fun a last => R a ∧ Steps t total journal last :=
  ends_mono hrun fun _ _ hlast => ⟨hlast.1, (h.trans hlast.2).mono htotal⟩

/-- One step. -/
theorem Steps.noted (h : event.Meets t) (journal : Journal K V) :
    Steps t event.rearranges.toNat journal (journal.noted [event]) := by
  refine ⟨rfl, [event], rfl, ?_, ?_⟩
  · intro other hmem
    rwa [List.mem_singleton.mp hmem]
  · rw [List.countP_singleton]
    cases event.rearranges <;> exact Nat.le_refl _

end BTree

end OrderedMaps
