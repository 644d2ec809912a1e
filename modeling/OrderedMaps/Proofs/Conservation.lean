import OrderedMaps.Proofs.BTreeMap.Session
import OrderedMaps.Proofs.Reachable

/-!
# No entry is lost

What a call does to the list of entries, whatever the comparator answers. A comparator without an
order can send a write or a removal to any place, but at that place it does to one entry what it is
meant to do, and it does nothing to any other.

* `Puts`, `PutsEach`, `Takes`: one write, several writes, and one removal.
* `Conserves`: what a call does to the list of entries, nothing being known of the order.
* `Effect.conserves`: every effect of a call is of that kind.
* `entries_conserved`: so is what a call does to any map that can be reached.
-/

namespace OrderedMaps

variable {K V : Type} {trust : Prop} {cmp : K → K → Ordering} {key : K} {value : V}
  {entries entries' : List (K × V)}

/-- The entry is inserted at one place, or it is the value of one entry that is replaced, and that
is the answer. All other entries stay as they are. -/
def Puts (key : K) (value : V) (entries : List (K × V)) : Option V → List (K × V) → Prop
  | none, entries' => ∃ before after,
      entries = before ++ after ∧ entries' = before ++ (key, value) :: after
  | some old, entries' => ∃ before k after,
      entries = before ++ (k, old) :: after ∧ entries' = before ++ (k, value) :: after

/-- The entries are put one after the other, with these answers. -/
def PutsEach : List (K × V) → List (K × V) → List (Option V) → List (K × V) → Prop
  | [], entries, answers, entries' => answers = [] ∧ entries' = entries
  | (key, value) :: more, entries, answers, entries' => ∃ answer rest middle,
      answers = answer :: rest ∧ Puts key value entries answer middle ∧
        PutsEach more middle rest entries'

/-- Nothing happens, or one entry is deleted, and its value is the answer. All other entries stay as
they are. -/
def Takes (entries : List (K × V)) : Option V → List (K × V) → Prop
  | none, entries' => entries' = entries
  | some v, entries' => ∃ before k after,
      entries = before ++ (k, v) :: after ∧ entries' = before ++ after

/-- What a call answers and does to the list of entries, and the values that it shows to its update
function, if nothing is known of the order. -/
def Conserves (entries : List (K × V)) :
    Call K V → Answer K V → List (K × V) → List V → Prop
  | .insert key value, answer, entries', seen =>
      seen = [] ∧ ∃ old, answer = .value? old ∧ Puts key value entries old entries'
  | .insertIfNew key value, answer, entries', seen =>
      seen = [] ∧
        ((∃ k v, (k, v) ∈ entries ∧ answer = .value? (some v) ∧ entries' = entries) ∨
          answer = .value? none ∧ ∃ old, Puts key value entries old entries')
  | .insertMany new, answer, entries', seen =>
      seen = [] ∧ ∃ answers, answer = .count (answers.countP Option.isNone) ∧
        PutsEach new entries answers entries'
  | .erase _, answer, entries', seen =>
      seen = [] ∧ ∃ removed, answer = Reference.orRefuse .value .keyNotFound removed ∧
        Takes entries removed entries'
  | .modify _ f, answer, entries', seen =>
      (seen = [] ∧ answer = .refused .keyNotFound ∧ entries' = entries) ∨
        ∃ before k old after, entries = before ++ (k, old) :: after ∧ seen = [old] ∧
          match f old with
          | (value, true) =>
              answer = .value? (some value) ∧ entries' = before ++ (k, value) :: after
          | (_, false) => answer = .value? none ∧ ∃ removed, Takes entries removed entries'
  | .clear, answer, entries', seen => seen = [] ∧ answer = .done ∧ entries' = []
  | _, _, entries', seen => seen = [] ∧ entries' = entries

theorem Written.puts {answer : Option V}
    (h : Written trust cmp key value entries answer entries') :
    Puts key value entries answer entries' := by
  cases h with
  | inserted before after hsplit _ => exact ⟨before, after, hsplit, rfl⟩
  | replaced before k old after hsplit _ => exact ⟨before, k, after, hsplit, rfl⟩

theorem Removed.takes {answer : Option V} (h : Removed trust cmp key entries answer entries') :
    Takes entries answer entries' := by
  cases h with
  | absent _ => exact rfl
  | deleted before k v after hsplit _ => exact ⟨before, k, after, hsplit, rfl⟩

/-- The number of entries added is that of the writes that had nothing to replace. -/
theorem WrittenAll.putsEach {new : List (K × V)} {added : Nat}
    (h : WrittenAll trust cmp new entries added entries') :
    ∃ answers, added = answers.countP Option.isNone ∧ PutsEach new entries answers entries' := by
  induction h with
  | nil => exact ⟨[], rfl, rfl, rfl⟩
  | @cons key value more entries middle entries' answer added first rest ih =>
    obtain ⟨answers, rfl, hrest⟩ := ih
    exact ⟨answer :: answers, (List.countP_cons ..).symm ▸ by split <;> rfl,
      answer, answers, middle, rfl, first.puts, hrest⟩

/-- Every effect of a call is of this kind, trusted or not. -/
theorem Effect.conserves {call : Call K V} {answer : Answer K V} {seen : List V}
    (h : Effect trust cmp entries call answer entries' seen) :
    Conserves entries call answer entries' seen := by
  cases call with
  | insert key value =>
    obtain ⟨old, hwritten, rfl, rfl⟩ := h
    exact ⟨rfl, old, rfl, hwritten.puts⟩
  | insertIfNew key value =>
    obtain ⟨rfl, ⟨v, hfound, rfl, rfl⟩ | ⟨-, rfl, old, hwritten⟩⟩ := h
    · cases hfound with
      | present before k _ after hsplit _ =>
        exact ⟨rfl, .inl ⟨k, v, by simp [hsplit], rfl, rfl⟩⟩
    · exact ⟨rfl, .inr ⟨rfl, old, hwritten.puts⟩⟩
  | insertMany new =>
    obtain ⟨added, hwritten, rfl, rfl⟩ := h
    obtain ⟨answers, rfl, hputs⟩ := hwritten.putsEach
    exact ⟨rfl, answers, rfl, hputs⟩
  | erase key =>
    obtain ⟨old, hremoved, rfl, rfl⟩ := h
    exact ⟨rfl, old, rfl, hremoved.takes⟩
  | modify key f =>
    rcases h with ⟨-, rfl, rfl, rfl⟩ | ⟨old, hfound, rfl, h⟩
    · exact .inl ⟨rfl, rfl, rfl⟩
    · right
      rcases hf : f old with ⟨value, _ | _⟩
      · rw [hf] at h
        obtain ⟨rfl, removed, hremoved⟩ := h
        cases hfound with
        | present before k _ after hsplit _ =>
          refine ⟨before, k, old, after, hsplit, rfl, ?_⟩
          rw [hf]
          exact ⟨rfl, removed, hremoved.takes⟩
      · rw [hf] at h
        obtain ⟨rfl, hwritten⟩ := h
        obtain ⟨before, k, after, hsplit, rfl⟩ := hwritten.puts
        refine ⟨before, k, old, after, hsplit, rfl, ?_⟩
        rw [hf]
        exact ⟨rfl, rfl⟩
  | clear =>
    obtain ⟨hperform, rfl⟩ := h
    obtain ⟨rfl, rfl⟩ := Prod.mk.inj hperform
    exact ⟨rfl, rfl, rfl⟩
  | get | getD | contains =>
    obtain ⟨v, -, rfl, -, rfl⟩ := h
    exact ⟨rfl, rfl⟩
  | range =>
    obtain ⟨rfl, rfl, -⟩ := h
    exact ⟨rfl, rfl⟩
  | size | isEmpty | visit | toList | keys | values | minEntry | maxEntry =>
    obtain ⟨hperform, rfl⟩ := h
    exact ⟨rfl, (Prod.mk.inj hperform).2⟩

/-- Under no comparator whatsoever does a call lose, duplicate or tear an entry, in any state that a
map of either kind can be in, whatever the degree, and wherever the search in a node arrives. The
call ends, and it does one of the things that it is meant to do to the list of entries. -/
theorem entries_conserved (comparator : Comparator K) (call : Call K V) (journal : Journal K V) :
    (∀ map : AvlMap K V, map.Reachable comparator →
      ∃ entries answer map' entries' after seen, map.toList = .ok entries ∧
        perform map call journal = .ok ((answer, map'), after) ∧ map'.toList = .ok entries' ∧
        after.shown = journal.shown ++ seen.toArray ∧
        Conserves entries call answer entries' seen) ∧
    ∀ (degree : Degree) (locator : BTree.Locator K V), locator.IsInRange →
      ∀ map : BTreeMap K V, map.Reachable comparator degree locator →
        ∃ answer map' after seen, perform map call journal = .ok ((answer, map'), after) ∧
          after.shown = journal.shown ++ seen.toArray ∧
          Conserves map.toList call answer map'.toList seen := by
  constructor
  · intro map hmap
    have hlaw : False → comparator.Follows fun _ _ => .eq := False.elim
    obtain ⟨hcomparator, entries, hholds, -⟩ := hmap.holds hlaw
    have hends : Ends (perform map call) journal _ :=
      AvlMap.ends_perform (hcomparator ▸ hlaw) hholds False.elim call
    obtain ⟨⟨answer, map'⟩, after, hrun, entries', seen, heffect, hholds', -, hshown⟩ := hends.eq_ok
    exact ⟨entries, answer, map', entries', after, seen, hholds.toList_eq, hrun, hholds'.toList_eq,
      hshown, heffect.conserves⟩
  · intro degree locator hlocator map hmap
    have hd : (⟨comparator, locator, degree.val⟩ : BTree.Discipline K V).Sound False
        fun _ _ => .eq := hlocator.sound degree comparator
    obtain ⟨hdiscipline, entries, hholds, -⟩ := hmap.holds hd
    have hends : Ends (perform map call) journal _ :=
      BTreeMap.ends_perform (hdiscipline ▸ hd) hholds False.elim call
    obtain ⟨⟨answer, map'⟩, after, hrun, entries', seen, heffect, hholds', -, hshown⟩ := hends.eq_ok
    refine ⟨answer, map', after, seen, hrun, hshown, ?_⟩
    rw [hholds.toList_eq, hholds'.toList_eq]
    exact heffect.conserves

/-- Six writes to a binary tree map under a comparator that errs at every seventh question. -/
def erringAvlMap : AvlMap Nat Nat :=
  mapAfter ⟨BTreeMap.everySeventh, Versioned.new Avl.Tree.empty⟩
    [.insertMany [(10, 0), (20, 1), (30, 2), (40, 3), (50, 4), (60, 5)]]

/-- The same writes to a multi-way tree map of degree two. -/
def erringBTreeMap : BTreeMap Nat Nat :=
  mapAfter ⟨BTreeMap.everySeventh, .least, .bisect, Versioned.new BTree.Tree.empty⟩
    [.insertMany [(10, 0), (20, 1), (30, 2), (40, 3), (50, 4), (60, 5)]]

/-- The look-up that precedes the write finds no such key, and then the write takes 25 for equal to
40 in the one map and to 20 in the other. -/
theorem entries_conserved_everySeventh :
    (∃ map after, perform erringAvlMap (.insertIfNew 25 9) { calls := #[(25, 25), (25, 25)] } =
        .ok ((.value? none, map), after) ∧
      Conserves [(10, 0), (20, 1), (30, 4), (40, 3), (60, 5)] (.insertIfNew 25 9) (.value? none)
        [(10, 0), (20, 1), (30, 4), (40, 9), (60, 5)] after.shown.toList) ∧
    ∃ map after, perform erringBTreeMap (.insertIfNew 25 9) { calls := #[(25, 25), (25, 25)] } =
        .ok ((.value? none, map), after) ∧
      Conserves [(10, 0), (20, 1), (30, 2), (40, 3), (50, 4), (60, 5)] (.insertIfNew 25 9)
        (.value? none) [(10, 0), (20, 9), (30, 2), (40, 3), (50, 4), (60, 5)]
        after.shown.toList := by
  obtain ⟨havl, hbtree⟩ := entries_conserved BTreeMap.everySeventh (.insertIfNew 25 9)
    { calls := #[(25, 25), (25, 25)] }
  constructor
  · obtain ⟨entries, answer, map, entries', after, seen, hentries, hrun, hentries', hshown,
      hconserves⟩ := havl erringAvlMap ⟨_, {}, _, rfl, reached_mapAfter ..⟩
    have hbefore : erringAvlMap.toList.toOption =
        some [(10, 0), (20, 1), (30, 4), (40, 3), (60, 5)] := by decide +kernel
    have hafter : (perform erringAvlMap (.insertIfNew 25 9)
        { calls := #[(25, 25), (25, 25)] }).toOption.map
          (fun outcome => (outcome.1.1, outcome.1.2.toList.toOption)) =
        some (.value? none, some [(10, 0), (20, 1), (30, 4), (40, 9), (60, 5)]) := by
      decide +kernel
    simp only [hentries, hrun, hentries', Except.toOption, Option.map_some, Option.some.injEq,
      Prod.mk.injEq] at hbefore hafter
    obtain ⟨rfl, rfl⟩ := hafter
    subst hbefore
    exact ⟨map, after, hrun, by simpa [hshown] using hconserves⟩
  · obtain ⟨answer, map, after, seen, hrun, hshown, hconserves⟩ :=
      hbtree .least .bisect BTree.isInRange_bisect erringBTreeMap
        ⟨_, {}, _, rfl, reached_mapAfter ..⟩
    have hbefore : erringBTreeMap.toList =
        [(10, 0), (20, 1), (30, 2), (40, 3), (50, 4), (60, 5)] := by decide +kernel
    have hafter : (perform erringBTreeMap (.insertIfNew 25 9)
        { calls := #[(25, 25), (25, 25)] }).toOption.map
          (fun outcome => (outcome.1.1, outcome.1.2.toList)) =
        some (.value? none, [(10, 0), (20, 9), (30, 2), (40, 3), (50, 4), (60, 5)]) := by
      decide +kernel
    simp only [hrun, Except.toOption, Option.map_some, Option.some.injEq, Prod.mk.injEq] at hafter
    obtain ⟨rfl, hafter⟩ := hafter
    rw [hbefore, hafter] at hconserves
    exact ⟨map, after, hrun, by simpa [hshown] using hconserves⟩

end OrderedMaps
