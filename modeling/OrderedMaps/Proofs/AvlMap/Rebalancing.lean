import OrderedMaps.Proofs.AvlMap.SingleKey
import OrderedMaps.Proofs.Reachable

/-!
# Rebalancing is local

One insertion repairs one node at most, and then the tree is as high as it was. One removal repairs
at most one node for two levels of the tree. The comparator has no part in that.

* `AvlMap.InsertsLocally`, `AvlMap.ErasesLocally`: the steps that lead from one tree to another, and
  the heights of the two.
* `AvlMap.InsertsEach`: insertions one after the other, each of which is local.
* `AvlMap.rebalancing_local`: all writing calls for single keys, and for many, on any map that can
  be reached.
-/

namespace OrderedMaps.AvlMap

open Avl Shape

variable {K V : Type} {c : Comparator K} {key : K} {value : V} {stamp version : Nat}
  {tree tree' : Tree K V} {journal after : Journal K V} {t t' : Shape K V} {events : List Event}
  {map : AvlMap K V}

/-- Nothing is repaired, and the tree is as high as before or one level higher. Or there is one
repair, logged as one rotation or two, and the tree is as high as before. -/
def InsertsLocally (tree : Tree K V) (journal : Journal K V) (tree' : Tree K V)
    (after : Journal K V) : Prop :=
  ∃ height height' events, tree.heightAt tree.root = .ok height ∧
    tree'.heightAt tree'.root = .ok height' ∧
    after.events = journal.events ++ events.toArray ∧
    after.lines.length ≤ journal.lines.length + 2 ∧
    (events = [] ∧ (height' = height ∨ height' = height + 1) ∨
      IsRepair events ∧ height' = height)

/-- The entries are inserted one after the other, and each insertion is local. -/
inductive InsertsEach (c : Comparator K) (stamp : Nat) :
    List (K × V) → Tree K V → Journal K V → Tree K V → Journal K V → Prop
  | nil (tree : Tree K V) (journal : Journal K V) :
      InsertsEach c stamp [] tree journal tree journal
  | cons {key : K} {value : V} {more : List (K × V)} {old : Option V} {tree tree₁ tree₂ : Tree K V}
      {journal journal₁ journal₂ : Journal K V}
      (hrun : Avl.insert c key value stamp tree journal = .ok ((old, tree₁), journal₁))
      (hlocal : InsertsLocally tree journal tree₁ journal₁)
      (rest : InsertsEach c stamp more tree₁ journal₁ tree₂ journal₂) :
      InsertsEach c stamp ((key, value) :: more) tree journal tree₂ journal₂

/-- There is no more than one repair for two levels, so that no more rotations are logged than the
tree is high. Then it is as high as before, or one level lower. -/
def ErasesLocally (tree : Tree K V) (journal : Journal K V) (tree' : Tree K V)
    (after : Journal K V) : Prop :=
  ∃ height height' repairs, tree.heightAt tree.root = .ok height ∧
    tree'.heightAt tree'.root = .ok height' ∧
    after.events = journal.events ++ (List.flatten repairs).toArray ∧
    (∀ repair ∈ repairs, IsRepair repair) ∧ (repairs.length : Int) ≤ height / 2 ∧
    (after.lines.length : Int) ≤ journal.lines.length + height ∧
    (height' = height ∨ height' = height - 1)

/-! ## Log lines -/

theorem lines_of_events (h : after.events = journal.events ++ events.toArray) :
    after.lines = journal.lines ++ events.filterMap Event.line? := by
  simp [Journal.lines, h]

/-- Each repair is logged in two lines at most. -/
theorem length_lines_flatten_le {repairs : List (List Event)}
    (h : ∀ repair ∈ repairs, IsRepair repair) :
    (repairs.flatten.filterMap Event.line?).length ≤ 2 * repairs.length := by
  induction repairs with
  | nil => exact Nat.le_refl 0
  | cons repair repairs ih =>
    have hfirst := (h repair List.mem_cons_self).length_lines_le
    have hrest := ih fun other hmem => h other (List.mem_cons_of_mem _ hmem)
    rw [List.flatten_cons, List.filterMap_append, List.length_append, List.length_cons]
    omega

/-! ## Single trees -/

theorem InsertsLocally.of_grown (h : Spells tree version t) (h' : Spells tree' stamp t')
    (hgrown : Grown t t' events) (hevents : after.events = journal.events ++ events.toArray) :
    InsertsLocally tree journal tree' after := by
  refine ⟨t.height, t'.height, events, h.heightAt_root, h'.heightAt_root, hevents, ?_, ?_⟩
  · rw [lines_of_events hevents, List.length_append]
    refine Nat.add_le_add_left ?_ _
    cases hgrown with
    | settled height => exact Nat.zero_le 2
    | taller height tilted => exact Nat.zero_le 2
    | repaired _ isRepair height => exact isRepair.length_lines_le
  · cases hgrown with
    | settled height => exact .inl ⟨rfl, .inl height⟩
    | taller height tilted => exact .inl ⟨rfl, .inr height⟩
    | repaired _ isRepair height => exact .inr ⟨isRepair, height⟩

theorem ErasesLocally.of_repairs (h : Spells tree version t) (h' : Spells tree' stamp t')
    (hrepairs : Repairs t.height events) (hle : t'.height ≤ t.height)
    (hge : t.height ≤ t'.height + 1)
    (hevents : after.events = journal.events ++ events.toArray) :
    ErasesLocally tree journal tree' after := by
  obtain ⟨repairs, rfl, hall, hlength⟩ := hrepairs
  have hlines := length_lines_flatten_le hall
  refine ⟨t.height, t'.height, repairs, h.heightAt_root, h'.heightAt_root, hevents, hall,
    by omega, ?_, by omega⟩
  rw [lines_of_events hevents, List.length_append]
  omega

/-- One insertion, whether the key is found or not. -/
theorem edits_insert_local (hspells : Spells tree version t) (hstamp : version ≤ stamp) :
    Edits (Avl.insert c key value stamp) tree journal fun _ tree' after =>
      InsertsLocally tree journal tree' after ∧ ∃ t', Spells tree' stamp t' := by
  cases hx : (t.descent c key journal.calls.size).here with
  | some x =>
    refine edits_mono (edits_insert_found hspells hx) ?_
    rintro old tree' after ⟨rfl, hdiffers, rfl⟩
    have hspells' := hspells.overwrite hstamp hdiffers
    exact ⟨.of_grown hspells hspells' (.settled height_overwrite) (by simp [Journal.compared]),
      _, hspells'⟩
  | none =>
    refine edits_mono (edits_insert_missing hspells hstamp hx) ?_
    rintro old tree' after ⟨rfl, t', slot, events, hspells', -, hgrown, -, rfl⟩
    exact ⟨.of_grown hspells hspells' hgrown (by simp [Journal.noted, Journal.compared]),
      t', hspells'⟩

/-- Entries are inserted one after the other, by induction on the list of them. -/
theorem edits_forM_insert_local {new : List (K × V)} (hspells : Spells tree stamp t) :
    Edits (new.forM fun (key, value) => discard (Avl.insert c key value stamp)) tree journal
      fun _ tree' after => InsertsEach c stamp new tree journal tree' after := by
  induction new generalizing tree t journal with
  | nil => exact .nil tree journal
  | cons entry more ih =>
    obtain ⟨key, value⟩ := entry
    rw [List.forM, edits_bind, edits_discard]
    have hfirst : Edits (Avl.insert c key value stamp) tree journal _ :=
      edits_insert_local hspells (Nat.le_refl _)
    obtain ⟨⟨old, tree₁⟩, journal₁, hrun, hlocal, t₁, hspells₁⟩ := hfirst.eq_ok
    refine ends_of_eq_ok hrun (edits_mono (ih hspells₁) ?_)
    intro _ tree₂ journal₂ hrest
    exact .cons hrun hlocal hrest

/-- One removal. The size of the tree tells whether an entry was removed. -/
theorem edits_erase_local (hspells : Spells tree version t) (hstamp : version ≤ stamp) :
    Edits (Avl.erase c key stamp) tree journal fun old tree' after =>
      old = none ∧ tree' = tree ∧ after.events = journal.events ∨
        ∃ value, old = some value ∧ tree'.size + 1 = tree.size ∧
          ErasesLocally tree journal tree' after := by
  cases hx : (t.descent c key journal.calls.size).here with
  | some x =>
    refine edits_mono (edits_erase_found hspells hstamp hx) ?_
    rintro old tree' after ⟨rfl, t', events, hspells', hremoval, hrepairs, -, rfl⟩
    have hlength := congrArg List.length (toList_eq_of_here hx)
    have hlength' := congrArg List.length hremoval.toList_eq
    rw [List.map_append] at hlength'
    refine .inr ⟨x.value, rfl, ?_, .of_repairs hspells hspells' hrepairs hremoval.height_le
      hremoval.le_height (by simp [Journal.noted, Journal.compared])⟩
    rw [hspells.size_eq, hspells'.size_eq, hlength, hlength']
    simp only [List.length_append, List.length_cons]
    omega
  | none =>
    refine edits_mono (edits_erase_missing hspells hx) ?_
    rintro old tree' after ⟨rfl, rfl, rfl⟩
    exact .inl ⟨rfl, rfl, rfl⟩

/-! ## Calls -/

theorem insert_local (hspells : Spells map.tree map.version t) :
    Ends (map.insert key value) journal fun outcome after =>
      InsertsLocally map.tree journal outcome.2.tree after := by
  rw [insert, ends_edit]
  exact edits_mono (edits_insert_local hspells (Nat.le_succ _)) fun _ _ _ hold => hold.1

theorem insertIfNew_local (hspells : Spells map.tree map.version t) :
    Ends (map.insertIfNew key value) journal fun outcome after =>
      InsertsLocally map.tree journal outcome.2.tree after := by
  refine ends_insertIfNew hspells rfl (fun x hx => ?_) fun hx => ?_
  · exact .of_grown hspells hspells (.settled rfl) (by simp [Journal.compared])
  · -- the look-up before leaves the steps as they were
    exact insert_local hspells

theorem insertMany_local {new : List (K × V)} (hspells : Spells map.tree map.version t) :
    Ends (map.insertMany new) journal fun outcome after =>
      InsertsEach map.comparator (map.version + 1) new map.tree journal outcome.2.tree after := by
  have hspells' := hspells.mono (Nat.le_succ map.version)
  have hlaw : False → map.comparator.Follows fun _ _ => .eq := False.elim
  rw [insertMany, ends_edit, edits_bind, edits_getThe, edits_bind]
  refine ends_mono (ends_and (edits_forM_insert_local hspells')
    (edits_forM_insert hlaw hspells' False.elim)) ?_
  rintro ⟨_, tree'⟩ after ⟨heach, t', added, hgrown, hall, -, -⟩
  -- many insertions cannot leave fewer entries, so that the count of them is a number
  have hcount : countSince map.tree.size tree'.size = .ok added := by
    rw [hgrown.size_eq, hspells.size_eq, hall.length_eq, countSince_add]
  rw [edits_bind, edits_getThe, edits_liftM]
  exact ⟨added, hcount, heach⟩

theorem erase_local (hspells : Spells map.tree map.version t) :
    Ends (map.erase key) journal fun outcome after =>
      outcome.1 = .error .keyNotFound ∧ outcome.2.tree = map.tree ∧
          after.events = journal.events ∨
        ∃ value, outcome.1 = .ok value ∧ outcome.2.size + 1 = map.size ∧
          ErasesLocally map.tree journal outcome.2.tree after := by
  rw [erase, ends_edit]
  refine edits_bind_of (edits_erase_local hspells (Nat.le_succ _)) ?_
  rintro old tree' after (⟨rfl, hsame⟩ | ⟨value, rfl, hlocal⟩)
  · exact .inl ⟨rfl, hsame⟩
  · exact .inr ⟨value, rfl, hlocal⟩

theorem modify_local {f : V → V × Bool} (hspells : Spells map.tree map.version t) :
    Ends (map.modify key f) journal fun outcome after =>
      outcome.2.size = map.size ∧ after.events = journal.events ∨
        outcome.2.size + 1 = map.size ∧ ErasesLocally map.tree journal outcome.2.tree after := by
  refine ends_modify hspells rfl (fun hx => ?_) (fun x new tree' hx hf hdiffers => ?_)
    fun x hx hf => ?_
  · exact .inl ⟨rfl, rfl⟩
  · obtain ⟨-, -, -, rfl⟩ := hdiffers
    exact .inl ⟨rfl, rfl⟩
  · refine ends_mono (erase_local hspells) ?_
    rintro ⟨result, map'⟩ after (⟨-, hsame, hevents⟩ | ⟨value, -, hlocal⟩)
    · exact .inl ⟨congrArg Tree.size hsame, hevents⟩
    · exact .inr hlocal

/-- Whatever the comparator answers, in any state of the map: an insertion repairs one node at most,
with one rotation or two, and then the height is what it was; otherwise it grows by one at most. So
does each insertion of many. A removal of an entry repairs at most half as many nodes as the map is
high, so that it logs no more rotations than that, and the height shrinks by one at most. -/
theorem rebalancing_local (comparator : Comparator K) (map : AvlMap K V)
    (hmap : map.Reachable comparator) (journal : Journal K V) :
    (∀ key value, ∃ old map' after, map.insert key value journal = .ok ((old, map'), after) ∧
      InsertsLocally map.tree journal map'.tree after) ∧
    (∀ key value, ∃ old map' after, map.insertIfNew key value journal = .ok ((old, map'), after) ∧
      InsertsLocally map.tree journal map'.tree after) ∧
    (∀ entries, ∃ grown map' after, map.insertMany entries journal = .ok ((grown, map'), after) ∧
      InsertsEach comparator (map.version + 1) entries map.tree journal map'.tree after) ∧
    (∀ key, ∃ result map' after, map.erase key journal = .ok ((result, map'), after) ∧
      (result = .error .keyNotFound ∧ map'.tree = map.tree ∧ after.events = journal.events ∨
        ∃ value, result = .ok value ∧ map'.size + 1 = map.size ∧
          ErasesLocally map.tree journal map'.tree after)) ∧
    ∀ key f, ∃ result map' after, map.modify key f journal = .ok ((result, map'), after) ∧
      (map'.size = map.size ∧ after.events = journal.events ∨
        map'.size + 1 = map.size ∧ ErasesLocally map.tree journal map'.tree after) := by
  obtain ⟨rfl, t, hspells⟩ := hmap.spells
  refine ⟨fun key value => ?_, fun key value => ?_, fun entries => ?_, fun key => ?_,
    fun key f => ?_⟩
  · obtain ⟨⟨old, map'⟩, after, hrun, hlocal⟩ := (insert_local hspells).eq_ok
    exact ⟨old, map', after, hrun, hlocal⟩
  · obtain ⟨⟨old, map'⟩, after, hrun, hlocal⟩ := (insertIfNew_local hspells).eq_ok
    exact ⟨old, map', after, hrun, hlocal⟩
  · obtain ⟨⟨grown, map'⟩, after, hrun, hlocal⟩ := (insertMany_local hspells).eq_ok
    exact ⟨grown, map', after, hrun, hlocal⟩
  · obtain ⟨⟨result, map'⟩, after, hrun, hlocal⟩ := (erase_local hspells).eq_ok
    exact ⟨result, map', after, hrun, hlocal⟩
  · obtain ⟨⟨result, map'⟩, after, hrun, hlocal⟩ := (modify_local hspells).eq_ok
    exact ⟨result, map', after, hrun, hlocal⟩

/-- In a map of eight keys, the insertion of 6 is followed by one rotation, and the removal of 7 by
two of them, which are one repair. -/
theorem rebalancing_local_eight :
    (∃ old map' after, eightKeyAvlMap.insert 6 0 {} = .ok ((old, map'), after) ∧
      after.lines.length = 1 ∧ InsertsLocally eightKeyAvlMap.tree {} map'.tree after) ∧
    ∃ map' after, eightKeyAvlMap.erase 7 {} = .ok ((.ok 6, map'), after) ∧
      after.lines.length = 2 ∧ ErasesLocally eightKeyAvlMap.tree {} map'.tree after := by
  have hinsert : (eightKeyAvlMap.insert 6 0 {}).toOption.map
      (fun outcome => outcome.2.lines.length) = some 1 := by decide +kernel
  have herase : (eightKeyAvlMap.erase 7 {}).toOption.map
      (fun outcome => (outcome.1.1.toOption, outcome.2.lines.length)) = some (some 6, 2) := by
    decide +kernel
  obtain ⟨hput, -, -, hremove, -⟩ := rebalancing_local (.ofFn compare) eightKeyAvlMap
    reachable_eightKeyAvlMap ({} : Journal Nat Nat)
  constructor
  · obtain ⟨old, map', after, hrun, hlocal⟩ := hput 6 0
    rw [hrun] at hinsert
    exact ⟨old, map', after, hrun, Option.some.inj hinsert, hlocal⟩
  · obtain ⟨result, map', after, hrun, hresult⟩ := hremove 7
    rw [hrun] at herase
    obtain ⟨hvalue, hlines⟩ := Prod.mk.inj (Option.some.inj herase)
    rcases hresult with ⟨rfl, -⟩ | ⟨value, rfl, -, hlocal⟩
    · cases hvalue
    · obtain rfl : value = 6 := Option.some.inj hvalue
      exact ⟨map', after, hrun, hlines, hlocal⟩

end OrderedMaps.AvlMap
