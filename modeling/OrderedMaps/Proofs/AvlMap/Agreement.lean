import OrderedMaps.Proofs.AvlMap.Spot
import OrderedMaps.Proofs.Reachable

/-!
# Descents that agree

A look-up descends in a loop, an insertion and a removal descend by recursion, and some calls
descend twice. Under a pure comparator, be it an order or not, they all arrive at the same place.

* `AvlMap.ends_find?_spot`: the node where a look-up arrives.
* `AvlMap.ends_insertIfNew_spot`, `AvlMap.ends_modify_spot`: calls that descend twice.
* `AvlMap.descents_agree`: the place that all calls for a key mean.
-/

namespace OrderedMaps.AvlMap

open Avl Shape

variable {K V : Type}

section Spot

variable {map : AvlMap K V} {key : K} {value : V} {journal : Journal K V} {t : Shape K V}
  {d : Descent K V}

/-- The nodes passed by on the left are those before the one where the way ends. -/
theorem ends_find?_spot (hspells : Spells map.tree map.version t)
    (hd : t.descent map.comparator key journal.calls.size = d) :
    Ends (map.tree.find? map.comparator key) journal fun found _ =>
      found = d.spot.here.bind fun _ => t.slots[d.spot.before.length]? := by
  subst hd
  rw [ends_find?_iff hspells, Descent.spot]
  cases hx : (t.descent map.comparator key journal.calls.size).here with
  | none => rfl
  | some x =>
    rw [slots, cells_eq_of_here hx]
    simp

/-- The insertion arrives where the look-up before it did. -/
theorem ends_insertIfNew_spot (hspells : Spells map.tree map.version t)
    (hd : ∀ journal : Journal K V, t.descent map.comparator key journal.calls.size = d) :
    Ends (map.insertIfNew key value) journal fun outcome _ =>
      outcome.1 = d.spot.here.map Prod.snd ∧ Holds outcome.2 (d.spot.putIfNew key value) := by
  have hentries : d.spot.entries = t.toList := hd journal ▸ entries_spot ..
  rw [Descent.map_snd_here_spot, Spot.putIfNew, Descent.isSome_here_spot]
  refine ends_insertIfNew hspells (hd journal) (fun x hx => ?_) fun hx => ?_
  · rw [hx, if_pos Option.isSome_some, hentries]
    exact ⟨rfl, t, hspells.mono (Nat.le_succ _), rfl⟩
  · refine ends_mono (ends_insert hspells (hd _)) ?_
    rintro outcome after ⟨-, -, hholds, -⟩
    rw [hx]
    exact ⟨rfl, hholds⟩

/-- The removal arrives where the look-up before it did. -/
theorem ends_modify_spot {f : V → V × Bool} (hspells : Spells map.tree map.version t)
    (hd : ∀ journal : Journal K V, t.descent map.comparator key journal.calls.size = d) :
    Ends (map.modify key f) journal fun outcome after =>
      outcome.1 = (d.spot.modify key f).1 ∧ Holds outcome.2 (d.spot.modify key f).2 ∧
        after.shown = journal.shown ++ (d.spot.here.map Prod.snd).toArray := by
  have hentries : d.spot.entries = t.toList := hd journal ▸ entries_spot ..
  have hhere : d.spot.here = d.here.map Cell.entry := rfl
  refine ends_modify hspells (hd journal) (fun hx => ?_) (fun x new tree' hx hf hdiffers => ?_)
    fun x hx hf => ?_
  · rw [Spot.modify, hhere, hx, hentries]
    exact ⟨rfl, ⟨t, hspells.mono (Nat.le_succ _), rfl⟩, by simp⟩
  · have hmodify : d.spot.modify key f = (.ok (some new), d.spot.put key new) := by
      rw [Spot.modify, hhere, hx]
      simp only [Option.map_some, Cell.entry, hf]
    rw [hmodify, hhere, hx]
    exact ⟨rfl, .of_differs hspells (hd journal) hx hdiffers, by simp [Cell.entry]⟩
  · have hmodify : d.spot.modify key f = (.ok none, d.spot.drop) := by
      rw [Spot.modify, hhere, hx]
      obtain ⟨new, hnew⟩ : ∃ new, f x.value = (new, false) := ⟨(f x.value).1, Prod.ext rfl hf⟩
      simp only [Option.map_some, Cell.entry, hnew]
    refine ends_mono (ends_erase hspells (hd _)) ?_
    rintro outcome after ⟨-, -, hholds, hshown, -⟩
    rw [hmodify, hhere, hx, hshown]
    exact ⟨rfl, hholds, by simp [Cell.entry]⟩

end Spot

/-- Let the comparator be pure, be it an order or not, and take any state of the map. Then for every
key there is one place among the entries that all calls for the key mean. A look-up arrives at the
node in that place, and answers its value. Insertion and recomputation put a value there, and
removal drops the entry there. All of them end, and all answer the value that was there, if there
was one. -/
theorem descents_agree (cmp : K → K → Ordering) (map : AvlMap K V)
    (hmap : map.Reachable (.ofFn cmp)) (key : K) :
    ∃ (slots : List Slot) (spot : Spot K V), map.tree.slots = .ok slots ∧
      map.toList = .ok spot.entries ∧ (∀ e ∈ spot.here, cmp key e.1 = .eq) ∧
      ∀ journal : Journal K V,
        (∃ after, map.tree.find? map.comparator key journal =
          .ok (spot.here.bind fun _ => slots[spot.before.length]?, after)) ∧
        (∃ after, map.get key journal = .ok (spot.value, after)) ∧
        (∃ after, map.contains key journal = .ok (spot.here.isSome, after)) ∧
        (∀ value, ∃ map' after,
          map.insert key value journal = .ok ((spot.here.map Prod.snd, map'), after) ∧
          map'.toList = .ok (spot.put key value)) ∧
        (∀ value, ∃ map' after,
          map.insertIfNew key value journal = .ok ((spot.here.map Prod.snd, map'), after) ∧
          map'.toList = .ok (spot.putIfNew key value)) ∧
        (∃ map' after, map.erase key journal = .ok ((spot.value, map'), after) ∧
          map'.toList = .ok spot.drop) ∧
        ∀ f, ∃ map' after,
          map.modify key f journal = .ok (((spot.modify key f).1, map'), after) ∧
          map'.toList = .ok (spot.modify key f).2 ∧
          after.shown = journal.shown ++ (spot.here.map Prod.snd).toArray := by
  obtain ⟨hcomparator, t, hspells⟩ := hmap.spells
  -- whatever was asked before, the way down is the same
  let d : Descent K V := t.descent (.ofFn cmp) key 0
  have hd (journal : Journal K V) : t.descent map.comparator key journal.calls.size = d := by
    rw [hcomparator]
    exact descent_ofFn _ _
  have hentries : t.toList = d.spot.entries := (entries_spot ..).symm
  refine ⟨t.slots, d.spot, hspells.slots_eq, ?_, ?_, fun journal => ⟨?_, ?_, ?_, ?_, ?_, ?_, ?_⟩⟩
  · rw [← hentries]
    exact hspells.toList_eq
  · intro e he
    obtain ⟨x, hx, rfl⟩ := Option.map_eq_some_iff.mp he
    obtain ⟨m, hm⟩ := answer_of_here hx
    exact hm
  · have hfind : Ends (map.tree.find? map.comparator key) journal _ :=
      ends_find?_spot hspells (hd journal)
    obtain ⟨_, after, hrun, rfl⟩ := hfind.eq_ok
    exact ⟨after, hrun⟩
  · have hget : Ends (map.get key) journal fun result _ => result = d.spot.value := by
      rw [ends_get_iff hspells (hd journal), Descent.value_spot]
    obtain ⟨_, after, hrun, rfl⟩ := hget.eq_ok
    exact ⟨after, hrun⟩
  · have hcontains : Ends (map.contains key) journal fun found _ => found = d.spot.here.isSome := by
      rw [ends_contains_iff hspells (hd journal), Descent.isSome_here_spot]
    obtain ⟨_, after, hrun, rfl⟩ := hcontains.eq_ok
    exact ⟨after, hrun⟩
  · intro value
    have hinsert : Ends (map.insert key value) journal _ := ends_insert hspells (hd journal)
    obtain ⟨⟨_, map'⟩, after, hrun, rfl, -, hholds, -⟩ := hinsert.eq_ok
    exact ⟨map', after, by rw [hrun, Descent.map_snd_here_spot], hholds.toList_eq⟩
  · intro value
    have hinsert : Ends (map.insertIfNew key value) journal _ := ends_insertIfNew_spot hspells hd
    obtain ⟨⟨_, map'⟩, after, hrun, rfl, hholds⟩ := hinsert.eq_ok
    exact ⟨map', after, hrun, hholds.toList_eq⟩
  · have herase : Ends (map.erase key) journal _ := ends_erase hspells (hd journal)
    obtain ⟨⟨_, map'⟩, after, hrun, rfl, -, hholds, -⟩ := herase.eq_ok
    exact ⟨map', after, by rw [hrun, Descent.value_spot], hholds.toList_eq⟩
  · intro f
    have hmodify : Ends (map.modify key f) journal _ := ends_modify_spot hspells hd
    obtain ⟨⟨_, map'⟩, after, hrun, rfl, hholds, hshown⟩ := hmodify.eq_ok
    exact ⟨map', after, hrun, hholds.toList_eq, hshown⟩

/-- A comparison that goes round in a circle: every digit is below the next two and above the two
before, from 0 to 4 and on to 0. -/
def circular (a b : Nat) : Ordering :=
  match (b + 5 - a % 5) % 5 with
  | 0 => .eq
  | 1 | 2 => .lt
  | _ => .gt

/-- A map of five keys, of which none is the smallest. -/
def circularAvlMap : AvlMap Nat Nat :=
  mapAfter ⟨.ofFn circular, Versioned.new Tree.empty⟩
    [.insertMany [(0, 5), (1, 6), (2, 7), (3, 8), (4, 9)]]

/-- What a look-up for 3 finds there is removed, and all other entries stay. -/
theorem descents_agree_circular : ∃ before k behind map' after,
    circularAvlMap.toList = .ok (before ++ (k, 8) :: behind) ∧ circular 3 k = .eq ∧
    circularAvlMap.erase 3 {} = .ok ((.ok 8, map'), after) ∧
    map'.toList = .ok (before ++ behind) := by
  have hget : (circularAvlMap.get 3 {}).toOption.map
      (fun outcome => Answer.ofExcept Answer.value outcome.1) =
        some (.value 8 : Answer Nat Nat) := by decide +kernel
  obtain ⟨_, ⟨before, here, behind⟩, -, hentries, hequal, hcalls⟩ := descents_agree circular
    circularAvlMap ⟨_, {}, _, rfl, reached_mapAfter ..⟩ 3
  obtain ⟨-, ⟨later, hvalue⟩, -, -, -, ⟨map', after, herase, hdrop⟩, -⟩ := hcalls {}
  rw [hvalue] at hget
  cases here with
  | none => cases hget
  | some e =>
    obtain ⟨k, v⟩ := e
    obtain rfl : v = 8 := Answer.value.inj (Option.some.inj hget)
    refine ⟨before, k, behind, map', after, ?_, hequal _ rfl, herase, hdrop⟩
    rw [hentries, Spot.entries, List.append_assoc]
    rfl

end OrderedMaps.AvlMap
