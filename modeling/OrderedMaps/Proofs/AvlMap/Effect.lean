import OrderedMaps.Proofs.Avl.Audit
import OrderedMaps.Proofs.AvlMap.SingleKey
import OrderedMaps.Proofs.Contract.Effect

/-!
# Effects of calls on binary tree maps

* `AvlMap.Holds`: the tree of a map spells out a sound shape with the given entries.
* `AvlMap.Follow`: what may change in a map from one call to the next.
* `AvlMap.performs_insert`, …: calls that open the map for writing.
* `AvlMap.ends_perform`: no call on such a map ends in a fault. Each has its effect on the entries,
  and leaves such a map.
-/

namespace OrderedMaps.AvlMap

open Avl Shape

variable {K V : Type} {trust : Prop} {cmp : K → K → Ordering} {map map' : AvlMap K V}
  {entries : List (K × V)} {journal : Journal K V} {t : Shape K V}

/-- The tree spells out a sound shape with the given entries, none of which was written after the
current version. -/
def Holds (map : AvlMap K V) (entries : List (K × V)) : Prop :=
  ∃ t : Shape K V, Spells map.tree map.version t ∧ t.toList = entries

/-- What may change from one call to the next: a call that writes advances the version by one, and
other calls change nothing. A slot is added only if all are in use. -/
structure Follow (writes : Bool) (map map' : AvlMap K V) : Prop where
  comparator_eq : map'.comparator = map.comparator
  version_eq : map'.version = map.version + if writes then 1 else 0
  unchanged : writes = false → map' = map
  capacity_le : map'.tree.pool.slots.size ≤ max map.tree.pool.slots.size map'.size

theorem Follow.refl (map : AvlMap K V) : Follow false map map :=
  ⟨rfl, rfl, fun _ => rfl, Nat.le_max_left _ _⟩

theorem Holds.size_eq (h : Holds map entries) : map.size = entries.length := by
  obtain ⟨t, hspells, rfl⟩ := h
  exact hspells.size_eq

theorem Holds.toList_eq (h : Holds map entries) : map.toList = .ok entries := by
  obtain ⟨t, hspells, rfl⟩ := h
  exact hspells.toList_eq

/-! ## Writing -/

/-- The tree after an edit is in good order, and the edit had the effect of a call. -/
def Performs (trust : Prop) (cmp : K → K → Ordering) (entries : List (K × V)) (call : Call K V)
    (stamp : Nat) (tree : Tree K V) (journal : Journal K V) (answer : Answer K V)
    (tree' : Tree K V) (after : Journal K V) : Prop :=
  ∃ (t' : Shape K V) (seen : List V), Spells tree' stamp t' ∧
    Effect trust cmp entries call answer t'.toList seen ∧
    after.shown = journal.shown ++ seen.toArray ∧
    tree'.pool.slots.size ≤ max tree.pool.slots.size tree'.size

theorem ends_write {β : Type} {run : Run K V (β × AvlMap K V)} {g : β → Answer K V}
    {call : Call K V} (hwrites : call.writes = true)
    (h : Ends run journal fun outcome after => ∃ tree', outcome.2 = map.written tree' ∧
      Performs trust cmp entries call (map.version + 1) map.tree journal (g outcome.1) tree'
        after) :
    Ends (run >>= fun outcome => pure (g outcome.1, outcome.2)) journal
      fun outcome after => ∃ entries' seen, Effect trust cmp entries call outcome.1 entries' seen ∧
        Holds outcome.2 entries' ∧ Follow call.writes map outcome.2 ∧
        after.shown = journal.shown ++ seen.toArray := by
  refine ends_bind_of h ?_
  rintro ⟨result, _⟩ after ⟨tree', rfl, t', seen, hspells, heffect, hshown, hcapacity⟩
  have hfollow : Follow call.writes map (map.written tree') := by
    rw [hwrites]
    exact ⟨rfl, rfl, by simp, hcapacity⟩
  exact ⟨t'.toList, seen, heffect, ⟨t', hspells, rfl⟩, hfollow, hshown⟩

section Writing

variable {key : K} {value : V}

theorem performs_insert (hlaw : trust → map.comparator.Follows cmp)
    (hspells : Spells map.tree map.version t) (hasc : trust → Ascending cmp t.toList) :
    Ends (map.insert key value) journal fun outcome after => ∃ tree',
      outcome.2 = map.written tree' ∧ Performs trust cmp t.toList (.insert key value)
        (map.version + 1) map.tree journal (.value? outcome.1) tree' after := by
  rw [insert, ends_edit]
  refine edits_mono (edits_insert hlaw hspells hasc (Nat.le_succ _)) ?_
  rintro old tree' after ⟨t', hspells', hwritten, hcapacity, hshown⟩
  exact ⟨tree', rfl, t', [], hspells', ⟨old, hwritten, rfl, rfl⟩, by simp [hshown], hcapacity⟩

theorem performs_insertIfNew (hlaw : trust → map.comparator.Follows cmp)
    (hspells : Spells map.tree map.version t) (hasc : trust → Ascending cmp t.toList) :
    Ends (map.insertIfNew key value) journal fun outcome after => ∃ tree',
      outcome.2 = map.written tree' ∧ Performs trust cmp t.toList (.insertIfNew key value)
        (map.version + 1) map.tree journal (.value? outcome.1) tree' after := by
  have hfound : Found trust cmp key t.toList _ := found_descent hlaw hasc journal.calls.size
  refine ends_insertIfNew hspells rfl (fun x hx => ?_) fun hx => ?_
  · rw [hx] at hfound
    exact ⟨map.tree, rfl, t, [], hspells.mono (Nat.le_succ _),
      ⟨rfl, .inl ⟨x.value, hfound, rfl, rfl⟩⟩, by simp, Nat.le_max_left _ _⟩
  · rw [hx] at hfound
    rw [insert, ends_edit]
    refine edits_mono (edits_insert hlaw hspells hasc (Nat.le_succ _)) ?_
    rintro old tree' after ⟨t', hspells', hwritten, hcapacity, hshown⟩
    exact ⟨tree', rfl, t', [], hspells', ⟨rfl, .inr ⟨hfound, rfl, old, hwritten⟩⟩,
      by simp [hshown], hcapacity⟩

/-- Entries are written one after the other, by induction on the list of them. -/
theorem edits_forM_insert {c : Comparator K} {tree : Tree K V} {stamp : Nat}
    (hlaw : trust → c.Follows cmp) {new : List (K × V)}
    (hspells : Spells tree stamp t) (hasc : trust → Ascending cmp t.toList) :
    Edits (new.forM fun (key, value) => discard (Avl.insert c key value stamp)) tree journal
      fun _ tree' after => ∃ t' added, Spells tree' stamp t' ∧
        WrittenAll trust cmp new t.toList added t'.toList ∧
        tree'.pool.slots.size ≤ max tree.pool.slots.size tree'.size ∧
        after.shown = journal.shown := by
  induction new generalizing tree t journal with
  | nil => exact ⟨t, 0, hspells, .nil, Nat.le_max_left _ _, rfl⟩
  | cons entry more ih =>
    obtain ⟨key, value⟩ := entry
    rw [List.forM, edits_bind, edits_discard]
    refine edits_mono (edits_insert hlaw hspells hasc (Nat.le_refl _)) ?_
    intro old tree₁ after hold
    obtain ⟨t₁, hspells₁, hwritten, hcapacity, hshown⟩ := hold
    have hasc₁ : trust → Ascending cmp t₁.toList := by
      intro ht
      have := (hlaw ht).lawful
      exact (hwritten.imp fun _ => ht).ascending (hasc ht)
    refine edits_mono (ih hspells₁ hasc₁) ?_
    intro _ tree₂ after' hafter'
    obtain ⟨t₂, added, hspells₂, hall, hcapacity', hshown'⟩ := hafter'
    refine ⟨t₂, _, hspells₂, .cons hwritten hall, ?_, hshown'.trans hshown⟩
    have hsize := hall.length_eq
    rw [← hspells₁.size_eq, ← hspells₂.size_eq] at hsize
    omega

theorem performs_insertMany (hlaw : trust → map.comparator.Follows cmp) {new : List (K × V)}
    (hspells : Spells map.tree map.version t) (hasc : trust → Ascending cmp t.toList) :
    Ends (map.insertMany new) journal fun outcome after => ∃ tree',
      outcome.2 = map.written tree' ∧ Performs trust cmp t.toList (.insertMany new)
        (map.version + 1) map.tree journal (.count outcome.1) tree' after := by
  rw [insertMany, ends_edit, edits_bind, edits_getThe, edits_bind]
  refine edits_mono (edits_forM_insert hlaw (hspells.mono (Nat.le_succ _)) hasc) ?_
  intro _ tree₁ after hafter
  obtain ⟨t₁, added, hspells₁, hall, hcapacity, hshown⟩ := hafter
  -- the count after minus the count before is the number of keys that were inserted
  have hcount : countSince map.tree.size tree₁.size = .ok added := by
    rw [hspells₁.size_eq, hspells.size_eq, hall.length_eq, countSince_add]
  rw [edits_bind, edits_getThe, edits_liftM]
  exact ⟨added, hcount, tree₁, rfl, t₁, [], hspells₁, ⟨added, hall, rfl, rfl⟩, by simp [hshown],
    hcapacity⟩

theorem performs_modify (hlaw : trust → map.comparator.Follows cmp) (f : V → V × Bool)
    (hspells : Spells map.tree map.version t) (hasc : trust → Ascending cmp t.toList) :
    Ends (map.modify key f) journal fun outcome after => ∃ tree',
      outcome.2 = map.written tree' ∧ Performs trust cmp t.toList (.modify key f)
        (map.version + 1) map.tree journal (.ofExcept .value? outcome.1) tree' after := by
  have hfound : Found trust cmp key t.toList _ := found_descent hlaw hasc journal.calls.size
  refine ends_modify hspells rfl (fun hx => ?_) (fun x new tree' hx hf hdiffers => ?_)
    fun x hx hf => ?_
  · rw [hx] at hfound
    exact ⟨map.tree, rfl, t, [], hspells.mono (Nat.le_succ _), .inl ⟨hfound, rfl, rfl, rfl⟩,
      by simp, Nat.le_max_left _ _⟩
  · rw [hx] at hfound
    obtain ⟨t', hspells', hwritten, hcapacity⟩ :=
      hspells.written hlaw (Nat.le_succ _) hx hdiffers
    refine ⟨tree', rfl, t', [x.value], hspells', .inr ⟨x.value, hfound, rfl, ?_⟩, rfl, hcapacity⟩
    rw [hf]
    exact ⟨rfl, hwritten⟩
  · rw [hx] at hfound
    obtain ⟨new, hnew⟩ : ∃ new, f x.value = (new, false) := ⟨(f x.value).1, Prod.ext rfl hf⟩
    rw [erase, ends_edit]
    refine edits_bind_of (edits_erase hlaw hspells hasc (Nat.le_succ _)) ?_
    rintro removed tree' after ⟨t', hspells', hremoved, hcapacity, hshown⟩
    have heffect :
        Effect trust cmp t.toList (.modify key f) (.value? none) t'.toList [x.value] := by
      refine .inr ⟨x.value, hfound, rfl, ?_⟩
      rw [hnew]
      exact ⟨rfl, removed, hremoved⟩
    cases removed <;> exact ⟨tree', rfl, t', [x.value], hspells', heffect, hshown, hcapacity⟩

theorem performs_erase (hlaw : trust → map.comparator.Follows cmp)
    (hspells : Spells map.tree map.version t) (hasc : trust → Ascending cmp t.toList) :
    Ends (map.erase key) journal fun outcome after => ∃ tree',
      outcome.2 = map.written tree' ∧ Performs trust cmp t.toList (.erase key)
        (map.version + 1) map.tree journal (.ofExcept .value outcome.1) tree' after := by
  rw [erase, ends_edit]
  refine edits_bind_of (edits_erase hlaw hspells hasc (Nat.le_succ _)) ?_
  rintro old tree' after ⟨t', hspells', hremoved, hcapacity, hshown⟩
  have heffect : Effect trust cmp t.toList (.erase key)
      (Reference.orRefuse .value .keyNotFound old) t'.toList [] := ⟨old, hremoved, rfl, rfl⟩
  cases old <;> exact ⟨tree', rfl, t', [], hspells', heffect, by simp [hshown], hcapacity⟩

theorem performs_clear :
    Ends map.clear journal fun outcome after => ∃ tree',
      outcome.2 = map.written tree' ∧ Performs trust cmp entries .clear (map.version + 1) map.tree
        journal .done tree' after := by
  rw [clear, ends_edit, edits_bind, edits_getThe, edits_bind, edits_note, Avl.clear, edits_modify,
    SlotPool.clear_eq]
  exact ⟨_, rfl, .nil, [], .empty _, ⟨rfl, rfl⟩, by simp, Nat.zero_le _⟩

end Writing

/-! ## Reading -/

theorem ends_read {β : Type} {run : Run K V β} {g : β → Answer K V} {call : Call K V}
    (hwrites : call.writes = false) (hholds : Holds map entries)
    (h : Ends run journal fun result after =>
      Effect trust cmp entries call (g result) entries [] ∧ after.shown = journal.shown) :
    Ends (run >>= fun result => pure (g result, map)) journal fun outcome after =>
      ∃ entries' seen, Effect trust cmp entries call outcome.1 entries' seen ∧
        Holds outcome.2 entries' ∧ Follow call.writes map outcome.2 ∧
        after.shown = journal.shown ++ seen.toArray := by
  refine ends_bind_of h ?_
  intro result after hresult
  obtain ⟨heffect, hshown⟩ := hresult
  rw [hwrites]
  exact ⟨entries, [], heffect, hholds, .refl map, by simp [hshown]⟩

/-- Reading that asks the comparator nothing. -/
theorem ends_read_lift {β : Type} {x : Except Fault β} {result : β} {g : β → Answer K V}
    {call : Call K V} (hwrites : call.writes = false) (hholds : Holds map entries)
    (hx : x = .ok result) (heffect : Effect trust cmp entries call (g result) entries []) :
    Ends ((liftM x : Run K V β) >>= fun result => pure (g result, map)) journal
      fun outcome after => ∃ entries' seen, Effect trust cmp entries call outcome.1 entries' seen ∧
        Holds outcome.2 entries' ∧ Follow call.writes map outcome.2 ∧
        after.shown = journal.shown ++ seen.toArray :=
  ends_read hwrites hholds ((ends_liftM x).mpr ⟨result, hx, heffect, rfl⟩)

section Reading

variable {key : K}

theorem ends_get (hlaw : trust → map.comparator.Follows cmp)
    (hspells : Spells map.tree map.version t) (hasc : trust → Ascending cmp t.toList) :
    Ends (map.get key) journal fun result after => ∃ v, Found trust cmp key t.toList v ∧
      result = (match v with
        | some value => .ok value
        | none => .error .keyNotFound) ∧ after.shown = journal.shown := by
  rw [ends_get_iff hspells rfl]
  refine ⟨_, found_descent hlaw hasc journal.calls.size, ?_, rfl⟩
  cases (t.descent map.comparator key journal.calls.size).here <;> rfl

theorem ends_getD {value : V} (hlaw : trust → map.comparator.Follows cmp)
    (hspells : Spells map.tree map.version t) (hasc : trust → Ascending cmp t.toList) :
    Ends (map.getD key value) journal fun result after => ∃ v, Found trust cmp key t.toList v ∧
      result = v.getD value ∧ after.shown = journal.shown := by
  apply ends_bind_of (ends_get hlaw hspells hasc)
  intro found after hfound
  obtain ⟨v, hfound, rfl, hshown⟩ := hfound
  cases v <;> exact ⟨_, hfound, rfl, hshown⟩

theorem ends_range {low high : K} (hlaw : trust → map.comparator.Follows cmp)
    (hspells : Spells map.tree map.version t) (hasc : trust → Ascending cmp t.toList) :
    Ends (map.range low high) journal fun result after =>
      Effect trust cmp t.toList (.range low high) (.ofExcept .entries result) t.toList [] ∧
        after.shown = journal.shown := by
  have hbounds := fun ht => (hlaw ht).answer_eq journal.calls.size low high
  unfold AvlMap.range
  rw [ends_bind, ends_ask]
  by_cases hlt : (map.comparator.answer journal.calls.size low high).isLT
  · rw [if_pos hlt]
    apply ends_bind_of (Avl.ends_range hlaw hspells hasc)
    intro result after hresult
    obtain ⟨hresult, hshown⟩ := hresult
    refine ⟨⟨rfl, rfl, fun ht => ?_⟩, hshown⟩
    rw [hresult ht, Reference.perform, ← hbounds ht, if_pos hlt]
    rfl
  · rw [if_neg hlt]
    refine ⟨⟨rfl, rfl, fun ht => ?_⟩, rfl⟩
    rw [Reference.perform, ← hbounds ht, if_neg hlt]
    rfl

theorem outermost_eq (hspells : Spells map.tree map.version t) (side : Side) :
    map.outermost side = .ok (match t.outermost? side with
      | some x => .ok x.entry
      | none => .error .emptyMap) := by
  unfold outermost
  rw [hspells.outermost?_eq, ok_bind]
  cases hx : t.outermost? side with
  | none => rfl
  | some x =>
    have hmem : x ∈ t.cells := by
      cases side with
      | left => exact List.mem_of_mem_head? hx
      | right => exact List.mem_of_getLast? hx
    simp only [Option.map_some, hspells.entry_eq hmem, ok_bind]
    rfl

end Reading

/-! ## All calls -/

/-- No call on a map in good order ends in a fault, whatever the comparator answers. -/
theorem ends_perform (hlaw : trust → map.comparator.Follows cmp) (hholds : Holds map entries)
    (hasc : trust → Ascending cmp entries) (call : Call K V) :
    Ends (perform map call) journal fun outcome after => ∃ entries' seen,
      Effect trust cmp entries call outcome.1 entries' seen ∧ Holds outcome.2 entries' ∧
        Follow call.writes map outcome.2 ∧ after.shown = journal.shown ++ seen.toArray := by
  obtain ⟨t, hspells, rfl⟩ := id hholds
  cases call with
  | insert key value =>
    rw [perform_insert]
    exact ends_write rfl (performs_insert hlaw hspells hasc)
  | insertIfNew key value =>
    rw [perform_insertIfNew]
    exact ends_write rfl (performs_insertIfNew hlaw hspells hasc)
  | insertMany new =>
    rw [perform_insertMany]
    exact ends_write rfl (performs_insertMany hlaw hspells hasc)
  | erase key =>
    rw [perform_erase]
    exact ends_write rfl (performs_erase hlaw hspells hasc)
  | modify key f =>
    rw [perform_modify]
    exact ends_write rfl (performs_modify hlaw f hspells hasc)
  | clear =>
    rw [perform_clear]
    exact ends_write (g := fun _ => .done) rfl performs_clear
  | get key =>
    rw [perform_get]
    refine ends_read rfl hholds (ends_mono (ends_get hlaw hspells hasc) ?_)
    intro outcome after houtcome
    obtain ⟨v, hfound, rfl, hshown⟩ := houtcome
    exact ⟨⟨v, hfound, rfl, by cases v <;> rfl, rfl⟩, hshown⟩
  | getD key value =>
    rw [perform_getD]
    refine ends_read rfl hholds (ends_mono (ends_getD hlaw hspells hasc) ?_)
    intro outcome after houtcome
    obtain ⟨v, hfound, rfl, hshown⟩ := houtcome
    exact ⟨⟨v, hfound, rfl, rfl, rfl⟩, hshown⟩
  | contains key =>
    rw [perform_contains]
    refine ends_read rfl hholds ((ends_contains_iff hspells rfl).mpr ?_)
    refine ⟨⟨_, found_descent hlaw hasc journal.calls.size, rfl, ?_, rfl⟩, rfl⟩
    rw [Option.isSome_map]
  | range low high =>
    rw [perform_range]
    exact ends_read rfl hholds (ends_range hlaw hspells hasc)
  | size =>
    have hsize : map.size = t.toList.length := hholds.size_eq
    rw [perform_size, ends_pure]
    refine ⟨t.toList, [], ⟨?_, rfl⟩, hholds, .refl map, by simp⟩
    exact congrArg (fun n => (Answer.count n, t.toList)) hsize
  | isEmpty =>
    have hempty : map.isEmpty = t.toList.isEmpty := by
      rw [isEmpty, hholds.size_eq]
      cases t.toList <;> rfl
    rw [perform_isEmpty, ends_pure]
    refine ⟨t.toList, [], ⟨?_, rfl⟩, hholds, .refl map, by simp⟩
    exact congrArg (fun flag => (Answer.flag flag, t.toList)) hempty
  | visit =>
    have hseen : (t.toList.foldl (fun seen e => (e.1, e.2) :: seen) []).reverse = t.toList := by
      simp
    rw [perform_visit]
    refine ends_read_lift rfl hholds (by rw [foldl, hholds.toList_eq]; rfl) ⟨?_, rfl⟩
    exact congrArg (fun entries => (Answer.entries entries, t.toList)) hseen
  | toList =>
    rw [perform_toList]
    exact ends_read_lift rfl hholds hholds.toList_eq ⟨rfl, rfl⟩
  | keys =>
    rw [perform_keys]
    exact ends_read_lift rfl hholds (by rw [keys, hholds.toList_eq]; rfl) ⟨rfl, rfl⟩
  | values =>
    rw [perform_values]
    exact ends_read_lift rfl hholds (by rw [values, hholds.toList_eq]; rfl) ⟨rfl, rfl⟩
  | minEntry =>
    rw [perform_minEntry]
    refine ends_read_lift rfl hholds (outermost_eq hspells .left) ⟨?_, rfl⟩
    simp only [Reference.perform, Shape.toList, List.head?_map, Shape.outermost?]
    cases t.cells.head? <;> rfl
  | maxEntry =>
    rw [perform_maxEntry]
    refine ends_read_lift rfl hholds (outermost_eq hspells .right) ⟨?_, rfl⟩
    simp only [Reference.perform, Shape.toList, List.getLast?_map, Shape.outermost?]
    cases t.cells.getLast? <;> rfl

/-- A call leaves a map in good order, and nothing need be known of the comparator for that. -/
theorem Holds.ends_perform (h : Holds map entries) (call : Call K V) :
    Ends (perform map call) journal fun outcome _ =>
      (∃ entries', Holds outcome.2 entries') ∧ Follow call.writes map outcome.2 := by
  have hlaw : False → map.comparator.Follows fun _ _ => .eq := False.elim
  apply ends_mono (AvlMap.ends_perform hlaw h False.elim call)
  intro outcome after houtcome
  obtain ⟨entries', seen, -, hholds', hfollow, -⟩ := houtcome
  exact ⟨⟨entries', hholds'⟩, hfollow⟩

end OrderedMaps.AvlMap
