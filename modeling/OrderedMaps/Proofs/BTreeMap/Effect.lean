import OrderedMaps.Proofs.BTree.Audit
import OrderedMaps.Proofs.BTree.Erase
import OrderedMaps.Proofs.BTree.Range
import OrderedMaps.Proofs.Contract.Effect

/-!
# Effects of calls on multi-way tree maps

* `BTreeMap.Holds`: the tree of a map is in good order and has the given entries.
* `BTreeMap.Follow`: what stays the same from one call to the next.
* `BTreeMap.Spares`: what a call does to the nodes if it finds nothing to change.
* `BTreeMap.written`, `BTreeMap.ends_edit`: an edit of a map is an edit of its tree.
* `BTreeMap.performs_insert`, …: calls that open the map for writing.
* `BTreeMap.ends_perform`: no call on such a map ends in a fault. Each has its effect on the
  entries, and leaves such a map.
-/

namespace OrderedMaps.BTreeMap

open BTree

variable {K V : Type} {trust : Prop} {cmp : K → K → Ordering} {map map' : BTreeMap K V}
  {entries : List (K × V)} {journal : Journal K V} {levels : Nat}

/-- The tree is in good order and has the given entries. -/
def Holds (map : BTreeMap K V) (entries : List (K × V)) : Prop :=
  ∃ levels, map.tree.Sound map.discipline.degree levels ∧ map.tree.root.toList = entries

/-- What stays the same from one call to the next. -/
structure Follow (map map' : BTreeMap K V) : Prop where
  comparator_eq : map'.comparator = map.comparator
  degree_eq : map'.degree = map.degree
  locator_eq : map'.locator = map.locator

theorem Follow.refl (map : BTreeMap K V) : Follow map map := ⟨rfl, rfl, rfl⟩

theorem Follow.trans {map'' : BTreeMap K V} (h : Follow map map') (h' : Follow map' map'') :
    Follow map map'' :=
  ⟨h'.comparator_eq.trans h.comparator_eq, h'.degree_eq.trans h.degree_eq,
    h'.locator_eq.trans h.locator_eq⟩

theorem Follow.discipline_eq (h : Follow map map') : map'.discipline = map.discipline := by
  rw [discipline, h.comparator_eq, h.locator_eq, h.degree_eq]
  rfl

theorem Holds.size_eq (h : Holds map entries) : map.size = entries.length := by
  obtain ⟨levels, hsound, rfl⟩ := h
  exact hsound.size_eq

theorem Holds.toList_eq (h : Holds map entries) : map.toList = entries := by
  obtain ⟨levels, -, rfl⟩ := h
  rfl

/-! ## Writing -/

/-- What a call does to the nodes if it finds nothing to change: nothing, and it notes no step. If
it recomputes a value, then it changes that value and no more. -/
def Spares (cmp : K → K → Ordering) (tree : Tree K V) (journal : Journal K V) :
    Call K V → Answer K V → Tree K V → Journal K V → Prop
  | .erase _, .refused _, tree', after
  | .insertIfNew _ _, .value? (some _), tree', after
  | .modify _ _, .refused _, tree', after => tree' = tree ∧ after.events = journal.events
  | .modify key f, .value? (some value), tree', after =>
      ∃ k old, cmp key k = .eq ∧ f old = (value, true) ∧
        tree.root.Differs k old value tree'.root ∧ tree'.size = tree.size ∧
        after.events = journal.events ∧ after.shown = journal.shown ++ #[old]
  | _, _, _, _ => True

/-- The tree after an edit is in good order, and the edit had the effect of a call. -/
def Performs (trust : Prop) (cmp : K → K → Ordering) (t : Nat) (tree : Tree K V)
    (call : Call K V) (journal : Journal K V) (answer : Answer K V) (tree' : Tree K V)
    (after : Journal K V) : Prop :=
  ∃ (levels : Nat) (seen : List V), tree'.Sound t levels ∧
    Effect trust cmp tree.root.toList call answer tree'.root.toList seen ∧
    after.shown = journal.shown ++ seen.toArray ∧
    (trust → Spares cmp tree journal call answer tree' after)

/-- The map after a call that opened it for writing and left the given tree. -/
def written (map : BTreeMap K V) (tree : Tree K V) : BTreeMap K V :=
  { map with cell := ⟨map.version + 1, tree⟩ }

/-- An edit of a map is an edit of its tree, and advances the version by one. -/
theorem ends_edit {β : Type} {f : Discipline K V → Tree K V → Run K V (β × Tree K V)}
    {Q : β × BTreeMap K V → Journal K V → Prop} :
    Ends (map.edit f) journal Q ↔ Ends (f map.discipline map.tree) journal fun outcome after =>
      Q (outcome.1, map.written outcome.2) after := by
  obtain ⟨comparator, degree, locator, version, tree⟩ := map
  unfold edit Versioned.write
  simp only [ends_bind, ends_pure]
  exact Iff.rfl

theorem ends_write {β : Type} {run : Run K V (β × BTreeMap K V)} {g : β → Answer K V}
    {call : Call K V}
    (h : Ends run journal fun outcome after => ∃ tree', outcome.2 = map.written tree' ∧
      Performs trust cmp map.discipline.degree map.tree call journal (g outcome.1) tree' after) :
    Ends (run >>= fun outcome => pure (g outcome.1, outcome.2)) journal
      fun outcome after => ∃ entries' seen,
        Effect trust cmp map.tree.root.toList call outcome.1 entries' seen ∧
        Holds outcome.2 entries' ∧ Follow map outcome.2 ∧
        after.shown = journal.shown ++ seen.toArray := by
  refine ends_bind_of h ?_
  rintro ⟨result, _⟩ after ⟨tree', rfl, levels, seen, hsound, heffect, hshown, -⟩
  exact ⟨tree'.root.toList, seen, heffect, ⟨levels, hsound, rfl⟩, ⟨rfl, rfl, rfl⟩, hshown⟩

section Writing

variable {key : K} {value : V}

theorem performs_insert (hd : map.discipline.Sound trust cmp)
    (h : map.tree.Sound map.discipline.degree levels)
    (hasc : trust → Ascending cmp map.tree.root.toList) :
    Ends (map.insert key value) journal fun outcome after => ∃ tree',
      outcome.2 = map.written tree' ∧ Performs trust cmp map.discipline.degree map.tree
        (.insert key value) journal (.value? outcome.1) tree' after := by
  rw [insert, ends_edit]
  apply ends_mono (ends_treeInsert hd h hasc)
  intro outcome after houtcome
  obtain ⟨levels', hwritten, hsound, hgrows⟩ := houtcome
  exact ⟨outcome.2, rfl, levels', [], hsound, ⟨outcome.1, hwritten, rfl, rfl⟩,
    by simp [hgrows.shown_eq], fun _ => trivial⟩

theorem performs_insertIfNew (hd : map.discipline.Sound trust cmp)
    (h : map.tree.Sound map.discipline.degree levels)
    (hasc : trust → Ascending cmp map.tree.root.toList) :
    Ends (map.insertIfNew key value) journal fun outcome after => ∃ tree',
      outcome.2 = map.written tree' ∧ Performs trust cmp map.discipline.degree map.tree
        (.insertIfNew key value) journal (.value? outcome.1) tree' after := by
  rw [insertIfNew, ends_edit]
  apply ends_bind_of (ends_get hd h.formed hasc)
  intro found after hfound
  obtain ⟨hfound, hevents, hshown⟩ := hfound
  cases found with
  | some existing =>
    exact ⟨map.tree, rfl, levels, [], h, ⟨rfl, .inl ⟨existing, hfound, rfl, rfl⟩⟩,
      by simp [hshown], fun _ => ⟨rfl, hevents⟩⟩
  | none =>
    apply ends_bind_of (ends_treeInsert hd h hasc)
    intro outcome after' houtcome
    obtain ⟨levels', hwritten, hsound, hgrows⟩ := houtcome
    exact ⟨outcome.2, rfl, levels', [], hsound, ⟨rfl, .inr ⟨hfound, rfl, outcome.1, hwritten⟩⟩,
      by simp [hgrows.shown_eq, hshown], fun _ => trivial⟩

/-- Entries are written one after the other, by induction on the list of them. -/
theorem ends_insertAll {d : Discipline K V} {tree : Tree K V} (hd : d.Sound trust cmp)
    {new : List (K × V)} (h : tree.Sound d.degree levels)
    (hasc : trust → Ascending cmp tree.root.toList) :
    Ends (new.foldlM (fun tree (key, value) => do
        let (_, tree) ← tree.insert d key value
        return tree) tree) journal fun tree' after => ∃ levels' added,
      WrittenAll trust cmp new tree.root.toList added tree'.root.toList ∧
        tree'.Sound d.degree levels' ∧ after.shown = journal.shown := by
  induction new generalizing tree levels journal with
  | nil => exact ⟨levels, 0, .nil, h, rfl⟩
  | cons entry more ih =>
    obtain ⟨key, value⟩ := entry
    rw [List.foldlM_cons, ends_bind, ends_bind]
    apply ends_mono (ends_treeInsert hd h hasc)
    intro outcome after houtcome
    obtain ⟨levels₁, hwritten, hsound, hgrows⟩ := houtcome
    have hasc' : trust → Ascending cmp outcome.2.root.toList := by
      intro ht
      have := (hd.follows ht).lawful
      exact (hwritten.imp fun _ => ht).ascending (hasc ht)
    apply ends_mono (ih hsound hasc')
    intro tree' after' htree'
    obtain ⟨levels₂, added, hall, hsound', hshown'⟩ := htree'
    exact ⟨levels₂, _, .cons hwritten hall, hsound', hshown'.trans hgrows.shown_eq⟩

theorem performs_insertMany (hd : map.discipline.Sound trust cmp) {new : List (K × V)}
    (h : map.tree.Sound map.discipline.degree levels)
    (hasc : trust → Ascending cmp map.tree.root.toList) :
    Ends (map.insertMany new) journal fun outcome after => ∃ tree',
      outcome.2 = map.written tree' ∧ Performs trust cmp map.discipline.degree map.tree
        (.insertMany new) journal (.count outcome.1) tree' after := by
  rw [insertMany, ends_edit]
  apply ends_bind_of (ends_insertAll hd h hasc)
  intro tree' after htree'
  obtain ⟨levels', added, hall, hsound, hshown⟩ := htree'
  -- the count after minus the count before is the number of keys that were inserted
  have hcount : countSince map.tree.size tree'.size = .ok added := by
    rw [hsound.size_eq, h.size_eq, hall.length_eq, countSince_add]
  rw [ends_bind, ends_liftM]
  exact ⟨added, hcount, tree', rfl, levels', [], hsound, ⟨added, hall, rfl, rfl⟩, by simp [hshown],
    fun _ => trivial⟩

/-- What becomes of a value that is recomputed: the value that stays in the entry, and the new
value, if the key is to keep one. -/
def recompute (f : V → V × Bool) (old : V) : V × Option V :=
  match f old with
  | (value, true) => (value, some value)
  | (_, false) => (old, none)

theorem ends_recompute {f : V → V × Bool} {old : V} {Q : V × Option V → Journal K V → Prop} :
    Ends (do
        recordShown old
        match f old with
        | (value, true) => return (value, some value)
        | (_, false) => return (old, none)) journal Q ↔
      Q (recompute f old) (journal.showing [old]) := by
  rw [ends_bind, ends_recordShown, recompute]
  rcases f old with ⟨value, _ | _⟩ <;> exact Iff.rfl

theorem performs_modify (hd : map.discipline.Sound trust cmp) (f : V → V × Bool)
    (h : map.tree.Sound map.discipline.degree levels)
    (hasc : trust → Ascending cmp map.tree.root.toList) :
    Ends (map.modify key f) journal fun outcome after => ∃ tree',
      outcome.2 = map.written tree' ∧ Performs trust cmp map.discipline.degree map.tree
        (.modify key f) journal (.ofExcept .value? outcome.1) tree' after := by
  rw [modify, ends_edit]
  apply ends_bind_of (ends_alter hd h.formed hasc ends_recompute)
  intro outcome after houtcome
  obtain ⟨root, result⟩ := outcome
  obtain ⟨seen, haltered, hformed, hkeys, hshown, hevents⟩ := houtcome
  dsimp only at haltered hformed hkeys
  cases haltered with
  | absent hnone =>
    exact ⟨map.tree, rfl, levels, [], h, .inl ⟨.absent hnone, rfl, rfl, rfl⟩, hshown,
      fun _ => ⟨rfl, hevents⟩⟩
  | present k old _ hdiffers before behind hsplit hsplit' hk =>
    have hfound : Found trust cmp key map.tree.root.toList (some old) :=
      .present before k old behind hsplit hk
    rcases hf : f old with ⟨value, _ | _⟩
    · have hresult : recompute f old = (old, none) := by rw [recompute, hf]
      simp only [hresult]
      apply ends_bind_of (ends_treeErase hd h hasc)
      intro outcome after' houtcome
      obtain ⟨levels', hremoved, hsound, hshrinks, -⟩ := houtcome
      refine ⟨outcome.2, rfl, levels', [old], hsound, .inr ⟨old, hfound, rfl, ?_⟩,
        by rw [hshrinks.shown_eq, hshown], fun _ => trivial⟩
      rw [hf]
      exact ⟨rfl, outcome.1, hremoved⟩
    · have hresult : recompute f old = (value, some value) := by rw [recompute, hf]
      simp only [hresult] at hdiffers hsplit' ⊢
      have hwritten : Written trust cmp key value map.tree.root.toList (some old) root.toList := by
        rw [hsplit']
        exact .replaced before k old behind hsplit hk
      have hsize : map.tree.size = root.toList.length := by
        rw [h.size_eq, hwritten.length_eq]
        rfl
      have hsound : Tree.Sound map.discipline.degree levels (⟨root, map.tree.size⟩ : Tree K V) :=
        ⟨hformed, h.rooted.imp id fun hle => hkeys ▸ hle, hsize⟩
      refine ⟨_, rfl, levels, [old], hsound, .inr ⟨old, hfound, rfl, ?_⟩, hshown, fun htrust =>
        ⟨k, old, hk htrust, hf, hdiffers, rfl, hevents, hshown⟩⟩
      rw [hf]
      exact ⟨rfl, hwritten⟩

theorem performs_erase (hd : map.discipline.Sound trust cmp)
    (h : map.tree.Sound map.discipline.degree levels)
    (hasc : trust → Ascending cmp map.tree.root.toList) :
    Ends (map.erase key) journal fun outcome after => ∃ tree',
      outcome.2 = map.written tree' ∧ Performs trust cmp map.discipline.degree map.tree
        (.erase key) journal (.ofExcept .value outcome.1) tree' after := by
  rw [erase, ends_edit]
  apply ends_bind_of (ends_treeErase hd h hasc)
  intro outcome after houtcome
  obtain ⟨old, tree'⟩ := outcome
  obtain ⟨levels', hremoved, hsound, hshrinks, hspares⟩ := houtcome
  have hshown := hshrinks.shown_eq
  have heffect : Effect trust cmp map.tree.root.toList (.erase key)
      (Reference.orRefuse .value .keyNotFound old) tree'.root.toList [] :=
    ⟨old, hremoved, rfl, rfl⟩
  cases old with
  | none =>
    exact ⟨tree', rfl, levels', [], hsound, heffect, by simp [hshown],
      fun htrust => hspares htrust rfl⟩
  | some value =>
    exact ⟨tree', rfl, levels', [], hsound, heffect, by simp [hshown], fun _ => trivial⟩

theorem performs_clear :
    Ends map.clear journal fun outcome after => ∃ tree',
      outcome.2 = map.written tree' ∧ Performs trust cmp map.discipline.degree map.tree .clear
        journal .done tree' after := by
  rw [clear, ends_edit, ends_bind, ends_record]
  exact ⟨Tree.empty, rfl, 1, [], Tree.sound_empty _, ⟨rfl, rfl⟩, by simp, fun _ => trivial⟩

end Writing

/-! ## Reading -/

theorem ends_read {β : Type} {run : Run K V β} {g : β → Answer K V} {call : Call K V}
    (hholds : Holds map entries)
    (h : Ends run journal fun result after =>
      Effect trust cmp entries call (g result) entries [] ∧ after.shown = journal.shown) :
    Ends (run >>= fun result => pure (g result, map)) journal fun outcome after =>
      ∃ entries' seen, Effect trust cmp entries call outcome.1 entries' seen ∧
        Holds outcome.2 entries' ∧ Follow map outcome.2 ∧
        after.shown = journal.shown ++ seen.toArray := by
  apply ends_bind_of h
  intro result after hresult
  obtain ⟨heffect, hshown⟩ := hresult
  exact ⟨entries, [], heffect, hholds, .refl map, by simp [hshown]⟩

theorem ends_get {key : K} (hd : map.discipline.Sound trust cmp)
    (h : map.tree.Sound map.discipline.degree levels)
    (hasc : trust → Ascending cmp map.tree.root.toList) :
    Ends (map.get key) journal fun result after =>
      ∃ v, Found trust cmp key map.tree.root.toList v ∧
        result = (match v with
          | some value => .ok value
          | none => .error .keyNotFound) ∧ after.shown = journal.shown := by
  apply ends_bind_of (BTree.ends_get hd h.formed hasc)
  intro found after hfound
  obtain ⟨hfound, hquiet⟩ := hfound
  cases found with
  | none => exact ⟨none, hfound, rfl, hquiet.shown_eq⟩
  | some value => exact ⟨some value, hfound, rfl, hquiet.shown_eq⟩

theorem ends_getD {key : K} {value : V} (hd : map.discipline.Sound trust cmp)
    (h : map.tree.Sound map.discipline.degree levels)
    (hasc : trust → Ascending cmp map.tree.root.toList) :
    Ends (map.getD key value) journal fun result after =>
      ∃ v, Found trust cmp key map.tree.root.toList v ∧ result = v.getD value ∧
        after.shown = journal.shown := by
  apply ends_bind_of (ends_get hd h hasc)
  intro found after hfound
  obtain ⟨v, hfound, rfl, hshown⟩ := hfound
  cases v <;> exact ⟨_, hfound, rfl, hshown⟩

theorem ends_contains {key : K} (hd : map.discipline.Sound trust cmp)
    (h : map.tree.Sound map.discipline.degree levels)
    (hasc : trust → Ascending cmp map.tree.root.toList) :
    Ends (map.contains key) journal fun result after =>
      ∃ v, Found trust cmp key map.tree.root.toList v ∧ result = v.isSome ∧
        after.shown = journal.shown := by
  apply ends_bind_of (BTree.ends_get hd h.formed hasc)
  intro found after hfound
  obtain ⟨hfound, hquiet⟩ := hfound
  exact ⟨found, hfound, rfl, hquiet.shown_eq⟩

/-- A scan stops, and notes that, just if the range is valid and there is an entry that is not below
the upper bound. -/
theorem ends_range {low high : K} (hd : map.discipline.Sound trust cmp)
    (h : map.tree.Sound map.discipline.degree levels)
    (hasc : trust → Ascending cmp map.tree.root.toList) :
    Ends (map.range low high) journal fun result after =>
      Effect trust cmp map.tree.root.toList (.range low high) (.ofExcept .entries result)
        map.tree.root.toList [] ∧ after.shown = journal.shown ∧
        (trust → after.events = journal.events ++
          if (cmp low high).isLT ∧ ∃ e ∈ map.tree.root.toList, ¬ (cmp e.1 high).isLT
          then #[.scanStopped] else #[]) := by
  have hbounds : trust → map.comparator.answer journal.calls.size low high = cmp low high :=
    fun htrust => (hd.follows htrust).answer_eq _ _ _
  unfold BTreeMap.range
  rw [ends_bind, ends_ask]
  by_cases hlt : (map.comparator.answer journal.calls.size low high).isLT
  · rw [if_pos hlt]
    have hvalid : trust → (cmp low high).isLT := fun htrust => hbounds htrust ▸ hlt
    apply ends_bind_of (BTree.ends_range hd hvalid h.formed hasc)
    intro scan after hscan
    obtain ⟨hscanned, hevents, hshown⟩ := hscan
    have heffect : Effect trust cmp map.tree.root.toList (.range low high) (.entries scan.entries)
        map.tree.root.toList [] := by
      refine ⟨rfl, rfl, fun htrust => ?_⟩
      rw [(hscanned htrust).1, Reference.perform, if_pos (hvalid htrust)]
    by_cases hstopped : scan.stopped = true
    · rw [if_pos hstopped, ends_bind, ends_record]
      refine ⟨heffect, hshown, fun htrust => ?_⟩
      rw [if_pos ⟨hvalid htrust, (hscanned htrust).2.mp hstopped⟩, Journal.noted, hevents]
      rfl
    · rw [if_neg hstopped]
      refine ⟨heffect, hshown, fun htrust => ?_⟩
      rw [if_neg fun hstop => hstopped ((hscanned htrust).2.mpr hstop.2), hevents]
      rfl
  · rw [if_neg hlt]
    refine ⟨⟨rfl, rfl, fun htrust => ?_⟩, rfl, fun htrust => ?_⟩
    · rw [Reference.perform, ← hbounds htrust, if_neg hlt]
      rfl
    · rw [if_neg fun hvalid => hlt (hbounds htrust ▸ hvalid.1)]
      rfl

/-! ## All calls -/

/-- No call on a map in good order ends in a fault, whatever the comparator answers. -/
theorem ends_perform (hd : map.discipline.Sound trust cmp) (hholds : Holds map entries)
    (hasc : trust → Ascending cmp entries) (call : Call K V) :
    Ends (perform map call) journal fun outcome after => ∃ entries' seen,
      Effect trust cmp entries call outcome.1 entries' seen ∧ Holds outcome.2 entries' ∧
        Follow map outcome.2 ∧ after.shown = journal.shown ++ seen.toArray := by
  obtain ⟨levels, hsound, rfl⟩ := id hholds
  have ht := hd.least_le
  cases call with
  | insert key value =>
    rw [perform_insert]
    exact ends_write (performs_insert hd hsound hasc)
  | insertIfNew key value =>
    rw [perform_insertIfNew]
    exact ends_write (performs_insertIfNew hd hsound hasc)
  | insertMany new =>
    rw [perform_insertMany]
    exact ends_write (performs_insertMany hd hsound hasc)
  | erase key =>
    rw [perform_erase]
    exact ends_write (performs_erase hd hsound hasc)
  | modify key f =>
    rw [perform_modify]
    exact ends_write (performs_modify hd f hsound hasc)
  | clear =>
    rw [perform_clear]
    exact ends_write (g := fun _ => .done) performs_clear
  | get key =>
    rw [perform_get]
    apply ends_read hholds
    apply ends_mono (ends_get hd hsound hasc)
    intro outcome after houtcome
    obtain ⟨v, hfound, rfl, hshown⟩ := houtcome
    exact ⟨⟨v, hfound, rfl, by cases v <;> rfl, rfl⟩, hshown⟩
  | getD key value =>
    rw [perform_getD]
    apply ends_read hholds
    apply ends_mono (ends_getD hd hsound hasc)
    intro outcome after houtcome
    obtain ⟨v, hfound, rfl, hshown⟩ := houtcome
    exact ⟨⟨v, hfound, rfl, rfl, rfl⟩, hshown⟩
  | contains key =>
    rw [perform_contains]
    apply ends_read hholds
    apply ends_mono (ends_contains hd hsound hasc)
    intro outcome after houtcome
    obtain ⟨v, hfound, rfl, hshown⟩ := houtcome
    exact ⟨⟨v, hfound, rfl, rfl, rfl⟩, hshown⟩
  | range low high =>
    rw [perform_range]
    apply ends_read hholds
    apply ends_mono (ends_range hd hsound hasc)
    intro result after hresult
    exact ⟨hresult.1, hresult.2.1⟩
  | size =>
    rw [perform_size, ends_pure]
    refine ⟨map.tree.root.toList, [], ⟨?_, rfl⟩, hholds, .refl map, by simp⟩
    exact congrArg (fun n => (Answer.count n, map.tree.root.toList)) hholds.size_eq
  | isEmpty =>
    have hempty : map.isEmpty = map.tree.root.toList.isEmpty := by
      rw [isEmpty, hholds.size_eq]
      cases map.tree.root.toList <;> rfl
    rw [perform_isEmpty, ends_pure]
    refine ⟨map.tree.root.toList, [], ⟨?_, rfl⟩, hholds, .refl map, by simp⟩
    exact congrArg (fun flag => (Answer.flag flag, map.tree.root.toList)) hempty
  | visit =>
    have hseen : (map.toList.foldl (fun seen e => (e.1, e.2) :: seen) []).reverse = map.toList := by
      simp
    rw [perform_visit]
    refine ends_read hholds ⟨⟨?_, rfl⟩, rfl⟩
    exact congrArg (fun entries => (Answer.entries entries, map.toList)) hseen
  | toList =>
    rw [perform_toList]
    exact ends_read hholds ⟨⟨rfl, rfl⟩, rfl⟩
  | keys =>
    rw [perform_keys]
    exact ends_read hholds ⟨⟨rfl, rfl⟩, rfl⟩
  | values =>
    rw [perform_values]
    exact ends_read hholds ⟨⟨rfl, rfl⟩, rfl⟩
  | minEntry =>
    have hmin : Answer.ofExcept Answer.entry map.minEntry =
        Reference.orRefuse .entry .emptyMap map.tree.root.toList.head? := by
      rw [minEntry, hsound.formed.first?_eq ht]
      cases map.tree.root.toList.head? <;> rfl
    rw [perform_minEntry]
    exact ends_read hholds ⟨⟨Prod.ext hmin rfl, rfl⟩, rfl⟩
  | maxEntry =>
    have hmax : Answer.ofExcept Answer.entry map.maxEntry =
        Reference.orRefuse .entry .emptyMap map.tree.root.toList.getLast? := by
      rw [maxEntry, hsound.formed.last?_eq ht]
      cases map.tree.root.toList.getLast? <;> rfl
    rw [perform_maxEntry]
    exact ends_read hholds ⟨⟨Prod.ext hmax rfl, rfl⟩, rfl⟩

end OrderedMaps.BTreeMap
