import OrderedMaps.Avl.Insert
import OrderedMaps.Proofs.Avl.Descent
import OrderedMaps.Proofs.Avl.Overwrite

/-!
# Insertion into binary trees

Insertion takes the way down for its key. If that ends at a node, its value is overwritten, and the
links that are written on the way back are there already. If not, a node is added, and the way back
is rebalanced.

* `Avl.Spells`: a whole tree spells out a sound shape.
* `Avl.edits_insertAt_found`, `Avl.edits_insert_found`: a value is overwritten.
* `Avl.Insertion`: what an insertion that adds a cell makes of a shape.
* `Avl.edits_insertAt_missing`, `Avl.edits_insert_missing`: a node is added.
* `Avl.edits_insert`: in either case, whatever the comparator answers, there is no fault, and the
  entries are those of a write.
-/

namespace OrderedMaps.Avl

open Shape

variable {K V : Type}

/-- The links of a tree spell out a sound shape, none of whose nodes was written after the given
version. -/
structure Spells (tree : Tree K V) (version : Nat) (t : Shape K V) : Prop where
  root_eq : tree.root = t.root?
  /-- The nodes are in the pool, and no other slots are in use. -/
  placed : Placed tree none t []
  /-- The heights are exact, and the tree is balanced. -/
  sound : t.Sound
  /-- The stamps are not from the future. -/
  stamped : t.StampedBy version

namespace Spells

variable {tree : Tree K V} {version : Nat} {t : Shape K V}

theorem empty (version : Nat) : Spells (Tree.empty : Tree K V) version nil where
  root_eq := rfl
  placed := ⟨trivial, ⟨SlotPool.Occupied.empty, rfl⟩⟩
  sound := trivial
  stamped := fun _ h => nomatch h

theorem size_eq (h : Spells tree version t) : tree.size = t.toList.length := by
  simpa using h.placed.houses.size_eq

theorem mem_slots_iff (h : Spells tree version t) {slot : Slot} :
    slot ∈ t.slots ↔ (tree.pool.get? slot).isSome := by
  have hoccupied := h.placed.houses.occupied
  rw [List.append_nil] at hoccupied
  exact hoccupied.mem_iff slot

/-- No path is longer than the number of slots. -/
theorem levels_le (h : Spells tree version t) : t.levels ≤ tree.pathBound := by
  have hlevels := t.levels_le_length
  have hlength := h.placed.houses.occupied.length_le
  simp only [List.append_nil, length_slots] at hlength
  exact Nat.le_trans hlevels hlength

theorem heightAt_root (h : Spells tree version t) : tree.heightAt tree.root = .ok t.height := by
  rw [h.root_eq]
  exact heightAt_root? h.placed.stored

theorem mono {version' : Nat} (h : Spells tree version t) (hle : version ≤ version') :
    Spells tree version' t :=
  { h with stamped := fun cell hmem => Nat.le_trans (h.stamped cell hmem) hle }

end Spells

/-- A value that is overwritten is overwritten in the shape. -/
theorem Spells.overwrite {tree tree' : Tree K V} {version stamp : Nat} {t : Shape K V} {slot : Slot}
    {old value : V} (h : Spells tree version t) (hstamp : version ≤ stamp)
    (hdiffers : tree.Differs slot old value stamp tree') :
    Spells tree' stamp (t.overwrite slot value stamp) where
  root_eq := by rw [hdiffers.touches.root_eq, h.root_eq, root?_overwrite]
  placed := by
    refine ⟨h.placed.stored.overwrite hdiffers, ?_⟩
    rw [slots_overwrite]
    exact h.placed.houses.touches hdiffers.touches
  sound := h.sound.overwrite
  stamped := (h.mono hstamp).stamped.overwrite

/-- For the entries, that is a write of the key whose way down ends there. -/
theorem Spells.written {trust : Prop} {cmp : K → K → Ordering} {c : Comparator K} {key : K}
    {n stamp version : Nat} {tree tree' : Tree K V} {t : Shape K V} {x : Cell K V} {value : V}
    (hlaw : trust → c.Follows cmp) (h : Spells tree version t) (hstamp : version ≤ stamp)
    (hx : (t.descent c key n).here = some x)
    (hdiffers : tree.Differs x.slot x.value value stamp tree') :
    ∃ t', Spells tree' stamp t' ∧ Written trust cmp key value t.toList (some x.value) t'.toList ∧
      tree'.pool.slots.size ≤ max tree.pool.slots.size tree'.size := by
  refine ⟨_, h.overwrite hstamp hdiffers, ?_, ?_⟩
  · rw [toList_overwrite h.placed.nodup (cells_eq_of_here hx)]
    exact .replaced _ x.key x.value _ (toList_eq_of_here hx) fun ht => eq_of_here (hlaw ht) hx
  · rw [hdiffers.touches.capacity_eq]
    exact Nat.le_max_left _ _

/-! ## Keys that are found -/

section Found

variable {c : Comparator K} {key : K} {value : V} {stamp version : Nat} {tree : Tree K V}
  {journal : Journal K V} {t : Shape K V} {x : Cell K V}

/-- Where the way down ends at a cell, insertion into the subtree overwrites its value. All links on
the way back are written again as they are, by induction on the number of steps left. -/
theorem edits_insertAt_found {steps : Nat} {parent : Option Slot}
    (hstored : t.Stored tree.pool parent) (hsteps : t.levels ≤ steps)
    (hx : (t.descent c key journal.calls.size).here = some x) :
    Edits (insertAt c key value stamp steps t.root? parent) tree journal
      fun outcome tree' after => t.root? = some outcome.1 ∧ outcome.2 = some x.value ∧
        tree.Differs x.slot x.value value stamp tree' ∧
        after = journal.compared key (t.descent c key journal.calls.size).keys := by
  induction steps generalizing t parent journal with
  | zero =>
    cases t with
    | nil => cases hx
    | node l y h r => exact absurd hsteps (Nat.not_succ_le_zero _)
  | succ steps ih =>
    cases t with
    | nil => cases hx
    | node l y h r =>
      rw [root?, insertAt, edits_bind, edits_readNode hstored.1, edits_bind, edits_ask]
      split
      · rename_i side hside
        obtain ⟨near, far, hjoin, hchild⟩ := node_eq_join side l r y h
        rw [hchild, edits_bind]
        rw [hjoin] at hstored hsteps hx ⊢
        rw [descent_join hside] at hx ⊢
        rw [Descent.here_under, ← Journal.size_calls_asked journal key y.key] at hx
        rw [levels_join] at hsteps
        refine edits_mono (ih (stored_join.mp hstored).2.1 (by omega) hx) ?_
        rintro ⟨child, old⟩ tree' after ⟨hroot, rfl, hdiffers, rfl⟩
        have hstored' := hstored.overwrite hdiffers
        rw [overwrite_join] at hstored'
        dsimp only at hroot ⊢
        rw [edits_bind, edits_setChild_self slot_overwrite (root?_overwrite.trans hroot) hstored']
        exact ⟨rfl, rfl, hdiffers, by simp⟩
      · rename_i hside
        rw [descent_here hside] at hx ⊢
        cases hx
        rw [edits_bind, edits_writeNode hstored.1]
        exact ⟨rfl, rfl, ⟨_, hstored.1, rfl, rfl⟩, (Journal.compared_singleton ..).symm⟩

end Found

/-! ## Keys that are missing -/

/-- What an insertion makes of a shape, if it adds the cell `new` where the way down leads. -/
structure Insertion (new : Cell K V) (d : Descent K V) (t t' : Shape K V) : Prop where
  /-- All other cells are as they were. -/
  cells_eq : t'.cells = d.before ++ new :: d.after
  sound : t'.Sound
  le_height : t.height ≤ t'.height
  /-- The height grows by one at most. -/
  height_le : t'.height ≤ t.height + 1

section Insertion

variable {d : Descent K V} {side : Side} {near near' far t t' : Shape K V} {x new : Cell K V}
  {height : Int} {version : Nat}

theorem Insertion.toList_eq (h : Insertion new d t t') :
    t'.toList = d.before.map Cell.entry ++ (new.key, new.value) :: d.after.map Cell.entry := by
  rw [toList, h.cells_eq, List.map_append, List.map_cons]
  rfl

theorem Insertion.stampedBy (h : Insertion new d t t') (ht : t.cells = d.before ++ d.after)
    (hstamp : t.StampedBy version) (hnew : new.stamp ≤ version) : t'.StampedBy version := by
  intro cell hmem
  rw [h.cells_eq] at hmem
  rcases List.mem_append.mp hmem with hmem | hmem
  · exact hstamp cell (ht ▸ List.mem_append_left _ hmem)
  · rcases List.mem_cons.mp hmem with rfl | hmem
    · exact hnew
    · exact hstamp cell (ht ▸ List.mem_append_right _ hmem)

/-- A cell that was added to the near subtree is one of the whole. -/
theorem cells_join_under (hnear : near'.cells = d.before ++ new :: d.after) :
    (join side near' x height far).cells =
      (d.under side x far).before ++ new :: (d.under side x far).after := by
  cases side <;> simp [join, cells, Descent.under, hnear]

/-- Where a cell was added to the near subtree, the mended node is the whole after it. -/
theorem Insertion.mend (h : Insertion new d near near')
    (hsound : (join side near x height far).Sound) (hmended : Mended side near' x far t') :
    Insertion new (d.under side x far) (join side near x height far) t' := by
  obtain ⟨hheight, hdiff, hdiff', -, -⟩ := sound_join.mp hsound
  obtain ⟨hcells, hsound', hle, hge, heq⟩ := hmended
  have hgrow := h.le_height
  have hgrow' := h.height_le
  refine ⟨(hcells height).trans (cells_join_under h.cells_eq), hsound', ?_, ?_⟩
  · rw [height_join]
    omega
  · rw [height_join]
    omega

end Insertion

section Missing

variable {c : Comparator K} {key : K} {value : V} {stamp version : Nat} {tree : Tree K V}
  {journal : Journal K V} {t : Shape K V}

/-- Below a missing child, the entry gets a node of its own. -/
theorem edits_insertAt_nil {steps : Nat} {parent : Option Slot} {rest : List Slot}
    (hplaced : Placed tree parent nil rest) :
    Edits (insertAt c key value stamp steps none parent) tree journal fun outcome tree' after =>
      ∃ t' slot events, t'.root? = some outcome.1 ∧ outcome.2 = none ∧
        Placed tree' parent t' rest ∧ Spares rest tree tree' ∧
        Insertion ⟨slot, key, value, stamp⟩ {} nil t' ∧ Grown nil t' events ∧
        after = (journal.compared key []).noted events := by
  have hhouses : Houses tree rest := hplaced.houses
  obtain ⟨slot, pool, hallocate, hnew, hoccupied, hself, hother, hcapacity⟩ :=
    hhouses.occupied.allocate { key, value, parent, stamp : Node K V }
  rw [insertAt, edits_bind, edits_addNode hallocate]
  refine ⟨node nil ⟨slot, key, value, stamp⟩ 0 nil, slot, [], rfl, rfl,
    ⟨⟨hself, trivial, trivial⟩, hoccupied, ?_⟩, ⟨rfl, ?_, ?_⟩, ?_, .taller rfl ?_, by simp⟩
  · simp [hhouses.size_eq]
  · intro other hmem
    exact hother other fun he => hnew (he ▸ hmem)
  · rw [hhouses.size_eq]
    exact hcapacity
  · exact ⟨rfl, by simp [Sound, Shape.height], by simp [Shape.height], by simp [Shape.height]⟩
  · simp

/-- Where the way down ends at a missing child, insertion into the subtree adds a node there, by
induction on the number of steps left. -/
theorem edits_insertAt_missing {steps : Nat} {parent : Option Slot} {rest : List Slot}
    (hplaced : Placed tree parent t rest) (hsound : t.Sound) (hsteps : t.levels ≤ steps)
    (hmissing : (t.descent c key journal.calls.size).here = none) :
    Edits (insertAt c key value stamp steps t.root? parent) tree journal
      fun outcome tree' after => ∃ t' slot events, t'.root? = some outcome.1 ∧ outcome.2 = none ∧
        Placed tree' parent t' rest ∧ Spares rest tree tree' ∧
        Insertion ⟨slot, key, value, stamp⟩ (t.descent c key journal.calls.size) t t' ∧
        Grown t t' events ∧
        after = (journal.compared key (t.descent c key journal.calls.size).keys).noted events := by
  induction steps generalizing t parent rest tree journal with
  | zero =>
    cases t with
    | nil => exact edits_insertAt_nil hplaced
    | node l x h r => exact absurd hsteps (Nat.not_succ_le_zero _)
  | succ steps ih =>
    cases t with
    | nil => exact edits_insertAt_nil hplaced
    | node l x h r =>
      rw [root?, insertAt, edits_bind, edits_readNode hplaced.stored.1, edits_bind, edits_ask]
      split
      · rename_i side hside
        obtain ⟨near, far, hjoin, hchild⟩ := node_eq_join side l r x h
        rw [hchild, edits_bind]
        rw [hjoin] at hplaced hsound hsteps hmissing ⊢
        rw [descent_join hside] at hmissing ⊢
        rw [Descent.here_under, ← Journal.size_calls_asked journal key x.key] at hmissing
        obtain ⟨-, hdiff, hdiff', hnear, hfar⟩ := sound_join.mp hsound
        rw [levels_join] at hsteps
        refine edits_mono (ih hplaced.part hnear (by omega) hmissing) ?_
        rintro ⟨child, old⟩ tree₁ after
          ⟨near', slot, events, hroot, rfl, hplaced₁, hspares₁, hinsertion, hgrown, rfl⟩
        -- the subtree, which may have grown, is hung under its node again
        dsimp only at hroot ⊢
        rw [← hroot]
        refine edits_bind_of (edits_hang hplaced hplaced₁ hspares₁) ?_
        intro outcome tree₂ _ houtcome
        obtain ⟨rfl, hplaced₂, hspares₂⟩ := houtcome
        have hgrow := hinsertion.le_height
        have hgrow' := hinsertion.height_le
        refine edits_bind_of (edits_mend hplaced₂ hspares₂ hinsertion.sound hfar (by omega)
          (by omega)) ?_
        rintro top tree₃ _ ⟨hroot', hplaced₃, hspares₃, rfl⟩
        have hmended := mended_mend side x hinsertion.sound hfar (by omega) (by omega)
        rw [Journal.size_calls_asked] at hinsertion
        exact ⟨_, slot, _, hroot', rfl, hplaced₃, hspares₃, hinsertion.mend hsound hmended,
          hgrown.mend hinsertion.sound hsound, by simp⟩
      · rename_i hside
        rw [descent_here hside] at hmissing
        cases hmissing

end Missing

/-! ## Whole trees -/

section Edits

variable {trust : Prop} {cmp : K → K → Ordering} {c : Comparator K} {key : K} {value : V}
  {stamp version : Nat} {tree : Tree K V} {journal : Journal K V} {t : Shape K V} {x : Cell K V}

/-- A key that is found gets another value, and nothing else in the tree is different. -/
theorem edits_insert_found (hspells : Spells tree version t)
    (hx : (t.descent c key journal.calls.size).here = some x) :
    Edits (insert c key value stamp) tree journal fun old tree' after => old = some x.value ∧
      tree.Differs x.slot x.value value stamp tree' ∧
      after = journal.compared key (t.descent c key journal.calls.size).keys := by
  unfold insert
  rw [edits_bind, edits_get, hspells.root_eq]
  refine edits_bind_of (edits_insertAt_found hspells.placed.stored hspells.levels_le hx) ?_
  rintro ⟨root, old⟩ tree' after ⟨hroot, rfl, hdiffers, rfl⟩
  have hstored' := hspells.placed.stored.overwrite hdiffers
  rw [edits_bind, edits_adoptRoot_self (root?_overwrite.trans hroot)
    (hdiffers.touches.root_eq.trans (hspells.root_eq.trans hroot)) hstored']
  exact ⟨rfl, hdiffers, rfl⟩

/-- A key that is missing gets a node where the way down for it leads. -/
theorem edits_insert_missing (hspells : Spells tree version t) (hstamp : version ≤ stamp)
    (hmissing : (t.descent c key journal.calls.size).here = none) :
    Edits (insert c key value stamp) tree journal fun old tree' after => old = none ∧
      ∃ t' slot events, Spells tree' stamp t' ∧
        Insertion ⟨slot, key, value, stamp⟩ (t.descent c key journal.calls.size) t t' ∧
        Grown t t' events ∧ tree'.pool.slots.size ≤ max tree.pool.slots.size tree'.size ∧
        after = (journal.compared key (t.descent c key journal.calls.size).keys).noted events := by
  have hspells' := hspells.mono hstamp
  unfold insert
  rw [edits_bind, edits_get, hspells.root_eq]
  refine edits_bind_of (edits_insertAt_missing hspells.placed hspells.sound hspells.levels_le
    hmissing) ?_
  rintro ⟨root, old⟩ tree₁ after
    ⟨t', slot, events, hroot, rfl, hplaced, hspares, hinsertion, hgrown, hafter⟩
  dsimp only at hroot ⊢
  rw [← hroot]
  refine edits_bind_of (edits_adoptRoot hplaced.stored hplaced.nodup hplaced.houses) ?_
  intro outcome tree₂ _ houtcome
  obtain ⟨rfl, hstored, hroot₂, hhouses, hcapacity⟩ := houtcome
  refine ⟨rfl, t', slot, events, ⟨hroot₂, ⟨hstored, hhouses⟩, hinsertion.sound,
    hinsertion.stampedBy (cells_eq_of_missing hmissing) hspells'.stamped (Nat.le_refl _)⟩,
    hinsertion, hgrown, ?_, hafter⟩
  rw [hcapacity, hhouses.size_eq, ← hplaced.houses.size_eq]
  exact hspares.capacity_le

/-- Insertion into a tree never ends in a fault, whatever the comparator answers. -/
theorem edits_insert (hlaw : trust → c.Follows cmp) (hspells : Spells tree version t)
    (hasc : trust → Ascending cmp t.toList) (hstamp : version ≤ stamp) :
    Edits (insert c key value stamp) tree journal fun old tree' after =>
      ∃ t', Spells tree' stamp t' ∧ Written trust cmp key value t.toList old t'.toList ∧
        tree'.pool.slots.size ≤ max tree.pool.slots.size tree'.size ∧
        after.shown = journal.shown := by
  cases hx : (t.descent c key journal.calls.size).here with
  | some x =>
    refine edits_mono (edits_insert_found hspells hx) ?_
    rintro old tree' after ⟨rfl, hdiffers, rfl⟩
    obtain ⟨t', hspells', hwritten, hcapacity⟩ := hspells.written hlaw hstamp hx hdiffers
    exact ⟨t', hspells', hwritten, hcapacity, rfl⟩
  | none =>
    refine edits_mono (edits_insert_missing hspells hstamp hx) ?_
    rintro old tree' after ⟨rfl, t', slot, events, hspells', hinsertion, -, hcapacity, rfl⟩
    refine ⟨t', hspells', ?_, hcapacity, rfl⟩
    rw [hinsertion.toList_eq]
    exact .inserted _ _ (toList_eq_of_missing hx) fun ht => descent_between (hlaw ht) (hasc ht)

end Edits

end OrderedMaps.Avl
