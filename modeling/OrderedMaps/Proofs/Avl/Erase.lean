import OrderedMaps.Avl.Erase
import OrderedMaps.Proofs.Avl.Insert

/-!
# Removal from binary trees

Removal takes the way down for its key. If that ends at a node, its entry is taken out, and the way
back is rebalanced. If not, nothing is written.

* `Avl.edits_detachLeast`: the first node of a subtree is taken out.
* `Avl.Removal`: what a removal that finds its key makes of a shape.
* `Avl.edits_eraseAt_found`, `Avl.edits_erase_found`: an entry is removed.
* `Avl.edits_eraseAt_missing`, `Avl.edits_erase_missing`: nothing changes.
* `Avl.edits_erase`: in either case, whatever the comparator answers, there is no fault, and the
  entries are those of a removal.
-/

namespace OrderedMaps.Avl

open Shape

variable {K V : Type} {tree : Tree K V} {journal : Journal K V} {rest : List Slot}

/-- The first node is taken out of a subtree, by induction on the number of steps left. The height
shrinks by one at most. -/
theorem edits_detachLeast {steps : Nat} {parent : Option Slot} {l r : Shape K V} {x : Cell K V}
    {h : Int} (hplaced : Placed tree parent (node l x h r) rest) (hsound : (node l x h r).Sound)
    (hsteps : (node l x h r).levels ≤ steps) :
    Edits (detachLeast steps x.slot) tree journal fun outcome tree' after =>
      ∃ least t' above events, t'.root? = outcome.1 ∧ outcome.2.key = least.key ∧
        outcome.2.value = least.value ∧ Placed tree' above t' rest ∧ Spares rest tree tree' ∧
        (node l x h r).cells = least :: t'.cells ∧ t'.Sound ∧ t'.height ≤ h ∧ h ≤ t'.height + 1 ∧
        Repairs (node l x h r).height events ∧ after = journal.noted events := by
  induction steps generalizing l x h r parent rest tree journal with
  | zero => exact absurd hsteps (Nat.not_succ_le_zero _)
  | succ steps ih =>
    obtain ⟨hheight, hdiff, hdiff', hl, hr⟩ := id hsound
    rw [detachLeast, edits_bind, edits_readNode hplaced.stored.1]
    cases l with
    | nil =>
      have hplaced' : Placed tree parent (join .right r x h nil) rest := hplaced
      refine edits_bind_of (edits_unlink hplaced') ?_
      intro outcome tree₁ _ houtcome
      obtain ⟨rfl, rfl, hplaced₁, hspares₁⟩ := houtcome
      have hlow := hr.neg_one_le
      simp only [height_nil] at hheight hdiff hdiff'
      have hpos : 0 ≤ (Shape.node nil x h r).height := by
        rw [height_node]
        omega
      exact ⟨x, r, _, [], rfl, rfl, rfl, hplaced₁, hspares₁, rfl, hr, by omega, by omega,
        .nil hpos, by simp⟩
    | node ll y k lr =>
      have hplaced' : Placed tree parent (join .left (node ll y k lr) x h r) rest := hplaced
      have hlevels : (node ll y k lr).levels ≤ steps := by
        simp only [levels] at hsteps ⊢
        omega
      refine edits_bind_of (ih hplaced'.part hl hlevels) ?_
      rintro ⟨left, node⟩ tree₁ _ ⟨least, l', above, events, hroot, hkey, hvalue, hplaced₁, hspares₁,
        hcells, hl', hle, hge, hrepairs, rfl⟩
      dsimp only at hroot hkey hvalue ⊢
      rw [← hroot]
      refine edits_bind_of (edits_hang hplaced' hplaced₁ hspares₁) ?_
      intro outcome tree₂ _ houtcome
      obtain ⟨rfl, hplaced₂, hspares₂⟩ := houtcome
      have hjoin : (join .left (Shape.node ll y k lr) x h r).Sound := hsound
      have hmend := hrepairs.mend hl' hle hge hjoin
      simp only [height_node] at hheight hdiff hdiff'
      refine edits_bind_of (edits_mend hplaced₂ hspares₂ hl' hr (by omega) (by omega)) ?_
      rintro slot tree₃ _ ⟨hroot', hplaced₃, hspares₃, rfl⟩
      have hmended := mended_mend .left x hl' hr (by omega) (by omega)
      have hcells' : (Shape.node (Shape.node ll y k lr) x h r).cells =
          least :: (mend .left l' x r).1.cells := by
        rw [hmended.cells_eq h, cells, hcells]
        rfl
      obtain ⟨-, hsound', hle', hge', heq⟩ := hmended
      exact ⟨least, _, parent, _, hroot', hkey, hvalue, hplaced₃, hspares₃, hcells', hsound',
        by omega, by omega, hmend, by simp⟩

/-! ## Keys that are found -/

/-- What a removal makes of a shape, if the way down ends at a cell. The entry there is gone. If
there were two subtrees below it, then its node has the next entry now, with the stamp of the
removal. -/
structure Removal (stamp : Nat) (d : Descent K V) (t t' : Shape K V) : Prop where
  /-- All other entries are as they were. -/
  toList_eq : t'.toList = (d.before ++ d.after).map Cell.entry
  sound : t'.Sound
  /-- No stamp is later than that of the removal. -/
  stamped : t'.StampedBy stamp
  height_le : t'.height ≤ t.height
  /-- The height shrinks by one at most. -/
  le_height : t.height ≤ t'.height + 1

section Removal

variable {d : Descent K V} {stamp : Nat} {side : Side} {near near' far t' : Shape K V}
  {x : Cell K V} {height : Int}

/-- Where an entry was removed from the near subtree, the mended node is the whole after it. -/
theorem Removal.mend (h : Removal stamp d near near') (hsound : (join side near x height far).Sound)
    (hstamp : (join side near x height far).StampedBy stamp)
    (hmended : Mended side near' x far t') :
    Removal stamp (d.under side x far) (join side near x height far) t' := by
  obtain ⟨hheight, hdiff, hdiff', -, -⟩ := sound_join.mp hsound
  obtain ⟨hx, -, hstampf⟩ := stampedBy_join.mp hstamp
  obtain ⟨-, hsound', hle, hge, heq⟩ := id hmended
  have hshrink := h.height_le
  have hshrink' := h.le_height
  refine ⟨?_, hsound', hmended.stampedBy hx h.stamped hstampf, ?_, ?_⟩
  · rw [hmended.toList_eq height, toList_join, h.toList_eq, List.map_append, List.map_append,
      Descent.before_under, Descent.after_under]
    simp only [List.append_assoc]
  · rw [height_join]
    omega
  · rw [height_join]
    omega

/-- A node with one subtree at most gives way to that. -/
theorem Removal.unlink (hsound : (join side near x height nil).Sound)
    (hstamp : (join side near x height nil).StampedBy stamp)
    (hd : near.cells = d.before ++ d.after) :
    Removal stamp d (join side near x height nil) near := by
  obtain ⟨hheight, hdiff, hdiff', hnear, -⟩ := sound_join.mp hsound
  obtain ⟨-, hstampn, -⟩ := stampedBy_join.mp hstamp
  have hlow := hnear.neg_one_le
  simp only [height_nil] at hheight hdiff
  exact ⟨by rw [toList, hd], hnear, hstampn, by rw [height_join]; omega,
    by rw [height_join]; omega⟩

/-- A node with two subtrees takes over the entry after its own. -/
theorem Removal.replace {l r r' : Shape K V} {least : Cell K V} (hsound : (node l x height r).Sound)
    (hstamp : (node l x height r).StampedBy stamp) (hcells : r.cells = least :: r'.cells)
    (hle : r'.height ≤ r.height) (hge : r.height ≤ r'.height + 1)
    (hmended : Mended .right r' { x with key := least.key, value := least.value, stamp } l t') :
    Removal stamp ⟨[x], l.cells, some x, r.cells⟩ (node l x height r) t' := by
  obtain ⟨hheight, hdiff, hdiff', -, -⟩ := hsound
  obtain ⟨-, hstampl, hstampr⟩ := stampedBy_node.mp hstamp
  obtain ⟨-, hsound', hle', hge', heq⟩ := id hmended
  have hstampr' : r'.StampedBy stamp :=
    fun cell hmem => hstampr cell (hcells ▸ List.mem_cons_of_mem _ hmem)
  refine ⟨?_, hsound', hmended.stampedBy (Nat.le_refl _) hstampr' hstampl, ?_, ?_⟩
  · rw [hmended.toList_eq height, join, toList_node, hcells, List.map_append, List.map_cons]
    rfl
  · rw [height_node]
    omega
  · rw [height_node]
    omega

end Removal

section Found

variable {c : Comparator K} {key : K} {d : Descent K V} {stamp : Nat} {t : Shape K V} {x : Cell K V}

/-- A node with one subtree at most is removed. -/
theorem edits_eraseAt_unlink {parent : Option Slot} {side : Side} {near : Shape K V} {h : Int}
    (hplaced : Placed tree parent (join side near x h nil) rest)
    (hremoval : Removal stamp d (join side near x h nil) near)
    (hsound : (join side near x h nil).Sound) :
    Edits (do return (near.root?, some (← removeNode x.slot).value)) tree journal
      fun outcome tree' after => ∃ t' above events, outcome = (t'.root?, some x.value) ∧
        Placed tree' above t' rest ∧ Spares rest tree tree' ∧
        Removal stamp d (join side near x h nil) t' ∧
        Repairs (join side near x h nil).height events ∧ after = journal.noted events := by
  refine edits_bind_of (edits_unlink hplaced) ?_
  intro outcome tree₁ _ houtcome
  obtain ⟨rfl, rfl, hplaced₁, hspares₁⟩ := houtcome
  have hvalue : (x.linked side h near.root? none parent).value = x.value := by
    cases side <;> rfl
  rw [edits_pure, hvalue]
  obtain ⟨hheight, -⟩ := sound_join.mp hsound
  have hlow := hremoval.sound.neg_one_le
  rw [← @height_join K V side near nil x h] at hheight
  exact ⟨near, _, [], rfl, hplaced₁, hspares₁, hremoval, .nil (by omega), by simp⟩

/-- A node with two subtrees gets the next entry, and the node of that entry is removed. -/
theorem edits_eraseAt_replace {steps : Nat} {parent : Option Slot} {l rl rr : Shape K V}
    {y : Cell K V} {h k : Int} (hplaced : Placed tree parent (node l x h (node rl y k rr)) rest)
    (hsound : (node l x h (node rl y k rr)).Sound)
    (hstamp : (node l x h (node rl y k rr)).StampedBy stamp)
    (hsteps : (node rl y k rr).levels ≤ steps) :
    Edits (do
        let (right, next) ← detachLeast steps y.slot
        setChild .right x.slot right
        writeNode x.slot ({ · with key := next.key, value := next.value, stamp })
        return (some (← rebalance x.slot), some x.value)) tree journal
      fun outcome tree' after => ∃ t' above events, outcome = (t'.root?, some x.value) ∧
        Placed tree' above t' rest ∧ Spares rest tree tree' ∧
        Removal stamp ⟨[x], l.cells, some x, (node rl y k rr).cells⟩
          (node l x h (node rl y k rr)) t' ∧
        Repairs (node l x h (node rl y k rr)).height events ∧ after = journal.noted events := by
  have hplaced' : Placed tree parent (join .right (node rl y k rr) x h l) rest := hplaced
  obtain ⟨-, hdiff, hdiff', hl, hr⟩ := id hsound
  refine edits_bind_of (edits_detachLeast hplaced'.part hr hsteps) ?_
  rintro ⟨right, next⟩ tree₁ _ ⟨least, r', above, events, hroot, hnextk, hnextv, hplaced₁, hspares₁,
    hcells, hr', hle, hge, hrepairs, rfl⟩
  dsimp only at hroot hnextk hnextv ⊢
  rw [← hroot, hnextk, hnextv]
  refine edits_bind_of (edits_hang hplaced' hplaced₁ hspares₁) ?_
  intro outcome tree₂ _ houtcome
  obtain ⟨rfl, hplaced₂, hspares₂⟩ := houtcome
  let x' : Cell K V := { x with key := least.key, value := least.value, stamp }
  have hslot : x'.slot = x.slot := rfl
  refine edits_bind_of (edits_rewrite hplaced₂ hspares₂ hslot rfl) ?_
  intro outcome tree₃ _ houtcome
  obtain ⟨rfl, hplaced₃, hspares₃⟩ := houtcome
  have hplaced₃' : Placed tree₃ parent (join .right r' x' h l) rest := hplaced₃
  have hjoin : (join .right (node rl y k rr) x' h l).Sound := hsound
  have hrepairs' := hrepairs.mend hr' hle hge hjoin
  rw [height_node] at hdiff hdiff'
  have hmend := @edits_mend K V tree tree₃ parent rest (journal.noted events) .right r' l x' h
    hplaced₃' hspares₃ hr' hl (by omega) (by omega)
  refine edits_bind_of hmend ?_
  rintro slot tree₄ _ ⟨hroot', hplaced₄, hspares₄, rfl⟩
  have hmended := mended_mend .right x' hr' hl (by omega) (by omega)
  rw [edits_pure, ← hroot']
  exact ⟨_, parent, _, rfl, hplaced₄, hspares₄, .replace hsound hstamp hcells hle hge hmended,
    hrepairs', by simp⟩

/-- Where the way down ends at a cell, its entry is removed from the subtree, by induction on the
number of steps left. -/
theorem edits_eraseAt_found {steps : Nat} {parent : Option Slot}
    (hplaced : Placed tree parent t rest) (hsound : t.Sound) (hstamp : t.StampedBy stamp)
    (hsteps : t.levels ≤ steps) (hx : (t.descent c key journal.calls.size).here = some x) :
    Edits (eraseAt c key stamp steps t.root?) tree journal fun outcome tree' after =>
      ∃ t' above events, outcome = (t'.root?, some x.value) ∧ Placed tree' above t' rest ∧
        Spares rest tree tree' ∧ Removal stamp (t.descent c key journal.calls.size) t t' ∧
        Repairs t.height events ∧
        after = (journal.compared key (t.descent c key journal.calls.size).keys).noted events := by
  induction steps generalizing t parent rest tree journal with
  | zero =>
    cases t with
    | nil => cases hx
    | node l y h r => exact absurd hsteps (Nat.not_succ_le_zero _)
  | succ steps ih =>
    cases t with
    | nil => cases hx
    | node l y h r =>
      rw [root?, eraseAt, edits_bind, edits_readNode hplaced.stored.1, edits_bind, edits_ask]
      split
      · rename_i side hside
        obtain ⟨near, far, hjoin, hchild⟩ := node_eq_join side l r y h
        rw [hchild]
        rw [hjoin] at hplaced hsound hstamp hsteps hx ⊢
        rw [descent_join hside] at hx ⊢
        rw [Descent.here_under, ← Journal.size_calls_asked journal key y.key] at hx
        obtain ⟨-, hdiff, hdiff', hnear, hfar⟩ := sound_join.mp hsound
        obtain ⟨-, hstampn, -⟩ := stampedBy_join.mp hstamp
        rw [levels_join] at hsteps
        refine edits_bind_of (ih hplaced.part hnear hstampn (by omega) hx) ?_
        rintro _ tree₁ _ ⟨near', above, events, rfl, hplaced₁, hspares₁, hremoval, hrepairs, rfl⟩
        -- the subtree, which may be lower now, is hung under its node again
        have hshrink := hremoval.height_le
        have hshrink' := hremoval.le_height
        refine edits_bind_of (edits_hang hplaced hplaced₁ hspares₁) ?_
        intro outcome tree₂ _ houtcome
        obtain ⟨rfl, hplaced₂, hspares₂⟩ := houtcome
        refine edits_bind_of (edits_mend hplaced₂ hspares₂ hremoval.sound hfar (by omega)
          (by omega)) ?_
        rintro slot tree₃ _ ⟨hroot', hplaced₃, hspares₃, rfl⟩
        have hmended := mended_mend side y hremoval.sound hfar (by omega) (by omega)
        rw [Journal.size_calls_asked] at hremoval
        exact ⟨_, parent, _, by rw [hroot'], hplaced₃, hspares₃,
          hremoval.mend hsound hstamp hmended,
          hrepairs.mend hremoval.sound hshrink hshrink' hsound, by simp⟩
      · rename_i hside
        rw [descent_here hside] at hx ⊢
        cases hx
        cases r with
        | nil =>
          have hremoval : Removal stamp ⟨[x], l.cells, some x, []⟩ (join .left l x h nil) l :=
            .unlink hsound hstamp (List.append_nil _).symm
          rw [Descent.keys, List.map_singleton, Journal.compared_singleton]
          cases l <;> exact edits_eraseAt_unlink hplaced hremoval hsound
        | node rl y k rr =>
          cases l with
          | nil =>
            have hremoval : Removal stamp ⟨[x], [], some x, (node rl y k rr).cells⟩
                (join .right (node rl y k rr) x h nil) (node rl y k rr) :=
              .unlink hsound hstamp rfl
            exact edits_eraseAt_unlink hplaced hremoval hsound
          | node ll z m lr =>
            have hlevels : (node rl y k rr).levels ≤ steps := by
              simp only [levels] at hsteps ⊢
              omega
            exact edits_eraseAt_replace hplaced hsound hstamp hlevels

end Found

/-! ## Keys that are missing -/

/-- Where the way down ends at a missing child, the subtree is not changed, by induction on the
number of steps left. -/
theorem edits_eraseAt_missing {c : Comparator K} {key : K} {stamp steps : Nat} {t : Shape K V}
    {parent : Option Slot} (hstored : t.Stored tree.pool parent) (hsteps : t.levels ≤ steps)
    (hmissing : (t.descent c key journal.calls.size).here = none) :
    Edits (eraseAt c key stamp steps t.root?) tree journal fun outcome tree' after =>
      outcome = (t.root?, none) ∧ tree' = tree ∧
        after = journal.compared key (t.descent c key journal.calls.size).keys := by
  induction steps generalizing t parent journal with
  | zero =>
    cases t with
    | nil => exact ⟨rfl, rfl, (Journal.compared_nil ..).symm⟩
    | node l x h r => exact absurd hsteps (Nat.not_succ_le_zero _)
  | succ steps ih =>
    cases t with
    | nil => exact ⟨rfl, rfl, (Journal.compared_nil ..).symm⟩
    | node l x h r =>
      rw [root?, eraseAt, edits_bind, edits_readNode hstored.1, edits_bind, edits_ask]
      split
      · rename_i side hside
        obtain ⟨near, far, hjoin, hchild⟩ := node_eq_join side l r x h
        rw [hchild]
        rw [hjoin] at hstored hsteps hmissing ⊢
        rw [descent_join hside] at hmissing ⊢
        rw [Descent.here_under, ← Journal.size_calls_asked journal key x.key] at hmissing
        rw [levels_join] at hsteps
        refine edits_bind_of (ih (stored_join.mp hstored).2.1 (by omega) hmissing) ?_
        rintro _ tree' after ⟨rfl, rfl, rfl⟩
        exact ⟨rfl, rfl, by simp⟩
      · rename_i hside
        rw [descent_here hside] at hmissing
        cases hmissing

/-! ## Whole trees -/

section Edits

variable {trust : Prop} {cmp : K → K → Ordering} {c : Comparator K} {key : K} {stamp version : Nat}
  {t : Shape K V} {x : Cell K V}

/-- A key that is found is removed, with the entry where the way down for it leads. -/
theorem edits_erase_found (hspells : Spells tree version t) (hstamp : version ≤ stamp)
    (hx : (t.descent c key journal.calls.size).here = some x) :
    Edits (erase c key stamp) tree journal fun old tree' after => old = some x.value ∧
      ∃ t' events, Spells tree' stamp t' ∧
        Removal stamp (t.descent c key journal.calls.size) t t' ∧ Repairs t.height events ∧
        tree'.pool.slots.size ≤ max tree.pool.slots.size tree'.size ∧
        after = (journal.compared key (t.descent c key journal.calls.size).keys).noted events := by
  have hspells' := hspells.mono hstamp
  unfold erase
  rw [edits_bind, edits_get, hspells.root_eq]
  refine edits_bind_of (edits_eraseAt_found hspells'.placed hspells'.sound hspells'.stamped
    hspells.levels_le hx) ?_
  rintro _ tree₁ after ⟨t', above, events, rfl, hplaced, hspares, hremoval, hrepairs, hafter⟩
  refine edits_bind_of (edits_adoptRoot hplaced.stored hplaced.nodup hplaced.houses) ?_
  intro outcome tree₂ _ houtcome
  obtain ⟨rfl, hstored, hroot₂, hhouses, hcapacity⟩ := houtcome
  refine ⟨rfl, t', events, ⟨hroot₂, ⟨hstored, hhouses⟩, hremoval.sound, hremoval.stamped⟩,
    hremoval, hrepairs, ?_, hafter⟩
  rw [hcapacity, hhouses.size_eq, ← hplaced.houses.size_eq]
  exact hspares.capacity_le

/-- If a key is missing, then nothing in the tree is different. -/
theorem edits_erase_missing (hspells : Spells tree version t)
    (hmissing : (t.descent c key journal.calls.size).here = none) :
    Edits (erase c key stamp) tree journal fun old tree' after => old = none ∧ tree' = tree ∧
      after = journal.compared key (t.descent c key journal.calls.size).keys := by
  unfold erase
  rw [edits_bind, edits_get, hspells.root_eq]
  refine edits_bind_of (edits_eraseAt_missing hspells.placed.stored hspells.levels_le hmissing) ?_
  rintro _ tree' after ⟨rfl, rfl, rfl⟩
  exact ⟨rfl, rfl, rfl⟩

/-- Removal from a tree never ends in a fault, whatever the comparator answers. -/
theorem edits_erase (hlaw : trust → c.Follows cmp) (hspells : Spells tree version t)
    (hasc : trust → Ascending cmp t.toList) (hstamp : version ≤ stamp) :
    Edits (erase c key stamp) tree journal fun old tree' after =>
      ∃ t', Spells tree' stamp t' ∧ Removed trust cmp key t.toList old t'.toList ∧
        tree'.pool.slots.size ≤ max tree.pool.slots.size tree'.size ∧
        after.shown = journal.shown := by
  cases hx : (t.descent c key journal.calls.size).here with
  | some x =>
    refine edits_mono (edits_erase_found hspells hstamp hx) ?_
    rintro old tree' after ⟨rfl, t', events, hspells', hremoval, -, hcapacity, rfl⟩
    refine ⟨t', hspells', ?_, hcapacity, rfl⟩
    rw [hremoval.toList_eq, List.map_append]
    exact .deleted _ x.key x.value _ (toList_eq_of_here hx) fun ht => eq_of_here (hlaw ht) hx
  | none =>
    refine edits_mono (edits_erase_missing hspells hx) ?_
    rintro old tree' after ⟨rfl, rfl, rfl⟩
    exact ⟨t, hspells.mono hstamp, .absent fun ht => absent_of_missing (hlaw ht) (hasc ht) hx,
      Nat.le_max_left _ _, rfl⟩

end Edits

end OrderedMaps.Avl
