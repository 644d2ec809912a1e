import OrderedMaps.BTree.Erase
import OrderedMaps.Proofs.BTree.Insert

/-!
# Removal from multi-way trees

* `BTree.Lessened`: what a removal leaves of a subtree.
* `BTree.ends_popLast`, `BTree.ends_popFirst`: the outermost entries are taken out.
* `BTree.ends_takeLast`, `BTree.ends_takeFirst`, `BTree.ends_eraseMerged`: what becomes of a key of
  an inner node.
* `BTree.ends_erase`: a removal from a subtree never ends in a fault, whatever the comparator
  answers.
* `BTree.Tree.Shrinks`: the levels and the steps of a removal from a tree.
* `BTree.ends_treeErase`: the same for a whole tree.
-/

namespace OrderedMaps.BTree

variable {K V : Type} {trust : Prop} {cmp : K → K → Ordering} {d : Discipline K V} {key : K}
  {levels t position : Nat} {node node' child left right : Node K V}
  {before : List (Node K V × K × V)} {after : List (K × V × Node K V)} {journal : Journal K V}

/-- What a removal leaves of a subtree: a well-formed one, the topmost node of which lost at most
one key. -/
structure Lessened (t levels : Nat) (node node' : Node K V) : Prop where
  formed : Formed t levels node'
  keys_le : node.keys.length ≤ node'.keys.length + 1

/-- A child with a key to lose may lose one. -/
theorem formed_lessened (h : Formed t (levels + 1) (plug before child after))
    (hspare : t ≤ child.keys.length) (hchild : Lessened t levels child node') :
    Formed t (levels + 1) (plug before node' after) := by
  obtain ⟨hmost, hbefore, -, hafter⟩ := formed_plug.mp h
  have hkeys := hchild.keys_le
  exact formed_plug.mpr ⟨hmost, hbefore, ⟨hchild.formed, by omega⟩, hafter⟩

/-- A child that was filled may lose a key. -/
theorem Filled.lessened {before' : List (Node K V × K × V)} {child' : Node K V}
    {after' : List (K × V × Node K V)}
    (hfilled : Filled t levels before child after before' child' after')
    (h : Formed t (levels + 1) (plug before child after))
    (hchild : Lessened t levels child' node') :
    Lessened t (levels + 1) (plug before child after) (plug before' node' after') where
  formed := formed_lessened (hfilled.formed h) hfilled.spare hchild
  keys_le := by
    rw [length_keys_plug, length_keys_plug]
    exact hfilled.keys_le

/-! ## Outermost entries -/

/-- The last entry is taken out, by induction on the number of levels. Each step first gives the
last child a key to lose. -/
theorem ends_popLast (ht : 2 ≤ t) (h : Formed t levels node) (hkeys : t ≤ node.keys.length) :
    Ends (node.popLast t levels) journal fun outcome later =>
      node.toList = outcome.1.toList ++ [outcome.2] ∧ Lessened t levels node outcome.1 ∧
        Steps t (levels - 1) journal later := by
  induction levels generalizing node journal with
  | zero => exact absurd h Formed.not_zero
  | succ levels ih =>
    have hstep : (Event.poppingFrom .right node.keys.length).Meets t := hkeys
    rw [Node.popLast, ends_bind, ends_record]
    cases levels with
    | zero =>
      obtain ⟨entries, rfl⟩ := h.exists_leafOf
      rw [formed_leafOf] at h
      rw [length_keys_leafOf] at hkeys
      rcases List.eq_nil_or_concat entries with rfl | ⟨rest, ⟨key, value⟩, rfl⟩
      · simp at hkeys
        omega
      · have hremove : (leafOf (rest.concat (key, value))).removeLastEntry =
            .ok (leafOf rest, key, value) := by
          rw [List.concat_eq_append, leafOf, List.map_append, List.map_append]
          exact removeLastEntry_append
        rw [isLeaf_leafOf, if_pos rfl, ends_liftM]
        refine ⟨_, hremove, by simp, ⟨formed_leafOf.mpr ?_, by simp⟩, .noted hstep journal⟩
        simp at h
        omega
    | succ levels =>
      obtain ⟨before, child, after, rfl, hlength⟩ := h.exists_plug (Nat.le_refl _)
      rw [length_keys_plug] at hlength hkeys
      obtain rfl : after = [] := List.eq_nil_of_length_eq_zero (by omega)
      rw [isLeaf_plug, if_neg Bool.false_ne_true]
      apply ends_bind_of (ends_fillIfShort ht h.fanned (by omega) (by simp [length_keys_plug]))
      intro outcome later houtcome
      obtain ⟨before', child', after', rfl, hfilled, hsteps⟩ := houtcome
      obtain rfl : after' = [] := aft_eq_nil fun e he => hfilled.aft_suffix.mem he
      have hentered : Steps t 1 journal later := (Steps.noted hstep journal).trans hsteps
      have hspare := hfilled.spare
      have hchild := (fanned_plug.mp hfilled.fanned).2.1
      show Ends ((plug before' child' []).updateChild before'.length _) _ _
      rw [ends_updateChild rfl]
      apply ends_mono (ih hchild.formed hspare)
      intro outcome later' houtcome
      obtain ⟨hentries, hlessened, hsteps'⟩ := houtcome
      refine ⟨?_, hfilled.lessened h hlessened, (hentered.trans hsteps').mono (by omega)⟩
      rw [← hfilled.toList_eq, toList_plug, toList_plug, hentries]
      simp

/-- The first entry is taken out, by induction on the number of levels. -/
theorem ends_popFirst (ht : 2 ≤ t) (h : Formed t levels node) (hkeys : t ≤ node.keys.length) :
    Ends (node.popFirst t levels) journal fun outcome later =>
      node.toList = outcome.2 :: outcome.1.toList ∧ Lessened t levels node outcome.1 ∧
        Steps t (levels - 1) journal later := by
  induction levels generalizing node journal with
  | zero => exact absurd h Formed.not_zero
  | succ levels ih =>
    have hstep : (Event.poppingFrom .left node.keys.length).Meets t := hkeys
    rw [Node.popFirst, ends_bind, ends_record]
    cases levels with
    | zero =>
      obtain ⟨entries, rfl⟩ := h.exists_leafOf
      rw [formed_leafOf] at h
      rw [length_keys_leafOf] at hkeys
      have hpos : 0 < entries.length := by omega
      obtain ⟨⟨key, value⟩, rest, rfl⟩ := List.exists_cons_of_length_pos hpos
      have hremove : (leafOf ((key, value) :: rest)).removeEntry 0 =
          .ok (leafOf rest, key, value) := rfl
      rw [isLeaf_leafOf, if_pos rfl, ends_liftM]
      refine ⟨_, hremove, by simp, ⟨formed_leafOf.mpr ?_, by simp⟩, .noted hstep journal⟩
      simp at h
      omega
    | succ levels =>
      obtain ⟨before, child, after, rfl, hlength⟩ := h.exists_plug (Nat.zero_le _)
      obtain rfl : before = [] := List.eq_nil_of_length_eq_zero hlength
      rw [length_keys_plug] at hkeys
      rw [isLeaf_plug, if_neg Bool.false_ne_true]
      apply ends_bind_of (ends_fillIfShort ht h.fanned (by omega) rfl)
      intro outcome later houtcome
      obtain ⟨before', child', after', rfl, hfilled, hsteps⟩ := houtcome
      obtain rfl : before' = [] := fore_eq_nil fun e he => hfilled.fore_prefix.mem he
      have hentered : Steps t 1 journal later := (Steps.noted hstep journal).trans hsteps
      have hspare := hfilled.spare
      have hchild := (fanned_plug.mp hfilled.fanned).2.1
      have hzero : 0 = ([] : List (Node K V × K × V)).length := rfl
      show Ends ((plug [] child' after').updateChild 0 _) _ _
      rw [ends_updateChild hzero]
      apply ends_mono (ih hchild.formed hspare)
      intro outcome later' houtcome
      obtain ⟨hentries, hlessened, hsteps'⟩ := houtcome
      refine ⟨?_, hfilled.lessened h hlessened, (hentered.trans hsteps').mono (by omega)⟩
      rw [← hfilled.toList_eq, toList_plug, toList_plug, hentries]
      simp

/-! ## Subtrees -/

/-- What a removal of a key leaves of a subtree. -/
structure Erased (trust : Prop) (cmp : K → K → Ordering) (key : K) (t levels : Nat)
    (node : Node K V) (outcome : Node K V × Option V) : Prop where
  removed : Removed trust cmp key node.toList outcome.2 outcome.1.toList
  lessened : Lessened t levels node outcome.1

theorem removeEntry_leafOf {before behind : List (K × V)} {k : K} {v : V} :
    (leafOf (before ++ (k, v) :: behind)).removeEntry before.length =
      .ok (leafOf (before ++ behind), k, v) := by
  simp only [Node.removeEntry, leafOf, List.map_append, List.map_cons]
  rw [Checked.remove_middle (by simp), ok_bind, Checked.remove_middle (by simp)]
  rfl

theorem erased_leaf {before behind : List (K × V)} {k : K} {v : V}
    (h : Formed t 1 (leafOf (before ++ (k, v) :: behind))) (hk : trust → cmp key k = .eq) :
    Erased trust cmp key t 1 (leafOf (before ++ (k, v) :: behind))
      (leafOf (before ++ behind), some v) := by
  rw [formed_leafOf] at h
  refine ⟨?_, formed_leafOf.mpr ?_, ?_⟩
  · show Removed trust cmp key _ (some v) (leafOf (before ++ behind)).toList
    rw [toList_leafOf, toList_leafOf]
    exact .deleted before k v behind rfl hk
  · simp at h ⊢
    omega
  · simp
    omega

/-- An entry gives its place to a neighbour that was taken out of one of the children. -/
theorem erased_separator {left' right' : Node K V} {k k' : K} {v v' : V}
    (h : Formed t (levels + 1) (plug before left' ((k, v, right') :: after)))
    (hentries : left.toList ++ right.toList = left'.toList ++ (k', v') :: right'.toList)
    (hk : trust → cmp key k = .eq) :
    Erased trust cmp key t (levels + 1) (plug before left ((k, v, right) :: after))
      (plug before left' ((k', v', right') :: after), some v) := by
  obtain ⟨hmost, hbefore, hleft, hafter⟩ := formed_plug.mp h
  refine ⟨?_, formed_plug.mpr ⟨hmost, hbefore, hleft, ?_⟩, by simp [length_keys_plug]⟩
  · have hremoved : Removed trust cmp key (plug before left ((k, v, right) :: after)).toList
        (some v) (fore before ++ left.toList ++ (right.toList ++ aft after)) :=
      .deleted _ k v _ (by simp [toList_plug]) hk
    have hafter : (plug before left' ((k', v', right') :: after)).toList =
        fore before ++ left.toList ++ (right.toList ++ aft after) := by
      calc (plug before left' ((k', v', right') :: after)).toList
          = fore before ++ (left'.toList ++ (k', v') :: right'.toList) ++ aft after := by
            simp [toList_plug]
        _ = fore before ++ left.toList ++ (right.toList ++ aft after) := by
            rw [← hentries]
            simp
    show Removed trust cmp key _ (some v) (plug before left' ((k', v', right') :: after)).toList
    rw [hafter]
    exact hremoved
  · intro e he
    rcases List.mem_cons.mp he with rfl | he
    · exact hafter (k, v, right') List.mem_cons_self
    · exact hafter e (List.mem_cons_of_mem _ he)

/-- A removal from a child that has a key to lose is a removal from the node above it. -/
theorem ends_eraseChild {f : Node K V → Run K V (Node K V × Option V)} {P : Journal K V → Prop}
    (h : Formed t (levels + 1) (plug before child after)) (hspare : t ≤ child.keys.length)
    (hkeys : node.keys.length ≤ before.length + after.length + 1)
    (hentries : (plug before child after).toList = node.toList)
    (hplace : trust → Between cmp key (fore before) (aft after))
    (hposition : position = before.length)
    (hchild : Ends (f child) journal fun outcome later =>
      Erased trust cmp key t levels child outcome ∧ P later) :
    Ends ((plug before child after).updateChild position f) journal fun outcome later =>
      Erased trust cmp key t (levels + 1) node outcome ∧ P later := by
  rw [ends_updateChild hposition]
  apply ends_mono hchild
  intro outcome later houtcome
  obtain ⟨herased, hlater⟩ := houtcome
  refine ⟨⟨?_, formed_lessened h hspare herased.lessened, ?_⟩, hlater⟩
  · have hafter : (plug before outcome.1 after).toList =
        fore before ++ outcome.1.toList ++ aft after := toList_plug
    show Removed trust cmp key _ outcome.2 (plug before outcome.1 after).toList
    rw [hafter]
    exact herased.removed.extend (hentries ▸ toList_plug) hplace
  · rw [length_keys_plug]
    exact hkeys

/-- The entry before the key takes its place, if the child that holds it can lose a key. -/
theorem ends_takeLast {k : K} {v : V} (ht : 2 ≤ t)
    (h : Formed t (levels + 2) (plug before left ((k, v, right) :: after)))
    (hspare : t ≤ left.keys.length) (hk : trust → cmp key k = .eq) :
    Ends (do
      let (node, key', value') ←
        (plug before left ((k, v, right) :: after)).updateChild before.length
          (Node.popLast t (levels + 1))
      let (node, old) ← node.replaceEntry before.length key' value'
      return (node, some old)) journal fun outcome later =>
        Erased trust cmp key t (levels + 2) (plug before left ((k, v, right) :: after)) outcome ∧
          Steps t (levels + 1) journal later := by
  obtain ⟨-, -, hleft, -⟩ := formed_plug.mp h
  rw [ends_bind, ends_updateChild rfl]
  apply ends_mono (ends_popLast ht hleft.formed hspare)
  intro outcome later houtcome
  obtain ⟨hentries, hlessened, hsteps⟩ := houtcome
  have hformed := formed_lessened h hspare hlessened
  rw [ends_bind, ends_liftM]
  exact ⟨_, replaceEntry_plug rfl, erased_separator hformed (by simp [hentries]) hk,
    hsteps.mono (Nat.le_succ _)⟩

/-- The entry after the key takes its place, if the child that holds it can lose a key. -/
theorem ends_takeFirst {k : K} {v : V} (ht : 2 ≤ t)
    (h : Formed t (levels + 2) (plug before left ((k, v, right) :: after)))
    (hspare : t ≤ right.keys.length) (hk : trust → cmp key k = .eq) :
    Ends (do
      let (node, key', value') ←
        (plug before left ((k, v, right) :: after)).updateChild (before.length + 1)
          (Node.popFirst t (levels + 1))
      let (node, old) ← node.replaceEntry before.length key' value'
      return (node, some old)) journal fun outcome later =>
        Erased trust cmp key t (levels + 2) (plug before left ((k, v, right) :: after)) outcome ∧
          Steps t (levels + 1) journal later := by
  obtain ⟨-, -, -, hafter⟩ := formed_plug.mp h
  have hright : Stout t (levels + 1) right := hafter _ List.mem_cons_self
  rw [ends_bind, ends_updateNext rfl]
  apply ends_mono (ends_popFirst ht hright.formed hspare)
  intro outcome later houtcome
  obtain ⟨hentries, hlessened, hsteps⟩ := houtcome
  have hformed : Formed t (levels + 2) (plug before left ((k, v, outcome.1) :: after)) := by
    rw [plug_shift] at h ⊢
    exact formed_lessened h hspare hlessened
  rw [ends_bind, ends_liftM]
  exact ⟨_, replaceEntry_plug rfl, erased_separator hformed (by rw [hentries]) hk,
    hsteps.mono (Nat.le_succ _)⟩

/-- If neither child can lose a key, the two are merged around the key, which is then removed from
the child that results. -/
theorem ends_eraseMerged {f : Node K V → Run K V (Node K V × Option V)} {k : K} {v : V}
    (hd : d.Sound trust cmp)
    (h : Formed d.degree (levels + 2) (plug before left ((k, v, right) :: after)))
    (hasc : trust → Ascending cmp (plug before left ((k, v, right) :: after)).toList)
    (hleft : left.keys.length < d.degree) (hright : right.keys.length < d.degree)
    (hk : trust → cmp key k = .eq)
    (hchild : ∀ child journal', Formed d.degree (levels + 1) child →
      (trust → Ascending cmp child.toList) → d.degree ≤ child.keys.length →
      Ends (f child) journal' fun outcome later =>
        Erased trust cmp key d.degree (levels + 1) child outcome ∧
          Steps d.degree levels journal' later) :
    Ends (do
      let node ← (plug before left ((k, v, right) :: after)).mergeNoted before.length
      node.updateChild before.length f) journal fun outcome later =>
        Erased trust cmp key d.degree (levels + 2) (plug before left ((k, v, right) :: after))
          outcome ∧ Steps d.degree (levels + 1) journal later := by
  have ht := hd.least_le
  have hmerged := filled_merged ht h.fanned hleft hright
  have hstout := (fanned_plug.mp hmerged.fanned).2.1
  have hasc' : trust → Ascending cmp (plug before (fuse left k v right) after).toList :=
    hmerged.toList_eq ▸ hasc
  -- the key has gone down into the merged child, so that it still lies in between
  have hplace : trust → Between cmp key (fore before) (aft after) := by
    intro htrust
    have := (hd.follows htrust).lawful
    have hwhole : (plug before left ((k, v, right) :: after)).toList =
        fore before ++ left.toList ++ (k, v) :: (right.toList ++ aft after) := by
      simp [toList_plug]
    have hbetween := (hwhole ▸ hasc htrust).between (hk htrust)
    exact ⟨fun e he => hbetween.above e (List.mem_append_left _ he),
      fun e he => hbetween.below e (List.mem_append_right _ he)⟩
  have hlength : (plug before left ((k, v, right) :: after)).keys.length ≤
      before.length + after.length + 1 := by
    rw [length_keys_plug]
    exact hmerged.keys_le
  apply ends_bind_of (ends_mergeNoted h.fanned hleft hright rfl)
  intro node later hnode
  obtain ⟨rfl, hstep⟩ := hnode
  apply ends_eraseChild (hmerged.formed h) hmerged.spare hlength hmerged.toList_eq hplace rfl
  exact hstep.prepend (Nat.le_of_eq (Nat.add_comm 1 levels))
    (hchild _ _ hstout.formed (fun htrust => ascending_child (hasc' htrust)) hmerged.spare)

/-- A child that is entered is filled before, so that it has a key to lose. -/
theorem ends_eraseFilled {f : Node K V → Run K V (Node K V × Option V)} (hd : d.Sound trust cmp)
    (h : Formed d.degree (levels + 2) (plug before child after))
    (hasc : trust → Ascending cmp (plug before child after).toList)
    (hkeys : 1 ≤ (plug before child after).keys.length)
    (hplace : trust → Between cmp key (fore before) (aft after))
    (hchild : ∀ child journal', Formed d.degree (levels + 1) child →
      (trust → Ascending cmp child.toList) → d.degree ≤ child.keys.length →
      Ends (f child) journal' fun outcome later =>
        Erased trust cmp key d.degree (levels + 1) child outcome ∧
          Steps d.degree levels journal' later) :
    Ends (do
      let (node, position) ← (plug before child after).fillIfShort d.degree before.length
      node.updateChild position f) journal fun outcome later =>
        Erased trust cmp key d.degree (levels + 2) (plug before child after) outcome ∧
          Steps d.degree (levels + 1) journal later := by
  have ht := hd.least_le
  rw [length_keys_plug] at hkeys
  apply ends_bind_of (ends_fillIfShort ht h.fanned hkeys rfl)
  intro filled later hfilled
  obtain ⟨before', child', after', rfl, hfilled, hstep⟩ := hfilled
  have hstout := (fanned_plug.mp hfilled.fanned).2.1
  have hspare := hfilled.spare
  have hasc' : trust → Ascending cmp (plug before' child' after').toList :=
    hfilled.toList_eq ▸ hasc
  have hplace' : trust → Between cmp key (fore before') (aft after') := fun htrust =>
    ⟨fun e he => (hplace htrust).above e (hfilled.fore_prefix.mem he),
      fun e he => (hplace htrust).below e (hfilled.aft_suffix.mem he)⟩
  have hlength : (plug before child after).keys.length ≤ before'.length + after'.length + 1 := by
    rw [length_keys_plug]
    exact hfilled.keys_le
  apply ends_eraseChild (hfilled.formed h) hspare hlength hfilled.toList_eq hplace' rfl
  exact hstep.prepend (Nat.le_of_eq (Nat.add_comm 1 levels))
    (hchild _ _ hstout.formed (fun htrust => ascending_child (hasc' htrust)) hspare)

/-- Removal from a subtree, by induction on the number of its levels. A descent enters a child only
if it has a key to lose, and takes one step for that at most. -/
theorem ends_erase {atRoot : Bool} (hd : d.Sound trust cmp) (h : Formed d.degree levels node)
    (hasc : trust → Ascending cmp node.toList) (hkeys : levels = 1 ∨ 1 ≤ node.keys.length) :
    Ends (node.erase d key levels atRoot) journal fun outcome later =>
      Erased trust cmp key d.degree levels node outcome ∧ Steps d.degree (levels - 1)
        (journal.noted [.removingFrom atRoot node.keys.length]) later := by
  have ht := hd.least_le
  induction levels generalizing node journal atRoot with
  | zero => exact absurd h Formed.not_zero
  | succ levels ih =>
    have hbelow : ∀ child journal', Formed d.degree levels child →
        (trust → Ascending cmp child.toList) → d.degree ≤ child.keys.length →
        Ends (child.erase d key levels false) journal' fun outcome later =>
          Erased trust cmp key d.degree levels child outcome ∧
            Steps d.degree (levels - 1) journal' later := by
      intro child journal' hchild hascending hspare
      have hstep : (Event.removingFrom false child.keys.length).Meets d.degree := ⟨rfl, hspare⟩
      have hentered : Steps d.degree 0 journal' _ := .noted hstep journal'
      refine ends_mono (ih hchild hascending (.inr (by omega))) ?_
      intro outcome later houtcome
      exact ⟨houtcome.1, (hentered.trans houtcome.2).mono (Nat.le_of_eq (Nat.zero_add _))⟩
    rw [Node.erase, ends_bind, ends_record]
    generalize journal.noted [.removingFrom atRoot node.keys.length] = entered
    apply ends_bind_of (hd.ends_locate h hasc)
    intro place later hplace
    obtain ⟨hsited, hquiet⟩ := hplace
    have hfound : Steps d.degree 0 entered later := .of_quiet hquiet
    cases hsited with
    | found low k v high hsplit hlow hhigh hkey =>
      subst hsplit
      rcases hlow.fuse_cases hhigh with
        ⟨hbottom, entries, more, rfl, rfl⟩ | ⟨lower, before, left, right, after, habove, rfl, rfl⟩
      · rw [hbottom] at h ⊢
        rw [fuse_leafOf] at h ⊢
        have hremove : (leafOf (entries ++ (k, v) :: more)).removeEntry
            (leafOf entries).keys.length = .ok (leafOf (entries ++ more), k, v) := by
          rw [length_keys_leafOf]
          exact removeEntry_leafOf
        simp only [isLeaf_leafOf, if_true, ends_bind, ends_liftM]
        exact ⟨_, hremove, erased_leaf h hkey, hfound.mono (Nat.zero_le _)⟩
      · obtain rfl : levels = lower + 1 := by omega
        have hle : 0 + (lower + 1) ≤ lower + 1 + 1 - 1 := by omega
        have hposition : (plug before left []).keys.length = before.length := by
          simp [length_keys_plug]
        rw [hposition, fuse_plug]
        rw [fuse_plug] at h hasc
        simp only [isLeaf_plug, Bool.false_eq_true, if_false]
        rw [ends_bind, ends_liftM, childSize_plug rfl]
        refine ⟨_, rfl, ?_⟩
        by_cases hleft : d.degree ≤ left.keys.length
        · rw [if_pos hleft]
          exact hfound.prepend hle (ends_takeLast ht h hleft hkey)
        rw [if_neg hleft, ends_bind, ends_liftM, childSize_next rfl]
        refine ⟨_, rfl, ?_⟩
        by_cases hright : d.degree ≤ right.keys.length
        · rw [if_pos hright]
          exact hfound.prepend hle (ends_takeFirst ht h hright hkey)
        · rw [if_neg hright]
          exact hfound.prepend hle (ends_eraseMerged hd h hasc (Nat.lt_of_not_le hleft)
            (Nat.lt_of_not_le hright) hkey hbelow)
    | leaf before after hbottom hsplit hplace =>
      subst hsplit
      simp only [isLeaf_leafOf, if_true]
      rw [ends_pure]
      refine ⟨⟨.absent fun htrust => ?_, h, Nat.le_succ _⟩, hfound.mono (Nat.zero_le _)⟩
      rw [toList_leafOf]
      exact (hplace htrust).absent_append
    | inner lower before child after habove hsplit hplace =>
      subst hsplit
      obtain rfl : levels = lower + 1 := by omega
      have hle : 0 + (lower + 1) ≤ lower + 1 + 1 - 1 := by omega
      have hsome := hkeys.resolve_left (by omega)
      simp only [isLeaf_plug, Bool.false_eq_true, if_false]
      exact hfound.prepend hle (ends_eraseFilled hd h hasc hsome hplace hbelow)

/-! ## Trees -/

/-- An entry is taken off the count if one was removed. -/
theorem ends_counted {root : Node K V} {removed : Option V} {size : Nat}
    {Q : Option V × Tree K V → Journal K V → Prop} :
    Ends (match removed, size with
      | none, size => pure (none, ⟨root, size⟩)
      | some _, 0 => throw Fault.countBelowZero
      | some value, size + 1 => pure (some value, ⟨root, size⟩)) journal Q ↔
      ∃ rest, size = (if removed.isNone then rest else rest + 1) ∧
        Q (removed, ⟨root, rest⟩) journal := by
  cases removed with
  | none =>
    constructor
    · exact fun h => ⟨size, rfl, h⟩
    · rintro ⟨_, rfl, h⟩
      exact h
  | some value =>
    cases size with
    | zero =>
      constructor
      · exact False.elim
      · rintro ⟨rest, hsize, -⟩
        exact absurd hsize (Nat.succ_ne_zero rest).symm
    | succ size =>
      constructor
      · exact fun h => ⟨size, rfl, h⟩
      · rintro ⟨rest, hsize, h⟩
        obtain rfl : size = rest := Nat.succ.inj hsize
        exact h

/-- The levels that a tree has before and after a removal, and the steps of it. If the key is found,
then a removal begins at the root, and takes one step at most in each level but the topmost one. The
child of a root that is left without keys is the root after that. -/
inductive Tree.Shrinks (t : Nat) (tree : Tree K V) (journal : Journal K V) :
    Nat → Nat → Journal K V → Prop
  | idle {levels : Nat} {later : Journal K V} (quiet : journal.Quiet later) :
      tree.Shrinks t journal levels levels later
  | settled {levels : Nat} {found later : Journal K V} (quiet : journal.Quiet found)
      (steps : Steps t (levels - 1) (found.noted [.removingFrom true tree.root.keys.length])
        later) : tree.Shrinks t journal levels levels later
  | collapsed {levels : Nat} {found later : Journal K V} (quiet : journal.Quiet found)
      (steps : Steps t levels (found.noted [.removingFrom true tree.root.keys.length]) later) :
      tree.Shrinks t journal (levels + 1) levels (later.noted [.collapsingRoot])

theorem Tree.Shrinks.shown_eq {tree : Tree K V} {levels' : Nat} {later : Journal K V}
    (h : tree.Shrinks t journal levels levels' later) : later.shown = journal.shown := by
  cases h with
  | idle quiet => exact quiet.shown_eq
  | settled quiet steps => exact steps.shown_eq.trans quiet.shown_eq
  | collapsed quiet steps => exact steps.shown_eq.trans quiet.shown_eq

/-- Removal from a tree. A root without keys has a single child, which has the least number of keys
and takes its place. Nothing is rearranged unless a key is removed. -/
theorem ends_treeErase {tree : Tree K V} (hd : d.Sound trust cmp) (h : tree.Sound d.degree levels)
    (hasc : trust → Ascending cmp tree.root.toList) :
    Ends (tree.erase d key) journal fun outcome later => ∃ levels',
      Removed trust cmp key tree.root.toList outcome.1 outcome.2.root.toList ∧
        outcome.2.Sound d.degree levels' ∧ tree.Shrinks d.degree journal levels levels' later ∧
        (trust → outcome.1 = none → outcome.2 = tree ∧ later.events = journal.events) := by
  have ht := hd.least_le
  unfold Tree.erase
  apply ends_bind_of (ends_get hd h.formed hasc)
  intro found later hfound
  obtain ⟨hfound, hevents, hshown⟩ := hfound
  have hquiet : journal.Quiet later := ⟨hevents, hshown⟩
  cases hfound with
  | absent hnone => exact ⟨levels, .absent hnone, h, .idle hquiet, fun _ _ => ⟨rfl, hevents⟩⟩
  | present before k v behind hsplit hk =>
    simp only [Option.isNone_some, Bool.false_eq_true, if_false]
    rw [h.formed.levels_eq]
    apply ends_bind_of (ends_erase hd h.formed hasc h.rooted)
    intro outcome later' houtcome
    obtain ⟨root, removed⟩ := outcome
    obtain ⟨⟨hremoved, hformed, -⟩, hsteps⟩ := houtcome
    dsimp only at hremoved hformed
    have hlength := hremoved.length_eq
    have hsettled : tree.Shrinks d.degree journal levels levels later' := .settled hquiet hsteps
    have hdone : ∀ {tree' : Tree K V} {last : Journal K V}, trust → removed = none →
        tree' = tree ∧ last.events = journal.events := fun htrust hnone =>
      absurd hnone (hremoved.ne_none hsplit hk htrust)
    rw [← h.size_eq] at hlength
    rcases levels with _ | _ | levels
    · exact absurd hformed Formed.not_zero
    · obtain ⟨entries, rfl⟩ := hformed.exists_leafOf
      have hsound : Tree.Sound d.degree 1 ⟨leafOf entries, (leafOf entries).toList.length⟩ :=
        ⟨hformed, .inl rfl, rfl⟩
      cases entries <;> exact ends_counted.mpr ⟨_, hlength, 1, hremoved, hsound, hsettled, hdone⟩
    · obtain ⟨before, child, after, rfl, hnone⟩ := hformed.exists_plug (Nat.zero_le _)
      obtain rfl : before = [] := List.eq_nil_of_length_eq_zero hnone
      rcases after with _ | ⟨⟨k', v', right⟩, after⟩
      · have hchild := (formed_plug.mp hformed).2.2.1
        have hleast := hchild.least
        have hpos : 1 ≤ child.keys.length := by omega
        have hsound : Tree.Sound d.degree (levels + 1) ⟨child, child.toList.length⟩ :=
          ⟨hchild.formed, .inr hpos, rfl⟩
        have hentries : (plug [] child []).toList = child.toList := by simp [toList_plug]
        rw [hentries] at hremoved hlength
        show Ends (record .collapsingRoot >>= fun _ => _) later' _
        rw [ends_bind, ends_record]
        exact ends_counted.mpr
          ⟨_, hlength, levels + 1, hremoved, hsound, .collapsed hquiet hsteps, hdone⟩
      · have hpos : 1 ≤ (plug [] child ((k', v', right) :: after)).keys.length := by
          simp [length_keys_plug]
        have hsound : Tree.Sound d.degree (levels + 2) ⟨plug [] child ((k', v', right) :: after),
            (plug [] child ((k', v', right) :: after)).toList.length⟩ := ⟨hformed, .inr hpos, rfl⟩
        exact ends_counted.mpr ⟨_, hlength, levels + 2, hremoved, hsound, hsettled, hdone⟩

end OrderedMaps.BTree
