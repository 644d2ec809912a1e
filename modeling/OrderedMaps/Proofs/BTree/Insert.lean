import OrderedMaps.BTree.Insert
import OrderedMaps.Proofs.BTree.Search
import OrderedMaps.Proofs.BTree.Surgery

/-!
# Insertion into multi-way trees

* `BTree.Inserted`: what an insertion into a subtree leaves.
* `BTree.ends_insertSplit`: what comes after a full child was split.
* `BTree.ends_insert`: an insertion into a subtree that is not full never ends in a fault, whatever
  the comparator answers, and is a write to the entries.
* `BTree.Tree.Sound`: a tree in good order.
* `BTree.Tree.Grows`: the levels and the steps of an insertion into a tree.
* `BTree.ends_treeInsert`: the same for a whole tree, the root of which may be full.
-/

namespace OrderedMaps.BTree

variable {K V : Type} {trust : Prop} {cmp : K → K → Ordering} {d : Discipline K V} {key : K}
  {value : V} {levels t position : Nat} {node child : Node K V} {before : List (Node K V × K × V)}
  {after : List (K × V × Node K V)} {journal : Journal K V}

/-- What an insertion into a subtree leaves. The topmost node does not lose keys, so that it still
has the least number of them if it had that before. -/
structure Inserted (trust : Prop) (cmp : K → K → Ordering) (key : K) (value : V) (t levels : Nat)
    (node : Node K V) (outcome : Node K V × Option V) : Prop where
  written : Written trust cmp key value node.toList outcome.2 outcome.1.toList
  formed : Formed t levels outcome.1
  keys_le : node.keys.length ≤ outcome.1.keys.length

/-! ## Single nodes -/

theorem isFull_iff : node.isFull t = true ↔ node.keys.length = 2 * t - 1 := by
  simp [Node.isFull]

/-- A node that is not full has room for one more key. -/
theorem Formed.room (h : Formed t levels node) (hfull : ¬ node.isFull t = true) :
    node.keys.length < 2 * t - 1 := by
  have hmost := h.most
  rw [isFull_iff] at hfull
  omega

theorem replaceValue_fuse {low high : Node K V} {k : K} {old : V} (h : Formed t levels low) :
    (fuse low k old high).replaceValue low.keys.length value =
      .ok (fuse low k value high, old) := by
  rw [Node.replaceValue, nth_values_fuse h, ok_bind, replace_values_fuse h]
  rfl

theorem replaceValue_plug {k : K} {old : V} {right : Node K V} (h : position = before.length) :
    (plug before child ((k, old, right) :: after)).replaceValue position value =
      .ok (plug before child ((k, value, right) :: after), old) := by
  simp only [Node.replaceValue, plug, List.map_cons]
  rw [Checked.nth_middle (by simp [h]), ok_bind, Checked.replace_middle (by simp [h])]
  rfl

theorem insertEntry_leafOf {before after : List (K × V)} :
    (leafOf (before ++ after)).insertEntry before.length key value =
      .ok (leafOf (before ++ (key, value) :: after)) := by
  simp only [Node.insertEntry, leafOf, List.map_append, List.map_cons]
  rw [Checked.insert_middle (by simp), ok_bind, Checked.insert_middle (by simp)]
  rfl

/-- A full child is cut in two halves that have the least number of keys. -/
theorem ends_splitNoted (ht : 2 ≤ t) (hchild : Formed t levels child)
    (hfull : child.keys.length = 2 * t - 1)
    (hroom : (plug before child after).keys.length < 2 * t - 1)
    (hposition : position = before.length) :
    Ends ((plug before child after).splitNoted t position) journal fun node later =>
      ∃ low k v high, child = fuse low k v high ∧ node = plug before low ((k, v, high) :: after) ∧
        (Stout t levels low ∧ low.keys.length < 2 * t - 1) ∧
        (Stout t levels high ∧ high.keys.length < 2 * t - 1) ∧ Steps t 1 journal later := by
  have hstep : (Event.splitting position t child.keys.length
      (plug before child after).keys.length).Meets t := ⟨rfl, hfull, hroom⟩
  have hcut : t - 1 < child.keys.length := by omega
  obtain ⟨low, k, v, high, rfl, hlength, hlow, hhigh⟩ := hchild.exists_fuse hcut
  rw [length_keys_fuse] at hfull
  have hsplit : (plug before (fuse low k v high) after).split t position =
      .ok (plug before low ((k, v, high) :: after)) :=
    split_plug (hlow.alike hhigh) (by omega) hposition
  simp only [Node.splitNoted, childSize_plug hposition, hsplit, ends_bind, ends_liftM, ends_record]
  have hleast : t - 1 ≤ low.keys.length ∧ low.keys.length < 2 * t - 1 := by omega
  have hleast' : t - 1 ≤ high.keys.length ∧ high.keys.length < 2 * t - 1 := by omega
  exact ⟨_, rfl, _, rfl, low, k, v, high, rfl, rfl, ⟨⟨hlow, hleast.1⟩, hleast.2⟩,
    ⟨⟨hhigh, hleast'.1⟩, hleast'.2⟩, .noted hstep journal⟩

theorem formed_split {low high : Node K V} {k : K} {v : V}
    (h : Formed t (levels + 1) (plug before child after))
    (hroom : (plug before child after).keys.length < 2 * t - 1) (hlow : Stout t levels low)
    (hhigh : Stout t levels high) :
    Formed t (levels + 1) (plug before low ((k, v, high) :: after)) := by
  obtain ⟨-, hbefore, -, hafter⟩ := formed_plug.mp h
  rw [length_keys_plug] at hroom
  refine formed_plug.mpr ⟨by simp; omega, hbefore, hlow, ?_⟩
  intro e he
  rcases List.mem_cons.mp he with rfl | he
  · exact hhigh
  · exact hafter e he

/-- The separator that moved up may be the key itself. -/
theorem inserted_replaced {low high : Node K V} {k : K} {old : V}
    (h : Formed t levels (plug before low ((k, old, high) :: after)))
    (hk : trust → cmp key k = .eq) :
    Inserted trust cmp key value t levels (plug before low ((k, old, high) :: after))
      (plug before low ((k, value, high) :: after), some old) := by
  have hentries : ∀ v : V, (plug before low ((k, v, high) :: after)).toList =
      fore before ++ low.toList ++ (k, v) :: (high.toList ++ aft after) := by
    intro v
    simp [toList_plug]
  refine ⟨?_, ?_, by simp [length_keys_plug]⟩
  · show Written trust cmp key value _ (some old)
      (plug before low ((k, value, high) :: after)).toList
    rw [hentries, hentries]
    exact .replaced _ k old _ rfl hk
  · cases levels with
    | zero => exact absurd h Formed.not_zero
    | succ levels =>
      obtain ⟨hmost, hbefore, hlow, hafter⟩ := formed_plug.mp h
      refine formed_plug.mpr ⟨by simpa using hmost, hbefore, hlow, ?_⟩
      intro e he
      rcases List.mem_cons.mp he with rfl | he
      · exact hafter (k, old, high) List.mem_cons_self
      · exact hafter e (List.mem_cons_of_mem _ he)

/-- A key above the separator that moved up belongs in the upper half. -/
theorem between_high [Std.TransCmp cmp] {low high : Node K V} {k : K} {v : V}
    (hplace : Between cmp key (fore before) (aft after))
    (hasc : Ascending cmp (plug before low ((k, v, high) :: after)).toList) (hk : cmp key k = .gt) :
    Between cmp key (fore (before ++ [(low, k, v)])) (aft after) := by
  have hfore : fore (before ++ [(low, k, v)]) = fore before ++ low.toList ++ [(k, v)] := by simp
  rw [plug_shift, toList_plug, hfore] at hasc
  rw [hfore]
  exact ⟨above_of_gt (List.pairwise_append.mp (List.pairwise_append.mp hasc).1).1 hk, hplace.below⟩

/-- A key below the separator that moved up belongs in the lower half. -/
theorem between_low [Std.TransCmp cmp] {low high : Node K V} {k : K} {v : V}
    (hplace : Between cmp key (fore before) (aft after))
    (hasc : Ascending cmp (plug before low ((k, v, high) :: after)).toList) (hk : cmp key k = .lt) :
    Between cmp key (fore before) (aft ((k, v, high) :: after)) := by
  rw [toList_plug, aft_cons] at hasc
  rw [aft_cons]
  exact ⟨hplace.above, below_of_lt (List.pairwise_append.mp hasc).2.1 hk⟩

/-- An insertion into a child is an insertion into the node above it. -/
theorem ends_insertChild {f : Node K V → Run K V (Node K V × Option V)} {P : Journal K V → Prop}
    (h : Formed t (levels + 1) (plug before child after))
    (hplace : trust → Between cmp key (fore before) (aft after))
    (hposition : position = before.length)
    (hchild : Ends (f child) journal fun outcome later =>
      Inserted trust cmp key value t levels child outcome ∧ P later) :
    Ends ((plug before child after).updateChild position f) journal fun outcome later =>
      Inserted trust cmp key value t (levels + 1) (plug before child after) outcome ∧ P later := by
  rw [ends_updateChild hposition]
  apply ends_mono hchild
  intro outcome later houtcome
  obtain ⟨hinserted, hlater⟩ := houtcome
  obtain ⟨hmost, hbefore, hstout, hafter⟩ := formed_plug.mp h
  have hstout' : Stout t levels outcome.1 :=
    ⟨hinserted.formed, Nat.le_trans hstout.least hinserted.keys_le⟩
  refine ⟨⟨?_, formed_plug.mpr ⟨hmost, hbefore, hstout', hafter⟩, ?_⟩, hlater⟩
  · have hafter : (plug before outcome.1 after).toList =
        fore before ++ outcome.1.toList ++ aft after := toList_plug
    show Written trust cmp key value _ outcome.2 (plug before outcome.1 after).toList
    rw [hafter]
    exact hinserted.written.extend toList_plug hplace
  · exact Nat.le_of_eq (length_keys_plug.trans length_keys_plug.symm)

/-- What is inserted after a split, is inserted into the same entries. -/
theorem Inserted.of_split {low high : Node K V} {k : K} {v : V} {outcome : Node K V × Option V}
    (h : Inserted trust cmp key value t (levels + 1) (plug before low ((k, v, high) :: after))
      outcome)
    (hlow : Formed t levels low) (hhigh : Formed t levels high) :
    Inserted trust cmp key value t (levels + 1) (plug before (fuse low k v high) after)
      outcome := by
  refine ⟨toList_plug_fuse (hlow.alike hhigh) ▸ h.written, h.formed, ?_⟩
  have hle := h.keys_le
  simp only [length_keys_plug, List.length_cons] at hle ⊢
  omega

/-- After a split the key is that of the separator that moved up, or it belongs in one of the two
halves. -/
theorem ends_insertSplit {f : Node K V → Run K V (Node K V × Option V)} {low high : Node K V}
    {k : K} {v : V} {splits : Nat} (hd : d.Sound trust cmp)
    (h : Formed t (levels + 1) (plug before low ((k, v, high) :: after)))
    (hasc : trust → Ascending cmp (plug before low ((k, v, high) :: after)).toList)
    (hplace : trust → Between cmp key (fore before) (aft after))
    (hlow : ∀ journal', (trust → Ascending cmp low.toList) →
      Ends (f low) journal' fun outcome later =>
        Inserted trust cmp key value t levels low outcome ∧ Steps t splits journal' later)
    (hhigh : ∀ journal', (trust → Ascending cmp high.toList) →
      Ends (f high) journal' fun outcome later =>
        Inserted trust cmp key value t levels high outcome ∧ Steps t splits journal' later) :
    Ends (do
      match ← d.comparator.ask key
          (← Checked.nth (plug before low ((k, v, high) :: after)).keys before.length) with
      | .eq =>
          let (node, old) ←
            (plug before low ((k, v, high) :: after)).replaceValue before.length value
          return (node, some old)
      | .gt => (plug before low ((k, v, high) :: after)).updateChild (before.length + 1) f
      | .lt => (plug before low ((k, v, high) :: after)).updateChild before.length f)
      journal fun outcome later =>
        Inserted trust cmp key value t (levels + 1) (plug before low ((k, v, high) :: after))
          outcome ∧ Steps t splits journal later := by
  simp only [ends_bind, ends_liftM, nth_keys rfl]
  refine ⟨k, rfl, ?_⟩
  rw [ends_ask]
  have hasked : Steps t 0 journal (journal.asked key k) := .of_quiet (journal.quiet_asked key k)
  have hle : 0 + splits ≤ splits := Nat.le_of_eq (Nat.zero_add splits)
  split
  · rename_i heq
    have hk : trust → cmp key k = .eq := fun ht => by rw [← (hd.follows ht).answer_eq, heq]
    rw [ends_bind, ends_liftM]
    exact ⟨_, replaceValue_plug rfl, inserted_replaced h hk, hasked.mono (Nat.zero_le _)⟩
  · rename_i hgt
    have hplace' : trust → Between cmp key (fore (before ++ [(low, k, v)])) (aft after) := by
      intro ht
      have := (hd.follows ht).lawful
      exact between_high (hplace ht) (hasc ht) (by rw [← (hd.follows ht).answer_eq, hgt])
    rw [plug_shift] at h hasc ⊢
    exact ends_insertChild h hplace' (by simp)
      (hasked.prepend hle (hhigh _ fun ht => ascending_child (hasc ht)))
  · rename_i hlt
    have hplace' : trust → Between cmp key (fore before) (aft ((k, v, high) :: after)) := by
      intro ht
      have := (hd.follows ht).lawful
      exact between_low (hplace ht) (hasc ht) (by rw [← (hd.follows ht).answer_eq, hlt])
    exact ends_insertChild h hplace' rfl
      (hasked.prepend hle (hlow _ fun ht => ascending_child (hasc ht)))

/-! ## Subtrees -/

/-- Insertion into a subtree, by induction on the number of its levels. In each level but the
topmost one, no more than one node is split. If no child of the topmost node is full, then none is
split in the next level either. -/
theorem ends_insert {splits : Nat} (hd : d.Sound trust cmp) (h : Formed d.degree levels node)
    (hasc : trust → Ascending cmp node.toList) (hroom : node.keys.length < 2 * d.degree - 1)
    (hsplits : levels ≤ splits + 1 ∨
      levels ≤ splits + 2 ∧ ∀ child ∈ node.children, child.isFull d.degree = false) :
    Ends (node.insert d key value levels) journal fun outcome later =>
      Inserted trust cmp key value d.degree levels node outcome ∧
        Steps d.degree splits journal later := by
  have ht := hd.least_le
  induction levels generalizing node journal splits with
  | zero => exact absurd h Formed.not_zero
  | succ levels ih =>
    have hstep : (Event.insertingInto node.keys.length).Meets d.degree := hroom
    rw [Node.insert, ends_bind, ends_record]
    apply ends_bind_of (hd.ends_locate h hasc)
    intro place later hplace
    obtain ⟨hsited, hquiet⟩ := hplace
    have hentered : Steps d.degree 0 journal later :=
      (Steps.noted hstep journal).trans (.of_quiet hquiet)
    cases hsited with
    | found low k old high hsplit hlow hhigh hkey =>
      subst hsplit
      rw [length_keys_fuse] at hroom
      rw [ends_bind, ends_liftM]
      refine ⟨_, replaceValue_fuse hlow, ⟨?_, formed_fuse hlow hhigh (by omega), by simp⟩,
        hentered.mono (Nat.zero_le _)⟩
      show Written trust cmp key value _ (some old) (fuse low k value high).toList
      rw [toList_fuse hlow hhigh, toList_fuse hlow hhigh]
      exact .replaced _ k old _ rfl hkey
    | leaf before after hbottom hsplit hplace =>
      subst hsplit
      obtain rfl : levels = 0 := by omega
      rw [length_keys_leafOf] at hroom
      simp only [isLeaf_leafOf, if_true, ends_bind, ends_liftM]
      refine ⟨_, insertEntry_leafOf, ⟨?_, formed_leafOf.mpr ?_, by simp⟩,
        hentered.mono (Nat.zero_le _)⟩
      · show Written trust cmp key value _ none (leafOf (before ++ (key, value) :: after)).toList
        rw [toList_leafOf, toList_leafOf]
        exact .inserted before after rfl hplace
      · simp at hroom ⊢
        omega
    | inner lower before child after habove hsplit hplace =>
      subst hsplit
      obtain rfl : levels = lower + 1 := by omega
      obtain ⟨-, -, hstout, -⟩ := formed_plug.mp h
      simp only [isLeaf_plug, Bool.false_eq_true, if_false]
      rw [ends_bind, ends_liftM]
      refine ⟨child, nth_children rfl, ?_⟩
      have hbelow : lower + 1 ≤ lower + 1 := Nat.le_refl _
      by_cases hfull : child.isFull d.degree = true
      · have hsome : 1 + lower ≤ splits := by
          rcases hsplits with hsplits | ⟨-, hnone⟩
          · omega
          · rw [hnone child (mem_children_plug.mpr (.inr (.inl rfl)))] at hfull
            cases hfull
        rw [if_pos hfull]
        apply ends_bind_of (ends_splitNoted ht hstout.formed (isFull_iff.mp hfull) hroom rfl)
        intro split later' hsplit
        obtain ⟨low, k, v, high, rfl, rfl, ⟨hlow, hlowRoom⟩, ⟨hhigh, hhighRoom⟩, hcut⟩ := hsplit
        have hasc' : trust → Ascending cmp (plug before low ((k, v, high) :: after)).toList :=
          toList_plug_fuse (hlow.formed.alike hhigh.formed) ▸ hasc
        have hboth : Steps d.degree (0 + 1) journal later' := hentered.trans hcut
        apply ends_mono (hboth.prepend hsome
          (ends_insertSplit hd (formed_split h hroom hlow hhigh) hasc' hplace
            (fun _ hascending => ih hlow.formed hascending hlowRoom (.inl hbelow))
            fun _ hascending => ih hhigh.formed hascending hhighRoom (.inl hbelow)))
        intro outcome last houtcome
        exact ⟨houtcome.1.of_split hlow.formed hhigh.formed, houtcome.2⟩
      · have hrest : 0 + lower ≤ splits := by omega
        rw [if_neg hfull]
        apply ends_insertChild h hplace rfl
        exact hentered.prepend hrest (ih hstout.formed (fun htrust => ascending_child (hasc htrust))
          (hstout.formed.room hfull) (.inl hbelow))

/-! ## Trees -/

/-- A tree of degree `t` in good order: the root is well-formed and has a key unless it is a leaf,
and the entries are counted. -/
structure Tree.Sound (t levels : Nat) (tree : Tree K V) : Prop where
  formed : Formed t levels tree.root
  rooted : levels = 1 ∨ 1 ≤ tree.root.keys.length
  size_eq : tree.size = tree.root.toList.length

theorem Tree.sound_empty (t : Nat) : (Tree.empty : Tree K V).Sound t 1 :=
  ⟨.leaf rfl (Nat.zero_le _), .inl rfl, rfl⟩

/-- The levels that a tree has after an insertion, and the steps of it: there is one more level if
the root was full, and no more nodes were split than there were levels. -/
structure Tree.Grows (t levels levels' : Nat) (tree : Tree K V) (journal later : Journal K V) :
    Prop where
  levels_eq : levels' = if tree.root.isFull t then levels + 1 else levels
  steps : Steps t levels (journal.noted (if tree.root.isFull t then [.splittingRoot t] else []))
    later

theorem Tree.Grows.shown_eq {levels' : Nat} {tree : Tree K V} {later : Journal K V}
    (h : tree.Grows t levels levels' journal later) : later.shown = journal.shown :=
  h.steps.shown_eq

/-- An insertion that begins at a root with room for one more key. -/
theorem ends_insertRoot {root : Node K V} {size splits : Nat} (hd : d.Sound trust cmp)
    (h : Formed d.degree levels root) (hrooted : levels = 1 ∨ 1 ≤ root.keys.length)
    (hasc : trust → Ascending cmp root.toList) (hroom : root.keys.length < 2 * d.degree - 1)
    (hsplits : levels ≤ splits + 1 ∨
      levels ≤ splits + 2 ∧ ∀ child ∈ root.children, child.isFull d.degree = false)
    (hsize : size = root.toList.length) :
    Ends (root.insert d key value root.levels >>= fun outcome =>
      pure (outcome.2, (⟨outcome.1, if outcome.2.isNone then size + 1 else size⟩ : Tree K V)))
      journal fun outcome later =>
        Written trust cmp key value root.toList outcome.1 outcome.2.root.toList ∧
          outcome.2.Sound d.degree levels ∧ Steps d.degree splits journal later := by
  rw [h.levels_eq]
  apply ends_bind_of (ends_insert hd h hasc hroom hsplits)
  intro outcome later houtcome
  obtain ⟨⟨hwritten, hformed, hkeys⟩, hsteps⟩ := houtcome
  refine ⟨hwritten, ⟨hformed, ?_, ?_⟩, hsteps⟩
  · exact hrooted.imp id fun hle => Nat.le_trans hle hkeys
  · rw [hwritten.length_eq, hsize]

/-- Insertion into a tree, which gets one level more if its root is full. -/
theorem ends_treeInsert {tree : Tree K V} (hd : d.Sound trust cmp) (h : tree.Sound d.degree levels)
    (hasc : trust → Ascending cmp tree.root.toList) :
    Ends (tree.insert d key value) journal fun outcome later => ∃ levels',
      Written trust cmp key value tree.root.toList outcome.1 outcome.2.root.toList ∧
        outcome.2.Sound d.degree levels' ∧ tree.Grows d.degree levels levels' journal later := by
  have ht := hd.least_le
  unfold Tree.insert
  by_cases hfull : tree.root.isFull d.degree = true
  · have hsplit : Ends ((plug [] tree.root []).splitNoted d.degree 0)
        (journal.noted [.splittingRoot d.degree]) _ :=
      ends_splitNoted ht h.formed (isFull_iff.mp hfull) (by simp [length_keys_plug]; omega) rfl
    rw [if_pos hfull, ends_bind, ends_record]
    apply ends_bind_of hsplit
    intro root later hroot
    obtain ⟨low, k, v, high, hcut, rfl, ⟨hlow, hlowRoom⟩, ⟨hhigh, hhighRoom⟩, hstep⟩ := hroot
    have hentries : (plug [] low [(k, v, high)]).toList = tree.root.toList := by
      rw [hcut, ← toList_plug_fuse (hlow.formed.alike hhigh.formed), toList_plug]
      simp
    have hformed : Formed d.degree (levels + 1) (plug [] low [(k, v, high)]) := by
      refine formed_plug.mpr ⟨by simp; omega, by simp, hlow, ?_⟩
      intro e he
      rw [List.mem_singleton.mp he]
      exact hhigh
    have hroom : (plug [] low [(k, v, high)]).keys.length < 2 * d.degree - 1 := by
      simp [length_keys_plug]
      omega
    -- the halves of the root are not full, so that none of them is split again
    have hnone : ∀ child ∈ (plug [] low [(k, v, high)]).children,
        child.isFull d.degree = false := by
      simp [plug, Node.isFull]
      omega
    have hlevels : 1 ≤ levels := Nat.pos_of_ne_zero fun hzero =>
      absurd (hzero ▸ h.formed) Formed.not_zero
    have hsplits : levels + 1 ≤ levels - 1 + 1 ∨ levels + 1 ≤ levels - 1 + 2 ∧ _ :=
      .inr ⟨by omega, hnone⟩
    rw [← hentries] at hasc ⊢
    apply ends_mono (ends_insertRoot hd hformed (.inr (by simp [length_keys_plug])) hasc hroom
      hsplits (hentries ▸ h.size_eq))
    intro outcome last houtcome
    obtain ⟨hwritten, hsound, hsteps⟩ := houtcome
    refine ⟨levels + 1, hwritten, hsound, by rw [if_pos hfull], ?_⟩
    rw [if_pos hfull]
    exact (hstep.trans hsteps).mono (by omega)
  · rw [if_neg hfull]
    apply ends_mono (ends_insertRoot hd h.formed h.rooted hasc (h.formed.room hfull)
      (.inl (Nat.le_succ levels)) h.size_eq)
    intro outcome last houtcome
    obtain ⟨hwritten, hsound, hsteps⟩ := houtcome
    refine ⟨levels, hwritten, hsound, by rw [if_neg hfull], ?_⟩
    rw [if_neg hfull, Journal.noted_nil]
    exact hsteps

end OrderedMaps.BTree
