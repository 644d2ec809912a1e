import OrderedMaps.Proofs.BTree.Locator

/-!
# Look-ups in multi-way trees

* `BTree.Sited`: what the place of a key in a well-formed node says about its entries.
* `BTree.ends_get`: a look-up never ends in a fault, whatever the comparator answers.
* `BTree.Node.Differs`, `BTree.Altered`: two nodes that differ in one value, and what a change of
  the value of a key does.
* `BTree.ends_alter`: such a change never ends in a fault either, and changes no more than that.
-/

namespace OrderedMaps.BTree

variable {K V : Type} {trust : Prop} {cmp : K → K → Ordering} {d : Discipline K V} {key : K}
  {levels t position : Nat} {node child : Node K V} {before : List (Node K V × K × V)}
  {after : List (K × V × Node K V)} {journal : Journal K V}

/-! ## Places in well-formed nodes -/

/-- Where a key belongs in a node: at one of its entries, between two entries of a leaf, or in one
of the children. -/
inductive Sited (trust : Prop) (cmp : K → K → Ordering) (key : K) (t levels : Nat)
    (node : Node K V) : Place → Prop
  | found (low : Node K V) (k : K) (v : V) (high : Node K V) (split : node = fuse low k v high)
      (hlow : Formed t levels low) (hhigh : Formed t levels high) (h : trust → cmp key k = .eq) :
      Sited trust cmp key t levels node (.found low.keys.length)
  | leaf (before after : List (K × V)) (bottom : levels = 1)
      (split : node = leafOf (before ++ after)) (h : trust → Between cmp key before after) :
      Sited trust cmp key t levels node (.gap before.length)
  | inner (lower : Nat) (before : List (Node K V × K × V)) (child : Node K V)
      (after : List (K × V × Node K V)) (above : levels = lower + 2)
      (split : node = plug before child after)
      (h : trust → Between cmp key (fore before) (aft after)) :
      Sited trust cmp key t levels node (.gap before.length)

theorem Formed.ascend (h : Formed t levels node) (hasc : Ascending cmp node.toList) :
    Ascend cmp node.keys := by
  have hkeys : (node.toList.map Prod.fst).Pairwise fun a b => cmp a b = .lt :=
    List.pairwise_map.mpr hasc
  exact hkeys.sublist h.keys_sublist

theorem ascending_child (h : Ascending cmp (plug before child after).toList) :
    Ascending cmp child.toList := by
  rw [toList_plug] at h
  exact (List.pairwise_append.mp (List.pairwise_append.mp h).1).2.1

/-- A key between two separators is between everything before and everything after the child between
them. -/
theorem between_plug [Std.TransCmp cmp] (hasc : Ascending cmp (plug before child after).toList)
    (habove : ∀ e ∈ before, cmp key e.2.1 = .gt) (hbelow : ∀ e ∈ after, cmp key e.1 = .lt) :
    Between cmp key (fore before) (aft after) := by
  rw [toList_plug] at hasc
  constructor
  · rcases List.eq_nil_or_concat before with rfl | ⟨rest, ⟨left, k, v⟩, rfl⟩
    · simp
    · have hgt : cmp key k = .gt := habove (left, k, v) (by simp)
      have hfore : fore (rest.concat (left, k, v)) = fore rest ++ left.toList ++ [(k, v)] := by simp
      rw [hfore] at hasc ⊢
      exact above_of_gt (List.pairwise_append.mp (List.pairwise_append.mp hasc).1).1 hgt
  · rcases after with _ | ⟨⟨k, v, right⟩, rest⟩
    · simp
    · have hlt : cmp key k = .lt := hbelow _ List.mem_cons_self
      rw [aft_cons] at hasc ⊢
      exact below_of_lt (List.pairwise_append.mp hasc).2.1 hlt

/-- The locator finds a place in a well-formed node. -/
theorem Discipline.Sound.ends_locate (hd : d.Sound trust cmp) (h : Formed t levels node)
    (hasc : trust → Ascending cmp node.toList) :
    Ends (d.locate node.keys key) journal fun place later =>
      Sited trust cmp key t levels node place ∧ journal.Quiet later := by
  apply ends_mono (hd.locate node.keys key journal fun ht => h.ascend (hasc ht))
  intro place later hplace
  obtain ⟨hrange, hfits, hquiet⟩ := hplace
  refine ⟨?_, hquiet⟩
  cases place with
  | found position =>
    obtain ⟨low, k, v, high, rfl, rfl, hlow, hhigh⟩ := h.exists_fuse hrange
    refine .found low k v high rfl hlow hhigh fun ht => ?_
    obtain ⟨before, k', after, hsplit, hlength, hk⟩ := hfits ht
    obtain ⟨-, hkey⟩ := List.append_inj hsplit hlength.symm
    obtain rfl : k = k' := (List.cons.inj hkey).1
    exact hk
  | gap position =>
    rcases levels with _ | _ | levels
    · exact absurd h Formed.not_zero
    · obtain ⟨entries, rfl⟩ := h.exists_leafOf
      have hposition : position ≤ entries.length := by
        rw [length_keys_leafOf] at hrange
        exact hrange
      obtain ⟨before, after, rfl, rfl⟩ : ∃ before after, entries = before ++ after ∧
          before.length = position :=
        ⟨entries.take position, entries.drop position, by simp, by simp [hposition]⟩
      refine .leaf before after rfl rfl fun ht => ?_
      obtain ⟨front, back, hsplit, hlength, habove, hbelow⟩ := hfits ht
      have hkeys : before.map Prod.fst ++ after.map Prod.fst = front ++ back := by
        rw [← List.map_append]
        exact hsplit
      obtain ⟨rfl, rfl⟩ := List.append_inj hkeys (by simp [hlength])
      exact ⟨fun e he => habove _ (List.mem_map_of_mem he),
        fun e he => hbelow _ (List.mem_map_of_mem he)⟩
    · obtain ⟨before, child, after, rfl, rfl⟩ := h.exists_plug hrange
      refine .inner levels before child after rfl rfl fun ht => ?_
      have := (hd.follows ht).lawful
      obtain ⟨front, back, hsplit, hlength, habove, hbelow⟩ := hfits ht
      have hkeys : before.map (·.2.1) ++ after.map (·.1) = front ++ back := hsplit
      obtain ⟨rfl, rfl⟩ := List.append_inj hkeys (by simp [hlength])
      apply between_plug (hasc ht)
      · intro e he
        exact habove _ (List.mem_map_of_mem he)
      · intro e he
        exact hbelow _ (List.mem_map_of_mem he)

/-! ## Look-ups -/

theorem getIn_append {lefts rights : List (Node K V)} :
    Node.getIn d key (lefts ++ child :: rights) lefts.length = child.get d key := by
  induction lefts with
  | nil => rw [List.nil_append, List.length_nil, Node.getIn]
  | cons first rest ih => rw [List.cons_append, List.length_cons, Node.getIn, ih]

/-- The place found in a node is all that a look-up goes by. -/
theorem get_eq : node.get d key = (do
    match ← d.locate node.keys key with
    | .found position => return some (← Checked.nth node.values position)
    | .gap position =>
        if node.isLeaf then return none else Node.getIn d key node.children position) := by
  obtain ⟨keys, values, children⟩ := node
  rw [Node.get]
  rfl

/-- The value in the middle of a node cut in two. -/
theorem nth_values_fuse {low high : Node K V} {k : K} {v : V} (h : Formed t levels low) :
    Checked.nth (fuse low k v high).values low.keys.length = .ok v :=
  Checked.nth_middle h.paired

theorem replace_values_fuse {low high : Node K V} {k : K} {v value : V} (h : Formed t levels low) :
    Checked.replace (fuse low k v high).values low.keys.length value =
      .ok (fuse low k value high).values :=
  Checked.replace_middle h.paired

theorem ends_get (hd : d.Sound trust cmp) (h : Formed t levels node)
    (hasc : trust → Ascending cmp node.toList) :
    Ends (node.get d key) journal fun found later =>
      Found trust cmp key node.toList found ∧ journal.Quiet later := by
  induction levels generalizing node journal with
  | zero => exact absurd h Formed.not_zero
  | succ levels ih =>
    rw [get_eq]
    apply ends_bind_of (hd.ends_locate h hasc)
    intro place later hplace
    obtain ⟨hsited, hquiet⟩ := hplace
    cases hsited with
    | found low k v high hsplit hlow hhigh hkey =>
      subst hsplit
      rw [ends_bind, ends_liftM]
      refine ⟨v, nth_values_fuse hlow, ?_, hquiet⟩
      exact .present low.toList k v high.toList (toList_fuse hlow hhigh) hkey
    | leaf before after _ hsplit hplace =>
      subst hsplit
      refine ⟨.absent fun ht => ?_, hquiet⟩
      rw [toList_leafOf]
      exact (hplace ht).absent_append
    | inner lower before child after habove hsplit hplace =>
      subst hsplit
      obtain rfl : levels = lower + 1 := by omega
      have hchild := (formed_plug.mp h).2.2.1
      have hnext : Node.getIn d key (plug before child after).children before.length =
          child.get d key := by
        rw [← List.length_map (·.1)]
        exact getIn_append
      simp only [isLeaf_plug, Bool.false_eq_true, if_false, hnext]
      apply ends_mono (ih hchild.formed fun ht => ascending_child (hasc ht))
      intro found later' hfound
      obtain ⟨hfound, hquiet'⟩ := hfound
      exact ⟨hfound.extend toList_plug hplace, hquiet.trans hquiet'⟩

/-! ## Changes of values -/

/-- Two nodes that differ in one value: everywhere below them there are the same keys and children,
and the same values except under `k`. -/
inductive Node.Differs (k : K) (old new : V) : Node K V → Node K V → Prop
  | here (keys keys' : List K) (values values' : List V) (children : List (Node K V))
      (paired : keys.length = values.length) :
      Differs k old new ⟨keys ++ k :: keys', values ++ old :: values', children⟩
        ⟨keys ++ k :: keys', values ++ new :: values', children⟩
  | deeper (keys : List K) (values : List V) (lefts rights : List (Node K V))
      {child child' : Node K V} (h : Differs k old new child child') :
      Differs k old new ⟨keys, values, lefts ++ child :: rights⟩
        ⟨keys, values, lefts ++ child' :: rights⟩

/-- What a change of the value of a key does: nothing if there is no such key. Otherwise the
function is shown the value, and the first part of its result is the new value. -/
inductive Altered {β : Type} (trust : Prop) (cmp : K → K → Ordering) (key : K) (f : V → V × β)
    (node : Node K V) : Option β → Node K V → List V → Prop
  | absent (h : trust → Absent cmp key node.toList) : Altered trust cmp key f node none node []
  | present (k : K) (old : V) (node' : Node K V) (differs : node.Differs k old (f old).1 node')
      (before after : List (K × V)) (split : node.toList = before ++ (k, old) :: after)
      (split' : node'.toList = before ++ (k, (f old).1) :: after) (h : trust → cmp key k = .eq) :
      Altered trust cmp key f node (some (f old).2) node' [old]

section Alter

variable {β : Type} {f : V → V × β} {change : V → Run K V (V × β)}

/-- A change in a child is a change in the node above it. -/
theorem Altered.plug {child' : Node K V} {result : Option β} {seen : List V}
    (h : Altered trust cmp key f child result child' seen)
    (hplace : trust → Between cmp key (fore before) (aft after)) :
    Altered trust cmp key f (plug before child after) result (plug before child' after) seen := by
  cases h with
  | absent hnone =>
    refine .absent fun ht => ?_
    rw [toList_plug]
    exact (hplace ht).absent (hnone ht)
  | present k old _ hdiffers front back hsplit hsplit' hk =>
    exact .present k old _ (.deeper _ _ _ _ hdiffers) (fore before ++ front) (back ++ aft after)
      (by simp [toList_plug, hsplit]) (by simp [toList_plug, hsplit']) hk

theorem ends_alterIn {lefts rights : List (Node K V)}
    {Q : List (Node K V) × Option β → Journal K V → Prop} :
    Ends (Node.alterIn d key change (lefts ++ child :: rights) lefts.length) journal Q ↔
      Ends (child.alter d key change) journal fun outcome later =>
        Q (lefts ++ outcome.1 :: rights, outcome.2) later := by
  induction lefts generalizing Q with
  | nil => simp only [List.nil_append, List.length_nil, Node.alterIn, ends_bind, ends_pure]
  | cons first rest ih =>
    simp only [List.cons_append, List.length_cons, Node.alterIn, ends_bind, ends_pure]
    exact ih

theorem alter_eq : node.alter d key change = (do
    match ← d.locate node.keys key with
    | .found position =>
        let (value, result) ← change (← Checked.nth node.values position)
        let values ← Checked.replace node.values position value
        return (⟨node.keys, values, node.children⟩, some result)
    | .gap position =>
        if node.isLeaf then return (node, none)
        else
          let (children, result) ← Node.alterIn d key change node.children position
          return (⟨node.keys, node.values, children⟩, result)) := by
  obtain ⟨keys, values, children⟩ := node
  rw [Node.alter]
  rfl

theorem ends_alter (hd : d.Sound trust cmp) (h : Formed t levels node)
    (hasc : trust → Ascending cmp node.toList)
    (hchange : ∀ {old journal} {Q : V × β → Journal K V → Prop},
      Ends (change old) journal Q ↔ Q (f old) (journal.showing [old])) :
    Ends (node.alter d key change) journal fun outcome later => ∃ seen,
      Altered trust cmp key f node outcome.2 outcome.1 seen ∧
        Formed t levels outcome.1 ∧ outcome.1.keys.length = node.keys.length ∧
        later.shown = journal.shown ++ seen.toArray ∧ later.events = journal.events := by
  induction levels generalizing node journal with
  | zero => exact absurd h Formed.not_zero
  | succ levels ih =>
    rw [alter_eq]
    apply ends_bind_of (hd.ends_locate h hasc)
    intro place later hplace
    obtain ⟨hsited, hevents, hshown⟩ := hplace
    cases hsited with
    | found low k old high hsplit hlow hhigh hkey =>
      subst hsplit
      have hmost := h.most
      rw [length_keys_fuse] at hmost
      simp only [ends_bind, ends_liftM, hchange, nth_values_fuse hlow, replace_values_fuse hlow]
      refine ⟨old, rfl, _, rfl, [old], ?_, formed_fuse hlow hhigh (by omega), rfl, by simp [hshown],
        by simp [hevents]⟩
      exact .present k old (fuse low k (f old).1 high) (.here _ _ _ _ _ hlow.paired) low.toList
        high.toList (toList_fuse hlow hhigh) (toList_fuse hlow hhigh) hkey
    | leaf before after _ hsplit hplace =>
      subst hsplit
      refine ⟨[], .absent fun ht => ?_, h, rfl, by simp [hshown], hevents⟩
      rw [toList_leafOf]
      exact (hplace ht).absent_append
    | inner lower before child after habove hsplit hplace =>
      subst hsplit
      obtain rfl : levels = lower + 1 := by omega
      obtain ⟨hmost, hbefore, hchild, hafter⟩ := formed_plug.mp h
      simp only [isLeaf_plug, Bool.false_eq_true, if_false]
      rw [ends_bind]
      have hnext : before.length = (before.map (·.1)).length := by simp
      rw [hnext]
      apply ends_alterIn.mpr
      apply ends_mono (ih hchild.formed fun ht => ascending_child (hasc ht))
      intro outcome later' houtcome
      obtain ⟨seen, haltered, hformed, hkeys, hshown', hevents'⟩ := houtcome
      have hstout : Stout t (lower + 1) outcome.1 := ⟨hformed, hkeys ▸ hchild.least⟩
      exact ⟨seen, haltered.plug hplace, formed_plug.mpr ⟨hmost, hbefore, hstout, hafter⟩,
        by simp [plug], by rw [hshown', hshown], by rw [hevents', hevents]⟩

end Alter

end OrderedMaps.BTree
