import OrderedMaps.Proofs.BTree.Node
import OrderedMaps.Proofs.BTree.Steps

/-!
# Moving entries between neighbours

What splits, merges and borrowing do to a node seen around a child, and that they never end in a
fault where they are used. In terms of `plug` and `fuse`, each of them only puts parentheses
differently.

* `BTree.split_plug`, `BTree.merge_plug`, `BTree.borrowLeft_plug`, `BTree.borrowRight_plug`: the
  four operations.
* `BTree.toList_plug_fuse`, `BTree.toList_plug_regroup`: none of them changes the entries.
* `BTree.Filled`: what a child that can lose a key looks like from the node above it.
* `BTree.ends_fillIfShort`: filling a child that is short of keys, in one step at most.
* `BTree.ends_updateChild`: a change of one child.
-/

namespace OrderedMaps.BTree

variable {K V : Type} {t levels : Nat} {before : List (Node K V × K × V)}
  {child low high left right moved : Node K V} {after : List (K × V × Node K V)} {key key' : K}
  {value value' : V} {position : Nat} {journal : Journal K V}

/-! ## Single steps -/

theorem nth_children (h : position = before.length) :
    Checked.nth (plug before child after).children position = .ok child :=
  Checked.nth_middle (by simp [h])

theorem replace_children (h : position = before.length) (child' : Node K V) :
    Checked.replace (plug before child after).children position child' =
      .ok (plug before child' after).children :=
  Checked.replace_middle (by simp [h])

theorem nth_next (h : position = before.length) :
    Checked.nth (plug before child ((key, value, right) :: after)).children (position + 1) =
      .ok right := by
  rw [plug_shift]
  exact nth_children (by simp [h])

theorem replace_next (h : position = before.length) (right' : Node K V) :
    Checked.replace (plug before child ((key, value, right) :: after)).children (position + 1)
      right' = .ok (plug before child ((key, value, right') :: after)).children := by
  rw [plug_shift, plug_shift]
  exact replace_children (by simp [h]) right'

theorem nth_keys (h : position = before.length) :
    Checked.nth (plug before child ((key, value, right) :: after)).keys position = .ok key :=
  Checked.nth_middle (by simp [h])

theorem childSize_plug (h : position = before.length) :
    (plug before child after).childSize position = .ok child.keys.length := by
  rw [Node.childSize, nth_children h, ok_bind]
  rfl

theorem childSize_next (h : position = before.length) :
    (plug before child ((key, value, right) :: after)).childSize (position + 1) =
      .ok right.keys.length := by
  rw [plug_shift]
  exact childSize_plug (by simp [h])

theorem replaceEntry_plug (h : position = before.length) :
    (plug before child ((key, value, right) :: after)).replaceEntry position key' value' =
      .ok (plug before child ((key', value', right) :: after), value) := by
  simp only [Node.replaceEntry, Node.replaceValue, plug, List.map_cons]
  rw [Checked.replace_middle (by simp [h]), ok_bind, Checked.nth_middle (by simp [h]), ok_bind,
    Checked.replace_middle (by simp [h])]
  rfl

theorem removeLastEntry_append {keys : List K} {values : List V} {children : List (Node K V)} :
    Node.removeLastEntry (⟨keys ++ [key], values ++ [value], children⟩ : Node K V) =
      .ok (⟨keys, values, children⟩, key, value) := by
  rw [Node.removeLastEntry, Checked.removeLast_append, ok_bind, Checked.removeLast_append]
  rfl

/-- A change of one child. -/
theorem ends_updateChild {β : Type} {f : Node K V → Run K V (Node K V × β)}
    {Q : Node K V × β → Journal K V → Prop} (h : position = before.length) :
    Ends ((plug before child after).updateChild position f) journal Q ↔
      Ends (f child) journal fun outcome later =>
        Q (plug before outcome.1 after, outcome.2) later := by
  unfold Node.updateChild
  simp only [ends_bind, ends_liftM, nth_children h, replace_children h]
  constructor
  · rintro ⟨_, ⟨⟩, h⟩
    refine ends_mono h ?_
    intro outcome later houtcome
    obtain ⟨_, ⟨⟩, hQ⟩ := houtcome
    exact hQ
  · intro h
    refine ⟨child, rfl, ends_mono h fun outcome later hQ => ⟨_, rfl, hQ⟩⟩

theorem ends_updateNext {β : Type} {f : Node K V → Run K V (Node K V × β)}
    {Q : Node K V × β → Journal K V → Prop} (h : position = before.length) :
    Ends ((plug before child ((key, value, right) :: after)).updateChild (position + 1) f)
      journal Q ↔
      Ends (f right) journal fun outcome later =>
        Q (plug before child ((key, value, outcome.1) :: after), outcome.2) later := by
  simp only [plug_shift]
  exact ends_updateChild (by simp [h])

/-! ## The four operations -/

theorem split_plug (halike : Alike low high) (hlength : t = low.keys.length + 1)
    (h : position = before.length) :
    (plug before (fuse low key value high) after).split t position =
      .ok (plug before low ((key, value, high) :: after)) := by
  have hpaired := halike.fittedLow.paired
  have hkeys : Checked.split (fuse low key value high).keys t =
      .ok (low.keys ++ [key], high.keys) := by
    have hsplit : (fuse low key value high).keys = (low.keys ++ [key]) ++ high.keys := by
      simp [fuse]
    rw [hsplit]
    exact Checked.split_middle (by simp [hlength])
  have hvalues : Checked.split (fuse low key value high).values t =
      .ok (low.values ++ [value], high.values) := by
    have hsplit : (fuse low key value high).values = (low.values ++ [value]) ++ high.values := by
      simp [fuse]
    rw [hsplit]
    exact Checked.split_middle (by simp [hlength, hpaired])
  have hchildren : (fuse low key value high).isLeaf = true ∧ low.children = [] ∧
        high.children = [] ∨
      (fuse low key value high).isLeaf = false ∧
        Checked.split (fuse low key value high).children t = .ok (low.children, high.children) := by
    rcases halike.cases with ⟨entries, more, rfl, rfl⟩ | ⟨before, left, right, after, rfl, rfl⟩
    · exact .inl ⟨rfl, rfl, rfl⟩
    · rw [fuse_plug, isLeaf_plug, ← fuse_plug]
      exact .inr ⟨rfl, Checked.split_middle (by rw [hlength]; simp [plug])⟩
  have hentry : (plug before (fuse low key value high) after).insertEntry position key value =
      .ok ⟨before.map (·.2.1) ++ key :: after.map (·.1),
        before.map (·.2.2) ++ value :: after.map (·.2.1),
        (plug before (fuse low key value high) after).children⟩ := by
    simp only [Node.insertEntry, plug]
    rw [Checked.insert_middle (by simp [h]), ok_bind, Checked.insert_middle (by simp [h])]
    rfl
  have hinsert : ∀ child next : Node K V,
      Checked.insert (plug before child after).children (position + 1) next =
        .ok (before.map (·.1) ++ child :: next :: after.map (·.2.2)) := by
    intro child next
    have hsplit := @Checked.insert_middle _ (before.map (·.1) ++ [child]) (after.map (·.2.2)) next
      (position + 1) (by simp [h])
    simpa [plug] using hsplit
  unfold Node.split
  simp only [nth_children h, hkeys, hvalues, ok_bind]
  obtain ⟨lowKeys, lowValues, lowChildren⟩ := low
  obtain ⟨highKeys, highValues, highChildren⟩ := high
  rcases hchildren with ⟨hleaf, rfl, rfl⟩ | ⟨hinner, hsplit⟩
  · simp only [hleaf, if_true, pure_bind, removeLastEntry_append, hentry, replace_children h,
      hinsert, ok_bind]
    rfl
  · simp only [hinner, hsplit, removeLastEntry_append, hentry, replace_children h, hinsert, ok_bind,
      Bool.false_eq_true, if_false]
    rfl

theorem merge_plug (h : position = before.length) :
    (plug before left ((key, value, right) :: after)).merge position =
      .ok (plug before (fuse left key value right) after) := by
  have hremove : Checked.remove (plug before left ((key, value, right) :: after)).children
      (position + 1) = .ok (right, (plug before left after).children) := by
    have hsplit : (plug before left ((key, value, right) :: after)).children =
        (before.map (·.1) ++ [left]) ++ right :: after.map (·.2.2) := by simp [plug]
    rw [hsplit, Checked.remove_middle (by simp [h])]
    simp [plug]
  have hentry : (plug before left ((key, value, right) :: after)).removeEntry position =
      .ok (⟨before.map (·.2.1) ++ after.map (·.1), before.map (·.2.2) ++ after.map (·.2.1),
        (plug before left ((key, value, right) :: after)).children⟩, key, value) := by
    simp only [Node.removeEntry, plug, List.map_cons]
    rw [Checked.remove_middle (by simp [h]), ok_bind, Checked.remove_middle (by simp [h])]
    rfl
  simp only [Node.merge, hremove, hentry, nth_children h, replace_children h, ok_bind]
  rfl

/-- The child gets the last key of its left neighbour by way of the separator, along with the child
to the right of that key, if there is one. -/
theorem borrowLeft_plug {moved : List (Node K V)}
    (hmoved : Alike low ⟨[], [], moved⟩) (h : position = before.length) :
    (plug before (fuse low key' value' ⟨[], [], moved⟩)
        ((key, value, child) :: after)).borrowLeft (position + 1) =
      .ok (plug before low ((key', value', fuse ⟨[], [], moved⟩ key value child) :: after)) := by
  have hdonor : (fuse low key' value' ⟨[], [], moved⟩).removeLastEntry =
      .ok (⟨low.keys, low.values, low.children ++ moved⟩, key', value') := removeLastEntry_append
  simp only [Node.borrowLeft, nth_children h, nth_next h, nth_keys h, hdonor,
    replaceEntry_plug h, replace_children h, replace_next h, ok_bind]
  obtain ⟨lowKeys, lowValues, lowChildren⟩ := low
  rcases hmoved.bare_cases with ⟨rfl, rfl⟩ | ⟨last, rfl⟩
  · rfl
  · simp only [List.getLast?_concat, List.dropLast_concat]
    rfl

/-- The child gets the first key of its right neighbour by way of the separator, along with the
child to the left of that key, if there is one. -/
theorem borrowRight_plug {moved : List (Node K V)}
    (hmoved : Alike ⟨[], [], moved⟩ high) (h : position = before.length) :
    (plug before child
        ((key, value, fuse ⟨[], [], moved⟩ key' value' high) :: after)).borrowRight position =
      .ok (plug before (fuse child key value ⟨[], [], moved⟩) ((key', value', high) :: after)) := by
  have hdonor : (fuse ⟨[], [], moved⟩ key' value' high).removeEntry 0 =
      .ok (⟨high.keys, high.values, moved ++ high.children⟩, key', value') := rfl
  simp only [Node.borrowRight, nth_children h, nth_next h, nth_keys h, hdonor,
    replaceEntry_plug h, replace_children h, replace_next h, ok_bind]
  obtain ⟨highKeys, highValues, highChildren⟩ := high
  rcases hmoved.symm.bare_cases with ⟨rfl, rfl⟩ | ⟨first, rfl⟩ <;> rfl

/-- Splits and merges keep the entries. -/
theorem toList_plug_fuse (h : Alike left right) :
    (plug before (fuse left key value right) after).toList =
      (plug before left ((key, value, right) :: after)).toList := by
  simp [toList_plug, h.toList_fuse]

/-- Borrowing keeps the entries. -/
theorem toList_plug_regroup (hlow : Alike low moved) (hhigh : Alike moved high) :
    (plug before low ((key', value', fuse moved key value high) :: after)).toList =
      (plug before (fuse low key' value' moved) ((key, value, high) :: after)).toList := by
  simp [toList_plug, hlow.toList_fuse, hhigh.toList_fuse]

/-! ## Filling a child -/

/-- A child that was filled, as seen from the node above it. The child has a key to lose, the
entries of the node are the same, and none is outside the child that was inside before. -/
structure Filled (t levels : Nat) (before : List (Node K V × K × V)) (child : Node K V)
    (after : List (K × V × Node K V)) (before' : List (Node K V × K × V)) (child' : Node K V)
    (after' : List (K × V × Node K V)) : Prop where
  fanned : Fanned t levels (plug before' child' after')
  spare : t ≤ child'.keys.length
  most : before'.length + after'.length ≤ before.length + after.length
  keys_le : before.length + after.length ≤ before'.length + after'.length + 1
  toList_eq : (plug before' child' after').toList = (plug before child after).toList
  fore_prefix : fore before' <+: fore before
  aft_suffix : aft after' <:+ aft after

theorem Filled.formed {before' : List (Node K V × K × V)} {child' : Node K V}
    {after' : List (K × V × Node K V)}
    (hfilled : Filled t levels before child after before' child' after')
    (h : Formed t (levels + 1) (plug before child after)) :
    Formed t (levels + 1) (plug before' child' after') :=
  formed_iff_fanned.mpr ⟨hfilled.most.trans (formed_iff_fanned.mp h).1, hfilled.fanned⟩

theorem ends_borrowLeft
    (h : Fanned t levels (plug before left ((key, value, child) :: after)))
    (hspare : t ≤ left.keys.length) (hshort : child.keys.length < t)
    (hposition : position = before.length) :
    Ends ((plug before left ((key, value, child) :: after)).borrowNoted .left (position + 1))
      journal
      fun node later => ∃ low key' value' child',
        node = plug (before ++ [(low, key', value')]) child' after ∧
          Filled t levels (before ++ [(left, key, value)]) child after
            (before ++ [(low, key', value')]) child' after ∧
          Steps t 1 journal later := by
  obtain ⟨hbefore, hleft, hafter⟩ := fanned_plug.mp h
  have hchild : Stout t levels child := hafter _ List.mem_cons_self
  have hleast := hchild.least
  have hstep : (Event.borrowing .left (position + 1) left.keys.length).Meets t := hspare
  have hcut : left.keys.length - 1 < left.keys.length := by omega
  obtain ⟨low, key', value', moved, rfl, hlength, hlow, hmoved⟩ := hleft.formed.exists_fuse hcut
  rw [length_keys_fuse] at hlength hspare
  obtain ⟨nodes, rfl⟩ := hmoved.fitted.exists_bare (by omega)
  have hfused : Formed t levels (fuse ⟨[], [], nodes⟩ key value child) :=
    formed_fuse hmoved hchild.formed (by simp; omega)
  simp only [Node.borrowNoted, Nat.add_sub_cancel, childSize_plug hposition,
    borrowLeft_plug (hlow.alike hmoved) hposition, ends_bind, ends_liftM, ends_record]
  refine ⟨_, rfl, _, rfl, low, key', value', fuse ⟨[], [], nodes⟩ key value child,
    plug_shift, ?_, .noted hstep journal⟩
  constructor
  · rw [← plug_shift]
    refine fanned_plug.mpr ⟨hbefore, ⟨hlow, by simp at hspare; omega⟩, fun e he => ?_⟩
    rcases List.mem_cons.mp he with rfl | he
    · exact ⟨hfused, by simp; omega⟩
    · exact hafter e (List.mem_cons_of_mem _ he)
  · simp
    omega
  · simp
  · simp
  · rw [← plug_shift, ← plug_shift]
    exact toList_plug_regroup (hlow.alike hmoved) (hmoved.alike hchild.formed)
  · simp [toList_fuse hlow hmoved]
  · exact List.suffix_rfl

theorem ends_borrowRight
    (h : Fanned t levels (plug before child ((key, value, right) :: after)))
    (hspare : t ≤ right.keys.length) (hshort : child.keys.length < t)
    (hposition : position = before.length) :
    Ends ((plug before child ((key, value, right) :: after)).borrowNoted .right position) journal
      fun node later => ∃ child' key' value' high,
        node = plug before child' ((key', value', high) :: after) ∧
          Filled t levels before child ((key, value, right) :: after) before child'
            ((key', value', high) :: after) ∧
          Steps t 1 journal later := by
  obtain ⟨hbefore, hchild, hafter⟩ := fanned_plug.mp h
  have hright : Stout t levels right := hafter _ List.mem_cons_self
  have hleast := hchild.least
  have hstep : (Event.borrowing .right position right.keys.length).Meets t := hspare
  have hcut : 0 < right.keys.length := by omega
  obtain ⟨moved, key', value', high, rfl, hlength, hmoved, hhigh⟩ := hright.formed.exists_fuse hcut
  rw [length_keys_fuse] at hspare
  obtain ⟨nodes, rfl⟩ := hmoved.fitted.exists_bare hlength
  have hfused : Formed t levels (fuse child key value ⟨[], [], nodes⟩) :=
    formed_fuse hchild.formed hmoved (by simp; omega)
  simp only [Node.borrowNoted, childSize_next hposition,
    borrowRight_plug (hmoved.alike hhigh) hposition, ends_bind, ends_liftM, ends_record]
  refine ⟨_, rfl, _, rfl, fuse child key value ⟨[], [], nodes⟩, key', value', high, rfl, ?_,
    .noted hstep journal⟩
  constructor
  · refine fanned_plug.mpr ⟨hbefore, ⟨hfused, by simp; omega⟩, fun e he => ?_⟩
    rcases List.mem_cons.mp he with rfl | he
    · exact ⟨hhigh, by simp at hspare ⊢; omega⟩
    · exact hafter e (List.mem_cons_of_mem _ he)
  · simp
    omega
  · simp
  · simp
  · exact (toList_plug_regroup (hchild.formed.alike hmoved) (hmoved.alike hhigh)).symm
  · exact List.prefix_rfl
  · simp [toList_fuse hmoved hhigh]

/-- Two neighbours that cannot lose a key have the least number of keys. -/
theorem ends_mergeNoted
    (h : Fanned t levels (plug before left ((key, value, right) :: after)))
    (hleft : left.keys.length < t) (hright : right.keys.length < t)
    (hposition : position = before.length) :
    Ends ((plug before left ((key, value, right) :: after)).mergeNoted position) journal
      fun node later => node = plug before (fuse left key value right) after ∧
        Steps t 1 journal later := by
  obtain ⟨-, hl, hafter⟩ := fanned_plug.mp h
  have hlLeast := hl.least
  have hr : Stout t levels right := hafter _ List.mem_cons_self
  have hrLeast := hr.least
  have hstep : (Event.merging position left.keys.length right.keys.length).Meets t :=
    ⟨by omega, by omega⟩
  simp only [Node.mergeNoted, childSize_plug hposition, childSize_next hposition,
    merge_plug hposition, ends_bind, ends_liftM, ends_record]
  exact ⟨_, rfl, _, rfl, _, rfl, rfl, .noted hstep journal⟩

/-- Two neighbours that cannot lose a key are merged into one that can. -/
theorem filled_merged (ht : 2 ≤ t)
    (h : Fanned t levels (plug before left ((key, value, right) :: after)))
    (hleft : left.keys.length < t) (hright : right.keys.length < t) :
    Filled t levels before left ((key, value, right) :: after) before (fuse left key value right)
      after := by
  obtain ⟨hbefore, hl, hafter⟩ := fanned_plug.mp h
  have hr : Stout t levels right := hafter _ List.mem_cons_self
  have hlLeast := hl.least
  have hrLeast := hr.least
  have hspare : t ≤ (fuse left key value right).keys.length := by
    rw [length_keys_fuse]
    omega
  have hfused : Formed t levels (fuse left key value right) :=
    formed_fuse hl.formed hr.formed (by omega)
  refine ⟨fanned_plug.mpr ⟨hbefore, ⟨hfused, by omega⟩, fun e he => ?_⟩, hspare, by simp,
    by simp; omega, ?_, List.prefix_rfl, by simp⟩
  · exact hafter e (List.mem_cons_of_mem _ he)
  · exact toList_plug_fuse (hl.formed.alike hr.formed)

/-- The same, seen from the right one of the two. -/
theorem Filled.shift {child' : Node K V}
    (h : Filled t levels before left ((key, value, right) :: after) before child' after) :
    Filled t levels (before ++ [(left, key, value)]) right after before child' after where
  fanned := h.fanned
  spare := h.spare
  most := by simp
  keys_le := by simp; omega
  toList_eq := by rw [← plug_shift, h.toList_eq]
  fore_prefix := by simp
  aft_suffix := List.suffix_rfl

theorem spares_plug (h : position = before.length) :
    (plug before child after).spares t position = .ok (decide (t ≤ child.keys.length)) := by
  rw [Node.spares, childSize_plug h, ok_bind]
  rfl

theorem spares_next (h : position = before.length) :
    (plug before child ((key, value, right) :: after)).spares t (position + 1) =
      .ok (decide (t ≤ right.keys.length)) := by
  rw [plug_shift]
  exact spares_plug (by simp [h])

/-- The child has a sibling on the left that can lose a key, or none. -/
theorem ends_leftSpares (h : position = before.length) :
    Ends (if 0 < position then liftM ((plug before child after).spares t (position - 1))
        else pure false : Run K V Bool) journal fun spares later => later = journal ∧
      (spares = true ∧ (∃ rest left key value, before = rest ++ [(left, key, value)] ∧
          t ≤ left.keys.length) ∨
        spares = false ∧ ∀ rest left key value, before = rest ++ [(left, key, value)] →
          left.keys.length < t) := by
  rcases List.eq_nil_or_concat before with rfl | ⟨rest, ⟨left, key, value⟩, rfl⟩
  · rw [if_neg (by simp [h])]
    exact ⟨rfl, .inr ⟨rfl, by simp⟩⟩
  · rw [if_pos (by simp [h]), List.concat_eq_append, ← plug_shift, ends_liftM,
      spares_plug (by simp [h])]
    refine ⟨_, rfl, rfl, ?_⟩
    by_cases hspare : t ≤ left.keys.length
    · exact .inl ⟨decide_eq_true hspare, rest, left, key, value, rfl, hspare⟩
    · refine .inr ⟨decide_eq_false hspare, fun rest' left' key' value' heq => ?_⟩
      obtain ⟨-, heq⟩ := List.append_inj' heq rfl
      simp only [List.cons.injEq, Prod.mk.injEq] at heq
      obtain ⟨⟨rfl, -⟩, -⟩ := heq
      omega

/-- The child has a sibling on the right that can lose a key, or none. -/
theorem ends_rightSpares (h : position = before.length) :
    Ends (if position < (plug before child after).keys.length then
        liftM ((plug before child after).spares t (position + 1))
        else pure false : Run K V Bool) journal fun spares later => later = journal ∧
      (spares = true ∧ (∃ key value right rest, after = (key, value, right) :: rest ∧
          t ≤ right.keys.length) ∨
        spares = false ∧ ∀ key value right rest, after = (key, value, right) :: rest →
          right.keys.length < t) := by
  rw [length_keys_plug]
  rcases after with _ | ⟨⟨key, value, right⟩, rest⟩
  · rw [if_neg (by simp [h])]
    exact ⟨rfl, .inr ⟨rfl, by simp⟩⟩
  · rw [if_pos (by simp [h]), ends_liftM, spares_next h]
    refine ⟨_, rfl, rfl, ?_⟩
    by_cases hspare : t ≤ right.keys.length
    · exact .inl ⟨decide_eq_true hspare, key, value, right, rest, rfl, hspare⟩
    · refine .inr ⟨decide_eq_false hspare, fun key' value' right' rest' heq => ?_⟩
      simp only [List.cons.injEq, Prod.mk.injEq] at heq
      obtain ⟨⟨-, -, rfl⟩, -⟩ := heq
      omega

theorem ends_fill (ht : 2 ≤ t) (h : Fanned t levels (plug before child after))
    (hshort : child.keys.length < t) (hkeys : 1 ≤ before.length + after.length)
    (hposition : position = before.length) :
    Ends ((plug before child after).fill t position) journal fun outcome later =>
      ∃ before' child' after', outcome = (plug before' child' after', before'.length) ∧
        Filled t levels before child after before' child' after' ∧ Steps t 1 journal later := by
  unfold Node.fill
  dsimp only
  rw [ends_ite_bind]
  refine ends_mono (ends_leftSpares hposition) ?_
  intro outcome _ houtcome
  obtain ⟨rfl, ⟨rfl, rest, left, key, value, rfl, hspare⟩ | ⟨rfl, hleft⟩⟩ := houtcome
  · rw [← plug_shift] at h ⊢
    rw [if_pos rfl]
    obtain rfl : position = rest.length + 1 := by simpa using hposition
    refine ends_bind_of (ends_borrowLeft h hspare hshort rfl) ?_
    intro outcome later houtcome
    obtain ⟨low, key', value', child', rfl, hfilled, hsteps⟩ := houtcome
    exact ⟨_, _, _, by simp, hfilled, hsteps⟩
  rw [if_neg Bool.false_ne_true, ends_ite_bind]
  refine ends_mono (ends_rightSpares hposition) ?_
  intro outcome _ houtcome
  obtain ⟨rfl, ⟨rfl, key, value, right, rest, rfl, hspare⟩ | ⟨rfl, hright⟩⟩ := houtcome
  · rw [if_pos rfl]
    refine ends_bind_of (ends_borrowRight h hspare hshort hposition) ?_
    intro outcome later houtcome
    obtain ⟨child', key', value', high, rfl, hfilled, hsteps⟩ := houtcome
    exact ⟨_, _, _, by rw [hposition], hfilled, hsteps⟩
  rw [if_neg Bool.false_ne_true, length_keys_plug]
  rcases after with _ | ⟨⟨key, value, right⟩, rest⟩
  · -- the last child is merged with the one before it
    rcases List.eq_nil_or_concat before with rfl | ⟨rest, ⟨left, key, value⟩, rfl⟩
    · simp at hkeys
    · rw [List.concat_eq_append] at *
      rw [← plug_shift] at h ⊢
      rw [if_neg (by simp [hposition])]
      have hlong := hleft rest left key value rfl
      refine ends_bind_of (ends_mergeNoted h hlong hshort (by simp [hposition])) ?_
      intro outcome later houtcome
      obtain ⟨rfl, hsteps⟩ := houtcome
      exact ⟨rest, _, [], by simp [hposition], (filled_merged ht h hlong hshort).shift, hsteps⟩
  · rw [if_pos (by simp [hposition])]
    have hlong := hright key value right rest rfl
    refine ends_bind_of (ends_mergeNoted h hshort hlong hposition) ?_
    intro outcome later houtcome
    obtain ⟨rfl, hsteps⟩ := houtcome
    exact ⟨before, _, rest, by rw [hposition], filled_merged ht h hshort hlong, hsteps⟩

theorem ends_fillIfShort (ht : 2 ≤ t) (h : Fanned t levels (plug before child after))
    (hkeys : 1 ≤ before.length + after.length) (hposition : position = before.length) :
    Ends ((plug before child after).fillIfShort t position) journal fun outcome later =>
      ∃ before' child' after', outcome = (plug before' child' after', before'.length) ∧
        Filled t levels before child after before' child' after' ∧ Steps t 1 journal later := by
  unfold Node.fillIfShort
  rw [ends_bind, ends_liftM, childSize_plug hposition]
  refine ⟨_, rfl, ?_⟩
  by_cases hshort : child.keys.length < t
  · rw [if_pos hshort]
    exact ends_fill ht h hshort hkeys hposition
  · rw [if_neg hshort]
    exact ⟨before, child, after, by rw [hposition], ⟨h, by omega, Nat.le_refl _, by omega, rfl,
      List.prefix_rfl, List.suffix_rfl⟩, (Steps.refl t journal).mono (Nat.zero_le 1)⟩

end OrderedMaps.BTree
