import OrderedMaps.Proofs.BTree.Surgery

/-!
# The operations on neighbours take one another back

A split is taken back by a merge and a merge by a split, and borrowing from one side by borrowing
from the other side. The nodes need not be well-formed for that, as their numbers of keys do not
matter.

* `BTree.Branched`: an inner node with correct fan-out, and children of as many levels.
* `BTree.Branched.exists_pair`: the node around two neighbours, which can be joined.
* `BTree.split_merge`, `BTree.merge_split`, `BTree.borrowLeft_borrowRight`,
  `BTree.borrowRight_borrowLeft`: each operation, followed by the one that takes it back.
* `BTree.surgeries_inverse`: the four of them together.
-/

namespace OrderedMaps.BTree

variable {K V : Type} {t position : Nat} {node child left right : Node K V}

/-- An inner node with correct fan-out. So have its children, and they are of as many levels. -/
structure Branched (node : Node K V) : Prop where
  paired : node.keys.length = node.values.length
  fan : node.children.length = node.keys.length + 1
  fitted : ∀ child ∈ node.children, Fitted child
  level : ∀ child ∈ node.children, ∀ other ∈ node.children, child.levels = other.levels

/-- Two children next to each other can be joined around the entry between them. -/
theorem Branched.exists_pair (h : Branched node) (hleft : node.children[position]? = some left)
    (hright : node.children[position + 1]? = some right) : ∃ before key value after,
      node = plug before left ((key, value, right) :: after) ∧ before.length = position ∧
        Alike left right := by
  have hmemLeft := List.mem_of_getElem? hleft
  have hmemRight := List.mem_of_getElem? hright
  have halike : Alike left right := by
    refine ⟨h.fitted left hmemLeft, h.fitted right hmemRight, ?_⟩
    rw [isLeaf_eq_levels, isLeaf_eq_levels, h.level left hmemLeft right hmemRight]
  obtain ⟨before, after, rfl, rfl⟩ := exists_plug_child h.paired h.fan hleft
  rcases after with _ | ⟨⟨key, value, next⟩, after⟩
  · simp [plug] at hright
  · obtain rfl : next = right := by simpa [plug] using hright
    exact ⟨before, key, value, after, rfl, rfl, halike⟩

/-! ## One operation after the other -/

theorem split_merge (h : Branched node) (ht : 0 < t)
    (hchild : node.children[position]? = some child) (hkeys : t ≤ child.keys.length) :
    ∃ node', node.split t position = .ok node' ∧ node'.toList = node.toList ∧
      node'.merge position = .ok node := by
  have hfitted : Fitted child := h.fitted child (List.mem_of_getElem? hchild)
  obtain ⟨before, after, rfl, rfl⟩ := exists_plug_child h.paired h.fan hchild
  have hcut : t - 1 < child.keys.length := by omega
  obtain ⟨low, key, value, high, rfl, hlength, halike⟩ := hfitted.exists_fuse hcut
  exact ⟨_, split_plug halike (by omega) rfl, (toList_plug_fuse halike).symm, merge_plug rfl⟩

theorem merge_split (h : Branched node) (hleft : node.children[position]? = some left)
    (hright : node.children[position + 1]? = some right) :
    ∃ node', node.merge position = .ok node' ∧ node'.toList = node.toList ∧
      (t = left.keys.length + 1 → node'.split t position = .ok node) := by
  obtain ⟨before, key, value, after, rfl, rfl, halike⟩ := h.exists_pair hleft hright
  exact ⟨_, merge_plug rfl, toList_plug_fuse halike, fun hkeys => split_plug halike hkeys rfl⟩

theorem borrowLeft_borrowRight (h : Branched node) (hleft : node.children[position]? = some left)
    (hright : node.children[position + 1]? = some right) (hkeys : 0 < left.keys.length) :
    ∃ node', node.borrowLeft (position + 1) = .ok node' ∧ node'.toList = node.toList ∧
      node'.borrowRight position = .ok node := by
  obtain ⟨before, key, value, after, rfl, rfl, halike⟩ := h.exists_pair hleft hright
  have hlast : left.keys.length - 1 < left.keys.length := Nat.sub_one_lt_of_lt hkeys
  obtain ⟨low, key', value', moved, rfl, hlength, hcut⟩ := halike.fittedLow.exists_fuse hlast
  rw [length_keys_fuse] at hlength
  obtain ⟨nodes, rfl⟩ := hcut.fittedHigh.exists_bare (by omega)
  have hmoved : Alike ⟨[], [], nodes⟩ right := halike.of_fuse_left hcut
  exact ⟨_, borrowLeft_plug hcut rfl, toList_plug_regroup hcut hmoved, borrowRight_plug hmoved rfl⟩

theorem borrowRight_borrowLeft (h : Branched node) (hleft : node.children[position]? = some left)
    (hright : node.children[position + 1]? = some right) (hkeys : 0 < right.keys.length) :
    ∃ node', node.borrowRight position = .ok node' ∧ node'.toList = node.toList ∧
      node'.borrowLeft (position + 1) = .ok node := by
  obtain ⟨before, key, value, after, rfl, rfl, halike⟩ := h.exists_pair hleft hright
  obtain ⟨moved, key', value', high, rfl, hlength, hcut⟩ := halike.fittedHigh.exists_fuse hkeys
  obtain ⟨nodes, rfl⟩ := hcut.fittedLow.exists_bare hlength
  have hmoved : Alike left ⟨[], [], nodes⟩ := halike.of_fuse_right hcut
  exact ⟨_, borrowRight_plug hcut rfl, (toList_plug_regroup hmoved hcut).symm,
    borrowLeft_plug hmoved rfl⟩

/-- None of the four operations changes the entries of a node with correct fan-out and children of
as many levels, and each is taken back by another one, which restores the node with everything below
it: a split of a child that has at least `t` keys, such as a full one, by the merge of the two
parts; a merge of two children, the first of which has `t - 1` keys, by the split of the result; and
borrowing between two neighbours, as long as the donor has a key, by borrowing in the other
direction. -/
theorem surgeries_inverse (t : Nat) (ht : 0 < t) (node : Node K V) (h : Branched node)
    (position : Nat) :
    (∀ child, node.children[position]? = some child → t ≤ child.keys.length →
      ∃ node', node.split t position = .ok node' ∧ node'.toList = node.toList ∧
        node'.merge position = .ok node) ∧
    ∀ left right, node.children[position]? = some left →
      node.children[position + 1]? = some right →
      (∃ node', node.merge position = .ok node' ∧ node'.toList = node.toList ∧
        (left.keys.length = t - 1 → node'.split t position = .ok node)) ∧
      (0 < left.keys.length → ∃ node', node.borrowLeft (position + 1) = .ok node' ∧
        node'.toList = node.toList ∧ node'.borrowRight position = .ok node) ∧
      (0 < right.keys.length → ∃ node', node.borrowRight position = .ok node' ∧
        node'.toList = node.toList ∧ node'.borrowLeft (position + 1) = .ok node) := by
  constructor
  · intro child hchild hkeys
    exact split_merge h ht hchild hkeys
  · intro left right hleft hright
    obtain ⟨node', hmerge, hentries, hsplit⟩ := merge_split (t := t) h hleft hright
    exact ⟨⟨node', hmerge, hentries, fun hkeys => hsplit (by omega)⟩,
      borrowLeft_borrowRight h hleft hright, borrowRight_borrowLeft h hleft hright⟩

/-- A node of degree two over two inner nodes, the second of which can lose a key. -/
def twoInner : Node Nat Nat :=
  plug [(plug [(leafOf [(1, 10)], 2, 20)] (leafOf [(3, 30)]) [], 4, 40)]
    (plug [(leafOf [(5, 50)], 6, 60), (leafOf [(7, 70)], 8, 80)] (leafOf [(9, 90)]) []) []

theorem branched_twoInner : Branched twoInner := by
  have hlevels : ∀ child ∈ twoInner.children, child.levels = 2 :=
    List.forall_mem_cons.mpr ⟨rfl, List.forall_mem_singleton.mpr rfl⟩
  refine ⟨rfl, rfl, ?_, fun child hchild other hother => ?_⟩
  · exact List.forall_mem_cons.mpr ⟨fitted_plug, List.forall_mem_singleton.mpr fitted_plug⟩
  · rw [hlevels child hchild, hlevels other hother]

theorem surgeries_inverse_twoInner :
    (∃ node', twoInner.split 2 1 = .ok node' ∧ node'.toList = twoInner.toList ∧
      node'.merge 1 = .ok twoInner) ∧
    (∃ node', twoInner.merge 0 = .ok node' ∧ node'.toList = twoInner.toList ∧
      node'.split 2 0 = .ok twoInner) ∧
    (∃ node', twoInner.borrowLeft 1 = .ok node' ∧ node'.toList = twoInner.toList ∧
      node'.borrowRight 0 = .ok twoInner) ∧
    ∃ node', twoInner.borrowRight 0 = .ok node' ∧ node'.toList = twoInner.toList ∧
      node'.borrowLeft 1 = .ok twoInner := by
  obtain ⟨hsplit, -⟩ := surgeries_inverse 2 Nat.two_pos twoInner branched_twoInner 1
  obtain ⟨-, hpair⟩ := surgeries_inverse 2 Nat.two_pos twoInner branched_twoInner 0
  obtain ⟨⟨node', hmerge, hentries, hback⟩, hleft, hright⟩ := hpair _ _ rfl rfl
  exact ⟨hsplit _ rfl (by decide), ⟨node', hmerge, hentries, hback rfl⟩, hleft (by decide),
    hright (by decide)⟩

end OrderedMaps.BTree
