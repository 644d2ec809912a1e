import OrderedMaps.Proofs.Reachable

/-!
# The height of a multi-way tree map

The entries of an inner node and its subtrees are easier to count with the gaps around them, of
which there is one more: the gaps of a node are those of its children. A child below the root has at
least `t` children and at most `2 * t`, so that the gaps lie between powers of these numbers.

* `BTree.Formed.gaps_eq`: the gaps of an inner node.
* `BTree.Stout.pow_le_gaps`, `BTree.Formed.gaps_le_pow`: the gaps of a node below the root, from
  below, and of any node, from above.
* `BTreeMap.size_between_powers`: the number of entries of any map that can be reached.
-/

namespace OrderedMaps

namespace BTree

variable {K V : Type} {t levels : Nat} {node : Node K V} {tree : Tree K V}

/-- An inner node has as many gaps as its children have. -/
theorem Formed.gaps_eq (h : Formed t (levels + 2) node) : node.toList.length + 1 =
    (node.children.map fun child => child.toList.length + 1).sum := by
  have hlength := h.length_toList
  obtain ⟨before, child, after, rfl, -⟩ := h.exists_plug (Nat.zero_le _)
  have hfan : (plug before child after).children.length =
      (plug before child after).keys.length + 1 := by
    simp [plug, Nat.add_assoc]
  rw [List.sum_map_add, List.map_const', List.sum_replicate, hfan]
  simp only [smul_eq_mul]
  omega

/-- Below an inner node, all nodes have the least number of keys. -/
theorem Formed.stout_children (h : Formed t (levels + 2) node) :
    node.children.length = node.keys.length + 1 ∧
      ∀ child ∈ node.children, Stout t (levels + 1) child := by
  cases h with
  | inner _ _ hfan hleast hlower =>
    exact ⟨hfan, fun child hmem => ⟨hlower child hmem, hleast child hmem⟩⟩

/-- From below, by induction on the number of levels. -/
theorem Formed.mul_pow_le_gaps (h : Formed t (levels + 1) node) :
    (node.keys.length + 1) * t ^ levels ≤ node.toList.length + 1 := by
  induction levels generalizing node with
  | zero =>
    obtain ⟨entries, rfl⟩ := h.exists_leafOf
    simp
  | succ levels ih =>
    obtain ⟨hfan, hstout⟩ := h.stout_children
    have hchildren : ∀ gaps ∈ node.children.map fun child => child.toList.length + 1,
        t ^ (levels + 1) ≤ gaps := by
      intro gaps hmem
      obtain ⟨child, hchild, rfl⟩ := List.mem_map.mp hmem
      have hleast := (hstout child hchild).least
      calc t ^ (levels + 1)
        _ = t * t ^ levels := Nat.pow_succ'
        _ ≤ (child.keys.length + 1) * t ^ levels := Nat.mul_le_mul_right _ (by omega)
        _ ≤ child.toList.length + 1 := ih (hstout child hchild).formed
    calc (node.keys.length + 1) * t ^ (levels + 1)
      _ = (node.children.map fun child => child.toList.length + 1).length • t ^ (levels + 1) := by
        rw [List.length_map, hfan, smul_eq_mul]
      _ ≤ (node.children.map fun child => child.toList.length + 1).sum :=
        List.card_nsmul_le_sum _ _ hchildren
      _ = node.toList.length + 1 := h.gaps_eq.symm

/-- From above, by induction on the number of levels. -/
theorem Formed.gaps_le_pow (ht : 1 ≤ t) (h : Formed t levels node) :
    node.toList.length + 1 ≤ (2 * t) ^ levels := by
  induction levels generalizing node with
  | zero => exact absurd h Formed.not_zero
  | succ levels ih =>
    cases levels with
    | zero =>
      obtain ⟨entries, rfl⟩ := h.exists_leafOf
      have hmost := h.most
      simp at hmost ⊢
      omega
    | succ levels =>
      obtain ⟨hfan, hstout⟩ := h.stout_children
      have hmost := h.most
      have hchildren : ∀ gaps ∈ node.children.map fun child => child.toList.length + 1,
          gaps ≤ (2 * t) ^ (levels + 1) := by
        intro gaps hmem
        obtain ⟨child, hchild, rfl⟩ := List.mem_map.mp hmem
        exact ih (hstout child hchild).formed
      calc node.toList.length + 1
        _ = (node.children.map fun child => child.toList.length + 1).sum := h.gaps_eq
        _ ≤ (node.children.map fun child => child.toList.length + 1).length •
            (2 * t) ^ (levels + 1) := List.sum_le_card_nsmul _ _ hchildren
        _ ≤ 2 * t * (2 * t) ^ (levels + 1) := by
          rw [List.length_map, hfan, smul_eq_mul]
          exact Nat.mul_le_mul_right _ (by omega)
        _ = (2 * t) ^ (levels + 1 + 1) := Nat.pow_succ'.symm

/-- A root above other nodes has a key, and with it two children. -/
theorem Tree.Sound.mul_pow_le_gaps (h : tree.Sound t (levels + 1))
    (hsome : 1 ≤ levels ∨ 1 ≤ tree.size) : 2 * t ^ levels ≤ tree.size + 1 := by
  have hgaps := h.formed.mul_pow_le_gaps
  rw [← h.size_eq] at hgaps
  rcases h.rooted with hbottom | hkeys
  · obtain rfl : levels = 0 := Nat.succ.inj hbottom
    simp at hsome ⊢
    omega
  · exact (Nat.mul_le_mul_right _ (Nat.succ_le_succ hkeys)).trans hgaps

end BTree

namespace BTreeMap

open BTree

variable {K V : Type}

/-- Whatever the comparator answers, and wherever the search in a node arrives, in any state of the
map: a map without entries has a single level, and the number of any other entries lies between
powers of the degree and of twice the degree that the height tells. -/
theorem size_between_powers (comparator : Comparator K) (degree : Degree) (locator : Locator K V)
    (hlocator : locator.IsInRange) (map : BTreeMap K V)
    (hmap : map.Reachable comparator degree locator) :
    (map.size = 0 → map.height = 1) ∧
    (1 ≤ map.size → 2 * degree.val ^ (map.height - 1) - 1 ≤ map.size ∧
      map.size ≤ (2 * degree.val) ^ map.height - 1) := by
  obtain ⟨-, levels, hsound⟩ := hmap.sound hlocator
  have hheight : map.height = levels := hsound.formed.levels_eq
  have hsize : map.size = map.tree.root.toList.length := hsound.size_eq
  have hle : map.size + 1 ≤ (2 * degree.val) ^ levels := by
    rw [hsize]
    exact hsound.formed.gaps_le_pow (Nat.le_of_succ_le degree.least_le)
  rw [hheight]
  cases levels with
  | zero => exact absurd hsound.formed Formed.not_zero
  | succ levels =>
    refine ⟨fun hnone => ?_, fun hsome => ⟨?_, Nat.le_sub_one_of_lt hle⟩⟩
    · by_contra hhigh
      have hge : 2 * degree.val ^ levels ≤ map.size + 1 := hsound.mul_pow_le_gaps (by omega)
      have hpos : 0 < degree.val ^ levels := Nat.pow_pos (Nat.le_of_succ_le degree.least_le)
      omega
    · exact Nat.sub_le_of_le_add (hsound.mul_pow_le_gaps (.inr hsome))

/-- A multi-way tree map of degree two with three entries, which fill its root, so that the root is
split when one of the keys is written once more. -/
def rewrittenBTreeMap : BTreeMap Nat Nat :=
  mapAfter ⟨.ofFn compare, .least, .bisect, Versioned.new BTree.Tree.empty⟩
    [.insertMany [(1, 0), (2, 0), (3, 0)], .insert 1 1]

/-- Two levels have no fewer than three entries. -/
theorem size_between_powers_rewritten :
    rewrittenBTreeMap.size = 3 ∧ rewrittenBTreeMap.height = 2 ∧
      2 * 2 ^ (rewrittenBTreeMap.height - 1) - 1 ≤ rewrittenBTreeMap.size ∧
      rewrittenBTreeMap.size ≤ (2 * 2) ^ rewrittenBTreeMap.height - 1 := by
  have hsize : rewrittenBTreeMap.size = 3 := by decide +kernel
  have hheight : rewrittenBTreeMap.height = 2 := by decide +kernel
  obtain ⟨-, hsome⟩ := size_between_powers (.ofFn compare) .least .bisect isInRange_bisect
    rewrittenBTreeMap ⟨_, {}, _, rfl, reached_mapAfter ..⟩
  exact ⟨hsize, hheight, hsome (by rw [hsize]; decide)⟩

end BTreeMap

end OrderedMaps
