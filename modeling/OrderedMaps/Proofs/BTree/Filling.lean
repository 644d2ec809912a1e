import OrderedMaps.Proofs.BTree.Erase

/-!
# What filling a child and taking out an outermost entry leave

Statements about a node and a position in it, without a context around the child.

* `BTree.Refilled`: what filling the child at a position leaves of a node.
* `BTree.refilled_of_filled`: the same, from what the node looks like around that child.
* `BTree.fill_pop_keep`: filling a child changes neither the entries nor the depth of a node, and
  the outermost entries of a subtree can be taken out.
-/

namespace OrderedMaps.BTree

variable {K V : Type} {t levels position position' : Nat} {node child node' child' : Node K V}
  {before before' : List (Node K V × K × V)} {after after' : List (K × V × Node K V)}

theorem Fanned.levels_eq (h : Fanned t levels node) : node.levels = levels + 1 := by
  obtain ⟨keys, values, children⟩ := node
  obtain ⟨child, children, rfl⟩ := List.exists_cons_of_length_eq_add_one h.fan
  rw [Node.levels, (h.stout child List.mem_cons_self).formed.levels_eq]

/-- What filling a child leaves of a node. The child that is now at the position has a key to lose,
and all entries that the old one had. -/
structure Refilled (t : Nat) (node child node' : Node K V) (position' : Nat) : Prop where
  toList_eq : node'.toList = node.toList
  levels_eq : node'.levels = node.levels
  within : ∀ child ∈ node'.children, t - 1 ≤ child.keys.length ∧ child.keys.length ≤ 2 * t - 1
  most : node'.keys.length ≤ node.keys.length
  keys_le : node.keys.length ≤ node'.keys.length + 1
  spare : ∃ child', node'.children[position']? = some child' ∧ t ≤ child'.keys.length ∧
    child.toList <:+: child'.toList

/-- A child that was filled has the entries that it had, and maybe others around them. -/
theorem Filled.toList_child (h : Filled t levels before child after before' child' after') :
    child.toList <:+: child'.toList := by
  obtain ⟨low, hlow⟩ := h.fore_prefix
  obtain ⟨high, hhigh⟩ := h.aft_suffix
  have hentries := h.toList_eq
  rw [toList_plug, toList_plug, ← hlow, ← hhigh] at hentries
  have hmiddle : fore before' ++ child'.toList ++ aft after' =
      fore before' ++ (low ++ child.toList ++ high) ++ aft after' := by
    rw [hentries]
    simp only [List.append_assoc]
  have hchild := List.append_cancel_left (List.append_cancel_right hmiddle)
  exact ⟨low, high, hchild.symm⟩

theorem refilled_of_filled (h : Fanned t levels (plug before child after))
    (hfilled : Filled t levels before child after before' child' after') :
    Refilled t (plug before child after) child (plug before' child' after') before'.length where
  toList_eq := hfilled.toList_eq
  levels_eq := hfilled.fanned.levels_eq.trans h.levels_eq.symm
  within node hmem :=
    ⟨(hfilled.fanned.stout node hmem).least, (hfilled.fanned.stout node hmem).formed.most⟩
  most := by
    rw [length_keys_plug, length_keys_plug]
    exact hfilled.most
  keys_le := by
    rw [length_keys_plug, length_keys_plug]
    exact hfilled.keys_le
  spare := ⟨child', by simp [plug], hfilled.spare, hfilled.toList_child⟩

/-- A subtree that has a key to lose is a well-formed child after it lost one. -/
theorem Lessened.stout (h : Lessened t levels node node') (hkeys : t ≤ node.keys.length) :
    Stout t levels node' :=
  ⟨h.formed, Nat.sub_le_of_le_add (hkeys.trans h.keys_le)⟩

/-- Filling a child with the least number of keys, at any position of an inner node that has at
least one key, changes neither the entries nor the depth of the node. The node loses one key at
most, all its children stay well-formed, and the child at the position that results has a key to
lose, and the entries that were in the child. The last and the first entry can be taken out of every
well-formed subtree that has a key to lose, and what is left is a well-formed child of the same
depth with all the other entries. -/
theorem fill_pop_keep (t : Nat) (ht : 2 ≤ t) (node : Node K V) (journal : Journal K V) :
    (∀ levels position child, Fanned t levels node → 1 ≤ node.keys.length →
      node.children[position]? = some child → child.keys.length = t - 1 →
      ∃ node' position' later, node.fill t position journal = .ok ((node', position'), later) ∧
        Fanned t levels node' ∧ Refilled t node child node' position') ∧
    ∀ levels, Formed t levels node → t ≤ node.keys.length →
      (∃ node' entry later, node.popLast t node.levels journal = .ok ((node', entry), later) ∧
        node.toList = node'.toList ++ [entry] ∧ Stout t levels node') ∧
      ∃ node' entry later, node.popFirst t node.levels journal = .ok ((node', entry), later) ∧
        node.toList = entry :: node'.toList ∧ Stout t levels node' := by
  constructor
  · intro levels position child h hkeys hchild hshort
    obtain ⟨before, after, rfl, hposition⟩ := exists_plug_child h.paired h.fan hchild
    rw [length_keys_plug] at hkeys
    have hfill : Ends ((plug before child after).fill t position) journal _ :=
      ends_fill ht h (by omega) hkeys hposition.symm
    obtain ⟨outcome, later, hrun, before', child', after', rfl, hfilled, -⟩ := hfill.eq_ok
    exact ⟨_, _, later, hrun, hfilled.fanned, refilled_of_filled h hfilled⟩
  · intro levels h hkeys
    rw [h.levels_eq]
    constructor
    · have hpop : Ends (node.popLast t levels) journal _ := ends_popLast ht h hkeys
      obtain ⟨⟨node', entry⟩, later, hrun, hentries, hlessened, -⟩ := hpop.eq_ok
      exact ⟨node', entry, later, hrun, hentries, hlessened.stout hkeys⟩
    · have hpop : Ends (node.popFirst t levels) journal _ := ends_popFirst ht h hkeys
      obtain ⟨⟨node', entry⟩, later, hrun, hentries, hlessened, -⟩ := hpop.eq_ok
      exact ⟨node', entry, later, hrun, hentries, hlessened.stout hkeys⟩

/-- An inner node of degree two with three leaves, none of which can lose a key. -/
def threeLeaves : Node Nat Nat :=
  plug [(leafOf [(1, 10)], 2, 20), (leafOf [(3, 30)], 4, 40)] (leafOf [(5, 50)]) []

/-- The last of three leaves is merged with the one before it, so that its position is one less. The
outermost entries are those of the keys 1 and 5. -/
theorem fill_pop_keep_threeLeaves :
    (∃ node' later, threeLeaves.fill 2 2 {} = .ok ((node', 1), later) ∧
      Fanned 2 1 node' ∧ Refilled 2 threeLeaves (leafOf [(5, 50)]) node' 1) ∧
    (∃ node' later, threeLeaves.popLast 2 2 {} = .ok ((node', 5, 50), later) ∧
      threeLeaves.toList = node'.toList ++ [(5, 50)] ∧ Stout 2 2 node') ∧
    ∃ node' later, threeLeaves.popFirst 2 2 {} = .ok ((node', 1, 10), later) ∧
      threeLeaves.toList = (1, 10) :: node'.toList ∧ Stout 2 2 node' := by
  have hleaf : ∀ entry : Nat × Nat, Stout 2 1 (leafOf [entry]) := fun entry =>
    ⟨formed_leafOf.mpr (by simp), by simp⟩
  have hfanned : Fanned 2 1 threeLeaves :=
    fanned_plug.mpr ⟨by simp [hleaf], hleaf _, by simp⟩
  have hformed : Formed 2 2 threeLeaves := formed_iff_fanned.mpr ⟨by simp, hfanned⟩
  have hposition : (threeLeaves.fill 2 2 {}).toOption.map (fun outcome => outcome.1.2) =
      some 1 := by decide +kernel
  have hlast : (threeLeaves.popLast 2 2 {}).toOption.map (fun outcome => outcome.1.2) =
      some (5, 50) := by decide +kernel
  have hfirst : (threeLeaves.popFirst 2 2 {}).toOption.map (fun outcome => outcome.1.2) =
      some (1, 10) := by decide +kernel
  obtain ⟨hfill, hpop⟩ := fill_pop_keep 2 (Nat.le_refl 2) threeLeaves ({} : Journal Nat Nat)
  obtain ⟨node, position, later, hrun, hkept⟩ :=
    hfill 1 2 (leafOf [(5, 50)]) hfanned (by decide) rfl rfl
  obtain ⟨⟨rest, entry, last, hpopLast, hrest⟩, least, entry', last', hpopFirst, hleast⟩ :=
    hpop 2 hformed (by decide)
  have hlevels : threeLeaves.levels = 2 := hformed.levels_eq
  rw [hlevels] at hpopLast hpopFirst
  rw [hrun] at hposition
  rw [hpopLast] at hlast
  rw [hpopFirst] at hfirst
  obtain rfl : position = 1 := Option.some.inj hposition
  obtain rfl : entry = (5, 50) := Option.some.inj hlast
  obtain rfl : entry' = (1, 10) := Option.some.inj hfirst
  exact ⟨⟨node, later, hrun, hkept⟩, ⟨rest, last, hpopLast, hrest⟩, least, last', hpopFirst, hleast⟩

end OrderedMaps.BTree
