import OrderedMaps.Proofs.AvlMap.SingleKey
import OrderedMaps.Proofs.Reachable

/-!
# The height of a map

A balanced tree of some height has at least as many entries as the Fibonacci number of that height
says, and no look-up takes more comparisons than there are levels. Balance is kept whatever the
comparator answers, so that both hold of every map that can be reached.

* `Avl.Shape.Sound.levels_eq`, `Avl.Shape.Sound.fib_levels_le`: the levels of a sound shape.
* `Avl.Shape.Stored.height_mem`: what height a stored node can have.
* `Avl.Tree.Path`: nodes that follow each other by links down, with `Avl.Shape.Stored.path`.
* `AvlMap.height_logarithmic`: the height of a map and the comparisons of its look-ups.
-/

namespace OrderedMaps

variable {K V : Type}

namespace Avl

/-- The nodes follow each other by links down, the first one being linked to from `link`. -/
def Tree.Path (tree : Tree K V) : Option Slot → List (Node K V) → Prop
  | _, [] => True
  | link, node :: rest =>
      (∃ slot, link = some slot ∧ tree.pool.get? slot = some node) ∧
        ∃ side : Side, tree.Path (node.child side) rest

namespace Shape

variable {tree : Tree K V} {parent : Option Slot} {t : Shape K V} {slot : Slot}

/-- The heights count the levels. -/
theorem Sound.levels_eq (h : t.Sound) : (t.levels : Int) = t.height + 1 := by
  induction t with
  | nil => rfl
  | node l x height r ihl ihr =>
    obtain ⟨hheight, -, -, hl, hr⟩ := h
    have hleft := ihl hl
    have hright := ihr hr
    rw [levels, height_node]
    omega

/-- One node over two subtrees, the lower of which has one level less at most. -/
theorem fib_levels_le_node {high low m n : Nat} (hle : high ≤ low + 1)
    (hhigh : Nat.fib (high + 2) ≤ m + 1) (hlow : Nat.fib (low + 2) ≤ n + 1) :
    Nat.fib (high + 1 + 2) ≤ m + (n + 1) + 1 :=
  calc Nat.fib (high + 1 + 2)
    _ = Nat.fib (high + 1) + Nat.fib (high + 2) := Nat.fib_add_two
    _ ≤ Nat.fib (low + 2) + Nat.fib (high + 2) :=
      Nat.add_le_add_right (Nat.fib_mono (Nat.succ_le_succ hle)) _
    _ ≤ m + (n + 1) + 1 := by omega

/-- A sound shape has no fewer cells than its number of levels calls for. -/
theorem Sound.fib_levels_le (h : t.Sound) : Nat.fib (t.levels + 2) ≤ t.cells.length + 1 := by
  induction t with
  | nil => exact Nat.le_refl 1
  | node l x height r ihl ihr =>
    obtain ⟨-, hdiff, hdiff', hl, hr⟩ := h
    have hleft := ihl hl
    have hright := ihr hr
    have hllevels := hl.levels_eq
    have hrlevels := hr.levels_eq
    rw [levels, cells, List.length_append, List.length_cons]
    rcases Nat.le_total l.levels r.levels with hle | hle
    · have hbound := fib_levels_le_node (by omega) hright hleft
      rw [Nat.max_eq_right hle]
      omega
    · rw [Nat.max_eq_left hle]
      exact fib_levels_le_node (by omega) hleft hright

/-- No node is higher than the topmost one. -/
theorem Stored.height_mem (h : t.Stored tree.pool parent) (hsound : t.Sound)
    (hmem : slot ∈ t.slots) :
    ∃ node, tree.pool.get? slot = some node ∧ 0 ≤ node.height ∧ node.height ≤ t.height := by
  induction t generalizing parent with
  | nil => cases hmem
  | node l x height r ihl ihr =>
    obtain ⟨hnode, hl, hr⟩ := h
    obtain ⟨hheight, -, -, hsoundl, hsoundr⟩ := hsound
    have hlowl := hsoundl.neg_one_le
    have hlowr := hsoundr.neg_one_le
    rw [slots_node, List.mem_append, List.mem_cons] at hmem
    rw [height_node]
    rcases hmem with hmem | rfl | hmem
    · obtain ⟨node, hget, hlow, hhigh⟩ := ihl hl hsoundl hmem
      exact ⟨node, hget, hlow, by omega⟩
    · exact ⟨_, hnode, by simp only [Cell.node]; omega, Int.le_refl _⟩
    · obtain ⟨node, hget, hlow, hhigh⟩ := ihr hr hsoundr hmem
      exact ⟨node, hget, hlow, by omega⟩

/-- The way down for a key follows the links. -/
theorem Stored.path (h : t.Stored tree.pool parent) (c : Comparator K) (key : K) (n : Nat) :
    ∃ path, tree.Path t.root? path ∧ path.map Node.key = (t.descent c key n).keys := by
  induction n, t using descent_induction c key generalizing parent with
  | missing n => exact ⟨[], trivial, rfl⟩
  | here n l x height r hside =>
    rw [descent_here hside]
    exact ⟨[_], ⟨⟨_, rfl, h.1⟩, .left, trivial⟩, rfl⟩
  | @under n side near x height far hside ih =>
    obtain ⟨hnode, hnear, -⟩ := stored_join.mp h
    obtain ⟨path, hpath, hkeys⟩ := ih hnear
    rw [descent_join hside, Descent.keys_under, root?_join]
    refine ⟨_ :: path, ⟨⟨_, rfl, hnode⟩, side, ?_⟩, ?_⟩
    · rwa [child_linked]
    · rw [List.map_cons, hkeys]
      cases side <;> rfl

end Shape

end Avl

namespace AvlMap

open Avl Shape

section Spells

variable {map : AvlMap K V} {t : Shape K V}

theorem fib_height_le (hspells : Spells map.tree map.version t) :
    Nat.fib (t.height + 3).toNat ≤ map.size + 1 := by
  have hlevels : (t.height + 3).toNat = t.levels + 2 := by
    have := hspells.sound.levels_eq
    omega
  have hsize : map.size = t.cells.length := hspells.size_eq.trans (length_toList t)
  rw [hlevels, hsize]
  exact hspells.sound.fib_levels_le

theorem height_eq_neg_one_iff (hspells : Spells map.tree map.version t) :
    t.height = -1 ↔ map.size = 0 := by
  have hsize : map.size = t.cells.length := hspells.size_eq.trans (length_toList t)
  have hlevels := hspells.sound.levels_eq
  rw [hsize]
  cases t with
  | nil => simp [cells]
  | node l x h r =>
    simp only [levels, cells, List.length_append, List.length_cons] at hlevels ⊢
    omega

/-- A look-up compares the key with the nodes on a path down, one after the other. -/
theorem ends_lookup_path (hspells : Spells map.tree map.version t) (key : K)
    (journal : Journal K V) : ∃ path, map.tree.Path map.tree.root path ∧ path.length ≤ t.levels ∧
      (Ends (map.contains key) journal fun _ after =>
        after.calls = journal.calls ++ (path.map fun node => (key, node.key)).toArray) ∧
      Ends (map.get key) journal fun _ after =>
        after.calls = journal.calls ++ (path.map fun node => (key, node.key)).toArray := by
  obtain ⟨path, hpath, hkeys⟩ := hspells.placed.stored.path map.comparator key journal.calls.size
  have hcalls : path.map (fun node => (key, node.key)) =
      (t.descent map.comparator key journal.calls.size).keys.map fun other => (key, other) := by
    rw [← hkeys, List.map_map]
    rfl
  refine ⟨path, ?_, ?_, ?_, ?_⟩
  · rw [hspells.root_eq]
    exact hpath
  · have hlength := congrArg List.length hkeys
    rw [List.length_map, Descent.keys, List.length_map] at hlength
    rw [hlength]
    exact length_path_le ..
  · rw [ends_contains_iff hspells rfl, hcalls]
    rfl
  · rw [ends_get_iff hspells rfl, hcalls]
    rfl

end Spells

/-- Whatever the comparator answers, in any state of the map: the number of entries grows with the
height as fast as the Fibonacci numbers do, so that a height is a small number, and no node is
higher than the root. A look-up compares the key with the nodes on a path from the root down, one
after the other, and makes one comparison more than the height at most. -/
theorem height_logarithmic (comparator : Comparator K) (map : AvlMap K V)
    (hmap : map.Reachable comparator) :
    ∃ height, map.height = .ok height ∧ -1 ≤ height ∧ (height = -1 ↔ map.size = 0) ∧
      Nat.fib (height + 3).toNat ≤ map.size + 1 ∧ (map.size < 2 ^ 64 → height < 2 ^ 31) ∧
      (∀ slot node, map.tree.pool.get? slot = some node →
        0 ≤ node.height ∧ node.height ≤ height) ∧
      ∀ key journal, ∃ path, map.tree.Path map.tree.root path ∧ path.length ≤ height + 1 ∧
        Nat.fib (path.length + 2) ≤ map.size + 1 ∧
        (∃ found after, map.contains key journal = .ok (found, after) ∧
          after.calls = journal.calls ++ (path.map fun node => (key, node.key)).toArray) ∧
        ∃ result after, map.get key journal = .ok (result, after) ∧
          after.calls = journal.calls ++ (path.map fun node => (key, node.key)).toArray := by
  obtain ⟨-, t, hspells⟩ := hmap.spells
  have hlevels := hspells.sound.levels_eq
  have hfib := fib_height_le hspells
  refine ⟨t.height, hspells.heightAt_root, hspells.sound.neg_one_le, height_eq_neg_one_iff hspells,
    hfib, ?_, ?_, fun key journal => ?_⟩
  · intro hsize
    by_contra hhigh
    have hmono : Nat.fib 94 ≤ Nat.fib (t.height + 3).toNat := Nat.fib_mono (by omega)
    -- long before the height comes near its bound, there are more entries than can be counted
    have hfib94 : 2 ^ 64 < Nat.fib 94 := by norm_num
    omega
  · intro slot node hnode
    have hmem : slot ∈ t.slots := hspells.mem_slots_iff.mpr (by rw [hnode]; rfl)
    obtain ⟨node', hnode', hheight⟩ := hspells.placed.stored.height_mem hspells.sound hmem
    cases hnode.symm.trans hnode'
    exact hheight
  · obtain ⟨path, hpath, hlength, hcontains, hget⟩ := ends_lookup_path hspells key journal
    have hshort : path.length + 2 ≤ (t.height + 3).toNat := by omega
    exact ⟨path, hpath, by omega, (Nat.fib_mono hshort).trans hfib, hcontains.eq_ok, hget.eq_ok⟩

/-- A map of seven entries that is as high as one can be. -/
theorem height_logarithmic_eight : eightKeyAvlMap.height = .ok 3 ∧
    Nat.fib 6 ≤ eightKeyAvlMap.size + 1 ∧ ∃ path after,
      eightKeyAvlMap.tree.Path eightKeyAvlMap.tree.root path ∧ path.length ≤ 4 ∧
      eightKeyAvlMap.contains 4 {} = .ok (true, after) ∧
      after.calls.toList = path.map fun node => (4, node.key) := by
  have hthree : eightKeyAvlMap.height.toOption = some 3 := by decide +kernel
  have hfound : (eightKeyAvlMap.contains 4 {}).toOption.map Prod.fst = some true := by
    decide +kernel
  obtain ⟨height, hheight, -, -, hfib, -, -, hlookup⟩ := height_logarithmic (.ofFn compare)
    eightKeyAvlMap reachable_eightKeyAvlMap
  rw [hheight] at hthree
  obtain rfl : height = 3 := Option.some.inj hthree
  obtain ⟨path, hpath, hlength, -, ⟨found, after, hrun, hcalls⟩, -⟩ := hlookup 4 {}
  rw [hrun] at hfound
  obtain rfl : found = true := Option.some.inj hfound
  exact ⟨hheight, hfib, path, after, hpath, by omega, hrun, by simp [hcalls]⟩

end AvlMap

end OrderedMaps
