import OrderedMaps.BTree.Surgery
import OrderedMaps.Proofs.Run

/-!
# Well-formed nodes

* `BTree.plug`: a node around one of its children, with `BTree.fore` and `BTree.aft` for the entries
  on the two sides of that child. Every inner node can be seen so at every position.
* `BTree.fuse`: two nodes joined around an entry. Every node can be cut so at every entry.
* `BTree.Fitted`, `BTree.Alike`: correct fan-out of a node and of two nodes that can be joined,
  whatever their numbers of keys. This is all that cutting and joining relies on.
* `BTree.Formed`: the shape that a subtree of a multi-way tree must have, apart from the least
  number of keys of its topmost node and from the order of the keys.
* `BTree.Fanned`: an inner node over well-formed subtrees, with any number of keys of its own.
-/

namespace OrderedMaps

namespace Checked

variable {α : Type} {before after : List α} {x y : α} {position : Nat}

theorem nth_middle (h : position = before.length) :
    nth (before ++ x :: after) position = .ok x := by
  subst h
  simp [nth]

theorem replace_middle (h : position = before.length) :
    replace (before ++ x :: after) position y = .ok (before ++ y :: after) := by
  subst h
  rw [replace_of_lt (by simp)]
  simp

theorem insert_middle (h : position = before.length) :
    insert (before ++ after) position x = .ok (before ++ x :: after) := by
  subst h
  rw [insert_of_le (by simp)]
  congr 1
  induction before with
  | nil => simp
  | cons y rest ih => simpa using ih

theorem remove_middle (h : position = before.length) :
    remove (before ++ x :: after) position = .ok (x, before ++ after) := by
  subst h
  simp [remove, List.eraseIdx_append_of_length_le]

theorem split_middle (h : position = before.length) :
    split (before ++ after) position = .ok (before, after) := by
  subst h
  rw [split_of_le (by simp)]
  simp

end Checked

namespace BTree

variable {K V : Type}

/-- The leaves are the nodes of one level. -/
theorem isLeaf_eq_levels (node : Node K V) : node.isLeaf = decide (node.levels = 1) := by
  have hpos : ∀ node : Node K V, 0 < node.levels := by
    rintro ⟨keys, values, _ | ⟨child, children⟩⟩
    · exact Nat.one_pos
    · exact Nat.succ_pos _
  obtain ⟨keys, values, _ | ⟨child, children⟩⟩ := node
  · rfl
  · have hlevels : ¬ child.levels + 1 = 1 := by
      have := hpos child
      omega
    exact (decide_eq_false hlevels).symm

/-! ## A node around a child -/

/-- The node with some children and entries before a child, and some entries and children after
it. -/
def plug (before : List (Node K V × K × V)) (child : Node K V) (after : List (K × V × Node K V)) :
    Node K V where
  keys := before.map (·.2.1) ++ after.map (·.1)
  values := before.map (·.2.2) ++ after.map (·.2.1)
  children := before.map (·.1) ++ child :: after.map (·.2.2)

/-- The entries before a child. -/
def fore (before : List (Node K V × K × V)) : List (K × V) :=
  before.flatMap fun e => e.1.toList ++ [e.2]

/-- The entries after a child. -/
def aft (after : List (K × V × Node K V)) : List (K × V) :=
  after.flatMap fun e => (e.1, e.2.1) :: e.2.2.toList

section Plug

variable {before : List (Node K V × K × V)} {child right : Node K V}
  {after : List (K × V × Node K V)} {key : K} {value : V}

@[simp] theorem fore_nil : fore ([] : List (Node K V × K × V)) = [] := rfl

@[simp] theorem aft_nil : aft ([] : List (K × V × Node K V)) = [] := rfl

@[simp] theorem fore_append {more : List (Node K V × K × V)} :
    fore (before ++ more) = fore before ++ fore more := List.flatMap_append

@[simp] theorem fore_singleton : fore [(child, key, value)] = child.toList ++ [(key, value)] := by
  simp [fore]

@[simp] theorem aft_cons :
    aft ((key, value, child) :: after) = (key, value) :: (child.toList ++ aft after) := by
  simp [aft]

theorem aft_eq_nil (h : ∀ e ∈ aft after, e ∈ ([] : List (K × V))) : after = [] := by
  cases after with
  | nil => rfl
  | cons e rest => exact absurd (h (e.1, e.2.1) (by simp [aft])) List.not_mem_nil

theorem fore_eq_nil (h : ∀ e ∈ fore before, e ∈ ([] : List (K × V))) : before = [] := by
  cases before with
  | nil => rfl
  | cons e rest => exact absurd (h e.2 (by simp [fore])) List.not_mem_nil

theorem length_keys_plug :
    (plug before child after).keys.length = before.length + after.length := by
  simp [plug]

theorem mem_children_plug {node : Node K V} : node ∈ (plug before child after).children ↔
    (∃ e ∈ before, e.1 = node) ∨ node = child ∨ ∃ e ∈ after, e.2.2 = node := by
  simp only [plug, List.mem_append, List.mem_map, List.mem_cons]

/-- A node seen from the next child. -/
theorem plug_shift : plug before child ((key, value, right) :: after) =
    plug (before ++ [(child, key, value)]) right after := by
  simp [plug]

theorem toList_plug :
    (plug before child after).toList = fore before ++ child.toList ++ aft after := by
  have hafter : ∀ (child : Node K V) (after : List (K × V × Node K V)),
      Node.weave (child :: after.map (·.2.2)) (after.map (·.1)) (after.map (·.2.1)) =
        child.toList ++ aft after := by
    intro child after
    induction after generalizing child with
    | nil => simp [Node.weave]
    | cons e rest ih =>
      obtain ⟨key, value, right⟩ := e
      simp only [List.map_cons, Node.weave, ih, aft_cons]
  rw [plug, Node.toList]
  induction before with
  | nil => simp only [List.map_nil, List.nil_append, hafter, fore_nil]
  | cons e rest ih =>
    obtain ⟨left, key, value⟩ := e
    simp only [List.map_cons, List.cons_append, Node.weave, ih]
    simp [fore]

/-- An inner node can be seen around the child at any position. -/
theorem exists_plug {keys : List K} {values : List V} {children : List (Node K V)} {position : Nat}
    (hpaired : keys.length = values.length) (hfan : children.length = keys.length + 1)
    (hposition : position ≤ keys.length) : ∃ before child after,
      (⟨keys, values, children⟩ : Node K V) = plug before child after ∧
        before.length = position := by
  have hfirst : ∀ {keys : List K} {values : List V} {children : List (Node K V)},
      keys.length = values.length → children.length = keys.length + 1 →
      ∃ child after, (⟨keys, values, children⟩ : Node K V) = plug [] child after := by
    intro keys
    induction keys with
    | nil =>
      intro values children hpaired hfan
      obtain rfl := List.eq_nil_of_length_eq_zero hpaired.symm
      obtain ⟨child, rfl⟩ := List.length_eq_one_iff.mp hfan
      exact ⟨child, [], rfl⟩
    | cons key keys ih =>
      intro values children hpaired hfan
      obtain ⟨value, values, rfl⟩ := List.exists_cons_of_length_eq_add_one hpaired.symm
      obtain ⟨child, children, rfl⟩ := List.exists_cons_of_length_eq_add_one hfan
      obtain ⟨next, after, hplug⟩ := ih (by simpa using hpaired) (by simpa using hfan)
      refine ⟨child, (key, value, next) :: after, ?_⟩
      simp only [plug, List.map_nil, List.nil_append, Node.mk.injEq] at hplug ⊢
      simp [hplug]
  induction position with
  | zero =>
    obtain ⟨child, after, hplug⟩ := hfirst hpaired hfan
    exact ⟨[], child, after, hplug, rfl⟩
  | succ position ih =>
    obtain ⟨before, child, after, hplug, hlength⟩ := ih (by omega)
    have hkeys : keys.length = before.length + after.length := by
      have hlength : (plug before child after).keys.length = before.length + after.length :=
        length_keys_plug
      rw [← hlength, ← hplug]
    cases after with
    | nil => simp at hkeys; omega
    | cons e rest =>
      obtain ⟨key, value, right⟩ := e
      exact ⟨before ++ [(child, key, value)], right, rest, hplug.trans plug_shift,
        by simp [hlength]⟩

/-- An inner node can be seen around each of its children. -/
theorem exists_plug_child {node : Node K V} {position : Nat}
    (hpaired : node.keys.length = node.values.length)
    (hfan : node.children.length = node.keys.length + 1)
    (hchild : node.children[position]? = some child) :
    ∃ before after, node = plug before child after ∧ before.length = position := by
  obtain ⟨hlt, -⟩ := List.getElem?_eq_some_iff.mp hchild
  obtain ⟨keys, values, children⟩ := node
  have hposition : position ≤ keys.length := Nat.le_of_lt_succ (hlt.trans_eq hfan)
  obtain ⟨before, found, after, hplug, rfl⟩ := exists_plug hpaired hfan hposition
  rw [hplug] at hchild ⊢
  obtain rfl : found = child := by simpa [plug] using hchild
  exact ⟨before, after, rfl, rfl⟩

@[simp] theorem isLeaf_plug : (plug before child after).isLeaf = false := by
  simp [plug, Node.isLeaf]

end Plug

/-! ## Leaves, and nodes joined around an entry -/

/-- The leaf with the given entries. -/
def leafOf (entries : List (K × V)) : Node K V := ⟨entries.map Prod.fst, entries.map Prod.snd, []⟩

/-- Two nodes joined around an entry. -/
def fuse (low : Node K V) (key : K) (value : V) (high : Node K V) : Node K V where
  keys := low.keys ++ key :: high.keys
  values := low.values ++ value :: high.values
  children := low.children ++ high.children

section Fuse

variable {entries more : List (K × V)} {key : K} {value : V} {low high left right : Node K V}
  {before : List (Node K V × K × V)} {after : List (K × V × Node K V)}

@[simp] theorem isLeaf_leafOf : (leafOf entries).isLeaf = true := rfl

@[simp] theorem length_keys_leafOf : (leafOf entries).keys.length = entries.length := by
  simp [leafOf]

@[simp] theorem length_keys_fuse :
    (fuse low key value high).keys.length = low.keys.length + (high.keys.length + 1) := by
  simp [fuse]

@[simp] theorem toList_leafOf : (leafOf entries).toList = entries := by
  rw [leafOf, Node.toList, Node.weave]
  induction entries with
  | nil => rfl
  | cons e rest ih => simp [ih]

theorem fuse_leafOf :
    fuse (leafOf entries) key value (leafOf more) = leafOf (entries ++ (key, value) :: more) := by
  simp [fuse, leafOf]

theorem fuse_plug : fuse (plug before left []) key value (plug [] right after) =
    plug before left ((key, value, right) :: after) := by
  simp [fuse, plug]

end Fuse

/-! ## Fan-out -/

/-- The node has as many values as keys and, unless it is a leaf, one child more. -/
structure Fitted (node : Node K V) : Prop where
  paired : node.keys.length = node.values.length
  fan : node.isLeaf = true ∨ node.children.length = node.keys.length + 1

/-- Two nodes with correct fan-out, both of them leaves or both of them inner nodes. -/
structure Alike (low high : Node K V) : Prop where
  fittedLow : Fitted low
  fittedHigh : Fitted high
  isLeaf_eq : low.isLeaf = high.isLeaf

section Fitted

variable {node child low high : Node K V} {entries more : List (K × V)} {position : Nat}
  {before : List (Node K V × K × V)} {after : List (K × V × Node K V)} {key : K} {value : V}

theorem fitted_leafOf : Fitted (leafOf entries) := ⟨by simp [leafOf], .inl rfl⟩

theorem fitted_plug : Fitted (plug before child after) :=
  ⟨by simp [plug], .inr (by simp [plug, Nat.add_assoc])⟩

theorem Fitted.exists_leafOf (h : Fitted node) (hleaf : node.isLeaf = true) :
    ∃ entries, node = leafOf entries := by
  obtain ⟨keys, values, children⟩ := node
  have hpaired : keys.length = values.length := h.paired
  obtain rfl : children = [] := List.isEmpty_iff.mp hleaf
  refine ⟨keys.zip values, ?_⟩
  rw [leafOf, List.map_fst_zip (Nat.le_of_eq hpaired),
    List.map_snd_zip (Nat.le_of_eq hpaired.symm)]

theorem Fitted.exists_plug (h : Fitted node) (hinner : node.isLeaf = false)
    (hposition : position ≤ node.keys.length) :
    ∃ before child after, node = plug before child after ∧ before.length = position := by
  obtain ⟨keys, values, children⟩ := node
  have hfan : children.length = keys.length + 1 :=
    h.fan.resolve_left (Bool.eq_false_iff.mp hinner)
  exact BTree.exists_plug h.paired hfan hposition

theorem Alike.cases (h : Alike low high) :
    (∃ entries more, low = leafOf entries ∧ high = leafOf more) ∨
      ∃ before left right after, low = plug before left [] ∧ high = plug [] right after := by
  cases hleaf : low.isLeaf with
  | true =>
    obtain ⟨entries, rfl⟩ := h.fittedLow.exists_leafOf hleaf
    obtain ⟨more, rfl⟩ := h.fittedHigh.exists_leafOf (h.isLeaf_eq.symm.trans hleaf)
    exact .inl ⟨entries, more, rfl, rfl⟩
  | false =>
    obtain ⟨before, left, after, rfl, hlength⟩ := h.fittedLow.exists_plug hleaf (Nat.le_refl _)
    rw [length_keys_plug] at hlength
    obtain rfl : after = [] := List.eq_nil_of_length_eq_zero (by omega)
    obtain ⟨before', right, after', rfl, hlength'⟩ :=
      h.fittedHigh.exists_plug (h.isLeaf_eq.symm.trans hleaf) (Nat.zero_le _)
    obtain rfl : before' = [] := List.eq_nil_of_length_eq_zero hlength'
    exact .inr ⟨before, left, right, after', rfl, rfl⟩

theorem Alike.toList_fuse (h : Alike low high) :
    (fuse low key value high).toList = low.toList ++ (key, value) :: high.toList := by
  rcases h.cases with ⟨entries, more, rfl, rfl⟩ | ⟨before, left, right, after, rfl, rfl⟩
  · rw [fuse_leafOf, toList_leafOf, toList_leafOf, toList_leafOf]
  · rw [fuse_plug, toList_plug, toList_plug, toList_plug]
    simp

theorem Alike.isLeaf_fuse (h : Alike low high) :
    (fuse low key value high).isLeaf = low.isLeaf := by
  rcases h.cases with ⟨entries, more, rfl, rfl⟩ | ⟨before, left, right, after, rfl, rfl⟩
  · rfl
  · rw [fuse_plug, isLeaf_plug, isLeaf_plug]

theorem Alike.symm (h : Alike low high) : Alike high low :=
  ⟨h.fittedHigh, h.fittedLow, h.isLeaf_eq.symm⟩

/-- The nearest parts of two neighbours can be joined as well. -/
theorem Alike.of_fuse_left (h : Alike (fuse low key value high) node) (hcut : Alike low high) :
    Alike high node :=
  ⟨hcut.fittedHigh, h.fittedHigh,
    hcut.isLeaf_eq.symm.trans (hcut.isLeaf_fuse.symm.trans h.isLeaf_eq)⟩

theorem Alike.of_fuse_right (h : Alike node (fuse low key value high)) (hcut : Alike low high) :
    Alike node low :=
  ⟨h.fittedLow, hcut.fittedLow, h.isLeaf_eq.trans hcut.isLeaf_fuse⟩

theorem Fitted.exists_bare (h : Fitted node) (hkeys : node.keys.length = 0) :
    ∃ nodes, node = ⟨[], [], nodes⟩ := by
  obtain ⟨keys, values, nodes⟩ := node
  obtain rfl : keys = [] := List.eq_nil_of_length_eq_zero hkeys
  obtain rfl : values = [] := List.eq_nil_of_length_eq_zero h.paired.symm
  exact ⟨nodes, rfl⟩

/-- A node without keys has no children if it is next to a leaf, and one child otherwise. -/
theorem Alike.bare_cases {nodes : List (Node K V)} (h : Alike node ⟨[], [], nodes⟩) :
    nodes = [] ∧ node.children = [] ∨ ∃ child, nodes = [child] := by
  rcases h.fittedHigh.fan with hleaf | hfan
  · exact .inl ⟨List.isEmpty_iff.mp hleaf, List.isEmpty_iff.mp (h.isLeaf_eq.trans hleaf)⟩
  · exact .inr (List.length_eq_one_iff.mp hfan)

/-- Every node can be cut at every entry. -/
theorem Fitted.exists_fuse (h : Fitted node) (hposition : position < node.keys.length) :
    ∃ low key value high, node = fuse low key value high ∧ low.keys.length = position ∧
      Alike low high := by
  cases hleaf : node.isLeaf with
  | true =>
    obtain ⟨entries, rfl⟩ := h.exists_leafOf hleaf
    rw [length_keys_leafOf] at hposition
    have hsplit : entries =
        entries.take position ++ entries[position] :: entries.drop (position + 1) := by
      simp
    refine ⟨leafOf (entries.take position), entries[position].1, entries[position].2,
      leafOf (entries.drop (position + 1)), ?_, ?_, fitted_leafOf, fitted_leafOf, rfl⟩
    · rw [fuse_leafOf]
      exact congrArg leafOf hsplit
    · simp
      omega
  | false =>
    obtain ⟨before, child, after, rfl, hlength⟩ := h.exists_plug hleaf (Nat.le_of_lt hposition)
    rw [length_keys_plug] at hposition
    rcases after with _ | ⟨⟨key, value, right⟩, after⟩
    · simp at hposition
      omega
    · exact ⟨plug before child [], key, value, plug [] right after, fuse_plug.symm,
        by simpa [length_keys_plug] using hlength, fitted_plug, fitted_plug,
        isLeaf_plug.trans isLeaf_plug.symm⟩

end Fitted

/-! ## Well-formed nodes -/

/-- A subtree of the given number of levels: every node has as many values as keys, and at most
`2 * t - 1` of them; inner nodes have one child more; nodes below the topmost one have at least
`t - 1` keys; and all leaves are at the same depth. -/
inductive Formed (t : Nat) : Nat → Node K V → Prop
  | leaf {keys : List K} {values : List V} (paired : keys.length = values.length)
      (most : keys.length ≤ 2 * t - 1) : Formed t 1 ⟨keys, values, []⟩
  | inner {levels : Nat} {keys : List K} {values : List V} {children : List (Node K V)}
      (paired : keys.length = values.length) (most : keys.length ≤ 2 * t - 1)
      (fan : children.length = keys.length + 1)
      (least : ∀ child ∈ children, t - 1 ≤ child.keys.length)
      (lower : ∀ child ∈ children, Formed t levels child) :
      Formed t (levels + 1) ⟨keys, values, children⟩

/-- A subtree below another node: its topmost node has the least number of keys as well. -/
structure Stout (t levels : Nat) (node : Node K V) : Prop where
  formed : Formed t levels node
  least : t - 1 ≤ node.keys.length

/-- An inner node with correct fan-out, over well-formed subtrees of as many levels. It may have any
number of keys. -/
structure Fanned (t levels : Nat) (node : Node K V) : Prop where
  paired : node.keys.length = node.values.length
  fan : node.children.length = node.keys.length + 1
  stout : ∀ child ∈ node.children, Stout t levels child

section Formed

variable {t levels position : Nat} {node child low high : Node K V} {entries : List (K × V)}
  {before : List (Node K V × K × V)} {after : List (K × V × Node K V)} {key : K} {value : V}

theorem Formed.not_zero : ¬ Formed t 0 node := fun h => nomatch h

theorem Formed.most (h : Formed t levels node) : node.keys.length ≤ 2 * t - 1 := by
  cases h with
  | leaf _ hmost => exact hmost
  | inner _ hmost _ _ _ => exact hmost

theorem Formed.paired (h : Formed t levels node) : node.keys.length = node.values.length := by
  cases h with
  | leaf hpaired _ => exact hpaired
  | inner hpaired _ _ _ _ => exact hpaired

theorem formed_leafOf : Formed t 1 (leafOf entries) ↔ entries.length ≤ 2 * t - 1 := by
  constructor
  · intro h
    simpa using h.most
  · intro h
    exact .leaf (by simp) (by simpa using h)

theorem Formed.levels_eq (h : Formed t levels node) : node.levels = levels := by
  induction h with
  | leaf _ _ => rfl
  | inner _ _ hfan _ _ ih =>
    obtain ⟨child, children, rfl⟩ := List.exists_cons_of_length_eq_add_one hfan
    rw [Node.levels, ih child List.mem_cons_self]

theorem Formed.isLeaf_eq (h : Formed t levels node) : node.isLeaf = decide (levels = 1) := by
  rw [isLeaf_eq_levels, h.levels_eq]

theorem Formed.fitted (h : Formed t levels node) : Fitted node := by
  cases h with
  | leaf hpaired _ => exact ⟨hpaired, .inl rfl⟩
  | inner hpaired _ hfan _ _ => exact ⟨hpaired, .inr hfan⟩

/-- Two nodes of as many levels can be joined. -/
theorem Formed.alike (hlow : Formed t levels low) (hhigh : Formed t levels high) :
    Alike low high :=
  ⟨hlow.fitted, hhigh.fitted, hlow.isLeaf_eq.trans hhigh.isLeaf_eq.symm⟩

theorem Formed.exists_leafOf (h : Formed t 1 node) : ∃ entries, node = leafOf entries :=
  h.fitted.exists_leafOf h.isLeaf_eq

theorem fanned_plug : Fanned t levels (plug before child after) ↔
    (∀ e ∈ before, Stout t levels e.1) ∧ Stout t levels child ∧
      ∀ e ∈ after, Stout t levels e.2.2 := by
  constructor
  · intro h
    have hall := h.stout
    simp only [mem_children_plug] at hall
    exact ⟨fun e he => hall _ (.inl ⟨e, he, rfl⟩), hall _ (.inr (.inl rfl)),
      fun e he => hall _ (.inr (.inr ⟨e, he, rfl⟩))⟩
  · rintro ⟨hbefore, hchild, hafter⟩
    refine ⟨by simp [plug], by simp [plug, Nat.add_assoc], fun node hmem => ?_⟩
    rcases mem_children_plug.mp hmem with ⟨e, he, rfl⟩ | rfl | ⟨e, he, rfl⟩
    · exact hbefore e he
    · exact hchild
    · exact hafter e he

/-- A well-formed inner node is one over well-formed subtrees that has not too many keys itself. -/
theorem formed_iff_fanned : Formed t (levels + 1) (plug before child after) ↔
    before.length + after.length ≤ 2 * t - 1 ∧ Fanned t levels (plug before child after) := by
  constructor
  · intro h
    have hmost := h.most
    rw [length_keys_plug] at hmost
    refine ⟨hmost, ?_⟩
    have hinner : (plug before child after).isLeaf = false := isLeaf_plug
    generalize plug before child after = node at h hinner ⊢
    cases h with
    | leaf _ _ => cases hinner
    | inner hpaired _ hfan hleast hlower =>
      exact ⟨hpaired, hfan, fun node hmem => ⟨hlower node hmem, hleast node hmem⟩⟩
  · rintro ⟨hmost, h⟩
    exact .inner h.paired (by simpa using hmost) h.fan (fun node hmem => (h.stout node hmem).least)
      fun node hmem => (h.stout node hmem).formed

theorem Formed.fanned (h : Formed t (levels + 1) (plug before child after)) :
    Fanned t levels (plug before child after) := (formed_iff_fanned.mp h).2

theorem formed_plug : Formed t (levels + 1) (plug before child after) ↔
    before.length + after.length ≤ 2 * t - 1 ∧ (∀ e ∈ before, Stout t levels e.1) ∧
      Stout t levels child ∧ ∀ e ∈ after, Stout t levels e.2.2 :=
  formed_iff_fanned.trans (and_congr_right' fanned_plug)

theorem Formed.exists_plug (h : Formed t (levels + 2) node)
    (hposition : position ≤ node.keys.length) :
    ∃ before child after, node = plug before child after ∧ before.length = position := by
  cases h with
  | inner hpaired _ hfan _ _ => exact BTree.exists_plug hpaired hfan hposition

/-- Two nodes of as many levels. -/
theorem Formed.fuse_cases (hlow : Formed t levels low) (hhigh : Formed t levels high) :
    (levels = 1 ∧ ∃ entries more, low = leafOf entries ∧ high = leafOf more) ∨
      ∃ lower before left right after, levels = lower + 2 ∧ low = plug before left [] ∧
        high = plug [] right after := by
  rcases (hlow.alike hhigh).cases with
    ⟨entries, more, rfl, rfl⟩ | ⟨before, left, right, after, rfl, rfl⟩
  · exact .inl ⟨of_decide_eq_true hlow.isLeaf_eq.symm, entries, more, rfl, rfl⟩
  · have hinner : ¬ levels = 1 := of_decide_eq_false (hlow.isLeaf_eq.symm.trans isLeaf_plug)
    rcases levels with _ | _ | levels
    · exact absurd hlow Formed.not_zero
    · exact absurd rfl hinner
    · exact .inr ⟨levels, before, left, right, after, rfl, rfl, rfl⟩

/-- The parts of a well-formed node are well-formed. -/
theorem Formed.of_fuse (h : Formed t levels (fuse low key value high)) (halike : Alike low high) :
    Formed t levels low ∧ Formed t levels high := by
  have hmost := h.most
  rw [length_keys_fuse] at hmost
  rcases halike.cases with ⟨entries, more, rfl, rfl⟩ | ⟨before, left, right, after, rfl, rfl⟩
  · obtain rfl : levels = 1 := of_decide_eq_true h.isLeaf_eq.symm
    simp only [length_keys_leafOf] at hmost
    exact ⟨formed_leafOf.mpr (by omega), formed_leafOf.mpr (by omega)⟩
  · rw [fuse_plug] at h
    simp only [length_keys_plug] at hmost
    cases levels with
    | zero => exact absurd h Formed.not_zero
    | succ levels =>
      obtain ⟨-, hbefore, hleft, hafter⟩ := formed_plug.mp h
      obtain ⟨hright, hafter⟩ := List.forall_mem_cons.mp hafter
      exact ⟨formed_plug.mpr ⟨by omega, hbefore, hleft, by simp⟩,
        formed_plug.mpr ⟨by omega, by simp, hright, hafter⟩⟩

/-- Every well-formed node can be cut at every entry. -/
theorem Formed.exists_fuse (h : Formed t levels node) (hposition : position < node.keys.length) :
    ∃ low key value high, node = fuse low key value high ∧ low.keys.length = position ∧
      Formed t levels low ∧ Formed t levels high := by
  obtain ⟨low, key, value, high, rfl, hlength, halike⟩ := h.fitted.exists_fuse hposition
  exact ⟨low, key, value, high, rfl, hlength, h.of_fuse halike⟩

theorem toList_fuse (hlow : Formed t levels low) (hhigh : Formed t levels high) :
    (fuse low key value high).toList = low.toList ++ (key, value) :: high.toList :=
  (hlow.alike hhigh).toList_fuse

theorem formed_fuse (hlow : Formed t levels low) (hhigh : Formed t levels high)
    (hmost : low.keys.length + high.keys.length + 1 ≤ 2 * t - 1) :
    Formed t levels (fuse low key value high) := by
  rcases hlow.fuse_cases hhigh with
    ⟨rfl, entries, more, rfl, rfl⟩ | ⟨lower, before, left, right, after, rfl, rfl, rfl⟩
  · rw [fuse_leafOf, formed_leafOf]
    simp at hmost ⊢
    omega
  · obtain ⟨-, hbefore, hleft, -⟩ := formed_plug.mp hlow
    obtain ⟨-, -, hright, hafter⟩ := formed_plug.mp hhigh
    rw [length_keys_plug, length_keys_plug] at hmost
    rw [fuse_plug, formed_plug]
    refine ⟨by simp at hmost ⊢; omega, hbefore, hleft, fun e he => ?_⟩
    rcases List.mem_cons.mp he with rfl | he
    · exact hright
    · exact hafter e he

/-! ## Numbers and outermost entries -/

theorem Formed.keys_sublist (h : Formed t levels node) :
    node.keys.Sublist (node.toList.map Prod.fst) := by
  rcases levels with _ | _ | levels
  · exact absurd h Formed.not_zero
  · obtain ⟨entries, rfl⟩ := h.exists_leafOf
    rw [toList_leafOf]
    exact List.Sublist.refl _
  · obtain ⟨before, child, after, rfl, hlength⟩ := h.exists_plug (Nat.zero_le _)
    obtain rfl : before = [] := List.eq_nil_of_length_eq_zero hlength
    have hafter : ∀ after : List (K × V × Node K V),
        (after.map (·.1)).Sublist ((aft after).map Prod.fst) := by
      intro after
      induction after with
      | nil => exact List.Sublist.refl _
      | cons e rest ih =>
        rw [List.map_cons, aft_cons, List.map_cons, List.map_append]
        exact (ih.trans (List.sublist_append_right _ _)).cons_cons _
    rw [toList_plug, List.map_append]
    exact (hafter after).trans (List.sublist_append_right _ _)

theorem Formed.keys_le (h : Formed t levels node) : node.keys.length ≤ node.toList.length := by
  simpa using h.keys_sublist.length_le

theorem Stout.toList_ne_nil (h : Stout t levels node) (ht : 2 ≤ t) : node.toList ≠ [] := by
  intro hnil
  have hleast := h.least
  have hkeys := h.formed.keys_le
  rw [hnil, List.length_nil] at hkeys
  omega

theorem Formed.first?_eq (h : Formed t levels node) (ht : 2 ≤ t) :
    node.first? = node.toList.head? := by
  induction levels generalizing node with
  | zero => exact absurd h Formed.not_zero
  | succ levels ih =>
    cases levels with
    | zero =>
      obtain ⟨entries, rfl⟩ := h.exists_leafOf
      rw [toList_leafOf]
      cases entries <;> rfl
    | succ levels =>
      obtain ⟨before, child, after, rfl, hlength⟩ := h.exists_plug (Nat.zero_le _)
      obtain rfl : before = [] := List.eq_nil_of_length_eq_zero hlength
      obtain ⟨-, -, hchild, -⟩ := formed_plug.mp h
      obtain ⟨e, rest, hentries⟩ := List.exists_cons_of_ne_nil (hchild.toList_ne_nil ht)
      have hfirst : (plug [] child after).first? = child.first? := rfl
      rw [hfirst, ih hchild.formed, toList_plug, hentries]
      rfl

theorem Formed.last?_eq (h : Formed t levels node) (ht : 2 ≤ t) :
    node.last? = node.toList.getLast? := by
  have hlastOf : ∀ (before : List (Node K V)) child,
      Node.lastOf? (before ++ [child]) = child.last? := by
    intro before child
    induction before with
    | nil => rfl
    | cons first rest ih => simp [Node.lastOf?, ih]
  induction levels generalizing node with
  | zero => exact absurd h Formed.not_zero
  | succ levels ih =>
    cases levels with
    | zero =>
      obtain ⟨entries, rfl⟩ := h.exists_leafOf
      rw [toList_leafOf, leafOf, Node.last?]
      rcases List.eq_nil_or_concat entries with rfl | ⟨rest, e, rfl⟩
      · rfl
      · simp
    | succ levels =>
      obtain ⟨before, child, after, rfl, hlength⟩ := h.exists_plug (Nat.le_refl _)
      rw [length_keys_plug] at hlength
      obtain rfl : after = [] := List.eq_nil_of_length_eq_zero (by omega)
      obtain ⟨-, -, hchild, -⟩ := formed_plug.mp h
      have hlast : (plug before child []).last? = child.last? := by
        rw [plug, Node.last?, if_neg (by simp)]
        exact hlastOf _ child
      obtain ⟨e, rest, hentries⟩ := List.exists_cons_of_ne_nil (hchild.toList_ne_nil ht)
      rw [hlast, ih hchild.formed, toList_plug, aft_nil, List.append_nil, List.getLast?_append,
        hentries]
      cases hlast : (e :: rest).getLast? with
      | none => simp at hlast
      | some last => rfl

theorem Formed.length_toList (h : Formed t levels node) : node.toList.length =
    node.keys.length + (node.children.map fun child => child.toList.length).sum := by
  rcases levels with _ | _ | levels
  · exact absurd h Formed.not_zero
  · obtain ⟨entries, rfl⟩ := h.exists_leafOf
    simp [leafOf, Node.toList, Node.weave]
  · obtain ⟨before, child, after, rfl, hlength⟩ := h.exists_plug (Nat.zero_le _)
    obtain rfl : before = [] := List.eq_nil_of_length_eq_zero hlength
    have hafter : (aft after).length =
        after.length + (after.map fun e => e.2.2.toList.length).sum := by
      clear h hlength
      induction after with
      | nil => rfl
      | cons e rest ih =>
        obtain ⟨key, value, right⟩ := e
        rw [aft_cons, List.length_cons, List.length_append, ih]
        simp only [List.length_cons, List.map_cons, List.sum_cons]
        omega
    have hsum : ((plug [] child after).children.map fun node => node.toList.length).sum =
        child.toList.length + (after.map fun e => e.2.2.toList.length).sum := by
      simp [plug, Function.comp_def]
    rw [toList_plug, hsum, length_keys_plug]
    simp only [fore_nil, List.nil_append, List.length_append, hafter, List.length_nil]
    omega

end Formed

end BTree

end OrderedMaps
