import OrderedMaps.Proofs.BTree.Audit
import OrderedMaps.Proofs.BTreeMap.Session

/-!
# The verdict of an audit

An audit looks at any nodes whatsoever, also at such as no map has. It compares few pairs of keys:
those that are neighbours in a node, and the outermost keys of a node with the separators on its two
sides. Where no node below the root is without keys, that is enough.

* `BTree.Fenced`: keys that ascend between two bounds, with `BTree.fenced_append_cons` for keys on
  the two sides of a separator.
* `BTree.Node.Audited`, `BTree.AuditedIn`: what the audits of a subtree and of siblings decide.
* `BTree.decides_nodeAudit`, `BTree.decides_treeAudit`: that they do.
* `BTreeMap.audit_ok_iff`: the verdict on a map with any tree.
-/

namespace OrderedMaps

namespace BTree

variable {K V : Type} {cmp : K → K → Ordering} {t depth deepest levels : Nat} {atRoot : Bool}
  {leafDepth : Option Nat} {lower upper : Option K} {node : Node K V} {violation : Violation K}

/-! ## Keys between bounds -/

/-- The keys ascend from the lower bound to the upper one, as far as there are bounds. -/
def Fenced (cmp : K → K → Ordering) (lower upper : Option K) (keys : List K) : Prop :=
  (lower.toList ++ keys ++ upper.toList).IsChain fun a b => cmp a b = .lt

/-- A separator is a bound of the keys on its two sides. -/
theorem fenced_append_cons {key : K} {before after : List K} :
    Fenced cmp lower upper (before ++ key :: after) ↔
      Fenced cmp lower (some key) before ∧ Fenced cmp (some key) upper after := by
  have hsplit : lower.toList ++ (before ++ key :: after) ++ upper.toList =
      (lower.toList ++ before) ++ key :: (after ++ upper.toList) := by simp
  unfold Fenced
  rw [hsplit, List.isChain_split]
  exact Iff.rfl

/-- Neighbours that ascend are enough. -/
theorem fenced_iff_ascend [Std.TransCmp cmp] {keys : List K} :
    Fenced cmp lower upper keys ↔ Ascend cmp (lower.toList ++ keys ++ upper.toList) := by
  have : Trans (fun a b => cmp a b = .lt) (fun a b => cmp a b = .lt)
      fun a b => cmp a b = .lt := ⟨Std.TransCmp.lt_trans⟩
  exact List.isChain_iff_pairwise

/-- Between the same bounds there are also fewer keys. -/
theorem Fenced.sublist [Std.TransCmp cmp] {keys more : List K} (h : Fenced cmp lower upper more)
    (hsub : keys.Sublist more) : Fenced cmp lower upper keys := by
  rw [fenced_iff_ascend] at h ⊢
  exact h.sublist (((List.Sublist.refl _).append hsub).append (List.Sublist.refl _))

/-- Without bounds, the keys ascend and no more. -/
theorem fenced_none [Std.TransCmp cmp] {entries : List (K × V)} :
    Fenced cmp none none (entries.map Prod.fst) ↔ Ascending cmp entries := by
  rw [fenced_iff_ascend]
  simp [Ascend, Ascending, List.pairwise_map]

/-! ## Single checks -/

theorem decides_expect {holds : Bool} :
    Decides (expect holds violation : Audit K V Unit) fun _ => holds = true := by
  cases holds with
  | false => exact decides_throw fun _ => Bool.false_ne_true
  | true => exact decides_pure rfl

theorem decides_ask {a b : K} :
    Decides (liftM ((Comparator.ofFn cmp).ask a b : Run K V Ordering) : Audit K V Ordering)
      fun order => order = cmp a b := fun _ => rfl

theorem decides_expectBelow {a b : K} :
    Decides (expectBelow (.ofFn cmp) a b violation : Audit K V Unit) fun _ => cmp a b = .lt := by
  refine decides_bind decides_ask ?_ fun _ _ => ⟨_, rfl⟩
  rintro _ rfl
  exact decides_congr (fun _ => Ordering.isLT_iff_eq_lt) decides_expect

theorem decides_auditOrder {keys : List K} :
    Decides (auditOrder (.ofFn cmp) violation keys : Audit K V Unit) fun _ =>
      keys.IsChain fun a b => cmp a b = .lt := by
  induction keys with
  | nil => exact decides_pure .nil
  | cons key rest ih =>
    cases rest with
    | nil => exact decides_pure (.singleton key)
    | cons next rest =>
      rw [auditOrder]
      refine decides_bind decides_expectBelow (fun _ hlt => ?_) fun _ hchain => ⟨(), hchain.rel⟩
      simp only [List.isChain_cons_cons, hlt, true_and]
      exact ih

/-- Keys between bounds, if there are any keys or no bounds. -/
theorem fenced_iff {keys : List K} (hbare : keys = [] → lower = none ∧ upper = none) :
    Fenced cmp lower upper keys ↔ (keys.IsChain fun a b => cmp a b = .lt) ∧
      (∀ first ∈ keys.head?, ∀ bound ∈ lower, cmp bound first = .lt) ∧
      ∀ last ∈ keys.getLast?, ∀ bound ∈ upper, cmp last bound = .lt := by
  rcases eq_or_ne keys [] with rfl | hne
  · obtain ⟨rfl, rfl⟩ := hbare rfl
    simp [Fenced]
  · obtain ⟨key, rest, rfl⟩ := List.exists_cons_of_ne_nil hne
    have hbound : ∀ bound : Option K, bound.toList.IsChain fun a b => cmp a b = .lt := by
      rintro (_ | bound) <;> simp
    have hlast : lower.toList.getLast? = lower := by cases lower <;> rfl
    unfold Fenced
    rw [List.isChain_append, List.isChain_append]
    simp [hbound, hlast, and_assoc]

/-- What the checks of the keys and values of a node decide. -/
structure AuditedKeys (cmp : K → K → Ordering) (t : Nat) (atRoot : Bool) (lower upper : Option K)
    (keys : List K) (values : List V) : Prop where
  most : keys.length ≤ 2 * t - 1
  least : atRoot = true ∨ t - 1 ≤ keys.length
  paired : keys.length = values.length
  fenced : Fenced cmp lower upper keys

/-- The last key is compared with the separator above the node, if there are both. -/
theorem decides_auditLast {keys : List K} :
    Decides (match (upper, keys.getLast?) with
      | (some upper, some last) => expectBelow (.ofFn cmp) last upper (.notBelow last upper)
      | _ => pure () : Audit K V Unit) fun _ =>
        ∀ last ∈ keys.getLast?, ∀ bound ∈ upper, cmp last bound = .lt := by
  cases upper with
  | none => exact decides_pure (by simp)
  | some upper =>
    cases keys.getLast? with
    | none => exact decides_pure (by simp)
    | some last => simpa using decides_expectBelow

theorem decides_auditKeys {keys : List K} {values : List V} (ht : 2 ≤ t)
    (hroot : atRoot = true → lower = none ∧ upper = none) :
    Decides (auditKeys (.ofFn cmp) t atRoot depth lower upper keys values) fun _ =>
      AuditedKeys cmp t atRoot lower upper keys values := by
  unfold auditKeys
  refine decides_bind decides_expect (fun _ hmost => ?_) fun _ h => ⟨(), by simpa using h.most⟩
  refine decides_bind decides_expect (fun _ hleast => ?_) fun _ h => ⟨(), by simpa using h.least⟩
  refine decides_bind decides_expect (fun _ hpaired => ?_) fun _ h => ⟨(), by simpa using h.paired⟩
  have hmost' : keys.length ≤ 2 * t - 1 := by simpa using hmost
  have hleast' : atRoot = true ∨ t - 1 ≤ keys.length := by simpa using hleast
  have hpaired' : keys.length = values.length := by simpa using hpaired
  -- a node without keys is a root, which has no bounds
  have hbare : keys = [] → lower = none ∧ upper = none := by
    rintro rfl
    refine hroot (hleast'.resolve_right ?_)
    rw [List.length_nil]
    omega
  have haudited : AuditedKeys cmp t atRoot lower upper keys values ↔ Fenced cmp lower upper keys :=
    ⟨AuditedKeys.fenced, fun hfenced => ⟨hmost', hleast', hpaired', hfenced⟩⟩
  simp only [haudited, fenced_iff hbare]
  refine decides_bind decides_auditOrder (fun _ hchain => ?_) fun _ h => ⟨(), h.1⟩
  simp only [hchain, true_and]
  cases lower with
  | none => exact decides_congr (by simp) decides_auditLast
  | some lower =>
    cases keys.head? with
    | none => exact decides_congr (by simp) decides_auditLast
    | some first =>
      refine decides_bind decides_expectBelow (fun _ hlt => ?_) fun _ h => ⟨(), by simpa using h.1⟩
      exact decides_congr (by simp [hlt]) decides_auditLast

theorem decides_auditDepth {keys : List K} :
    Decides (auditDepth depth leafDepth keys : Audit K V Nat) fun found =>
      found = depth ∧ (leafDepth = none ∨ leafDepth = some depth) := by
  cases leafDepth with
  | none => exact decides_pure ⟨rfl, .inl rfl⟩
  | some expected =>
    refine decides_bind decides_expect (fun _ heq => ?_) fun _ h => ⟨(), ?_⟩
    · obtain rfl : depth = expected := by simpa using heq
      exact decides_pure ⟨rfl, .inr rfl⟩
    · obtain rfl : expected = depth := by simpa using h.2
      exact beq_self_eq_true expected

/-! ## Subtrees -/

/-- What the audit of a subtree decides: whether it is well-formed, with keys that ascend between
the bounds, and whether its leaves are as deep as those before. Its result is the number of keys and
the depth of the leaves. -/
def Node.Audited (cmp : K → K → Ordering) (t : Nat) (atRoot : Bool) (depth : Nat)
    (leafDepth : Option Nat) (lower upper : Option K) (node : Node K V)
    (found : Nat × Option Nat) : Prop :=
  ∃ levels deepest, depth + levels = deepest + 1 ∧
    (leafDepth = none ∨ leafDepth = some deepest) ∧
    found = (node.toList.length, some deepest) ∧ Formed t levels node ∧
    (atRoot = true ∨ t - 1 ≤ node.keys.length) ∧ (levels = 1 ∨ 1 ≤ node.keys.length) ∧
    Fenced cmp lower upper (node.toList.map Prod.fst)

/-- The same for siblings and the entries between them. -/
def AuditedIn (cmp : K → K → Ordering) (t depth : Nat) (leafDepth : Option Nat)
    (lower upper : Option K) (children : List (Node K V)) (keys : List K) (values : List V)
    (found : Nat × Option Nat) : Prop :=
  ∃ levels deepest, depth + levels = deepest + 1 ∧
    (leafDepth = none ∨ leafDepth = some deepest) ∧
    found = ((children.map fun child => child.toList.length).sum, some deepest) ∧
    (∀ child ∈ children, Stout t levels child) ∧
    Fenced cmp lower upper ((Node.weave children keys values).map Prod.fst)

/-- Below a root, the least number of keys is not zero. -/
theorem audited_iff_stout (ht : 2 ≤ t) {found : Nat × Option Nat} :
    node.Audited cmp t false depth leafDepth lower upper found ↔ ∃ levels deepest,
      depth + levels = deepest + 1 ∧ (leafDepth = none ∨ leafDepth = some deepest) ∧
      found = (node.toList.length, some deepest) ∧ Stout t levels node ∧
      Fenced cmp lower upper (node.toList.map Prod.fst) := by
  constructor
  · rintro ⟨levels, deepest, hdepth, hseen, hfound, hformed, hleast, -, hfenced⟩
    exact ⟨levels, deepest, hdepth, hseen, hfound, ⟨hformed, by simpa using hleast⟩, hfenced⟩
  · rintro ⟨levels, deepest, hdepth, hseen, hfound, ⟨hformed, hleast⟩, hfenced⟩
    exact ⟨levels, deepest, hdepth, hseen, hfound, hformed, .inr hleast, .inr (by omega), hfenced⟩

/-- There is only one result that the audit of a subtree can have. -/
theorem Node.Audited.eq {found found' : Nat × Option Nat}
    (h : node.Audited cmp t atRoot depth leafDepth lower upper found)
    (h' : node.Audited cmp t atRoot depth leafDepth lower upper found') : found' = found := by
  obtain ⟨levels, deepest, hdepth, -, rfl, hformed, -⟩ := h
  obtain ⟨levels', deepest', hdepth', -, rfl, hformed', -⟩ := h'
  obtain rfl : levels = levels' := hformed.levels_eq.symm.trans hformed'.levels_eq
  obtain rfl : deepest = deepest' := by omega
  rfl

/-- The first sibling ends at the first separator, and the others begin there. They are as deep as
the first one. -/
theorem auditedIn_cons (ht : 2 ≤ t) {child : Node K V} {rest : List (Node K V)} {key : K}
    {keys : List K} {value : V} {values : List V} {found : Nat × Option Nat} :
    AuditedIn cmp t depth leafDepth lower upper (child :: rest) (key :: keys) (value :: values)
      found ↔ ∃ count others seen last,
        child.Audited cmp t false depth leafDepth lower (some key) (count, seen) ∧
        AuditedIn cmp t depth seen (some key) upper rest keys values (others, last) ∧
        found = (count + others, last) := by
  have hentries : (Node.weave (child :: rest) (key :: keys) (value :: values)).map Prod.fst =
      child.toList.map Prod.fst ++ key :: (Node.weave rest keys values).map Prod.fst := by
    simp [Node.weave]
  simp only [audited_iff_stout ht, AuditedIn, hentries, fenced_append_cons]
  constructor
  · rintro ⟨levels, deepest, hdepth, hseen, rfl, hstout, hfirst, hothers⟩
    exact ⟨_, _, some deepest, some deepest,
      ⟨levels, deepest, hdepth, hseen, rfl, hstout child List.mem_cons_self, hfirst⟩,
      ⟨levels, deepest, hdepth, .inr rfl, rfl,
        fun other hmem => hstout other (List.mem_cons_of_mem _ hmem), hothers⟩, by simp⟩
  · rintro ⟨count, others, seen, last, ⟨levels, deepest, hdepth, hseen, hfound, hstout, hfirst⟩,
      ⟨levels', deepest', hdepth', hseen', hfound', hstout', hothers⟩, rfl⟩
    obtain ⟨rfl, rfl⟩ := Prod.mk.inj hfound
    obtain ⟨rfl, rfl⟩ := Prod.mk.inj hfound'
    obtain rfl : deepest = deepest' := by simpa using hseen'
    obtain rfl : levels = levels' := by omega
    refine ⟨levels, deepest, hdepth, hseen, by simp, ?_, hfirst, hothers⟩
    intro other hmem
    rcases List.mem_cons.mp hmem with rfl | hmem
    · exact hstout
    · exact hstout' other hmem

/-- The audit of siblings, by induction on the list of them. -/
theorem decides_auditIn {children : List (Node K V)} {keys : List K} {values : List V}
    (ht : 2 ≤ t) (haudit : ∀ child ∈ children, ∀ leafDepth lower upper,
      Decides (child.audit (.ofFn cmp) t false depth leafDepth lower upper)
        (child.Audited cmp t false depth leafDepth lower upper))
    (hfan : children.length = keys.length + 1) (hpaired : keys.length = values.length) :
    Decides (Node.auditIn (.ofFn cmp) t depth leafDepth lower upper children keys)
      (AuditedIn cmp t depth leafDepth lower upper children keys values) := by
  induction children generalizing leafDepth lower keys values with
  | nil => simp at hfan
  | cons child rest ih =>
    have hfirst := haudit child List.mem_cons_self leafDepth lower (keys.head?.or upper)
    rw [Node.auditIn]
    cases keys with
    | nil =>
      obtain rfl : rest = [] := List.eq_nil_of_length_eq_zero (by simpa using hfan)
      obtain rfl : values = [] := List.eq_nil_of_length_eq_zero hpaired.symm
      have hsame : ∀ found, child.Audited cmp t false depth leafDepth lower upper found ↔
          AuditedIn cmp t depth leafDepth lower upper [child] [] [] found := by
        intro found
        rw [audited_iff_stout ht]
        simp [AuditedIn, Node.weave]
      refine decides_bind hfirst ?_ fun found hfound => ⟨found, (hsame found).mpr hfound⟩
      rintro ⟨count, leafDepth⟩ hfound
      dsimp only
      rw [Node.auditIn, pure_bind]
      exact decides_pure ((hsame _).mp hfound)
    | cons key keys =>
      obtain ⟨value, values, rfl⟩ := List.exists_cons_of_length_eq_add_one hpaired.symm
      have hothers : ∀ seen, Decides _ _ := fun seen =>
        @ih seen (some key) keys values
          (fun other hmem => haudit other (List.mem_cons_of_mem _ hmem)) (by simpa using hfan)
          (by simpa using hpaired)
      refine decides_bind hfirst ?_ ?_
      · rintro ⟨count, seen⟩ hchild
        refine decides_bind (hothers seen) ?_ ?_
        · rintro ⟨others, last⟩ hrest
          exact decides_pure
            ((auditedIn_cons ht).mpr ⟨count, others, seen, last, hchild, hrest, rfl⟩)
        · intro found hfound
          obtain ⟨count', others, seen', last, hchild', hrest, -⟩ := (auditedIn_cons ht).mp hfound
          obtain ⟨-, rfl⟩ := Prod.mk.inj (hchild.eq hchild')
          exact ⟨_, hrest⟩
      · intro found hfound
        obtain ⟨count, others, seen, last, hchild, -⟩ := (auditedIn_cons ht).mp hfound
        exact ⟨_, hchild⟩

/-- What is decided of a node as a whole includes what is decided of its keys and values. -/
theorem Node.Audited.auditedKeys [Std.TransCmp cmp] {keys : List K} {values : List V}
    {children : List (Node K V)} {found : Nat × Option Nat}
    (h : (⟨keys, values, children⟩ : Node K V).Audited cmp t atRoot depth leafDepth lower upper
      found) : AuditedKeys cmp t atRoot lower upper keys values := by
  obtain ⟨levels, deepest, -, -, -, hformed, hleast, -, hfenced⟩ := h
  exact ⟨hformed.most, hleast, hformed.paired, hfenced.sublist hformed.keys_sublist⟩

theorem audited_leaf {keys : List K} {values : List V} {found : Nat × Option Nat}
    (hkeys : AuditedKeys cmp t atRoot lower upper keys values) :
    (⟨keys, values, []⟩ : Node K V).Audited cmp t atRoot depth leafDepth lower upper found ↔
      (leafDepth = none ∨ leafDepth = some depth) ∧ found = (keys.length, some depth) := by
  obtain ⟨hmost, hleast, hpaired, hfenced⟩ := hkeys
  have hformed : Formed t 1 (⟨keys, values, []⟩ : Node K V) := .leaf hpaired hmost
  have hlength : (⟨keys, values, []⟩ : Node K V).toList.length = keys.length :=
    hformed.length_toList
  constructor
  · rintro ⟨levels, deepest, hdepth, hseen, rfl, hformed', -⟩
    obtain rfl : 1 = levels := hformed.levels_eq.symm.trans hformed'.levels_eq
    obtain rfl : depth = deepest := by omega
    exact ⟨hseen, by rw [hlength]⟩
  · rintro ⟨hseen, rfl⟩
    refine ⟨1, depth, rfl, hseen, by rw [hlength], hformed, hleast, .inl rfl, ?_⟩
    have hentries : (⟨keys, values, []⟩ : Node K V).toList.map Prod.fst = keys :=
      List.map_fst_zip (Nat.le_of_eq hpaired)
    rwa [hentries]

theorem audited_inner {keys : List K} {values : List V} {children : List (Node K V)}
    {found : Nat × Option Nat} (hinner : children ≠ [])
    (hkeys : AuditedKeys cmp t atRoot lower upper keys values) :
    (⟨keys, values, children⟩ : Node K V).Audited cmp t atRoot depth leafDepth lower upper found ↔
      children.length = keys.length + 1 ∧ 1 ≤ keys.length ∧ ∃ count last,
        AuditedIn cmp t (depth + 1) leafDepth lower upper children keys values (count, last) ∧
        found = (keys.length + count, last) := by
  obtain ⟨hmost, hleast, hpaired, -⟩ := hkeys
  constructor
  · rintro ⟨levels, deepest, hdepth, hseen, rfl, hformed, -, hrooted, hfenced⟩
    have hlength := hformed.length_toList
    cases hformed with
    | leaf _ _ => exact absurd rfl hinner
    | @inner levels _ _ _ _ _ hfan hstout hlower =>
      obtain ⟨child, hmem⟩ := List.exists_mem_of_ne_nil children hinner
      have hhigh : levels + 1 ≠ 1 := by
        rintro hone
        exact Formed.not_zero (Nat.succ.inj hone ▸ hlower child hmem)
      exact ⟨hfan, hrooted.resolve_left hhigh, _, _, ⟨levels, deepest, by omega, hseen, rfl,
        fun child hmem => ⟨hlower child hmem, hstout child hmem⟩, hfenced⟩, by rw [hlength]⟩
  · rintro ⟨hfan, hsome, count, last,
      ⟨levels, deepest, hdepth, hseen, hfound, hstout, hfenced⟩, rfl⟩
    obtain ⟨rfl, rfl⟩ := Prod.mk.inj hfound
    have hformed : Formed t (levels + 1) (⟨keys, values, children⟩ : Node K V) :=
      .inner hpaired hmost hfan (fun child hmem => (hstout child hmem).least)
        fun child hmem => (hstout child hmem).formed
    exact ⟨levels + 1, deepest, by omega, hseen, by rw [hformed.length_toList], hformed, hleast,
      .inr hsome, hfenced⟩

/-- What holds of a node if it holds of its children, holds of all nodes. -/
theorem Node.induction {P : Node K V → Prop}
    (h : ∀ keys values children, (∀ child ∈ children, P child) → P ⟨keys, values, children⟩) :
    ∀ node, P node
  | ⟨keys, values, children⟩ => h keys values children fun child _ => Node.induction h child

/-- The audit of a subtree, by induction on it. -/
theorem decides_nodeAudit [Std.TransCmp cmp] (ht : 2 ≤ t)
    (hroot : atRoot = true → lower = none ∧ upper = none) :
    Decides (node.audit (.ofFn cmp) t atRoot depth leafDepth lower upper)
      (node.Audited cmp t atRoot depth leafDepth lower upper) := by
  induction node using Node.induction generalizing atRoot depth leafDepth lower upper with
  | h keys values children ih =>
    have hbelow : ∀ child ∈ children, ∀ leafDepth lower upper,
        Decides (child.audit (.ofFn cmp) t false (depth + 1) leafDepth lower upper)
          (child.Audited cmp t false (depth + 1) leafDepth lower upper) :=
      fun child hmem _ _ _ => ih child hmem (by simp)
    rw [Node.audit]
    refine decides_bind (decides_auditKeys ht hroot) (fun _ hkeys => ?_)
      fun found hfound => ⟨(), hfound.auditedKeys⟩
    by_cases hleaf : children = []
    · subst hleaf
      refine decides_bind decides_auditDepth ?_ ?_
      · rintro _ ⟨rfl, hseen⟩
        exact decides_pure ((audited_leaf hkeys).mpr ⟨hseen, rfl⟩)
      · intro found hfound
        exact ⟨depth, rfl, ((audited_leaf hkeys).mp hfound).1⟩
    · rw [if_neg (by simpa using hleaf)]
      have hinner := fun found => @audited_inner K V cmp t depth atRoot leafDepth lower upper keys
        values children found hleaf hkeys
      refine decides_bind decides_expect (fun _ hfan => ?_) fun found hfound =>
        ⟨(), by simpa using ((hinner found).mp hfound).1⟩
      refine decides_bind decides_expect (fun _ hsome => ?_) fun found hfound =>
        ⟨(), by simp [((hinner found).mp hfound).2.1]⟩
      have hfan' : children.length = keys.length + 1 := by simpa using hfan
      have hsome' : 1 ≤ keys.length := by
        cases atRoot with
        | false => exact Nat.le_trans (by omega) (hkeys.least.resolve_left Bool.false_ne_true)
        | true => simpa using hsome
      refine decides_bind (decides_auditIn ht hbelow hfan' hkeys.paired) ?_ ?_
      · rintro ⟨count, last⟩ hchildren
        exact decides_pure ((hinner _).mpr ⟨hfan', hsome', count, last, hchildren, rfl⟩)
      · intro found hfound
        obtain ⟨-, -, count, last, hchildren, -⟩ := (hinner found).mp hfound
        exact ⟨_, hchildren⟩

/-! ## Trees -/

/-- The audit of a tree decides whether it is in good order, with keys that ascend. -/
theorem decides_treeAudit [Std.TransCmp cmp] {tree : Tree K V} (ht : 2 ≤ t) :
    Decides (tree.audit (.ofFn cmp) t : Audit K V Unit) fun _ =>
      (∃ levels, tree.Sound t levels) ∧ Ascending cmp tree.root.toList := by
  have hroot : Decides (tree.root.audit (.ofFn cmp) t true 0 none none none) _ :=
    decides_nodeAudit ht fun _ => ⟨rfl, rfl⟩
  refine decides_bind hroot ?_ ?_
  · rintro ⟨count, deepest⟩ ⟨levels, deepest, -, -, hfound, hformed, -, hrooted, hfenced⟩
    obtain ⟨rfl, rfl⟩ := Prod.mk.inj hfound
    refine decides_congr (fun _ => ?_) decides_expect
    rw [beq_iff_eq]
    constructor
    · exact fun hsize => ⟨⟨levels, hformed, hrooted, hsize.symm⟩, fenced_none.mp hfenced⟩
    · rintro ⟨⟨_, hsound⟩, -⟩
      exact hsound.size_eq.symm
  · rintro _ ⟨⟨levels, hformed, hrooted, -⟩, hasc⟩
    have hpos : levels ≠ 0 := fun hzero => Formed.not_zero (hzero ▸ hformed)
    obtain ⟨deepest, rfl⟩ := Nat.exists_eq_succ_of_ne_zero hpos
    exact ⟨_, deepest + 1, deepest, Nat.zero_add _, .inl rfl, rfl, hformed, .inl rfl, hrooted,
      fenced_none.mpr hasc⟩

end BTree

namespace BTreeMap

open BTree

variable {K V : Type}

/-- An audit of a map of any degree, with any tree and any number for its entries, passes if and
only if the map is well-formed and its keys ascend. Otherwise it finds a violation. -/
theorem audit_ok_iff (cmp : K → K → Ordering) [Std.TransCmp cmp] (degree : Degree)
    (locator : Locator K V) (version : Nat) (tree : Tree K V) (journal : Journal K V) :
    ∃ outcome later,
      (⟨.ofFn cmp, degree, locator, ⟨version, tree⟩⟩ : BTreeMap K V).audit journal =
        .ok (outcome, later) ∧
      (outcome = .ok () ↔
        (⟨.ofFn cmp, degree, locator, ⟨version, tree⟩⟩ : BTreeMap K V).WellFormed ∧
          Ascending cmp tree.root.toList) := by
  have hdecides : Decides (tree.audit (.ofFn cmp) degree.val : Audit K V Unit) _ :=
    decides_treeAudit degree.least_le
  obtain ⟨outcome, later, hrun, houtcome⟩ := (hdecides journal).eq_ok
  refine ⟨outcome, later, hrun, ?_⟩
  cases outcome with
  | ok _ => exact ⟨fun _ => houtcome, fun _ => rfl⟩
  | error violation => exact ⟨nofun, fun hgood => absurd hgood (houtcome ())⟩

/-- A tree of degree two and three levels, with one key that is to lie between 5 and 10. -/
def threeLevels (key : Nat) : Tree Nat Nat where
  root := ⟨[10], [0],
    [⟨[5], [0], [⟨[2], [0], []⟩, ⟨[key], [0], []⟩]⟩,
      ⟨[15], [0], [⟨[11], [0], []⟩, ⟨[20], [0], []⟩]⟩]⟩
  size := 7

/-- An audit finds out that 12 is on the wrong side of the root, where 7 is not. -/
theorem audit_ok_iff_threeLevels :
    ((⟨.ofFn compare, .least, .bisect, ⟨1, threeLevels 7⟩⟩ : BTreeMap Nat Nat).WellFormed ∧
      Ascending compare (threeLevels 7).root.toList) ∧
    ¬ ((⟨.ofFn compare, .least, .bisect, ⟨1, threeLevels 12⟩⟩ : BTreeMap Nat Nat).WellFormed ∧
      Ascending compare (threeLevels 12).root.toList) := by
  have hright : ((⟨.ofFn compare, .least, .bisect, ⟨1, threeLevels 7⟩⟩ : BTreeMap Nat Nat).audit
      {}).toOption.map (fun outcome => outcome.1.toOption) = some (some ()) := by decide +kernel
  have hwrong : ((⟨.ofFn compare, .least, .bisect, ⟨1, threeLevels 12⟩⟩ : BTreeMap Nat Nat).audit
      {}).toOption.map (fun outcome => outcome.1.toOption) = some none := by decide +kernel
  constructor
  · obtain ⟨outcome, later, hrun, hverdict⟩ :=
      audit_ok_iff compare .least .bisect 1 (threeLevels 7) ({} : Journal Nat Nat)
    rw [hrun] at hright
    cases outcome with
    | ok _ => exact hverdict.mp rfl
    | error violation => cases hright
  · obtain ⟨outcome, later, hrun, hverdict⟩ :=
      audit_ok_iff compare .least .bisect 1 (threeLevels 12) ({} : Journal Nat Nat)
    rw [hrun] at hwrong
    cases outcome with
    | ok _ => cases hwrong
    | error violation => exact fun hgood => nomatch hverdict.mpr hgood

end BTreeMap

end OrderedMaps
