import OrderedMaps.Proofs.AvlMap.Height
import OrderedMaps.Proofs.RangeLaw

/-!
# Range scans consult only what they must

A range scan compares each node that it visits with both bounds, and leaves out the subtrees that
lie outside of the range. The nodes that it visits in vain lie on one path down from the root to the
first node in the range, and on one path on each side from there.

* `Reference.outside`: the entries that are not in a range.
* `Avl.Shape.visited`: the entries that a scan visits, with `Avl.ends_rangeFrom_visited`.
* `Avl.Shape.between_visited`, `Avl.Shape.visited_subperm`: all entries in the range are visited,
  and no entry is visited twice.
* `Avl.Shape.strays`: the number of entries visited in vain, with `Avl.Shape.strays_le`.
* `AvlMap.scan_frugal`: the comparisons of a range scan.
-/

namespace OrderedMaps

variable {K V : Type} {cmp : K → K → Ordering} {low high : K}

/-- The entries below `low`, and those from `high` on. -/
def Reference.outside (cmp : K → K → Ordering) (low high : K) (entries : List (K × V)) :
    List (K × V) :=
  entries.filter fun e => !((cmp e.1 low).isGE && (cmp e.1 high).isLT)

theorem Reference.length_between_add_outside (cmp : K → K → Ordering) (low high : K)
    (entries : List (K × V)) :
    (Reference.between cmp low high entries).length +
      (Reference.outside cmp low high entries).length = entries.length :=
  (List.length_eq_length_filter_add _).symm

/-- The journal after keys were compared with both bounds, one key after the other. -/
def Journal.scanned (journal : Journal K V) (low high : K) (keys : List K) : Journal K V :=
  ⟨journal.calls ++ (keys.flatMap fun key => [(key, low), (key, high)]).toArray, journal.events,
    journal.shown⟩

@[simp] theorem Journal.scanned_nil (journal : Journal K V) (low high : K) :
    journal.scanned low high [] = journal := by
  simp [scanned]

theorem Journal.size_calls_scanned (journal : Journal K V) (low high : K) (keys : List K) :
    (journal.scanned low high keys).calls.size = journal.calls.size + 2 * keys.length := by
  simp [scanned, Nat.mul_comm]

theorem Journal.scanned_asked (journal : Journal K V) (low high key : K) (keys more : List K) :
    (((journal.asked key low).asked key high).scanned low high keys).scanned low high more =
      journal.scanned low high (key :: (keys ++ more)) := by
  simp [scanned, asked]

/-- Keys that ascend are different. -/
theorem Ascending.nodup_keys [Std.ReflCmp cmp] {entries : List (K × V)}
    (h : Ascending cmp entries) : (entries.map Prod.fst).Nodup := by
  rw [List.Nodup, List.pairwise_map]
  refine h.imp fun {a b} hlt heq => ?_
  rw [heq] at hlt
  exact absurd (hlt.symm.trans Std.ReflCmp.compare_self) (by decide)

namespace Avl

namespace Shape

/-! ## What a scan visits -/

/-- The entries that a scan visits, each before those of the subtrees below it. -/
def visited (cmp : K → K → Ordering) (low high : K) : Shape K V → List (K × V)
  | nil => []
  | node l x _ r =>
      x.entry ::
        ((if (cmp x.key low).isGT then l.visited cmp low high else []) ++
          if (cmp x.key high).isLT then r.visited cmp low high else [])

variable {t l r : Shape K V} {x : Cell K V} {height : Int} {tree : Tree K V} {journal : Journal K V}
  {parent : Option Slot}

/-- A subtree that is left out is not compared with the bounds. -/
theorem ends_leaveOut {run : Run K V (List (K × V))} {entries : List (K × V)} {p : Prop}
    [Decidable p]
    (hrun : Ends run journal fun _ after =>
      after = journal.scanned low high (entries.map Prod.fst)) :
    Ends (if p then run else pure []) journal fun _ after =>
      after = journal.scanned low high ((if p then entries else []).map Prod.fst) := by
  by_cases hp : p
  · rw [if_pos hp, if_pos hp]
    exact hrun
  · rw [if_neg hp, if_neg hp]
    exact (Journal.scanned_nil ..).symm

/-- Under a pure comparator, a scan compares the key of each entry that it visits with both bounds,
by induction on the number of steps left. -/
theorem ends_rangeFrom_visited {steps : Nat} (hstored : t.Stored tree.pool parent)
    (hsteps : t.levels ≤ steps) :
    Ends (tree.rangeFrom (.ofFn cmp) low high steps t.root?) journal fun _ after =>
      after = journal.scanned low high ((t.visited cmp low high).map Prod.fst) := by
  induction steps generalizing t parent journal with
  | zero =>
    cases t with
    | nil => exact (Journal.scanned_nil ..).symm
    | node l x h r => exact absurd hsteps (Nat.not_succ_le_zero _)
  | succ steps ih =>
    cases t with
    | nil => exact (Journal.scanned_nil ..).symm
    | node l x h r =>
      obtain ⟨hnode, hl, hr⟩ := hstored
      rw [levels] at hsteps
      rw [root?, Tree.rangeFrom, ends_bind, ends_liftM]
      refine ⟨_, node_of_get? hnode, ?_⟩
      rw [ends_bind, ends_ask, ends_bind, ends_ask, Comparator.answer_ofFn, Comparator.answer_ofFn]
      refine ends_ite_bind.mpr (ends_mono (ends_leaveOut (ih hl (by omega))) ?_)
      rintro before _ rfl
      refine ends_ite_bind.mpr (ends_mono (ends_leaveOut (ih hr (by omega))) ?_)
      rintro after _ rfl
      rw [ends_pure]
      simp only [Cell.node]
      rw [Journal.scanned_asked, visited, List.map_cons, List.map_append]
      rfl

/-- No entry is visited twice. -/
theorem visited_subperm (cmp : K → K → Ordering) (low high : K) (t : Shape K V) :
    (t.visited cmp low high).Subperm t.toList := by
  induction t with
  | nil => exact List.Subperm.refl _
  | node l x h r ihl ihr =>
    have hleave : ∀ {subtree : Shape K V} {p : Prop} [Decidable p],
        (subtree.visited cmp low high).Subperm subtree.toList →
        (if p then subtree.visited cmp low high else []).Subperm subtree.toList := by
      intro subtree p _ hvisit
      split
      · exact hvisit
      · exact List.nil_subperm
    rw [toList_node]
    exact ((List.subperm_cons x.entry).mpr ((hleave ihl).append (hleave ihr))).trans
      List.perm_middle.symm.subperm

theorem nodup_keys_visited [Std.ReflCmp cmp] (hasc : Ascending cmp t.toList) :
    ((t.visited cmp low high).map Prod.fst).Nodup := by
  obtain ⟨_, hperm, hsub⟩ := visited_subperm cmp low high t
  exact (hperm.map _).nodup_iff.mp (hasc.nodup_keys.sublist (hsub.map _))

/-- It makes no difference for the range whether an entry comes before or between others. -/
theorem between_perm {e : K × V} {left right entries more : List (K × V)}
    (hleft : (Reference.between cmp low high left).Perm (Reference.between cmp low high entries))
    (hright : (Reference.between cmp low high right).Perm (Reference.between cmp low high more)) :
    (Reference.between cmp low high (e :: (left ++ right))).Perm
      (Reference.between cmp low high (entries ++ e :: more)) := by
  refine (List.perm_middle.symm.filter _).trans ?_
  rw [List.append_cons, List.append_cons entries e more]
  change (Reference.between cmp low high _).Perm _
  simp only [between_append]
  exact (hleft.append_right _).append hright

/-- A subtree that is left out has no entry in the range. -/
theorem between_leaveOut {entries visited : List (K × V)} {p : Prop} [Decidable p]
    (hvisit : (Reference.between cmp low high visited).Perm
      (Reference.between cmp low high entries))
    (hskip : ¬ p → Reference.between cmp low high entries = []) :
    (Reference.between cmp low high (if p then visited else [])).Perm
      (Reference.between cmp low high entries) := by
  by_cases hp : p
  · rw [if_pos hp]
    exact hvisit
  · rw [if_neg hp, hskip hp]
    exact List.Perm.refl _

/-- All entries in the range are visited. -/
theorem between_visited [Std.TransCmp cmp] (hasc : Ascending cmp t.toList) :
    (Reference.between cmp low high (t.visited cmp low high)).Perm
      (Reference.between cmp low high t.toList) := by
  induction t with
  | nil => exact List.Perm.refl _
  | node l x h r ihl ihr =>
    obtain ⟨hl, hr, hbelow, habove⟩ := ascending_node hasc
    have hleft := between_leaveOut (ihl hl) (between_eq_nil_of_low hbelow)
    have hright := between_leaveOut (ihr hr) (between_eq_nil_of_high habove)
    rw [visited, toList_node]
    exact between_perm hleft hright

/-! ## What a scan visits in vain -/

section Bounds

variable [Std.TransCmp cmp] {a b : K}

/-- A key below one that is below the upper bound. -/
theorem isLT_of_lt (hab : cmp a b = .lt) (hb : (cmp b high).isLT) : (cmp a high).isLT :=
  Ordering.isLT_iff_eq_lt.mpr (Std.TransCmp.lt_trans hab (Ordering.isLT_iff_eq_lt.mp hb))

/-- A key above one that is not below the lower bound. -/
theorem isGE_of_lt (hab : cmp a b = .lt) (ha : (cmp a low).isGE) : (cmp b low).isGE :=
  Ordering.isGE_of_eq_gt (Std.TransCmp.gt_of_gt_of_isGE (Std.OrientedCmp.gt_of_lt hab) ha)

end Bounds

/-- A key below the lower bound is not above it. -/
theorem not_isGT_of_not_isGE {order : Ordering} (h : ¬ order.isGE) : ¬ order.isGT := by
  revert h
  cases order <;> simp

/-- The number of visited entries that are not in the range. -/
def strays (cmp : K → K → Ordering) (low high : K) (t : Shape K V) : Nat :=
  (Reference.outside cmp low high (t.visited cmp low high)).length

theorem strays_node : (node l x height r).strays cmp low high =
    (if (cmp x.key low).isGE ∧ (cmp x.key high).isLT then 0 else 1) +
      ((if (cmp x.key low).isGT then l.strays cmp low high else 0) +
        if (cmp x.key high).isLT then r.strays cmp low high else 0) := by
  have hout : ∀ {subtree : Shape K V} {p : Prop} [Decidable p],
      (Reference.outside cmp low high (if p then subtree.visited cmp low high else [])).length =
        if p then subtree.strays cmp low high else 0 := by
    intro subtree p _
    split <;> rfl
  have hkept : (!((cmp x.entry.1 low).isGE && (cmp x.entry.1 high).isLT)) = true ↔
      ¬ ((cmp x.key low).isGE ∧ (cmp x.key high).isLT) := by
    rw [Bool.not_eq_true', ← Bool.not_eq_true, Bool.and_eq_true]
    rfl
  rw [strays, visited, Reference.outside, List.filter_cons, List.filter_append, ← hout, ← hout]
  by_cases hin : (cmp x.key low).isGE ∧ (cmp x.key high).isLT
  · rw [if_pos hin, if_neg fun h => hkept.mp h hin, List.length_append, Nat.zero_add]
    rfl
  · rw [if_neg hin, if_pos (hkept.mpr hin), List.length_cons, List.length_append, Nat.add_comm]
    rfl

/-- A scan of entries in the range visits no other. -/
theorem strays_eq_zero (h : ∀ e ∈ t.toList, (cmp e.1 low).isGE ∧ (cmp e.1 high).isLT) :
    t.strays cmp low high = 0 := by
  rw [strays, Reference.outside, List.length_eq_zero_iff, List.filter_eq_nil_iff]
  intro e he
  simp [h e ((visited_subperm cmp low high t).subset he)]

/-- Above the lower bound, a scan visits others on one path down at most. -/
theorem strays_le_of_low [Std.TransCmp cmp] (hasc : Ascending cmp t.toList)
    (hlow : ∀ e ∈ t.toList, (cmp e.1 low).isGE) : t.strays cmp low high ≤ t.levels := by
  induction t with
  | nil => exact Nat.le_refl 0
  | node l x h r ihl ihr =>
    obtain ⟨hl, hr, hbelow, -⟩ := ascending_node hasc
    rw [toList_node, List.forall_mem_append, List.forall_mem_cons] at hlow
    obtain ⟨hlowl, hlowx, hlowr⟩ := hlow
    have hleft := ihl hl hlowl
    have hright := ihr hr hlowr
    rw [strays_node, levels]
    by_cases hhigh : (cmp x.key high).isLT
    · have hnone : l.strays cmp low high = 0 := strays_eq_zero fun e he =>
        ⟨hlowl e he, isLT_of_lt (hbelow e he) hhigh⟩
      rw [if_pos ⟨hlowx, hhigh⟩, if_pos hhigh, hnone, ite_self]
      omega
    · rw [if_neg hhigh]
      split <;> split <;> omega

/-- Below the upper bound, a scan visits others on one path down at most. -/
theorem strays_le_of_high [Std.TransCmp cmp] (hasc : Ascending cmp t.toList)
    (hhigh : ∀ e ∈ t.toList, (cmp e.1 high).isLT) : t.strays cmp low high ≤ t.levels := by
  induction t with
  | nil => exact Nat.le_refl 0
  | node l x h r ihl ihr =>
    obtain ⟨hl, hr, -, habove⟩ := ascending_node hasc
    rw [toList_node, List.forall_mem_append, List.forall_mem_cons] at hhigh
    obtain ⟨hhighl, hhighx, hhighr⟩ := hhigh
    have hleft := ihl hl hhighl
    have hright := ihr hr hhighr
    rw [strays_node, levels]
    by_cases hlow : (cmp x.key low).isGE
    · have hnone : r.strays cmp low high = 0 := strays_eq_zero fun e he =>
        ⟨isGE_of_lt (habove e he) hlow, hhighr e he⟩
      rw [if_pos ⟨hlow, hhighx⟩, hnone, ite_self]
      split <;> omega
    · rw [if_neg (not_isGT_of_not_isGE hlow)]
      split <;> split <;> omega

/-- What a scan visits in vain lies on one path down to the first node in the range, and on one path
on each side from there. -/
theorem strays_le [Std.TransCmp cmp] (hasc : Ascending cmp t.toList) :
    t.strays cmp low high ≤ 2 * t.levels - 1 := by
  induction t with
  | nil => exact Nat.le_refl 0
  | node l x h r ihl ihr =>
    obtain ⟨hl, hr, hbelow, habove⟩ := ascending_node hasc
    have hleft := ihl hl
    have hright := ihr hr
    rw [strays_node, levels]
    by_cases hhigh : (cmp x.key high).isLT
    · by_cases hlow : (cmp x.key low).isGE
      · -- from here on, each subtree has strays on one side only
        have hleft' : l.strays cmp low high ≤ l.levels := strays_le_of_high hl fun e he =>
          isLT_of_lt (hbelow e he) hhigh
        have hright' : r.strays cmp low high ≤ r.levels := strays_le_of_low hr fun e he =>
          isGE_of_lt (habove e he) hlow
        rw [if_pos ⟨hlow, hhigh⟩, if_pos hhigh]
        split <;> omega
      · rw [if_neg fun h => hlow h.1, if_neg (not_isGT_of_not_isGE hlow), if_pos hhigh]
        omega
    · rw [if_neg fun h => hhigh h.2, if_neg hhigh]
      split <;> omega

end Shape

end Avl

namespace AvlMap

open Avl Shape

variable {map : AvlMap K V} {t : Shape K V} {journal : Journal K V}

/-- A valid range is scanned from the root on. -/
theorem ends_range_visited (hcomparator : map.comparator = .ofFn cmp)
    (hspells : Spells map.tree map.version t) (hlt : cmp low high = .lt) :
    Ends (map.range low high) journal fun _ after => after =
      (journal.asked low high).scanned low high ((t.visited cmp low high).map Prod.fst) := by
  rw [range, hcomparator, ends_bind, ends_ask, Comparator.answer_ofFn, hlt,
    if_pos (show Ordering.lt.isLT from rfl), ends_bind, Tree.range, hspells.root_eq]
  exact ends_rangeFrom_visited hspells.placed.stored hspells.levels_le

/-- A range scan under a lawful order consults only what it must, for any two keys, whatever state
the map is in. If the bounds are in order, then the scan first compares them with each other, and
then each key that it visits with both of them. It visits all keys in the range and none twice, and
of the others one more than twice the height at most. If the bounds are not in order, then only they
are compared. -/
theorem scan_frugal (cmp : K → K → Ordering) [Std.TransCmp cmp] (map : AvlMap K V)
    (hmap : map.Reachable (.ofFn cmp)) (low high : K) (journal : Journal K V) :
    (cmp low high = .lt → map.size ≠ 0 →
      ∃ (height : Nat) (entries result visited : List (K × V)) (after : Journal K V),
        map.height = .ok ↑height ∧ map.toList = .ok entries ∧
        map.range low high journal = .ok (.ok result, after) ∧
        result = Reference.between cmp low high entries ∧
        after.calls.toList = journal.calls.toList ++
          (low, high) :: visited.flatMap (fun e => [(e.1, low), (e.1, high)]) ∧
        visited.Subperm entries ∧ (visited.map Prod.fst).Nodup ∧
        (Reference.between cmp low high visited).Perm result ∧
        (Reference.outside cmp low high visited).length ≤ 2 * height + 1 ∧
        after.calls.size ≤ journal.calls.size + (1 + 2 * (result.length + (2 * height + 1)))) ∧
    (cmp low high ≠ .lt →
      map.range low high journal = .ok (.error .invertedRange, journal.asked low high)) := by
  have hlaw : (Comparator.ofFn cmp).Follows cmp := ⟨inferInstance, fun _ _ _ => rfl⟩
  obtain ⟨hcomparator, _, ⟨t, hspells, rfl⟩, hasc⟩ := hmap.holds fun _ : True => hlaw
  have hasc := hasc trivial
  constructor
  · intro hlt hsize
    obtain ⟨_, after, hrun, rfl, rfl⟩ := (ends_and
      (ends_rangeOf (hcomparator ▸ hlaw) ⟨t, hspells, rfl⟩ hasc)
      (ends_range_visited hcomparator hspells hlt)).eq_ok
    rw [rangeOf, hlt, if_pos (show Ordering.lt.isLT from rfl)] at hrun
    have hlevels := hspells.sound.levels_eq
    have hlow := hspells.sound.neg_one_le
    have hpos : t.height ≠ -1 := (height_eq_neg_one_iff hspells).not.mpr hsize
    obtain ⟨n, hn⟩ := Int.eq_ofNat_of_zero_le (a := t.height) (by omega)
    have hvisited := visited_subperm cmp low high t
    have hbetween : (Reference.between cmp low high (t.visited cmp low high)).Perm
        (Reference.between cmp low high t.toList) := between_visited hasc
    have hstrays : (Reference.outside cmp low high (t.visited cmp low high)).length ≤ 2 * n + 1 :=
      (strays_le hasc).trans (by omega)
    refine ⟨n, t.toList, _, t.visited cmp low high, _, hn ▸ hspells.heightAt_root, hspells.toList_eq,
      hrun, rfl, ?_, hvisited, nodup_keys_visited hasc, hbetween, hstrays, ?_⟩
    · simp [Journal.scanned, Journal.asked, List.flatMap_map]
    · have hsplit := Reference.length_between_add_outside cmp low high (t.visited cmp low high)
      have hlength := hbetween.length_eq
      rw [Journal.size_calls_scanned, List.length_map, Journal.asked, Array.size_push]
      omega
  · intro hge
    have hrun : Ends (map.range low high) journal fun result after =>
        result = .error .invertedRange ∧ after = journal.asked low high := by
      rw [range, hcomparator, ends_bind, ends_ask, Comparator.answer_ofFn,
        if_neg (by simpa using hge)]
      exact ⟨rfl, rfl⟩
    obtain ⟨_, _, hrun, rfl, rfl⟩ := hrun.eq_ok
    exact hrun

/-- A scan of a map of seven keys. With the bounds the other way round, there is none. -/
theorem scan_frugal_eight :
    (∃ visited after, eightKeyAvlMap.range 3 6 {} = .ok (.ok [(3, 3), (4, 7)], after) ∧
      after.calls.toList = (3, 6) :: visited.flatMap (fun e => [(e.1, 3), (e.1, 6)]) ∧
      (Reference.between compare 3 6 visited).Perm [(3, 3), (4, 7)] ∧
      (Reference.outside compare 3 6 visited).length ≤ 7 ∧ after.calls.size ≤ 19) ∧
    eightKeyAvlMap.range 6 3 {} = .ok (.error .invertedRange, ⟨#[(6, 3)], #[], #[]⟩) := by
  have hheight : eightKeyAvlMap.height.toOption = some 3 := by decide +kernel
  have hentries : eightKeyAvlMap.toList.toOption =
      some [(1, 1), (2, 5), (3, 3), (4, 7), (7, 6), (8, 2), (9, 4)] := by decide +kernel
  obtain ⟨height, entries, result, visited, after, hheight', hentries', hrun, hresult, hcalls, -, -,
      hbetween, houtside, hsize⟩ :=
    (scan_frugal compare eightKeyAvlMap reachable_eightKeyAvlMap 3 6 {}).1 rfl (by decide +kernel)
  rw [hheight'] at hheight
  rw [hentries'] at hentries
  obtain rfl : height = 3 := by exact_mod_cast Option.some.inj hheight
  obtain rfl := Option.some.inj hentries
  obtain rfl : result = [(3, 3), (4, 7)] := hresult
  exact ⟨⟨visited, after, hrun, by simpa using hcalls, hbetween, houtside, by simpa using hsize⟩,
    (scan_frugal compare eightKeyAvlMap reachable_eightKeyAvlMap 6 3 {}).2 (by decide)⟩

end AvlMap

end OrderedMaps
