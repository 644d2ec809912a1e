import OrderedMaps.Proofs.Avl.Shape

/-!
# Repairs on the way back

Every node on the way back from an insertion or a removal is rebalanced, but few of them are
repaired. A repair after an insertion brings the subtree back to the height that it had, so that
there is nothing to mend further up. A repair after a removal is for the sake of a subtree that is
two levels lower than the node, so that the next one comes two levels up at the earliest.

* `Avl.IsRepair`: the steps of one repair.
* `Avl.Shape.mend`: rebalancing a node, seen from one side.
* `Avl.Shape.Grown`: what an insertion does to the height of a shape, and its repair, if there is
  one, with `Avl.Shape.Grown.mend` for one step up.
* `Avl.Shape.Repairs`: repairs that are no more than one for two levels, with
  `Avl.Shape.Repairs.mend` for one step up from a removal.
-/

namespace OrderedMaps.Avl

/-- The steps of one repair: a node is found to be too high on one side and sinks to the other. If
its child is itself higher on its inner side, then that child sinks first, and the node between the
two comes up. -/
inductive IsRepair : List Event → Prop
  | single (heavy : Side) (node pivot : Slot) :
      IsRepair [.unbalanced node heavy, .rotated heavy.flip node pivot]
  | double (heavy : Side) (node child pivot : Slot) :
      IsRepair [.unbalanced node heavy, .rotated heavy child pivot,
        .rotated heavy.flip node pivot]

/-- A repair is logged as one rotation or as two. -/
theorem IsRepair.length_lines_le {events : List Event} (h : IsRepair events) :
    (events.filterMap Event.line?).length ≤ 2 := by
  cases h with
  | single heavy node pivot => exact Nat.le_succ 1
  | double heavy node child pivot => exact Nat.le_refl 2

namespace Shape

variable {K V : Type} {side heavy : Side} {near near' far : Shape K V} {x : Cell K V}
  {height height' : Int} {events more : List Event}

/-! ## Single nodes -/

/-- The shape of a node after it was rebalanced, and the events of that, seen from one side. -/
def mend (side : Side) (near : Shape K V) (x : Cell K V) (far : Shape K V) :
    Shape K V × List Event :=
  match side with
  | .left => rebalance near x far
  | .right => rebalance far x near

theorem mend_of_balanced (hdiff : near.height - far.height ≤ 1)
    (hdiff' : far.height - near.height ≤ 1) :
    mend side near x far = (grow side near x far, []) := by
  cases side with
  | left => rw [mend, rebalance, if_neg (by omega), if_neg (by omega)]
  | right =>
    rw [mend, rebalance, if_neg (by omega), if_neg (by omega)]
    exact congrArg (·, []) (@grow_flip K V .left near far x).symm

theorem mend_of_heavy (hheavy : near.height = far.height + 2) :
    mend side near x far = repair side near x far := by
  cases side with
  | left => rw [mend, rebalance, if_pos (by omega)]
  | right => rw [mend, rebalance, if_neg (by omega), if_pos (by omega)]

theorem mend_of_light (hlight : far.height = near.height + 2) :
    mend side near x far = repair side.flip far x near := by
  cases side with
  | left => rw [mend, rebalance, if_neg (by omega), if_pos (by omega), Side.flip]
  | right => rw [mend, rebalance, if_pos (by omega), Side.flip]

theorem isRepair_repair (hnear : near.Sound) (hfar : far.Sound)
    (hheavy : near.height = far.height + 2) : IsRepair (repair heavy near x far).2 := by
  rcases @heavy_cases _ _ near far heavy hnear hfar hheavy with
    ⟨outer, y, h', inner, rfl, hle⟩ | ⟨outer, y, h', b, z, h'', c, rfl, hhigh⟩
  · rw [repair_single hle]
    exact .single heavy x.slot y.slot
  · rw [repair_double hhigh]
    exact .double heavy x.slot y.slot z.slot

/-- The two subtrees of the topmost node differ in height. -/
def Tilted : Shape K V → Prop
  | nil => False
  | node l _ _ r => l.height ≠ r.height

theorem tilted_join : (join side near x height far).Tilted ↔ near.height ≠ far.height := by
  cases side with
  | left => exact Iff.rfl
  | right => exact ne_comm

/-- A repair makes up for the height of a child that is tilted itself. -/
theorem height_repair_of_tilted (hnear : near.Sound) (hfar : far.Sound)
    (hheavy : near.height = far.height + 2) (htilted : near.Tilted) :
    (repair heavy near x far).1.height = near.height := by
  rcases @heavy_cases _ _ near far heavy hnear hfar hheavy with
    ⟨outer, y, h', inner, rfl, hle⟩ | ⟨outer, y, h', b, z, h'', c, rfl, hhigh⟩
  · obtain ⟨hheight, hdiff, -, -, -⟩ := sound_join.mp hnear
    have hne := tilted_join.mp htilted
    rw [height_join] at hheavy ⊢
    rw [repair_single hle]
    simp only [height_grow]
    omega
  · obtain ⟨hheight, -, hdiff, -, hinner⟩ := sound_join.mp hnear
    obtain ⟨hheight', -, -, -, -⟩ := sound_join.mp hinner
    rw [height_join] at hheavy hheight hdiff ⊢
    rw [repair_double hhigh]
    simp only [height_grow]
    omega

/-! ## Insertions -/

/-- What an insertion does to the height of a shape, and its steps: nothing is repaired, or there is
one repair, after which the height is what it was. If the height has grown, then the shape is
tilted, or it is a single node. -/
inductive Grown (t t' : Shape K V) : List Event → Prop
  | settled (height : t'.height = t.height) : Grown t t' []
  | taller (height : t'.height = t.height + 1) (tilted : 0 < t'.height → t'.Tilted) : Grown t t' []
  | repaired (events : List Event) (isRepair : IsRepair events) (height : t'.height = t.height) :
      Grown t t' events

/-- One step up from an insertion. There is nothing to mend unless the near subtree has grown, and
then nothing was repaired before. -/
theorem Grown.mend (h : Grown near near' events) (hnear' : near'.Sound)
    (hsound : (join side near x height far).Sound) :
    Grown (join side near x height far) (mend side near' x far).1
      (events ++ (mend side near' x far).2) := by
  obtain ⟨hheight, hdiff, hdiff', hnear, hfar⟩ := sound_join.mp hsound
  have hstill (heq : near'.height = near.height) :
      Shape.mend side near' x far = (grow side near' x far, []) ∧
        (grow side near' x far).height = (join side near x height far).height := by
    refine ⟨mend_of_balanced (by omega) (by omega), ?_⟩
    rw [height_grow, height_join]
    omega
  cases h with
  | settled heq =>
    obtain ⟨hmend, hsame⟩ := hstill heq
    rw [hmend]
    exact .settled hsame
  | repaired _ hrepair heq =>
    obtain ⟨hmend, hsame⟩ := hstill heq
    rw [hmend, List.append_nil]
    exact .repaired events hrepair hsame
  | taller heq htilted =>
    have hlow := hfar.neg_one_le
    by_cases hheavy : near'.height = far.height + 2
    · rw [mend_of_heavy hheavy]
      refine .repaired _ (isRepair_repair hnear' hfar hheavy) ?_
      rw [height_repair_of_tilted hnear' hfar hheavy (htilted (by omega)), height_join]
      omega
    · rw [mend_of_balanced (by omega) (by omega)]
      rcases eq_or_ne near.height far.height with hlevel | hlower
      · refine .taller ?_ fun _ => tilted_join.mpr (by omega)
        rw [height_grow, height_join]
        omega
      · refine .settled ?_
        rw [height_grow, height_join]
        omega

/-! ## Removals -/

/-- The events are those of repairs, one after the other, and for each two levels of the given
height there is one repair at most. -/
def Repairs (height : Int) (events : List Event) : Prop :=
  ∃ repairs : List (List Event), events = repairs.flatten ∧
    (∀ repair ∈ repairs, IsRepair repair) ∧ 2 * (repairs.length : Int) ≤ height

theorem Repairs.nil (h : 0 ≤ height) : Repairs height [] := ⟨[], rfl, by simp, h⟩

theorem Repairs.mono (h : Repairs height events) (hle : height ≤ height') :
    Repairs height' events := by
  obtain ⟨repairs, hevents, hall, hlength⟩ := h
  exact ⟨repairs, hevents, hall, Int.le_trans hlength hle⟩

/-- One more repair, two levels up. -/
theorem Repairs.concat (h : Repairs height events) (hrepair : IsRepair more) :
    Repairs (height + 2) (events ++ more) := by
  obtain ⟨repairs, rfl, hall, hlength⟩ := h
  refine ⟨repairs ++ [more], by simp, ?_, ?_⟩
  · intro repair hmem
    rcases List.mem_append.mp hmem with hmem | hmem
    · exact hall repair hmem
    · rwa [List.mem_singleton.mp hmem]
  · simp only [List.length_append, List.length_singleton]
    omega

/-- One step up from a removal. A node is repaired only if the far subtree is two levels higher than
what is left of the near one. -/
theorem Repairs.mend (h : Repairs near.height events) (hnear' : near'.Sound)
    (hle : near'.height ≤ near.height) (hge : near.height ≤ near'.height + 1)
    (hsound : (join side near x height far).Sound) :
    Repairs (join side near x height far).height (events ++ (mend side near' x far).2) := by
  obtain ⟨hheight, hdiff, hdiff', -, hfar⟩ := sound_join.mp hsound
  rw [height_join]
  by_cases hlight : far.height = near'.height + 2
  · rw [mend_of_light hlight]
    exact (h.concat (isRepair_repair hfar hnear' hlight)).mono (by omega)
  · rw [mend_of_balanced (by omega) (by omega), List.append_nil]
    exact h.mono (by omega)

end Shape

end OrderedMaps.Avl
