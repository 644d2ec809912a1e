import OrderedMaps.BTree.Range
import OrderedMaps.Proofs.BTree.Search

/-!
# Range scans of multi-way trees

A scan begins at the place of the lower bound, compares keys with the upper bound alone, and stops
at the first that is not below it. In ascending entries this yields just those in the range.

* `BTree.Scanned`: what a scan of some entries finds.
* `BTree.ends_range`: a scan never ends in a fault, whatever the comparator answers.
-/

namespace OrderedMaps.BTree

variable {K V : Type} {trust : Prop} {cmp : K → K → Ordering} {d : Discipline K V} {low high : K}
  {levels t : Nat} {node child : Node K V} {before : List (Node K V × K × V)}
  {after : List (K × V × Node K V)} {entries more : List (K × V)} {journal : Journal K V}

/-- What a scan of some entries finds: those in the range. It stops just if there is an entry that
is not below the upper bound. -/
def Scanned (trust : Prop) (cmp : K → K → Ordering) (low high : K) (entries : List (K × V))
    (scan : Scan K V) : Prop :=
  trust → scan.entries = Reference.between cmp low high entries ∧
    (scan.stopped = true ↔ ∃ e ∈ entries, ¬ (cmp e.1 high).isLT)

/-! ## Entries that no scan has to look at -/

/-- After an entry that is not below the upper bound, there is nothing in the range. -/
theorem between_eq_nil_of_mem [Std.TransCmp cmp] (hasc : Ascending cmp (entries ++ more))
    (h : ∃ e ∈ entries, ¬ (cmp e.1 high).isLT) : Reference.between cmp low high more = [] := by
  obtain ⟨e, he, hhigh⟩ := h
  apply between_eq_nil_of_high _ hhigh
  intro e' he'
  exact (List.pairwise_append.mp hasc).2.2 e he e' he'

/-- What the lower bound is above is not in the range. -/
theorem between_eq_nil_of_above [Std.TransCmp cmp] (h : ∀ e ∈ entries, cmp low e.1 = .gt) :
    Reference.between cmp low high entries = [] := by
  apply between_eq_nil_of_low (k := low)
  · intro e he
    exact Std.OrientedCmp.lt_of_gt (h e he)
  · simp [Std.ReflCmp.compare_self]

/-! ## Parts of a scan -/

theorem scanned_nil : Scanned trust cmp low high [] (⟨[], false⟩ : Scan K V) :=
  fun _ => ⟨rfl, by simp⟩

/-- Two scans one after the other scan what lies one after the other. -/
theorem ends_andThen {first : Scan K V} {rest : Run K V (Scan K V)} (hd : d.Sound trust cmp)
    (hasc : trust → Ascending cmp (entries ++ more))
    (hfirst : Scanned trust cmp low high entries first)
    (hrest : Ends rest journal fun scan later =>
      Scanned trust cmp low high more scan ∧ journal.Quiet later) :
    Ends (first.andThen rest) journal fun scan later =>
      Scanned trust cmp low high (entries ++ more) scan ∧ journal.Quiet later := by
  unfold Scan.andThen
  by_cases hstopped : first.stopped = true
  · rw [if_pos hstopped]
    refine ⟨fun htrust => ?_, .refl journal⟩
    have := (hd.follows htrust).lawful
    obtain ⟨hentries, hwitness⟩ := hfirst htrust
    obtain ⟨e, he, hhigh⟩ := hwitness.mp hstopped
    rw [between_append, between_eq_nil_of_mem (hasc htrust) ⟨e, he, hhigh⟩, List.append_nil]
    exact ⟨hentries, iff_of_true hstopped ⟨e, List.mem_append_left _ he, hhigh⟩⟩
  · rw [if_neg hstopped]
    apply ends_bind_of hrest
    intro scan later hscan
    obtain ⟨hscanned, hquiet⟩ := hscan
    refine ⟨fun htrust => ⟨?_, ?_⟩, hquiet⟩
    · rw [between_append, ← (hfirst htrust).1, ← (hscanned htrust).1]
    · have hbelow := mt (hfirst htrust).2.mpr hstopped
      simp only [List.mem_append, or_and_right, exists_or, hbelow, false_or]
      exact (hscanned htrust).2

theorem ends_scanEntry {key : K} {value : V} {rest : Run K V (Scan K V)} (hd : d.Sound trust cmp)
    (hasc : trust → Ascending cmp ((key, value) :: more)) (hlow : trust → (cmp low key).isLE)
    (hrest : ∀ journal' : Journal K V, Ends rest journal' fun scan later =>
      Scanned trust cmp low high more scan ∧ journal'.Quiet later) :
    Ends (Node.scanEntry d high key value rest) journal fun scan later =>
      Scanned trust cmp low high ((key, value) :: more) scan ∧ journal.Quiet later := by
  unfold Node.scanEntry
  rw [ends_bind, ends_ask]
  have hanswer := fun htrust => (hd.follows htrust).answer_eq journal.calls.size key high
  apply (journal.quiet_asked key high).prepend
  by_cases hlt : (d.comparator.answer journal.calls.size key high).isLT
  · rw [if_pos hlt]
    have hfirst : Scanned trust cmp low high [(key, value)] ⟨[(key, value)], false⟩ := by
      intro htrust
      have := (hd.follows htrust).lawful
      rw [hanswer htrust] at hlt
      have hge : (cmp key low).isGE := Std.OrientedCmp.isGE_of_isLE (hlow htrust)
      exact ⟨by simp [Reference.between, hge, hlt], by simp [Ordering.isLT_iff_eq_lt.mp hlt]⟩
    exact ends_andThen hd hasc hfirst (hrest _)
  · rw [if_neg hlt]
    refine ⟨fun htrust => ?_, .refl _⟩
    have := (hd.follows htrust).lawful
    rw [hanswer htrust] at hlt
    have hsplit : (key, value) :: more = [(key, value)] ++ more := rfl
    have hmore : Reference.between cmp low high more = [] :=
      between_eq_nil_of_mem (hsplit ▸ hasc htrust) ⟨_, List.mem_cons_self, hlt⟩
    refine ⟨?_, iff_of_true rfl ⟨_, List.mem_cons_self, hlt⟩⟩
    rw [hsplit, between_append, hmore]
    simp [Reference.between, hlt]

theorem ends_scanLeaf (hd : d.Sound trust cmp) (hasc : trust → Ascending cmp entries)
    (hlow : trust → ∀ e ∈ entries, (cmp low e.1).isLE) :
    Ends (Node.scanLeaf d high (entries.map Prod.fst) (entries.map Prod.snd)) journal
      fun scan later => Scanned trust cmp low high entries scan ∧ journal.Quiet later := by
  induction entries generalizing journal with
  | nil => exact ⟨scanned_nil, .refl journal⟩
  | cons e rest ih =>
    rw [List.map_cons, List.map_cons, Node.scanLeaf]
    apply ends_scanEntry hd hasc (fun htrust => hlow htrust e List.mem_cons_self)
    intro journal'
    apply ih
    · intro htrust
      exact (List.pairwise_cons.mp (hasc htrust)).2
    · intro htrust e' he'
      exact hlow htrust e' (List.mem_cons_of_mem _ he')

/-- From the first child on, all children are scanned, with the entries between them. -/
theorem ends_rangeIn (hd : d.Sound trust cmp)
    (hrange : ∀ (node : Node K V) (journal' : Journal K V), Stout t levels node →
      (trust → Ascending cmp node.toList) →
      Ends (node.range d low high) journal' fun scan later =>
        Scanned trust cmp low high node.toList scan ∧ journal'.Quiet later)
    (hchild : Stout t levels child) (hafter : ∀ e ∈ after, Stout t levels e.2.2)
    (hasc : trust → Ascending cmp (child.toList ++ aft after))
    (hlow : trust → ∀ e ∈ aft after, (cmp low e.1).isLE) :
    Ends (Node.rangeIn d low high 0 (child :: after.map (·.2.2)) (after.map (·.1))
        (after.map (·.2.1))) journal fun scan later =>
      Scanned trust cmp low high (child.toList ++ aft after) scan ∧
        journal.Quiet later := by
  induction after generalizing child journal with
  | nil =>
    show Ends (child.range d low high >>= fun scan => scan.andThen (pure _)) journal _
    have hasc' : trust → Ascending cmp child.toList := fun htrust =>
      (List.pairwise_append.mp (hasc htrust)).1
    apply ends_bind_of (hrange child journal hchild hasc')
    intro scan later hscan
    obtain ⟨hscanned, hquiet⟩ := hscan
    exact hquiet.prepend (ends_andThen hd hasc hscanned ⟨scanned_nil, .refl later⟩)
  | cons e rest ih =>
    obtain ⟨key, value, right⟩ := e
    have hright : Stout t levels right := hafter _ List.mem_cons_self
    have hrest : ∀ e ∈ rest, Stout t levels e.2.2 := fun e he =>
      hafter e (List.mem_cons_of_mem _ he)
    rw [aft_cons] at hasc hlow ⊢
    have hhead : trust → Ascending cmp child.toList := fun htrust =>
      (List.pairwise_append.mp (hasc htrust)).1
    have hasc' : trust → Ascending cmp ((key, value) :: (right.toList ++ aft rest)) :=
      fun htrust => (List.pairwise_append.mp (hasc htrust)).2.1
    simp only [List.map_cons, Node.rangeIn]
    apply ends_bind_of (hrange child journal hchild hhead)
    intro scan later hscan
    obtain ⟨hscanned, hquiet⟩ := hscan
    refine hquiet.prepend (ends_andThen hd hasc hscanned
      (ends_scanEntry hd hasc' (fun htrust => hlow htrust _ List.mem_cons_self) fun journal' => ?_))
    apply ih hright hrest
    · intro htrust
      exact (List.pairwise_cons.mp (hasc' htrust)).2
    · intro htrust e he
      exact hlow htrust e (List.mem_cons_of_mem _ (List.mem_append_right _ he))

/-- What comes before the place of the lower bound is passed over. -/
theorem rangeIn_plug {lefts : List (Node K V × K × V)} {children : List (Node K V)} {keys : List K}
    {values : List V} :
    Node.rangeIn d low high lefts.length (lefts.map (·.1) ++ child :: children)
        (lefts.map (·.2.1) ++ keys) (lefts.map (·.2.2) ++ values) =
      Node.rangeIn d low high 0 (child :: children) keys values := by
  induction lefts with
  | nil => rfl
  | cons first rest ih =>
    simp only [List.map_cons, List.cons_append, List.length_cons, Node.rangeIn, List.drop_succ_cons,
      List.drop_zero]
    exact ih

theorem range_eq : node.range d low high = (do
    match ← d.locate node.keys low with
    | .found start | .gap start =>
        Node.rangeIn d low high start node.children node.keys node.values) := by
  obtain ⟨keys, values, children⟩ := node
  rfl

/-- What the lower bound is above is not scanned, and need not be: it is below the upper bound. -/
theorem Scanned.skip {scan : Scan K V} (hd : d.Sound trust cmp)
    (hvalid : trust → (cmp low high).isLT) (h : Scanned trust cmp low high more scan)
    (habove : trust → ∀ e ∈ entries, cmp low e.1 = .gt) :
    Scanned trust cmp low high (entries ++ more) scan := by
  intro htrust
  have := (hd.follows htrust).lawful
  obtain ⟨hentries, hstopped⟩ := h htrust
  have hbelow : ¬ ∃ e ∈ entries, ¬ (cmp e.1 high).isLT := by
    rintro ⟨e, he, hhigh⟩
    have hlt : cmp e.1 low = .lt := Std.OrientedCmp.lt_of_gt (habove htrust e he)
    have hvalid := Ordering.isLT_iff_eq_lt.mp (hvalid htrust)
    exact hhigh (Ordering.isLT_iff_eq_lt.mpr (Std.TransCmp.lt_trans hlt hvalid))
  rw [between_append, between_eq_nil_of_above (habove htrust), List.nil_append]
  refine ⟨hentries, ?_⟩
  simp only [List.mem_append, or_and_right, exists_or, hbelow, false_or]
  exact hstopped

/-- The scan of a leaf from a position on. -/
theorem ends_rangeLeaf {front back : List (K × V)} (hd : d.Sound trust cmp)
    (hvalid : trust → (cmp low high).isLT) (hasc : trust → Ascending cmp (front ++ back))
    (habove : trust → ∀ e ∈ front, cmp low e.1 = .gt)
    (hlow : trust → ∀ e ∈ back, (cmp low e.1).isLE) :
    Ends (Node.rangeIn d low high front.length (leafOf (front ++ back)).children
        (leafOf (front ++ back)).keys (leafOf (front ++ back)).values) journal fun scan later =>
      Scanned trust cmp low high (front ++ back) scan ∧ journal.Quiet later := by
  have hkeys : (leafOf (front ++ back)).keys.drop front.length = back.map Prod.fst := by
    simp [leafOf]
  have hvalues : (leafOf (front ++ back)).values.drop front.length = back.map Prod.snd := by
    simp [leafOf]
  have hchildren : (leafOf (front ++ back)).children = [] := rfl
  rw [hchildren, Node.rangeIn, hkeys, hvalues]
  have hback : trust → Ascending cmp back := fun htrust =>
    (List.pairwise_append.mp (hasc htrust)).2.1
  apply ends_mono (ends_scanLeaf hd hback hlow)
  intro scan later hscan
  obtain ⟨hscanned, hquiet⟩ := hscan
  exact ⟨hscanned.skip hd hvalid habove, hquiet⟩

/-- The scan of an inner node from a child on. -/
theorem ends_rangePlug (hd : d.Sound trust cmp) (hvalid : trust → (cmp low high).isLT)
    (hrange : ∀ (node : Node K V) (journal' : Journal K V), Stout t levels node →
      (trust → Ascending cmp node.toList) →
      Ends (node.range d low high) journal' fun scan later =>
        Scanned trust cmp low high node.toList scan ∧ journal'.Quiet later)
    (h : Formed t (levels + 1) (plug before child after))
    (hasc : trust → Ascending cmp (plug before child after).toList)
    (habove : trust → ∀ e ∈ fore before, cmp low e.1 = .gt)
    (hlow : trust → ∀ e ∈ aft after, (cmp low e.1).isLE) :
    Ends (Node.rangeIn d low high before.length (plug before child after).children
        (plug before child after).keys (plug before child after).values) journal fun scan later =>
      Scanned trust cmp low high (plug before child after).toList scan ∧
        journal.Quiet later := by
  obtain ⟨-, -, hchild, hafter⟩ := formed_plug.mp h
  rw [toList_plug, List.append_assoc] at hasc ⊢
  show Ends (Node.rangeIn d low high before.length (before.map (·.1) ++ child :: after.map (·.2.2))
    (before.map (·.2.1) ++ after.map (·.1)) (before.map (·.2.2) ++ after.map (·.2.1))) journal _
  rw [rangeIn_plug]
  apply ends_mono (ends_rangeIn hd hrange hchild hafter
    (fun htrust => (List.pairwise_append.mp (hasc htrust)).2.1) hlow)
  intro scan later hscan
  obtain ⟨hscanned, hquiet⟩ := hscan
  exact ⟨hscanned.skip hd hvalid habove, hquiet⟩

/-- A scan of a subtree, by induction on the number of its levels. -/
theorem ends_range (hd : d.Sound trust cmp) (hvalid : trust → (cmp low high).isLT)
    (h : Formed t levels node) (hasc : trust → Ascending cmp node.toList) :
    Ends (node.range d low high) journal fun scan later =>
      Scanned trust cmp low high node.toList scan ∧ journal.Quiet later := by
  induction levels generalizing node journal with
  | zero => exact absurd h Formed.not_zero
  | succ levels ih =>
    have hrange : ∀ (node : Node K V) (journal' : Journal K V), Stout t levels node →
        (trust → Ascending cmp node.toList) →
        Ends (node.range d low high) journal' fun scan later =>
          Scanned trust cmp low high node.toList scan ∧ journal'.Quiet later :=
      fun node journal' hstout => ih hstout.formed
    rw [range_eq]
    apply ends_bind_of (hd.ends_locate h hasc)
    intro place later hplace
    obtain ⟨hsited, hquiet⟩ := hplace
    apply hquiet.prepend
    cases hsited with
    | found left k v right hsplit hleft hright hkey =>
      have hplace : trust → Between cmp low left.toList right.toList := by
        intro htrust
        have := (hd.follows htrust).lawful
        rw [hsplit, toList_fuse hleft hright] at hasc
        exact (hasc htrust).between (hkey htrust)
      have hlow : trust → ∀ e ∈ (k, v) :: right.toList, (cmp low e.1).isLE := by
        intro htrust e he
        rcases List.mem_cons.mp he with rfl | he
        · simp [hkey htrust]
        · simp [(hplace htrust).below e he]
      subst hsplit
      rcases hleft.fuse_cases hright with
        ⟨-, entries, more, rfl, rfl⟩ | ⟨lower, before, left, right, after, habove, rfl, rfl⟩
      · rw [fuse_leafOf, toList_leafOf] at hasc ⊢
        rw [toList_leafOf] at hplace hlow
        rw [length_keys_leafOf]
        exact ends_rangeLeaf hd hvalid hasc (fun htrust => (hplace htrust).above) hlow
      · obtain rfl : levels = lower + 1 := by omega
        have hstart : (plug before left []).keys.length = before.length := by
          simp [length_keys_plug]
        rw [fuse_plug] at h hasc ⊢
        rw [hstart]
        apply ends_rangePlug hd hvalid hrange h hasc
        · intro htrust e he
          apply (hplace htrust).above
          rw [toList_plug]
          exact List.mem_append_left _ (List.mem_append_left _ he)
        · rw [toList_plug] at hlow
          rw [aft_cons]
          exact hlow
    | leaf before after hbottom hsplit hplace =>
      subst hsplit
      rw [toList_leafOf] at hasc ⊢
      have hlow : trust → ∀ e ∈ after, (cmp low e.1).isLE := by
        intro htrust e he
        simp [(hplace htrust).below e he]
      exact ends_rangeLeaf hd hvalid hasc (fun htrust => (hplace htrust).above) hlow
    | inner lower before child after habove hsplit hplace =>
      subst hsplit
      have hlow : trust → ∀ e ∈ aft after, (cmp low e.1).isLE := by
        intro htrust e he
        simp [(hplace htrust).below e he]
      exact ends_rangePlug hd hvalid hrange h hasc (fun htrust => (hplace htrust).above) hlow

end OrderedMaps.BTree
