import OrderedMaps.Proofs.Avl.Mirror
import OrderedMaps.Proofs.AvlMap.Rebalancing

/-!
# Insertion is symmetric

The same calls on two new maps, one of which has its order the other way round, get the same answers
and leave mirror images, as long as no entry is removed. The order need not be transitive for that.

* `Call.Keeps`: a call that writes, and removes nothing.
* `AvlMap.mirror`: the mirror image of a map.
* `AvlMap.reflects_perform`, `AvlMap.performAll_mirror`: one call, and calls one after the other.
* `Journal.Balanced`: nothing happened but rebalancing.
* `AvlMap.insertion_symmetric`: runs of calls on two new maps.
-/

namespace OrderedMaps

variable {K V : Type}

/-- A call that writes and, going by its answer, removed nothing. -/
def Call.Keeps : Call K V → Answer K V → Prop
  | insert .., _ => True
  | insertIfNew .., _ => True
  | insertMany _, _ => True
  | modify .., answer => answer ≠ .value? none
  | _, _ => False

/-! ## Rebalancing in a journal -/

/-- A node was found to be out of balance, or it sank. -/
def Event.IsBalancing : Event → Prop
  | unbalanced .. => True
  | rotated .. => True
  | _ => False

/-- The log line of a rotation. -/
def rotationLine (toward : Side) (node pivot : Slot) : String :=
  s!"TRACE rotate {toward.text} node={node.text} pivot={pivot.text}"

theorem Avl.IsRepair.isBalancing {events : List Event} (h : Avl.IsRepair events) :
    ∀ event ∈ events, event.IsBalancing := by
  cases h with
  | single heavy node pivot => simp [Event.IsBalancing]
  | double heavy node child pivot => simp [Event.IsBalancing]

/-- Rebalancing logs rotations, to the other side in the mirror image. -/
theorem exists_rotations {events : List Event} (h : ∀ event ∈ events, event.IsBalancing) :
    ∃ rotations : List (Side × Slot × Slot),
      events.filterMap Event.line? = rotations.map (fun r => rotationLine r.1 r.2.1 r.2.2) ∧
        (events.map Event.mirror).filterMap Event.line? =
          rotations.map fun r => rotationLine r.1.flip r.2.1 r.2.2 := by
  induction events with
  | nil => exact ⟨[], rfl, rfl⟩
  | cons event events ih =>
    obtain ⟨hevent, hrest⟩ := List.forall_mem_cons.mp h
    obtain ⟨rotations, hlines, hlines'⟩ := ih hrest
    cases event with
    | unbalanced node heavy => exact ⟨rotations, hlines, hlines'⟩
    | rotated toward node pivot =>
      exact ⟨(toward, node, pivot) :: rotations,
        congrArg (rotationLine toward node pivot :: ·) hlines,
        congrArg (rotationLine toward.flip node pivot :: ·) hlines'⟩
    | _ => exact hevent.elim

namespace Journal

variable {journal between after : Journal K V}

/-- Nothing was noted but rebalancing. -/
def Balanced (journal after : Journal K V) : Prop :=
  ∃ events : List Event, after.events = journal.events ++ events.toArray ∧
    ∀ event ∈ events, event.IsBalancing

theorem Balanced.of_events_eq (h : after.events = journal.events) : journal.Balanced after :=
  ⟨[], by simp [h], by simp⟩

theorem Balanced.refl (journal : Journal K V) : journal.Balanced journal := .of_events_eq rfl

theorem Balanced.trans (h : journal.Balanced between) (h' : between.Balanced after) :
    journal.Balanced after := by
  obtain ⟨events, hevents, hall⟩ := h
  obtain ⟨more, hmore, hall'⟩ := h'
  exact ⟨events ++ more, by simp [hmore, hevents], List.forall_mem_append.mpr ⟨hall, hall'⟩⟩

end Journal

namespace AvlMap

open Avl

/-- The map with its order reversed and left and right exchanged in its tree. -/
def mirror (map : AvlMap K V) : AvlMap K V :=
  ⟨map.comparator.reverse, map.version, map.tree.mirror⟩

variable {map map' : AvlMap K V} {key : K} {value : V} {journal after : Journal K V}

/-! ## Single calls -/

theorem edit_eq {β : Type} (map : AvlMap K V) (f : Comparator K → Nat → Edit K V β) :
    map.edit f = f map.comparator (map.version + 1) map.tree >>= fun outcome =>
      pure (outcome.1, map.written outcome.2) := by
  obtain ⟨comparator, version, tree⟩ := map
  change (f comparator (version + 1) tree >>= fun _ => pure _) >>= (fun _ => pure _) = _
  rw [bind_assoc]
  rfl

/-- A call that opens the map for writing. -/
theorem reflects_edit {β : Type} (kind : β → Prop) {f : Comparator K → Nat → Edit K V β}
    (h : ∀ stamp, Mirrors kind (f map.comparator stamp) (f map.comparator.reverse stamp)) :
    Reflects (fun outcome => kind outcome.1) (Prod.map id mirror) (map.edit f)
      (map.mirror.edit f) := by
  rw [edit_eq, edit_eq]
  exact reflects_bind_pure (h (map.version + 1) map.tree) fun _ => rfl

theorem reflects_insert (hc : map.comparator.IsOriented) (key : K) (value : V) :
    Reflects (fun _ => True) (Prod.map id mirror) (map.insert key value)
      (map.mirror.insert key value) :=
  reflects_edit (fun _ => True) (mirrors_insert hc key value)

theorem reflects_insertIfNew (hc : map.comparator.IsOriented) (key : K) (value : V) :
    Reflects (fun _ => True) (Prod.map id mirror) (map.insertIfNew key value)
      (map.mirror.insertIfNew key value) := by
  refine reflects_edit (fun _ => True) fun stamp => ?_
  refine mirrors_bind (mirrors_findSlot hc key) fun found => ?_
  cases found with
  | some slot => exact mirrors_readNode_bind fun node => mirrors_pure _
  | none => exact mirrors_bind (mirrors_insert hc key value stamp) fun _ => mirrors_pure _

theorem mirrors_forM_insert {c : Comparator K} (hc : c.IsOriented) (stamp : Nat)
    (entries : List (K × V)) {kind : PUnit → Prop} :
    Mirrors kind (entries.forM fun (key, value) => discard (Avl.insert c key value stamp))
      (entries.forM fun (key, value) => discard (Avl.insert c.reverse key value stamp)) := by
  induction entries with
  | nil => exact mirrors_pure _
  | cons entry more ih =>
    rw [List.forM, List.forM]
    refine mirrors_bind ?_ fun _ => ih
    exact mirrors_bind (mirrors_insert hc entry.1 entry.2 stamp) fun _ => mirrors_pure _

theorem reflects_insertMany (hc : map.comparator.IsOriented) (entries : List (K × V)) :
    Reflects (fun _ => True) (Prod.map id mirror) (map.insertMany entries)
      (map.mirror.insertMany entries) := by
  refine reflects_edit (fun _ => True) fun stamp => mirrors_get_bind fun tree => ?_
  refine mirrors_bind (mirrors_forM_insert hc stamp entries) fun _ => ?_
  exact mirrors_get_bind fun tree' => mirrors_liftM _

/-- A removal is not symmetric, so that the answer must not be that of one. -/
theorem reflects_modify (hc : map.comparator.IsOriented) (key : K) (f : V → V × Bool) :
    Reflects (fun outcome => outcome.1 ≠ .ok none) (Prod.map id mirror) (map.modify key f)
      (map.mirror.modify key f) := by
  refine reflects_edit (fun result : Except MapError (Option V) => result ≠ .ok none)
    fun stamp => ?_
  refine mirrors_bind (mirrors_findSlot hc key) fun found => ?_
  cases found with
  | none => exact mirrors_pure _
  | some slot =>
    refine mirrors_readNode_bind fun node => mirrors_bind (mirrors_noteShown _) fun _ => ?_
    have hvalue : node.mirror.value = node.value := rfl
    rw [hvalue]
    obtain ⟨value, keep⟩ := f node.value
    cases keep with
    | true => exact mirrors_bind (mirrors_writeNode fun _ => rfl) fun _ => mirrors_pure _
    | false =>
      refine mirrors_bind_pure_of_not ?_
      exact fun hkeeps => hkeeps rfl

/-- One call that keeps all entries. -/
theorem reflects_perform (hc : map.comparator.IsOriented) (call : Call K V) :
    Reflects (fun outcome => call.Keeps outcome.1) (Prod.map id mirror) (perform map call)
      (perform map.mirror call) := by
  cases call with
  | insert key value =>
    rw [perform_insert, perform_insert]
    exact reflects_bind (reflects_insert hc key value) fun _ => reflects_pure _
  | insertIfNew key value =>
    rw [perform_insertIfNew, perform_insertIfNew]
    exact reflects_bind (reflects_insertIfNew hc key value) fun _ => reflects_pure _
  | insertMany entries =>
    rw [perform_insertMany, perform_insertMany]
    exact reflects_bind (reflects_insertMany hc entries) fun _ => reflects_pure _
  | modify key f =>
    rw [perform_modify, perform_modify]
    refine reflects_bind_pure (reflects_mono (reflects_modify hc key f) ?_) fun _ => rfl
    rintro ⟨result, _⟩ hkeeps rfl
    exact hkeeps rfl
  | _ => exact fun _ _ _ _ hkeeps => hkeeps.elim

/-! ## What is noted -/

theorem InsertsLocally.balanced {tree tree' : Tree K V}
    (h : InsertsLocally tree journal tree' after) : journal.Balanced after := by
  obtain ⟨-, -, events, -, -, hevents, -, ⟨rfl, -⟩ | ⟨hrepair, -⟩⟩ := h
  · exact ⟨[], hevents, by simp⟩
  · exact ⟨events, hevents, hrepair.isBalancing⟩

theorem InsertsEach.balanced {c : Comparator K} {stamp : Nat} {entries : List (K × V)}
    {tree tree' : Tree K V} (h : InsertsEach c stamp entries tree journal tree' after) :
    journal.Balanced after := by
  induction h with
  | nil tree journal => exact .refl journal
  | cons hrun hlocal rest ih => exact hlocal.balanced.trans ih

theorem ErasesLocally.balanced {tree tree' : Tree K V}
    (h : ErasesLocally tree journal tree' after) : journal.Balanced after := by
  obtain ⟨-, -, repairs, -, -, hevents, hrepairs, -⟩ := h
  refine ⟨repairs.flatten, hevents, fun event hmem => ?_⟩
  obtain ⟨repair, hrepair, hevent⟩ := List.mem_flatten.mp hmem
  exact (hrepairs repair hrepair).isBalancing event hevent

/-- A call that keeps all entries notes nothing but rebalancing. -/
theorem ends_perform_balanced {t : Shape K V} (hspells : Spells map.tree map.version t)
    (call : Call K V) :
    Ends (perform map call) journal fun outcome after =>
      call.Keeps outcome.1 → journal.Balanced after := by
  have hholds : Holds map t.toList := ⟨t, hspells, rfl⟩
  cases call with
  | insert key value =>
    rw [perform_insert, ends_bind]
    exact ends_mono (insert_local hspells) fun _ _ hlocal _ => hlocal.balanced
  | insertIfNew key value =>
    rw [perform_insertIfNew, ends_bind]
    exact ends_mono (insertIfNew_local hspells) fun _ _ hlocal _ => hlocal.balanced
  | insertMany entries =>
    rw [perform_insertMany, ends_bind]
    exact ends_mono (insertMany_local hspells) fun _ _ heach _ => heach.balanced
  | modify key f =>
    rw [perform_modify, ends_bind]
    refine ends_mono (modify_local hspells) ?_
    rintro outcome after (⟨-, hevents⟩ | ⟨-, hlocal⟩) -
    · exact .of_events_eq hevents
    · exact hlocal.balanced
  | _ => exact ends_mono (hholds.ends_perform _) fun _ _ _ hkeeps => hkeeps.elim

/-! ## Calls one after the other -/

/-- Calls that keep all entries, by induction on the list of them. -/
theorem performAll_mirror {c : Comparator K} (hc : c.IsOriented) {calls : List (Call K V)}
    {answers : List (Answer K V)} (hmap : map.Reachable c)
    (hrun : performAll map calls journal = .ok ((answers, map'), after))
    (hkeeps : ∀ e ∈ calls.zip answers, Call.Keeps e.1 e.2) :
    performAll map.mirror calls journal.mirror = .ok ((answers, map'.mirror), after.mirror) ∧
      journal.Balanced after := by
  induction calls generalizing map journal answers with
  | nil =>
    cases hrun
    exact ⟨rfl, .refl _⟩
  | cons call calls ih =>
    obtain ⟨⟨⟨answer, next⟩, between⟩, hcall, hrest⟩ := bind_eq_ok_iff.mp hrun
    obtain ⟨⟨⟨more, last⟩, later⟩, hcalls, hlast⟩ := bind_eq_ok_iff.mp hrest
    cases hlast
    rw [List.zip_cons_cons, List.forall_mem_cons] at hkeeps
    obtain ⟨hcomparator, t, hspells⟩ := hmap.spells
    have hfirst := reflects_perform (hcomparator ▸ hc) call journal _ _ hcall hkeeps.1
    have hbalanced := (ends_perform_balanced hspells call).of_eq_ok hcall hkeeps.1
    obtain ⟨hmore, hbalanced'⟩ := ih (hmap.call hcall) hcalls hkeeps.2
    exact ⟨bind_eq_ok_iff.mpr ⟨_, hfirst, bind_eq_ok_iff.mpr ⟨_, hmore, rfl⟩⟩,
      hbalanced.trans hbalanced'⟩

/-- An empty map is the mirror image of another one. -/
theorem mirror_new (comparator : Comparator K) :
    (⟨comparator, Versioned.new Tree.empty⟩ : AvlMap K V).mirror =
      ⟨comparator.reverse, Versioned.new Tree.empty⟩ := by
  simp [mirror, tree, version, Versioned.new, Tree.mirror, Tree.empty, SlotPool.map]

theorem outermost_mirror (map : AvlMap K V) (side : Side) :
    map.mirror.outermost side.flip = map.outermost side := by
  have htree : map.mirror.tree = map.tree.mirror := rfl
  unfold outermost
  simp only [htree, Tree.outermost?_mirror, Tree.entry_mirror]

/-- Calls of insertions, and of changes that keep the entry, on two new maps, one under an order and
the other under the order the other way round. Both get the same answers. The second tree is the
mirror image of the first: every slot holds a node with the same key, value, height, stamp and
parent, and with its children exchanged, so that the entries come in reverse. The comparator is
asked the same questions, and the same nodes are rotated, but to the other side. All this holds
after each call, since it holds of every list of calls, and the order need not be transitive. -/
theorem insertion_symmetric (cmp : K → K → Ordering) [Std.OrientedCmp cmp]
    (calls : List (Call K V)) :
    ∃ (answers : List (Answer K V)) (map : AvlMap K V) (after : Journal K V),
      (do performAll (← new (.ofFn cmp)) calls : Run K V (List (Answer K V) × AvlMap K V)) {} =
        .ok ((answers, map), after) ∧
      ((∀ e ∈ calls.zip answers, Call.Keeps e.1 e.2) →
        ∃ (map' : AvlMap K V) (after' : Journal K V) (entries : List (K × V))
          (rotations : List (Side × Slot × Slot)),
          (do performAll (← new (Comparator.ofFn cmp).reverse) calls :
            Run K V (List (Answer K V) × AvlMap K V)) {} = .ok ((answers, map'), after') ∧
          map'.tree = map.tree.mirror ∧ map'.version = map.version ∧
          map.toList = .ok entries ∧ map'.toList = .ok entries.reverse ∧
          map'.minEntry = map.maxEntry ∧ map'.maxEntry = map.minEntry ∧
          after'.calls = after.calls ∧ after'.shown = after.shown ∧
          after.lines = "DEBUG created empty binary tree" ::
            rotations.map (fun r => rotationLine r.1 r.2.1 r.2.2) ∧
          after'.lines = "DEBUG created empty binary tree" ::
            rotations.map fun r => rotationLine r.1.flip r.2.1 r.2.2) := by
  have hnew : (⟨.ofFn cmp, Versioned.new Tree.empty⟩ : AvlMap K V).Reachable (.ofFn cmp) :=
    reachable_new _
  obtain ⟨⟨answers, map⟩, after, hrun, hmap⟩ :=
    (hnew.ends_performAll calls ⟨#[], #[.createdBinary], #[]⟩).eq_ok
  refine ⟨answers, map, after, hrun, fun hkeeps => ?_⟩
  obtain ⟨hrun', events, hevents, hbalancing⟩ :=
    performAll_mirror (Comparator.isOriented_ofFn cmp) hnew hrun hkeeps
  have hjournal : (⟨#[], #[.createdBinary], #[]⟩ : Journal K V).mirror =
      ⟨#[], #[.createdBinary], #[]⟩ := by
    simp [Journal.mirror, Event.mirror]
  rw [mirror_new, hjournal] at hrun'
  obtain ⟨-, t, hspells⟩ := hmap.spells
  obtain ⟨rotations, hlines, hlines'⟩ := exists_rotations hbalancing
  have hreverse := hspells.mirror.toList_eq
  rw [Shape.toList_mirror] at hreverse
  refine ⟨map.mirror, after.mirror, t.toList, rotations, hrun', rfl, rfl, hspells.toList_eq,
    hreverse, map.outermost_mirror .right, map.outermost_mirror .left, rfl, rfl, ?_, ?_⟩
  · rw [← hlines, Journal.lines, hevents]
    simp [Event.line?]
  · rw [← hlines', Journal.lines, Journal.mirror, hevents]
    simp [Event.line?, Event.mirror]

/-- The third key comes between the first two, and the last two make the tree lean again. -/
def zigzagCalls : List (Call Nat Nat) :=
  [.insert 1 10, .insert 5 50, .insert 3 30, .modify 5 fun value => (value + 1, true),
    .insertIfNew 3 0, .insertMany [(7, 70), (9, 90)]]

/-- Three rotations, the first two of which are one repair. -/
theorem insertion_symmetric_zigzag :
    ∃ (answers : List (Answer Nat Nat)) (map map' : AvlMap Nat Nat) (after after' : Journal Nat Nat),
      (do performAll (← new (.ofFn compare)) zigzagCalls :
        Run Nat Nat (List (Answer Nat Nat) × AvlMap Nat Nat)) {} = .ok ((answers, map), after) ∧
      (do performAll (← new (Comparator.ofFn compare).reverse) zigzagCalls :
        Run Nat Nat (List (Answer Nat Nat) × AvlMap Nat Nat)) {} = .ok ((answers, map'), after') ∧
      answers = [.value? none, .value? none, .value? none, .value? (some 51), .value? (some 30),
        .count 2] ∧
      map'.tree = map.tree.mirror ∧
      map'.toList = .ok [(9, 90), (7, 70), (5, 51), (3, 30), (1, 10)] ∧
      after.lines = ["DEBUG created empty binary tree", "TRACE rotate right node=#1 pivot=#2",
        "TRACE rotate left node=#0 pivot=#2", "TRACE rotate left node=#1 pivot=#3"] ∧
      after'.lines = ["DEBUG created empty binary tree", "TRACE rotate left node=#1 pivot=#2",
        "TRACE rotate right node=#0 pivot=#2", "TRACE rotate right node=#1 pivot=#3"] := by
  have hfirst : ((do performAll (← new (.ofFn compare)) zigzagCalls :
      Run Nat Nat (List (Answer Nat Nat) × AvlMap Nat Nat)) {}).toOption.map
        (fun outcome => (outcome.1.1, outcome.1.2.toList.toOption, outcome.2.lines)) =
      some ([.value? none, .value? none, .value? none, .value? (some 51), .value? (some 30),
        .count 2], some [(1, 10), (3, 30), (5, 51), (7, 70), (9, 90)],
        ["DEBUG created empty binary tree", "TRACE rotate right node=#1 pivot=#2",
          "TRACE rotate left node=#0 pivot=#2", "TRACE rotate left node=#1 pivot=#3"]) := by
    decide +kernel
  have hsecond : ((do performAll (← new (Comparator.ofFn compare).reverse) zigzagCalls :
      Run Nat Nat (List (Answer Nat Nat) × AvlMap Nat Nat)) {}).toOption.map
        (fun outcome => outcome.2.lines) =
      some ["DEBUG created empty binary tree", "TRACE rotate left node=#1 pivot=#2",
        "TRACE rotate right node=#0 pivot=#2", "TRACE rotate right node=#1 pivot=#3"] := by
    decide +kernel
  obtain ⟨answers, map, after, hrun, hsymmetric⟩ := insertion_symmetric compare zigzagCalls
  rw [hrun] at hfirst
  obtain ⟨hanswers, hrest⟩ := Prod.mk.inj (Option.some.inj hfirst)
  obtain ⟨hentries, hlines⟩ := Prod.mk.inj hrest
  have hanswers : answers = _ := hanswers
  have hkeeps : ∀ e ∈ zigzagCalls.zip answers, Call.Keeps e.1 e.2 := by
    simp [hanswers, zigzagCalls, Call.Keeps]
  obtain ⟨map', after', entries, -, hrun', htree, -, hlist, hlist', -⟩ := hsymmetric hkeeps
  rw [hrun'] at hsecond
  rw [hlist] at hentries
  obtain rfl : entries = _ := Option.some.inj hentries
  exact ⟨answers, map, map', after, after', hrun, hrun', hanswers, htree, hlist', hlines,
    Option.some.inj hsecond⟩

end AvlMap

end OrderedMaps
