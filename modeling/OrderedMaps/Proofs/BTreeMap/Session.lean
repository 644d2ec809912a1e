import OrderedMaps.Proofs.BTreeMap.Effect

/-!
# Sessions on a multi-way tree map

Everything that can be done with a map, in any order, with any comparator and with any search in a
node that finds places which exist.

* `BTreeMap.Request`, `BTreeMap.serve`, `BTreeMap.serveAll`: sessions.
* `BTreeMap.WellFormed`: what holds of a map at any time.
* `BTreeMap.btree_session_wellFormed`: no session ends in a fault, and at any time the map is
  well-formed.
-/

namespace OrderedMaps.BTreeMap

open BTree

variable {K V : Type}

/-- What can be asked for in a session. The height, the version and the written forms of a map are
read off it and take no run. -/
inductive Request (K V : Type) where
  | call (call : Call K V)
  | audit

/-- Serves a request. -/
def serve (map : BTreeMap K V) : Request K V → Run K V (BTreeMap K V)
  | .call call => do return (← perform map call).2
  | .audit => do
      let _ ← map.audit
      return map

/-- Serves requests one after the other. The answer is the map before the first, between each two,
and after the last. -/
def serveAll (map : BTreeMap K V) : List (Request K V) → Run K V (List (BTreeMap K V))
  | [] => return [map]
  | request :: requests => do
      let next ← map.serve request
      return map :: (← next.serveAll requests)

/-- All leaves are at the same depth. Each node has as many values as keys, and at most one less
than twice the degree. Nodes below the root have at least one less than the degree. Inner nodes have
one child more than keys, and at least one key. The number of entries is that of the keys. -/
def WellFormed (map : BTreeMap K V) : Prop :=
  ∃ levels, map.tree.Sound map.degree.val levels

variable {map : BTreeMap K V} {journal : Journal K V}

/-- One request leaves a well-formed map, whatever the comparator answers. -/
theorem WellFormed.ends_serve (h : map.WellFormed) (hlocator : map.locator.IsInRange)
    (request : Request K V) :
    Ends (map.serve request) journal fun next _ => next.WellFormed ∧ Follow map next := by
  obtain ⟨levels, hsound⟩ := h
  cases request with
  | call call =>
    have hd : map.discipline.Sound False fun _ _ => .eq :=
      hlocator.sound map.degree map.comparator
    have hholds : Holds map map.tree.root.toList := ⟨levels, hsound, rfl⟩
    apply ends_bind_of (ends_perform hd hholds False.elim call)
    intro outcome after houtcome
    obtain ⟨entries', seen, _, ⟨levels', hsound', _⟩, hfollow, _⟩ := houtcome
    exact ⟨⟨levels', hsound'⟩, hfollow⟩
  | audit =>
    apply ends_bind_of (ends_treeAudit hsound map.degree.least_le)
    intro _ _ _
    exact ⟨⟨levels, hsound⟩, .refl map⟩

/-- All requests leave well-formed maps, by induction on the list of them. -/
theorem WellFormed.ends_serveAll {requests : List (Request K V)} (h : map.WellFormed)
    (hlocator : map.locator.IsInRange) :
    Ends (map.serveAll requests) journal fun maps _ =>
      maps.length = requests.length + 1 ∧ ∀ other ∈ maps, other.WellFormed ∧ Follow map other := by
  induction requests generalizing map journal with
  | nil =>
    refine ⟨rfl, fun other hmem => ?_⟩
    rw [List.mem_singleton.mp hmem]
    exact ⟨h, .refl map⟩
  | cons request requests ih =>
    apply ends_bind_of (h.ends_serve hlocator request)
    intro next journal' hnext
    obtain ⟨hnext, hfollow⟩ := hnext
    apply ends_bind_of (ih hnext (hfollow.locator_eq ▸ hlocator))
    intro maps journal'' hmaps
    obtain ⟨hlength, hall⟩ := hmaps
    refine ⟨by simp [hlength], fun other hmem => ?_⟩
    rcases List.mem_cons.mp hmem with rfl | hmem
    · exact ⟨h, .refl _⟩
    · obtain ⟨hother, hfollow'⟩ := hall other hmem
      exact ⟨hother, hfollow.trans hfollow'⟩

/-- Under no comparator whatsoever does a session on a new map end in a fault, whatever the degree,
and wherever the search in a node arrives. Twice the degree is a machine word, the map is
well-formed at any time, and an audit finds nothing wrong but, at most, keys out of order. -/
theorem btree_session_wellFormed (comparator : Comparator K) (degree : Degree)
    (locator : Locator K V) (hlocator : locator.IsInRange) (requests : List (Request K V)) :
    2 * degree.val < 2 ^ 64 ∧ ∃ (maps : List (BTreeMap K V)) (after : Journal K V),
      (do serveAll { (← ofDegree degree comparator) with locator } requests : Run K V _) {} =
        .ok (maps, after) ∧
      maps.length = requests.length + 1 ∧
      ∀ map ∈ maps, map.degree = degree ∧ WellFormed map ∧
        ∀ journal, ∃ outcome later, map.audit journal = .ok (outcome, later) ∧
          (outcome = .ok () ∨ ∃ violation : Violation K, outcome = .error violation ∧
            violation.IsOrder) := by
  have hdegree : 2 * degree.val < 2 ^ 64 := by
    have hle := degree.le_greatest
    omega
  refine ⟨hdegree, ?_⟩
  have hnew : WellFormed (⟨comparator, degree, locator, Versioned.new Tree.empty⟩ : BTreeMap K V) :=
    ⟨1, Tree.sound_empty _⟩
  have hrun : Ends (do serveAll { (← ofDegree degree comparator) with locator } requests :
      Run K V _) {} fun maps _ => maps.length = requests.length + 1 ∧ ∀ other ∈ maps,
        other.WellFormed ∧
          Follow ⟨comparator, degree, locator, Versioned.new Tree.empty⟩ other := by
    unfold ofDegree
    rw [ends_bind, ends_bind, ends_record]
    exact hnew.ends_serveAll hlocator
  obtain ⟨maps, after, heq, hlength, hall⟩ := hrun.eq_ok
  refine ⟨maps, after, heq, hlength, fun map hmem => ?_⟩
  obtain ⟨hwellFormed, hfollow⟩ := hall map hmem
  refine ⟨hfollow.degree_eq, hwellFormed, fun journal => ?_⟩
  obtain ⟨levels, hsound⟩ := hwellFormed
  have haudit : Ends map.audit journal _ := ends_treeAudit hsound map.degree.least_le
  obtain ⟨outcome, later, hrun, houtcome, -⟩ := haudit.eq_ok
  exact ⟨outcome, later, hrun, houtcome⟩

/-- A comparator that takes any two keys for equal at every seventh question. -/
def everySeventh : Comparator Nat := ⟨fun n a b => if n % 7 = 6 then .eq else compare a b⟩

/-- The look-up that precedes the removal of 25 finds that key, the removal itself does not, and all
entries are still there. -/
theorem btree_session_everySeventh :
    ∃ (maps : List (BTreeMap Nat Nat)) (after : Journal Nat Nat),
      (do serveAll { (← ofDegree .least everySeventh) with locator := .bisect } [
            .call (.insertMany [(10, 0), (20, 0), (30, 0), (40, 0), (50, 0), (60, 0)]),
            .call (.erase 25), .audit, .call .clear] : Run Nat Nat _) {} = .ok (maps, after) ∧
      maps.map size = [0, 6, 6, 6, 0] ∧
      ∀ map ∈ maps, map.WellFormed := by
  obtain ⟨-, maps, after, hrun, -, hall⟩ :=
    btree_session_wellFormed everySeventh .least .bisect isInRange_bisect [
      .call (.insertMany [(10, 0), (20, 0), (30, 0), (40, 0), (50, 0), (60, 0)]),
      .call (.erase 25), .audit, .call .clear]
  refine ⟨maps, after, hrun, ?_, fun map hmem => (hall map hmem).2.1⟩
  have hsizes : ((do serveAll { (← ofDegree .least everySeventh) with locator := .bisect } [
        .call (.insertMany [(10, 0), (20, 0), (30, 0), (40, 0), (50, 0), (60, 0)]),
        .call (.erase 25), .audit, .call .clear] : Run Nat Nat _) {}).toOption.map
          (fun outcome => outcome.1.map size) = some [0, 6, 6, 6, 0] := by
    decide +kernel
  rw [hrun] at hsizes
  exact Option.some.inj hsizes

end OrderedMaps.BTreeMap
