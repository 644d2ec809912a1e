import Mathlib
import OrderedMaps.Journal

/-!
# Runs that end without a fault

Postconditions of computations that keep a journal. `Ends run journal Q` says that the run, begun
with the given journal, ends without a fault, in a result and a journal that satisfy `Q`. It is a
statement of total correctness: it excludes every fault on the way.

* `ends_iff`: the same in terms of the outcome of the run.
* `ends_bind`, `ends_mono`: runs one after the other, and weaker postconditions.
* `ends_ask`, `ends_record`, `ends_recordShown`, `ends_liftM`: the elementary steps.
* `Journal.compared`: the journal after a key was compared with others.
* `Journal.Quiet`: nothing happened but comparisons.
* `Passes`: a run that may stop at an error ends in a good result or in an error of a certain kind.
* `Decides`: such a run stops at an error only if there is no good result.
-/

namespace OrderedMaps

variable {K V α β : Type}

/-- A checked step that succeeds hands on its result. -/
@[simp] theorem ok_bind (a : α) (f : α → Except Fault β) : (Except.ok a >>= f) = f a := rfl

/-- Two checked steps succeed if the first one does, and then the second one. -/
theorem bind_eq_ok_iff {x : Except Fault α} {f : α → Except Fault β} {b : β} :
    (x >>= f) = .ok b ↔ ∃ a, x = .ok a ∧ f a = .ok b := by
  cases x with
  | error fault =>
    constructor
    · exact fun h => nomatch h
    · rintro ⟨_, ⟨⟩, _⟩
  | ok a =>
    constructor
    · exact fun h => ⟨a, rfl, h⟩
    · rintro ⟨_, ⟨⟩, h⟩
      exact h

/-! ## Journals that grow -/

namespace Journal

/-- The journal after one more comparison. -/
def asked (journal : Journal K V) (a b : K) : Journal K V :=
  ⟨journal.calls.push (a, b), journal.events, journal.shown⟩

/-- The journal after a key was compared with others, one after the other. -/
def compared (journal : Journal K V) (key : K) (others : List K) : Journal K V :=
  ⟨journal.calls ++ (others.map fun other => (key, other)).toArray, journal.events, journal.shown⟩

/-- The journal after some more events. -/
def noted (journal : Journal K V) (events : List Event) : Journal K V :=
  ⟨journal.calls, journal.events ++ events.toArray, journal.shown⟩

/-- The journal after some more values were shown. -/
def showing (journal : Journal K V) (values : List V) : Journal K V :=
  ⟨journal.calls, journal.events, journal.shown ++ values.toArray⟩

@[simp] theorem shown_asked (journal : Journal K V) (a b : K) :
    (journal.asked a b).shown = journal.shown := rfl

@[simp] theorem events_asked (journal : Journal K V) (a b : K) :
    (journal.asked a b).events = journal.events := rfl

@[simp] theorem size_calls_asked (journal : Journal K V) (a b : K) :
    (journal.asked a b).calls.size = journal.calls.size + 1 := Array.size_push ..

@[simp] theorem compared_nil (journal : Journal K V) (key : K) :
    journal.compared key [] = journal := by
  simp [compared]

theorem compared_singleton (journal : Journal K V) (key other : K) :
    journal.compared key [other] = journal.asked key other := by
  simp [compared, asked]

@[simp] theorem compared_asked (journal : Journal K V) (key other : K) (others : List K) :
    (journal.asked key other).compared key others = journal.compared key (other :: others) := by
  simp [compared, asked]

@[simp] theorem shown_compared (journal : Journal K V) (key : K) (others : List K) :
    (journal.compared key others).shown = journal.shown := rfl

@[simp] theorem shown_noted (journal : Journal K V) (events : List Event) :
    (journal.noted events).shown = journal.shown := rfl

@[simp] theorem calls_noted (journal : Journal K V) (events : List Event) :
    (journal.noted events).calls = journal.calls := rfl

@[simp] theorem noted_nil (journal : Journal K V) : journal.noted [] = journal := by
  simp [noted]

@[simp] theorem noted_noted (journal : Journal K V) (events more : List Event) :
    (journal.noted events).noted more = journal.noted (events ++ more) := by
  simp [noted]

@[simp] theorem shown_showing (journal : Journal K V) (values : List V) :
    (journal.showing values).shown = journal.shown ++ values.toArray := rfl

@[simp] theorem events_showing (journal : Journal K V) (values : List V) :
    (journal.showing values).events = journal.events := rfl

end Journal

/-! ## Postconditions -/

/-- The run ends without a fault, and its result and journal satisfy `Q`. -/
def Ends (run : Run K V α) (journal : Journal K V) (Q : α → Journal K V → Prop) : Prop :=
  match run journal with
  | .ok (a, after) => Q a after
  | .error _ => False

variable {run : Run K V α} {f : α → Run K V β} {journal : Journal K V}
  {Q R : α → Journal K V → Prop} {P : β → Journal K V → Prop}

theorem ends_iff :
    Ends run journal Q ↔ ∃ a after, run journal = .ok (a, after) ∧ Q a after := by
  unfold Ends
  cases run journal with
  | error fault => simp
  | ok outcome =>
    constructor
    · exact fun h => ⟨outcome.1, outcome.2, rfl, h⟩
    · rintro ⟨a, after, ⟨⟩, h⟩
      exact h

theorem Ends.eq_ok (h : Ends run journal Q) :
    ∃ a after, run journal = .ok (a, after) ∧ Q a after := ends_iff.1 h

theorem ends_of_eq_ok {a : α} {after : Journal K V} (h : run journal = .ok (a, after))
    (hQ : Q a after) : Ends run journal Q := ends_iff.2 ⟨a, after, h, hQ⟩

theorem Ends.of_eq_ok {a : α} {after : Journal K V} (h : Ends run journal Q)
    (hrun : run journal = .ok (a, after)) : Q a after := by
  unfold Ends at h
  rwa [hrun] at h

theorem ends_mono (h : Ends run journal Q) (hQR : ∀ a after, Q a after → R a after) :
    Ends run journal R := by
  obtain ⟨a, after, hrun, hQ⟩ := h.eq_ok
  exact ends_of_eq_ok hrun (hQR a after hQ)

/-- Two statements about what lies behind the same run. -/
theorem ends_and (h : Ends run journal Q) (h' : Ends run journal R) :
    Ends run journal fun a after => Q a after ∧ R a after := by
  obtain ⟨a, after, hrun, hQ⟩ := h.eq_ok
  exact ends_of_eq_ok hrun ⟨hQ, h'.of_eq_ok hrun⟩

/-- What holds after a run whose outcome is known. -/
theorem ends_of_outcome {a : α} {last : Journal K V}
    (h : Ends run journal fun b after => b = a ∧ after = last) : Ends run journal Q ↔ Q a last := by
  obtain ⟨_, _, hrun, rfl, rfl⟩ := h.eq_ok
  unfold Ends
  rw [hrun]

@[simp] theorem ends_pure (a : α) : Ends (pure a : Run K V α) journal Q ↔ Q a journal := Iff.rfl

@[simp] theorem ends_bind :
    Ends (run >>= f) journal P ↔ Ends run journal fun a after => Ends (f a) after P := by
  have hbind : (run >>= f) journal = run journal >>= fun outcome => f outcome.1 outcome.2 := rfl
  unfold Ends
  rw [hbind]
  cases run journal with
  | error fault => exact Iff.rfl
  | ok outcome => exact Iff.rfl

/-- Two runs one after the other, by way of a statement about what lies between them. -/
theorem ends_bind_of (hrun : Ends run journal Q)
    (hf : ∀ a after, Q a after → Ends (f a) after P) : Ends (run >>= f) journal P :=
  ends_bind.2 (ends_mono hrun hf)

/-- One of two runs, and then the same in either case. -/
theorem ends_ite_bind {p : Prop} [Decidable p] {other : Run K V α} :
    Ends (if p then run >>= f else other >>= f) journal P ↔
      Ends (if p then run else other) journal fun a after => Ends (f a) after P := by
  split <;> exact ends_bind

@[simp] theorem ends_map (g : α → β) :
    Ends (g <$> run) journal P ↔ Ends run journal fun a after => P (g a) after := by
  rw [← bind_pure_comp]
  exact ends_bind

/-! ## Elementary steps -/

@[simp] theorem ends_liftM (x : Except Fault α) :
    Ends (liftM x) journal Q ↔ ∃ a, x = .ok a ∧ Q a journal := by
  cases x with
  | error fault =>
    constructor
    · exact False.elim
    · rintro ⟨_, ⟨⟩, _⟩
  | ok a =>
    constructor
    · exact fun h => ⟨a, rfl, h⟩
    · rintro ⟨_, ⟨⟩, h⟩
      exact h

@[simp] theorem ends_ask (c : Comparator K) (a b : K) {Q : Ordering → Journal K V → Prop} :
    Ends (c.ask a b) journal Q ↔
      Q (c.answer journal.calls.size a b) (journal.asked a b) := Iff.rfl

@[simp] theorem ends_record (event : Event) {Q : Unit → Journal K V → Prop} :
    Ends (record event) journal Q ↔ Q () (journal.noted [event]) := by
  have h : journal.noted [event] =
      ⟨journal.calls, journal.events.push event, journal.shown⟩ := by
    simp [Journal.noted]
  rw [h]
  exact Iff.rfl

@[simp] theorem ends_recordShown (value : V) {Q : Unit → Journal K V → Prop} :
    Ends (recordShown value) journal Q ↔ Q () (journal.showing [value]) := by
  have h : journal.showing [value] =
      ⟨journal.calls, journal.events, journal.shown.push value⟩ := by
    simp [Journal.showing]
  rw [h]
  exact Iff.rfl

/-! ## Runs that only compare -/

/-- Nothing happened but comparisons. -/
structure Journal.Quiet (journal later : Journal K V) : Prop where
  events_eq : later.events = journal.events
  shown_eq : later.shown = journal.shown

theorem Journal.Quiet.refl (journal : Journal K V) : journal.Quiet journal := ⟨rfl, rfl⟩

theorem Journal.Quiet.trans {later last : Journal K V} (h : journal.Quiet later)
    (h' : later.Quiet last) : journal.Quiet last :=
  ⟨h'.events_eq.trans h.events_eq, h'.shown_eq.trans h.shown_eq⟩

theorem Journal.quiet_asked (journal : Journal K V) (a b : K) : journal.Quiet (journal.asked a b) :=
  ⟨rfl, rfl⟩

/-- A run that only compares, after nothing but comparisons. -/
theorem Journal.Quiet.prepend {R : α → Prop} {later : Journal K V} (h : journal.Quiet later)
    (hrun : Ends run later fun a last => R a ∧ later.Quiet last) :
    Ends run later fun a last => R a ∧ journal.Quiet last :=
  ends_mono hrun fun _ _ hlast => ⟨hlast.1, h.trans hlast.2⟩

/-! ## Runs that may stop at an error -/

section Passes

variable {ε : Type} {allowed : ε → Prop} {x : ExceptT ε (Run K V) α} {g : α → ExceptT ε (Run K V) β}

/-- The run ends without a fault and shows no values. It hands on a result that satisfies `P`, or it
stops at an error that is allowed. -/
def Passes (allowed : ε → Prop) (x : ExceptT ε (Run K V) α) (journal : Journal K V) (P : α → Prop) :
    Prop :=
  Ends x.run journal fun outcome after =>
    (match outcome with
      | .ok a => P a
      | .error e => allowed e) ∧ after.shown = journal.shown

theorem passes_pure {P : α → Prop} {a : α} (h : P a) :
    Passes allowed (pure a : ExceptT ε (Run K V) α) journal P := ⟨h, rfl⟩

theorem passes_throw {P : α → Prop} {e : ε} (h : allowed e) :
    Passes allowed (throw e : ExceptT ε (Run K V) α) journal P := ⟨h, rfl⟩

theorem passes_bind {P : α → Prop} {R : β → Prop} (hx : Passes allowed x journal P)
    (hg : ∀ a after, P a → Passes allowed (g a) after R) : Passes allowed (x >>= g) journal R := by
  have hbind : (x >>= g).run = (x.run >>= ExceptT.bindCont g : Run K V _) := rfl
  unfold Passes
  rw [hbind]
  apply ends_bind_of hx
  intro outcome after houtcome
  obtain ⟨houtcome, hshown⟩ := houtcome
  cases outcome with
  | error e => exact ⟨houtcome, hshown⟩
  | ok a =>
    apply ends_mono (hg a after houtcome)
    intro outcome' after' houtcome'
    obtain ⟨houtcome', hshown'⟩ := houtcome'
    exact ⟨houtcome', hshown'.trans hshown⟩

theorem passes_liftM_ok {P : α → Prop} {a : α} (h : P a) :
    Passes allowed (liftM (.ok a : Except Fault α) : ExceptT ε (Run K V) α) journal P := ⟨h, rfl⟩

/-- A run that cannot stop is a first step. -/
theorem passes_lift {y : Run K V α} {P : α → Prop}
    (h : Ends y journal fun a after => P a ∧ after.shown = journal.shown) :
    Passes allowed (liftM y : ExceptT ε (Run K V) α) journal P := by
  have hlift : (liftM y : ExceptT ε (Run K V) α).run = (Except.ok <$> y : Run K V _) := rfl
  unfold Passes
  rw [hlift, ends_map]
  exact h

end Passes

section Decides

variable {ε : Type} {x : ExceptT ε (Run K V) α} {g : α → ExceptT ε (Run K V) β} {P : α → Prop}
  {R : β → Prop}

/-- The run ends without a fault wherever it begins. It hands on a result that satisfies `P`, or it
stops at an error, and then nothing satisfies `P`. -/
def Decides (x : ExceptT ε (Run K V) α) (P : α → Prop) : Prop :=
  ∀ journal, Ends x.run journal fun outcome _ =>
    match outcome with
    | .ok a => P a
    | .error _ => ∀ a, ¬ P a

theorem decides_congr {Q : α → Prop} (h : ∀ a, P a ↔ Q a) (hx : Decides x P) : Decides x Q := by
  obtain rfl : P = Q := funext fun a => propext (h a)
  exact hx

theorem decides_pure {a : α} (h : P a) : Decides (pure a : ExceptT ε (Run K V) α) P := fun _ => h

theorem decides_throw {e : ε} (h : ∀ a, ¬ P a) :
    Decides (throw e : ExceptT ε (Run K V) α) P := fun _ => h

/-- Two runs one after the other, where the second one's results are not to be had without the
first one's. -/
theorem decides_bind (hx : Decides x P) (hg : ∀ a, P a → Decides (g a) R)
    (hneed : ∀ b, R b → ∃ a, P a) : Decides (x >>= g) R := by
  intro journal
  have hbind : (x >>= g).run = (x.run >>= ExceptT.bindCont g : Run K V _) := rfl
  rw [hbind]
  refine ends_bind_of (hx journal) ?_
  intro outcome after houtcome
  cases outcome with
  | ok a => exact hg a houtcome after
  | error e =>
    intro b hb
    obtain ⟨a, ha⟩ := hneed b hb
    exact houtcome a ha

end Decides

end OrderedMaps
