import OrderedMaps.Proofs.Contract.Change
import OrderedMaps.Proofs.Run

/-!
# Effects of calls

What each call of the contract answers and does to the entries of a map, for any order whatsoever:
the vocabulary in which both kinds of map are described. As long as the order can be trusted, there
is only one effect that a call can have on ascending entries, which is that of the plain list.

* `Effect`: the effect of a call on the entries.
* `Effect.eq_reference`, `Effect.ascending`: under a lawful order, the effect is that of the plain
  list, and the entries go on ascending.
* `performAll_eq_reference`: a map each of whose calls has its effect answers all calls of a run as
  the plain list does.
-/

namespace OrderedMaps

variable {K V : Type} {trust : Prop} {cmp : K → K → Ordering}

/-- Entries are written one after the other. The number counts those that were inserted. -/
inductive WrittenAll (trust : Prop) (cmp : K → K → Ordering) :
    List (K × V) → List (K × V) → Nat → List (K × V) → Prop
  | nil {entries : List (K × V)} : WrittenAll trust cmp [] entries 0 entries
  | cons {key : K} {value : V} {more entries entries' entries'' : List (K × V)}
      {answer : Option V} {added : Nat}
      (first : Written trust cmp key value entries answer entries')
      (rest : WrittenAll trust cmp more entries' added entries'') :
      WrittenAll trust cmp ((key, value) :: more) entries
        (if answer.isNone then added + 1 else added) entries''

/-- What a call answers and does to the entries, and the values that it shows to its update
function. -/
def Effect (trust : Prop) (cmp : K → K → Ordering) (entries : List (K × V)) :
    Call K V → Answer K V → List (K × V) → List V → Prop
  | .insert key value, answer, entries', seen =>
      ∃ old, Written trust cmp key value entries old entries' ∧ answer = .value? old ∧ seen = []
  | .insertIfNew key value, answer, entries', seen =>
      seen = [] ∧
        ((∃ v, Found trust cmp key entries (some v) ∧ answer = .value? (some v) ∧
            entries' = entries) ∨
          Found trust cmp key entries none ∧ answer = .value? none ∧
            ∃ old, Written trust cmp key value entries old entries')
  | .insertMany new, answer, entries', seen =>
      ∃ added, WrittenAll trust cmp new entries added entries' ∧ answer = .count added ∧ seen = []
  | .erase key, answer, entries', seen =>
      ∃ old, Removed trust cmp key entries old entries' ∧
        answer = Reference.orRefuse .value .keyNotFound old ∧ seen = []
  | .modify key f, answer, entries', seen =>
      (Found trust cmp key entries none ∧ answer = .refused .keyNotFound ∧ entries' = entries ∧
          seen = []) ∨
        ∃ old, Found trust cmp key entries (some old) ∧ seen = [old] ∧
          match f old with
          | (value, true) =>
              answer = .value? (some value) ∧
                Written trust cmp key value entries (some old) entries'
          | (_, false) =>
              answer = .value? none ∧ ∃ removed, Removed trust cmp key entries removed entries'
  | .get key, answer, entries', seen =>
      ∃ v, Found trust cmp key entries v ∧ entries' = entries ∧
        answer = Reference.orRefuse .value .keyNotFound v ∧ seen = []
  | .getD key value, answer, entries', seen =>
      ∃ v, Found trust cmp key entries v ∧ entries' = entries ∧
        answer = .value (v.getD value) ∧ seen = []
  | .contains key, answer, entries', seen =>
      ∃ v, Found trust cmp key entries v ∧ entries' = entries ∧
        answer = .flag v.isSome ∧ seen = []
  | .range low high, answer, entries', seen =>
      entries' = entries ∧ seen = [] ∧
        (trust → answer = (Reference.perform cmp entries (.range low high)).1)
  | call, answer, entries', seen =>
      (answer, entries') = Reference.perform cmp entries call ∧ seen = []

/-- Results that answer the same are the same, if no result answers a refusal. -/
theorem Answer.ofExcept_injective {α : Type} {f : α → Answer K V} (hf : Function.Injective f)
    (hrefused : ∀ a error, f a ≠ .refused error) : Function.Injective (Answer.ofExcept f) := by
  intro first second h
  cases first with
  | ok a =>
    cases second with
    | ok b => exact congrArg Except.ok (hf h)
    | error error => exact absurd h (hrefused a error)
  | error error =>
    cases second with
    | ok b => exact absurd h.symm (hrefused b error)
    | error error' => exact congrArg Except.error (Answer.refused.inj h)

/-! ## The effect under an order that can be trusted -/

theorem WrittenAll.length_eq {new entries entries' : List (K × V)} {added : Nat}
    (h : WrittenAll trust cmp new entries added entries') :
    entries'.length = entries.length + added := by
  induction h with
  | nil => rfl
  | cons first rest ih =>
    rw [ih, first.length_eq]
    split <;> omega

theorem WrittenAll.eq_insertMany [Std.TransCmp cmp] {new entries entries' : List (K × V)}
    {added : Nat} (h : WrittenAll True cmp new entries added entries')
    (hasc : Ascending cmp entries) :
    Reference.insertMany cmp new entries = (added, entries') ∧ Ascending cmp entries' := by
  induction h with
  | nil => exact ⟨rfl, hasc⟩
  | cons first rest ih =>
    obtain ⟨hanswer, hentries⟩ := first.eq_insert hasc
    obtain ⟨hmany, hasc'⟩ := ih (first.ascending hasc)
    refine ⟨?_, hasc'⟩
    simp only [Reference.insertMany, ← hentries, ← hanswer, hmany]

theorem Effect.eq_reference [Std.TransCmp cmp] {entries entries' : List (K × V)}
    {call : Call K V} {answer : Answer K V} {seen : List V}
    (h : Effect True cmp entries call answer entries' seen) (hasc : Ascending cmp entries) :
    Reference.perform cmp entries call = (answer, entries') ∧
      Reference.shown cmp entries call = seen ∧ Ascending cmp entries' := by
  cases call with
  | insert key value =>
    obtain ⟨old, hwritten, rfl, rfl⟩ := h
    obtain ⟨hold, hentries⟩ := hwritten.eq_insert hasc
    exact ⟨by rw [Reference.perform, hold, hentries], rfl, hwritten.ascending hasc⟩
  | insertIfNew key value =>
    obtain ⟨rfl, ⟨v, hfound, rfl, rfl⟩ | ⟨hfound, rfl, old, hwritten⟩⟩ := h
    · exact ⟨by rw [Reference.perform, ← hfound.eq_lookup hasc], rfl, hasc⟩
    · refine ⟨?_, rfl, hwritten.ascending hasc⟩
      rw [Reference.perform, ← hfound.eq_lookup hasc, (hwritten.eq_insert hasc).2]
  | insertMany new =>
    obtain ⟨added, hwritten, rfl, rfl⟩ := h
    obtain ⟨hmany, hasc'⟩ := hwritten.eq_insertMany hasc
    exact ⟨by rw [Reference.perform, hmany], rfl, hasc'⟩
  | erase key =>
    obtain ⟨old, hremoved, rfl, rfl⟩ := h
    obtain ⟨hold, hentries⟩ := hremoved.eq_erase hasc
    exact ⟨by rw [Reference.perform, hold, hentries], rfl, hremoved.ascending hasc⟩
  | modify key f =>
    rcases h with ⟨hfound, rfl, rfl, rfl⟩ | ⟨old, hfound, rfl, h⟩
    · have hlookup := hfound.eq_lookup hasc
      exact ⟨by rw [Reference.perform, ← hlookup], by rw [Reference.shown, ← hlookup]; rfl, hasc⟩
    · have hlookup := hfound.eq_lookup hasc
      have hseen : Reference.shown cmp entries (.modify key f) = [old] := by
        rw [Reference.shown, ← hlookup]
        rfl
      rcases hf : f old with ⟨value, _ | _⟩
      · rw [hf] at h
        obtain ⟨rfl, removed, hremoved⟩ := h
        refine ⟨?_, hseen, hremoved.ascending hasc⟩
        simp only [Reference.perform, ← hlookup, hf, (hremoved.eq_erase hasc).2]
      · rw [hf] at h
        obtain ⟨rfl, hwritten⟩ := h
        refine ⟨?_, hseen, hwritten.ascending hasc⟩
        simp only [Reference.perform, ← hlookup, hf, (hwritten.eq_insert hasc).2]
  | get key =>
    obtain ⟨v, hfound, rfl, rfl, rfl⟩ := h
    exact ⟨by rw [Reference.perform, ← hfound.eq_lookup hasc], rfl, hasc⟩
  | getD key value =>
    obtain ⟨v, hfound, rfl, rfl, rfl⟩ := h
    exact ⟨by rw [Reference.perform, ← hfound.eq_lookup hasc], rfl, hasc⟩
  | contains key =>
    obtain ⟨v, hfound, rfl, rfl, rfl⟩ := h
    exact ⟨by rw [Reference.perform, ← hfound.eq_lookup hasc], rfl, hasc⟩
  | range low high =>
    obtain ⟨rfl, rfl, hanswer⟩ := h
    refine ⟨?_, rfl, hasc⟩
    rw [hanswer trivial]
    simp only [Reference.perform]
    split <;> rfl
  | clear =>
    obtain ⟨hperform, rfl⟩ := h
    obtain ⟨rfl, rfl⟩ := Prod.mk.inj hperform
    exact ⟨rfl, rfl, List.Pairwise.nil⟩
  | size | isEmpty | visit | toList | keys | values | minEntry | maxEntry =>
    obtain ⟨hperform, rfl⟩ := h
    obtain ⟨rfl, rfl⟩ := Prod.mk.inj hperform
    exact ⟨rfl, rfl, hasc⟩

/-- As long as the order can be trusted, every call leaves ascending entries. -/
theorem Effect.ascending {entries entries' : List (K × V)} {call : Call K V} {answer : Answer K V}
    {seen : List V} (h : Effect trust cmp entries call answer entries' seen)
    (hlawful : trust → Std.TransCmp cmp) (hasc : trust → Ascending cmp entries) :
    trust → Ascending cmp entries' := by
  intro htrust
  obtain rfl : trust = True := eq_true htrust
  have := hlawful trivial
  exact (h.eq_reference (hasc trivial)).2.2

/-! ## Runs -/

/-- If each call on a map that `Holds` some entries has an effect on these entries, then a run of
calls is a run on the plain list. -/
theorem performAll_eq_reference {M : Type} [MapLike M K V] [Std.TransCmp cmp]
    {Holds : M → List (K × V) → Prop}
    (hstep : ∀ map entries call journal, Holds map entries → Ascending cmp entries →
      Ends (perform map call) journal fun outcome after => ∃ entries' seen,
        Effect True cmp entries call outcome.1 entries' seen ∧ Holds outcome.2 entries' ∧
          after.shown = journal.shown ++ seen.toArray)
    (calls : List (Call K V)) (map : M) (entries : List (K × V)) (journal : Journal K V)
    (hholds : Holds map entries) (hasc : Ascending cmp entries) :
    Ends (performAll map calls) journal fun outcome after =>
      outcome.1 = (Reference.performAll cmp entries calls).1 ∧
        Holds outcome.2 (Reference.performAll cmp entries calls).2 ∧
        Ascending cmp (Reference.performAll cmp entries calls).2 ∧
        after.shown = journal.shown ++ (Reference.shownAll cmp entries calls).toArray := by
  induction calls generalizing map entries journal with
  | nil => exact ⟨rfl, hholds, hasc, by simp [Reference.shownAll]⟩
  | cons call calls ih =>
    refine ends_bind_of (hstep map entries call journal hholds hasc) ?_
    rintro ⟨answer, map'⟩ journal' ⟨entries', seen, heffect, hholds', hshown⟩
    obtain ⟨hperform, hseen, hasc'⟩ := heffect.eq_reference hasc
    refine ends_bind_of (ih map' entries' journal' hholds' hasc') ?_
    rintro ⟨answers, map''⟩ journal'' ⟨hanswers, hholds'', hasc'', hshown'⟩
    simp only [Reference.performAll, Reference.shownAll, hperform, hseen, ends_pure]
    refine ⟨?_, hholds'', hasc'', ?_⟩
    · rw [← hanswers]
    · rw [hshown', hshown]
      simp

end OrderedMaps
