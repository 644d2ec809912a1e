import OrderedMaps.Degree
import OrderedMaps.Journal
import OrderedMaps.MapError

/-!
# Settings

What a map is to be made with.

* `Settings`: an order, which may still be missing, and the number asked for as degree.
* `Settings.requireComparator`, `Settings.requireDegree`: the two checks; a refusal is noted.
* `Settings.text`: the written form.
-/

namespace OrderedMaps

/-- What a map is to be made with. -/
structure Settings (K : Type) where
  /-- The order of the keys, if one was chosen. -/
  comparator : Option (Comparator K) := none
  /-- The number asked for as degree, which need not be one. -/
  degree : Nat := Degree.standard.val

namespace Settings

variable {K V : Type}

/-- The settings with the given order. -/
def withComparator (settings : Settings K) (comparator : Comparator K) : Settings K :=
  { settings with comparator := some comparator }

/-- The settings with the given number as degree. -/
def withDegree (settings : Settings K) (degree : Nat) : Settings K :=
  { settings with degree }

/-- The order of the keys. -/
def requireComparator (settings : Settings K) :
    Run K V (Except MapError (Comparator K)) := do
  match settings.comparator with
  | some comparator => return .ok comparator
  | none =>
      record .refusedComparator
      return .error .missingComparator

def requireDegree (settings : Settings K) : Run K V (Except MapError Degree) := do
  match Degree.ofNat? settings.degree with
  | some degree => return .ok degree
  | none =>
      record (.refusedDegree settings.degree)
      return .error (.degreeOutOfRange settings.degree)

/-- The written form, in which an order shows only that it is there. -/
def text (settings : Settings K) : String :=
  let comparator := if settings.comparator.isSome then "Some(\"<fn>\")" else "None"
  s!"TreeConfig \x7b comparator: {comparator}, degree: {settings.degree} \x7d"

end Settings

end OrderedMaps
