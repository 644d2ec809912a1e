import OrderedMaps.Text.Literal

/-!
# Listings

The written forms of collections.

* `Listing.list`: a list, in brackets.
* `Listing.entries`: the entries of a map, in braces, on one line.
* `Listing.entryLines`: the entries of a map, in braces, one to a line.
-/

namespace OrderedMaps.Listing

variable {K V : Type} [Literal K] [Literal V]

/-- The elements in brackets, with commas between them. -/
def list (xs : List K) : String :=
  "[" ++ ", ".intercalate (xs.map Literal.text) ++ "]"

/-- A key, a colon and a value. -/
def entry (e : K × V) : String := Literal.text e.1 ++ ": " ++ Literal.text e.2

/-- The entries in braces, with commas between them. -/
def entries (es : List (K × V)) : String :=
  "\x7b" ++ ", ".intercalate (es.map entry) ++ "\x7d"

/-- The entries in braces, each on a line of its own, indented and followed by a comma. Without
entries there is nothing but the braces. -/
def entryLines (es : List (K × V)) : String :=
  if es.isEmpty then "\x7b\x7d"
  else "\x7b\n" ++ String.join (es.map fun e => "    " ++ entry e ++ ",\n") ++ "\x7d"

end OrderedMaps.Listing
