import Mathlib

/-!
# The order of UTF-8 texts

UTF-8 writes a larger scalar value with more bytes, which the first of them tells, or with as many
bytes, of which the first different one is larger. Strings are therefore in the same order if they
are compared byte by byte and if they are compared scalar value by scalar value.

* `toList_toUTF8`: the bytes of a string, one scalar value after the other.
* `encode_lt`: the bytes of a smaller scalar value come first, whatever follows.
* `toUTF8_lt_iff`: strings are in the order of their bytes.
-/

namespace OrderedMaps

/-! ## Bytes -/

theorem byteArray_toList (bytes : ByteArray) : bytes.toList = bytes.data.toList := by
  have hloop : ∀ i read, ByteArray.toList.loop bytes i read =
      read.reverse ++ bytes.data.toList.drop i := by
    intro i read
    fun_induction ByteArray.toList.loop bytes i read with
    | case1 i read hlt ih =>
      have hlength : i < bytes.data.toList.length := by simpa using hlt
      rw [ih, List.drop_eq_getElem_cons hlength]
      simp [ByteArray.get!, hlt]
    | case2 i read hge =>
      rw [List.drop_eq_nil_of_le (by simpa using Nat.le_of_not_lt hge)]
      simp
  rw [ByteArray.toList, hloop]
  rfl

/-- The bytes of a string are those of its scalar values. -/
theorem toList_toUTF8 (s : String) :
    s.toUTF8.toList = s.toList.flatMap String.utf8EncodeChar := by
  rw [byteArray_toList, String.toUTF8, ← String.utf8Encode_toList, List.utf8Encode,
    List.toList_data_toByteArray]

theorem toList_toUTF8_injective : Function.Injective fun s : String => s.toUTF8.toList := by
  intro s s' h
  simp only [byteArray_toList, Array.toList_inj] at h
  exact String.toByteArray_inj.mp (ByteArray.ext h)

/-! ## Scalar values -/

/-- The bytes of a smaller scalar value come first, whatever follows. -/
theorem encode_lt {c d : Char} (h : c < d) (rest rest' : List UInt8) :
    String.utf8EncodeChar c ++ rest < String.utf8EncodeChar d ++ rest' := by
  have hlt : c.val.toNat < d.val.toNat := h
  have hmost : d.val.toNat < 0x110000 := by
    rcases d.valid with hlow | hhigh <;> omega
  have hbyte : ∀ n < 256, (UInt8.ofNat n).toNat = n := by
    intro n hn
    rw [UInt8.toNat_ofNat', Nat.mod_eq_of_lt hn]
  simp only [String.utf8EncodeChar]
  generalize c.val.toNat = v at hlt
  generalize d.val.toNat = w at hlt hmost
  -- one case for each two numbers of bytes
  split_ifs <;> simp (disch := omega) only [List.cons_append, List.cons_lt_cons_iff,
    UInt8.lt_iff_toNat_lt, ← UInt8.toNat_inj, hbyte]
  any_goals omega
  -- of four bytes each, the first different group of six bits decides
  rcases Nat.lt_or_ge (v / 0x40000) (w / 0x40000) with hfirst | hfirst
  · omega
  · rcases Nat.lt_or_ge (v / 0x1000) (w / 0x1000) with hsecond | hsecond
    · omega
    · rcases Nat.lt_or_ge (v / 0x40) (w / 0x40) with hthird | hthird <;> omega

theorem flatMap_encode_lt {cs ds : List Char} (h : cs < ds) :
    cs.flatMap String.utf8EncodeChar < ds.flatMap String.utf8EncodeChar := by
  induction h with
  | @nil d ds =>
    obtain ⟨byte, bytes, hbytes⟩ := List.exists_cons_of_ne_nil (@String.utf8EncodeChar_ne_nil d)
    rw [List.flatMap_nil, List.flatMap_cons, hbytes]
    exact List.nil_lt_cons _ _
  | rel hlt => exact encode_lt hlt _ _
  | @cons c cs ds _ ih =>
    rw [List.flatMap_cons, List.flatMap_cons]
    induction String.utf8EncodeChar c with
    | nil => exact ih
    | cons byte bytes ih' => exact List.cons_lt_cons_iff.mpr (.inr ⟨rfl, ih'⟩)

/-- Strings are in the order of their bytes. -/
theorem toUTF8_lt_iff {s s' : String} : s.toUTF8.toList < s'.toUTF8.toList ↔ s < s' := by
  have hencode : ∀ {s s' : String}, s < s' → s.toUTF8.toList < s'.toUTF8.toList := by
    intro s s' h
    rw [toList_toUTF8, toList_toUTF8]
    exact flatMap_encode_lt (String.lt_iff_toList_lt.mp h)
  constructor
  · intro h
    rcases lt_trichotomy s s' with hlt | rfl | hgt
    · exact hlt
    · exact absurd h (List.lt_irrefl _)
    · exact absurd h (List.lt_asymm (hencode hgt))
  · exact hencode

end OrderedMaps
