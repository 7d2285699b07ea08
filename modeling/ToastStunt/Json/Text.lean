import ToastStunt.Json.Codec

/-!
Each piece of text that `generate` writes is read back as what it was written for.
-/

namespace ToastStunt.Json

open Maps

theorem clamp_val (num : Num) : clamp num.val = (num, false) := by
  have := num.low
  have := num.high
  rw [clamp, dif_neg (by omega), dif_neg (by omega)]

theorem strtol_intLiteral (num : Num) (rest : CString)
    (ends : ∀ byte ∈ rest.head?, Decimal.isDigit byte = false) :
    strtol (intLiteral num ++ rest) = (num, false) := by
  by_cases negative : num.val < 0
  · have magnitude : -(num.val.natAbs : Int) = num.val := by omega
    have read := Decimal.leading_digits num.val.natAbs ends
    have literal : intLiteral num = 45 :: Decimal.digits num.val.natAbs := if_pos negative
    generalize num.val.natAbs = size at *
    simp [strtol, literal, isSpace, read, magnitude, clamp_val]
  · have magnitude : (num.val.natAbs : Int) = num.val := by omega
    obtain ⟨byte, later, digits, isDigit⟩ := Decimal.digits_head num.val.natAbs
    have read := Decimal.leading_digits num.val.natAbs ends
    have bounds : 48 ≤ byte ∧ byte ≤ 57 := by simpa [Decimal.isDigit] using isDigit
    have above {bound : UInt8} (below : bound < 48) : bound < byte :=
      UInt8.lt_of_lt_of_le below bounds.1
    have notSign : byte ≠ 45 ∧ byte ≠ 43 :=
      ⟨(UInt8.ne_of_lt (above (by decide))).symm, (UInt8.ne_of_lt (above (by decide))).symm⟩
    have notSpace : isSpace byte = false := by
      have notBlank : byte ≠ 32 := (UInt8.ne_of_lt (above (by decide))).symm
      have notControl : ¬byte ≤ 13 := UInt8.not_le.mpr (above (by decide))
      simp [isSpace, notBlank, notControl]
    rw [digits, List.cons_append] at read
    have literal : intLiteral num = byte :: later := (if_neg negative).trans digits
    generalize num.val.natAbs = size at *
    simp [strtol, literal, notSpace, notSign, read, magnitude, clamp_val]

theorem suffix_ends (tag : Tag) : ∀ byte ∈ tag.suffix.head?, Decimal.isDigit byte = false := by
  cases tag <;> decide +kernel

theorem suffix_tagged (text : CString) (tag other : Tag) :
    other.suffix.isSuffixOf (text ++ tag.suffix) = decide (other = tag) := by
  have apart : ∀ a b : Tag, a.suffix <:+ b.suffix → a = b := by
    intro a b
    cases a <;> cases b <;> decide
  rw [Bool.eq_iff_iff, List.isSuffixOf_iff_suffix, decide_eq_true_iff]
  constructor
  · intro suffix
    rcases List.suffix_or_suffix_of_suffix suffix (List.suffix_append text tag.suffix) with
      inside | inside
    · exact apart other tag inside
    · exact (apart tag other inside).symm
  · rintro rfl
    exact List.suffix_append text other.suffix

theorem validType_tagged (text : CString) (tag : Tag) :
    validType (text ++ tag.suffix) = some (tag, text) := by
  cases tag <;> simp [validType, suffix_tagged]

theorem parseError_errorName (err : Error) : parseError (errorName err) = some err := by
  cases err <;> decide

section

variable (strtod : CString → Option Double)

theorem handleString_obj (obj : Num) :
    handleString strtod .embeddedTypes (tagged .embeddedTypes .obj (objLiteral obj)) = .obj obj := by
  have read := strtol_intLiteral obj (Tag.suffix .obj) (suffix_ends .obj)
  have typed := validType_tagged (objLiteral obj) .obj
  rw [objLiteral, List.cons_append] at typed
  simp [handleString, tagged, appendType, objLiteral, typed, stripHash, read]

theorem handleString_int (num : Num) :
    handleString strtod .embeddedTypes (tagged .embeddedTypes .int (intLiteral num)) = .int num := by
  have read := strtol_intLiteral num (Tag.suffix .int) (suffix_ends .int)
  simp [handleString, tagged, appendType, validType_tagged, read]

theorem handleString_err (err : Error) :
    handleString strtod .embeddedTypes (tagged .embeddedTypes .err (errorName err)) = .err err := by
  simp [handleString, tagged, appendType, validType_tagged, parseError_errorName]

theorem handleString_str (str : CString) :
    handleString strtod .embeddedTypes (guarded .embeddedTypes str) = .str str := by
  cases typed : validType str with
  | none => simp [handleString, guarded, typed]
  | some found => simp [handleString, guarded, typed, appendType, validType_tagged]

theorem handleNumber_intLiteral (num : Num) :
    handleNumber strtod true (intLiteral num) =
      if minint ≤ num.val then some (.int num) else (strtod (intLiteral num)).map .float := by
  have read := strtol_intLiteral num [] nofun
  rw [List.append_nil] at read
  have atMost : num.val ≤ maxint := Int.le_of_lt_add_one num.high
  simp [handleNumber, read, atMost]

end

end ToastStunt.Json
