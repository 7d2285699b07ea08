import ToastStunt.Dbio.Lines

/-!
`dbio_printf` and `dbio_scanf` of db_io.cc with formats of plain text and 64-bit numbers.
-/

namespace ToastStunt.Dbio

open Json

/-- A character of a format, or its `%` and `PRIdN`. -/
inductive Directive
  | text (byte : UInt8)
  | number
  deriving DecidableEq

def plain (text : CString) : List Directive := text.map .text

def dbioPrintf : List Directive → List Num → CString
  | [], _ => []
  | .text byte :: format, nums => byte :: dbioPrintf format nums
  | .number :: _, [] => []
  | .number :: format, num :: nums => intLiteral num ++ dbioPrintf format nums

def scanNumber (input : CString) : Option (Num × CString) :=
  match input.dropWhile isSpace with
  | [] => none
  | byte :: rest =>
      let digits := if byte = 45 || byte = 43 then rest else byte :: rest
      match digits.takeWhile Decimal.isDigit with
      | [] => none
      | _ => some ((strtol (byte :: rest)).1, digits.dropWhile Decimal.isDigit)

/-- The numbers that are assigned, up to the first mismatch. A space of the format stands for any
white space of the input. -/
def dbioScanf : List Directive → CString → List Num × CString
  | [], input => ([], input)
  | .text byte :: format, input =>
      if isSpace byte then dbioScanf format (input.dropWhile isSpace)
      else
        match input with
        | [] => ([], [])
        | first :: rest => if first = byte then dbioScanf format rest else ([], input)
  | .number :: format, input =>
      match scanNumber input with
      | none => ([], input)
      | some (num, rest) => ((dbioScanf format rest).1.cons num, (dbioScanf format rest).2)

def endsNumber : List Directive → Bool
  | .text byte :: _ => !Decimal.isDigit byte
  | _ => false

def endsSpace : List Directive → Bool
  | .text byte :: _ => !isSpace byte
  | _ => true

def scannable : List Directive → Bool
  | [] => true
  | .text byte :: format => (!isSpace byte || endsSpace format) && scannable format
  | .number :: format => endsNumber format && scannable format

def numerals (format : List Directive) : Nat := format.count .number

theorem intLiteral_head (num : Num) : ∃ byte rest, intLiteral num = byte :: rest ∧
    isSpace byte = false ∧ ((byte = 45 ∧ rest = Decimal.digits num.val.natAbs) ∨
      (Decimal.isDigit byte = true ∧ byte ≠ 45 ∧ byte ≠ 43 ∧
        byte :: rest = Decimal.digits num.val.natAbs)) := by
  by_cases negative : num.val < 0
  · exact ⟨45, _, if_pos negative, by decide, .inl ⟨rfl, rfl⟩⟩
  · obtain ⟨byte, rest, digits, isDigit⟩ := Decimal.digits_head num.val.natAbs
    have bounds : 48 ≤ byte ∧ byte ≤ 57 := by simpa [Decimal.isDigit] using isDigit
    have above {bound : UInt8} (below : bound < 48) : bound < byte :=
      UInt8.lt_of_lt_of_le below bounds.1
    have notSpace : isSpace byte = false := by
      have notBlank : byte ≠ 32 := (UInt8.ne_of_lt (above (by decide))).symm
      have notControl : ¬byte ≤ 13 := UInt8.not_le.mpr (above (by decide))
      simp [isSpace, notBlank, notControl]
    exact ⟨byte, rest, (if_neg negative).trans digits, notSpace,
      .inr ⟨isDigit, (UInt8.ne_of_lt (above (by decide))).symm,
        (UInt8.ne_of_lt (above (by decide))).symm, digits.symm⟩⟩

theorem digits_split (n : Nat) {rest : CString}
    (ends : ∀ byte ∈ rest.head?, Decimal.isDigit byte = false) :
    (Decimal.digits n ++ rest).takeWhile Decimal.isDigit = Decimal.digits n ∧
      (Decimal.digits n ++ rest).dropWhile Decimal.isDigit = rest := by
  obtain ⟨-, allDigits, -⟩ := Decimal.digits_spec n
  rw [List.takeWhile_append_of_pos allDigits, List.dropWhile_append_of_pos allDigits]
  cases rest with
  | nil => simp
  | cons byte rest => simp [ends byte (by simp)]

theorem scanNumber_intLiteral (num : Num) {rest : CString}
    (ends : ∀ byte ∈ rest.head?, Decimal.isDigit byte = false) :
    scanNumber (intLiteral num ++ rest) = some (num, rest) := by
  have read := strtol_intLiteral num rest ends
  obtain ⟨taken, dropped⟩ := digits_split num.val.natAbs ends
  obtain ⟨byte, later, literal, notSpace, sign⟩ := intLiteral_head num
  rw [literal, List.cons_append] at read ⊢
  have start : (byte :: (later ++ rest)).dropWhile isSpace = byte :: (later ++ rest) := by
    rw [List.dropWhile_cons, notSpace, if_neg Bool.false_ne_true]
  have digits : (if byte = 45 || byte = 43 then later ++ rest else byte :: (later ++ rest)) =
      Decimal.digits num.val.natAbs ++ rest := by
    rcases sign with ⟨rfl, same⟩ | ⟨-, notMinus, notPlus, same⟩
    · simp [same]
    · simp [notMinus, notPlus, ← same]
  have someDigit := (Decimal.digits_spec num.val.natAbs).2.2
  simp only [scanNumber, start, digits, taken, dropped, read]

theorem printed_head {format : List Directive} (ends : endsNumber format = true) (nums : List Num)
    (rest : CString) :
    ∀ byte ∈ (dbioPrintf format nums ++ rest).head?, Decimal.isDigit byte = false := by
  cases format with
  | nil => cases ends
  | cons first format =>
      cases first with
      | number => cases ends
      | text byte => simpa [dbioPrintf, endsNumber] using ends

theorem printed_unspaced {format : List Directive} (ends : endsSpace format = true) {nums : List Num}
    (enough : nums.length = numerals format) (rest : CString) :
    ∃ rest', (dbioPrintf format nums ++ rest).dropWhile isSpace = dbioPrintf format nums ++ rest' := by
  cases format with
  | nil => exact ⟨rest.dropWhile isSpace, rfl⟩
  | cons first format =>
      refine ⟨rest, ?_⟩
      cases first with
      | text byte =>
          have notSpace : isSpace byte = false := by simpa [endsSpace] using ends
          simp [dbioPrintf, notSpace]
      | number =>
          cases nums with
          | nil => simp [numerals] at enough
          | cons num nums =>
              obtain ⟨byte, later, literal, notSpace, -⟩ := intLiteral_head num
              simp [dbioPrintf, literal, notSpace]

/-- What is printed in a format is scanned in it. -/
theorem dbioScanf_printed {format : List Directive} (fit : scannable format = true)
    {nums : List Num} (enough : nums.length = numerals format) (rest : CString) :
    ∃ rest', dbioScanf format (dbioPrintf format nums ++ rest) = (nums, rest') := by
  induction format generalizing nums rest with
  | nil =>
      cases nums with
      | nil => exact ⟨rest, rfl⟩
      | cons num nums => simp [numerals] at enough
  | cons first format ih =>
      cases first with
      | text byte =>
          rw [scannable, Bool.and_eq_true] at fit
          have enough' : nums.length = numerals format := by simpa [numerals] using enough
          by_cases space : isSpace byte = true
          · have ends : endsSpace format = true := by simpa [space] using fit.1
            obtain ⟨rest', same⟩ := printed_unspaced ends enough' rest
            obtain ⟨final, scanned⟩ := ih fit.2 enough' rest'
            exact ⟨final, by simp [dbioPrintf, dbioScanf, space, same, scanned]⟩
          · obtain ⟨final, scanned⟩ := ih fit.2 enough' rest
            exact ⟨final, by simp [dbioPrintf, dbioScanf, space, scanned]⟩
      | number =>
          rw [scannable, Bool.and_eq_true] at fit
          cases nums with
          | nil => simp [numerals] at enough
          | cons num nums =>
              have enough' : nums.length = numerals format := by simpa [numerals] using enough
              obtain ⟨final, scanned⟩ := ih fit.2 enough' rest
              refine ⟨final, ?_⟩
              rw [dbioPrintf, List.append_assoc, dbioScanf,
                scanNumber_intLiteral num (printed_head fit.1 nums rest)]
              simp [scanned]

end ToastStunt.Dbio
