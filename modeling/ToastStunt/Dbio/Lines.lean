import ToastStunt.Json.Text

/-!
The line by line input and output of db_io.cc: numbers and strings.
-/

namespace ToastStunt.Dbio

open Json

/-- Reading from the rest of the file. It fails at the end of the file, and where `buffer[len - 1]`
would be before the buffer. -/
abbrev Reading (α : Type) := StateT CString Option α

theorem Reading.pure_eq {α : Type} (value : α) (input : CString) :
    (pure value : Reading α) input = some (value, input) := rfl

def newline : UInt8 := 10

def takeLine : Nat → CString → CString × CString
  | 0, input => ([], input)
  | _, [] => ([], [])
  | limit + 1, byte :: input =>
      if byte = newline then ([newline], input)
      else
        let (line, rest) := takeLine limit input
        (byte :: line, rest)

def fgets (size : Nat) : Reading CString := fun input =>
  if input = [] then none else some (takeLine (size - 1) input)

def cString (buffer : CString) : CString := buffer.takeWhile (· ≠ 0)

def dbioReadNum : Reading Num := do
  let s ← fgets 22
  return (strtol s).1

/-- The jumps to `try_again`, each of which reads at least one more byte. -/
def readPieces : Nat → CString → Reading CString
  | 0, _ => failure
  | fuel + 1, str => do
      let buffer := cString (← fgets 1024)
      match buffer.getLast? with
      | none => failure
      | some last =>
          if buffer.length = 1023 && last ≠ newline then readPieces fuel (str ++ buffer)
          else if last = newline then return str ++ buffer.dropLast
          else return str ++ buffer

def dbioReadString : Reading CString := fun input => readPieces (input.length + 1) [] input

def dbioWriteNum (num : Num) : CString := intLiteral num ++ [newline]

def dbioWriteString (str : CString) : CString := str ++ [newline]

def NewlineFree (str : CString) : Prop := newline ∉ str

/-! What is written as a line is read back from it. -/

theorem takeLine_long {limit : Nat} {line : CString} (rest : CString) (free : NewlineFree line)
    (fits : line.length = limit) : takeLine limit (line ++ rest) = (line, rest) := by
  induction line generalizing limit with
  | nil =>
      obtain rfl : limit = 0 := by simpa using fits.symm
      rfl
  | cons byte line ih =>
      obtain ⟨limit, rfl⟩ : ∃ less, limit = less + 1 := ⟨line.length, by simpa using fits.symm⟩
      rw [NewlineFree, List.mem_cons, not_or] at free
      simp [takeLine, Ne.symm free.1, ih free.2 (by simpa using fits)]

theorem takeLine_short {limit : Nat} {line : CString} (rest : CString) (free : NewlineFree line)
    (short : line.length < limit) :
    takeLine limit (line ++ newline :: rest) = (line ++ [newline], rest) := by
  induction line generalizing limit with
  | nil =>
      obtain ⟨limit, rfl⟩ : ∃ less, limit = less + 1 := ⟨limit - 1, by simp at short; omega⟩
      simp [takeLine]
  | cons byte line ih =>
      obtain ⟨limit, rfl⟩ : ∃ less, limit = less + 1 := ⟨limit - 1, by simp at short; omega⟩
      rw [NewlineFree, List.mem_cons, not_or] at free
      simp [takeLine, Ne.symm free.1, ih free.2 (by simpa using short)]

theorem newlineFree_intLiteral (num : Num) : NewlineFree (intLiteral num) := by
  have notDigit : ∀ n, NewlineFree (Decimal.digits n) := fun n member => by
    have := (Decimal.digits_spec n).2.1 newline member
    revert this
    decide
  rw [NewlineFree, intLiteral]
  split
  · simpa [NewlineFree, newline] using notDigit _
  · exact notDigit _

theorem intLiteral_length (num : Num) : (intLiteral num).length ≤ 20 := by
  have low := num.low
  have high := num.high
  have bounded : (Decimal.digits num.val.natAbs).length ≤ 19 :=
    Decimal.digits_length (by omega) (by decide)
  rw [intLiteral]
  split
  · simp only [List.length_cons]
    omega
  · omega

theorem dbioReadNum_written (num : Num) (rest : CString) :
    dbioReadNum (dbioWriteNum num ++ rest) = some (num, rest) := by
  have line := @takeLine_short 21 _ rest (newlineFree_intLiteral num)
    (Nat.lt_succ_of_le (intLiteral_length num))
  have read := strtol_intLiteral num [newline] (by decide +kernel)
  simp [dbioReadNum, dbioWriteNum, fgets, line, read, bind, StateT.bind, Reading.pure_eq]

theorem cString_eq {str : CString} (string : 0 ∉ str) : cString str = str := by
  induction str with
  | nil => rfl
  | cons byte str ih =>
      rw [List.mem_cons, not_or] at string
      have rest := ih string.2
      simp only [cString] at rest ⊢
      rw [List.takeWhile_cons_of_pos (by simpa using Ne.symm string.1), rest]

theorem readPieces_turn {fuel : Nat} {done input line rest : CString} {last : UInt8}
    (nonempty : input ≠ []) (taken : takeLine 1023 input = (line, rest))
    (ends : (cString line).getLast? = some last) :
    readPieces (fuel + 1) done input =
      if (cString line).length = 1023 && last ≠ newline then
        readPieces fuel (done ++ cString line) rest
      else if last = newline then some (done ++ (cString line).dropLast, rest)
      else some (done ++ cString line, rest) := by
  have read : fgets 1024 input = some (line, rest) := by simp [fgets, nonempty, taken]
  simp only [readPieces, bind, StateT.bind, read, Option.bind_some, ends]
  split <;> try split
  all_goals rfl

theorem readPieces_written {fuel : Nat} {str : CString} (done rest : CString)
    (free : NewlineFree str) (string : 0 ∉ str) (enough : str.length < fuel) :
    readPieces fuel done (str ++ newline :: rest) = some (done ++ str, rest) := by
  induction fuel generalizing str done with
  | zero => omega
  | succ fuel ih =>
      by_cases short : str.length < 1023
      · have buffer : cString (str ++ [newline]) = str ++ [newline] :=
          cString_eq (by simpa [newline] using string)
        rw [readPieces_turn (by simp) (takeLine_short rest free short)
          (by rw [buffer, List.getLast?_concat])]
        simp [buffer]
      · -- a piece that fills the buffer without a newline
        obtain ⟨piece, more, rfl, size⟩ :
            ∃ piece more, str = piece ++ more ∧ piece.length = 1023 :=
          ⟨str.take 1023, str.drop 1023, (List.take_append_drop _ _).symm,
            List.length_take_of_le (by omega)⟩
        rw [NewlineFree, List.mem_append, not_or] at free
        rw [List.mem_append, not_or] at string
        have buffer := cString_eq string.1
        obtain ⟨first, last, rfl⟩ : ∃ first last, piece = first ++ [last] :=
          ⟨piece.dropLast, piece.getLast (by rintro rfl; simp at size),
            (List.dropLast_append_getLast _).symm⟩
        have other : last ≠ newline := by
          rintro rfl
          exact free.1 (by simp)
        have further := ih (done ++ (first ++ [last])) free.2 string.2 (by
          simp only [List.length_append, List.length_singleton] at enough size
          omega)
        rw [List.append_assoc, readPieces_turn (by simp)
          (takeLine_long (more ++ newline :: rest) free.1 size)
          (by rw [buffer, List.getLast?_concat]), buffer, if_pos (by simp [size, other]), further,
          List.append_assoc done]

theorem dbioReadString_written {str : CString} (rest : CString) (free : NewlineFree str)
    (string : 0 ∉ str) : dbioReadString (dbioWriteString str ++ rest) = some (str, rest) := by
  rw [dbioReadString, dbioWriteString, List.append_assoc, List.singleton_append]
  exact readPieces_written [] rest free string (by
    simp only [List.length_append]
    omega)

/-! No string that is read has a newline in it. -/

theorem takeLine_free (limit : Nat) (input : CString) :
    NewlineFree (takeLine limit input).1 ∨
      ∃ line, NewlineFree line ∧ (takeLine limit input).1 = line ++ [newline] := by
  induction input generalizing limit with
  | nil => cases limit <;> exact .inl nofun
  | cons byte input ih =>
      cases limit with
      | zero => exact .inl nofun
      | succ limit =>
          by_cases ends : byte = newline
          · exact .inr ⟨[], nofun, by simp [takeLine, ends]⟩
          · rcases ih limit with free | ⟨line, free, same⟩
            · exact .inl (by simpa [takeLine, ends, NewlineFree, Ne.symm ends] using free)
            · refine .inr ⟨byte :: line, ?_, by simp [takeLine, ends, same]⟩
              simpa [NewlineFree, Ne.symm ends] using free

theorem NewlineFree.of_subset {str part : CString} (free : NewlineFree str) (subset : part ⊆ str) :
    NewlineFree part := fun member => free (subset member)

theorem NewlineFree.append {left right : CString} (leftFree : NewlineFree left)
    (rightFree : NewlineFree right) : NewlineFree (left ++ right) := by
  simp only [NewlineFree, List.mem_append, not_or]
  exact ⟨leftFree, rightFree⟩

theorem piece_free {limit : Nat} {input : CString} {last : UInt8}
    (ends : (cString (takeLine limit input).1).getLast? = some last) :
    NewlineFree (cString (takeLine limit input).1).dropLast ∧
      (last ≠ newline → NewlineFree (cString (takeLine limit input).1)) := by
  have front : cString (takeLine limit input).1 <+: (takeLine limit input).1 :=
    List.takeWhile_prefix _
  rcases takeLine_free limit input with free | ⟨line, free, same⟩
  · have wholeFree := free.of_subset front.subset
    exact ⟨wholeFree.of_subset (List.dropLast_subset _), fun _ => wholeFree⟩
  · rw [same] at front ends ⊢
    rcases List.prefix_concat_iff.mp front with whole | part
    · rw [whole, List.getLast?_concat] at ends
      rw [whole, List.dropLast_concat]
      exact ⟨free, fun other => absurd (Option.some.inj ends).symm other⟩
    · have partFree := free.of_subset part.subset
      exact ⟨partFree.of_subset (List.dropLast_subset _), fun _ => partFree⟩

theorem readPieces_free {fuel : Nat} {done input str rest : CString} (free : NewlineFree done)
    (ran : readPieces fuel done input = some (str, rest)) : NewlineFree str := by
  induction fuel generalizing done input with
  | zero => cases ran
  | succ fuel ih =>
      have nonempty : input ≠ [] := by
        rintro rfl
        cases ran
      have read : fgets 1024 input = some (takeLine 1023 input) := by simp [fgets, nonempty]
      cases ends : (cString (takeLine 1023 input).1).getLast? with
      | none =>
          simp only [readPieces, bind, StateT.bind, read, Option.bind_some, ends] at ran
          cases ran
      | some last =>
          obtain ⟨frontFree, wholeFree⟩ := piece_free ends
          rw [readPieces_turn nonempty rfl ends] at ran
          split at ran
          · rename_i full
            simp only [Bool.and_eq_true, decide_eq_true_eq] at full
            exact ih (free.append (wholeFree full.2)) ran
          · split at ran
            · obtain ⟨rfl, rfl⟩ := Prod.mk.inj (Option.some.inj ran)
              exact free.append frontFree
            · rename_i other
              obtain ⟨rfl, rfl⟩ := Prod.mk.inj (Option.some.inj ran)
              exact free.append (wholeFree other)

theorem dbioReadString_free {input str rest : CString}
    (ran : dbioReadString input = some (str, rest)) : NewlineFree str :=
  readPieces_free (by simp [NewlineFree]) ran

end ToastStunt.Dbio
