import Mathlib.Data.List.Basic

/-!
Byte strings and the case-insensitive comparisons of utils.cc. A string is the
list of its bytes before the terminating NUL.
-/

namespace ToastStunt

abbrev CString := List UInt8

def cmap (byte : UInt8) : UInt8 :=
  if 65 ≤ byte ∧ byte ≤ 90 then byte + 32 else byte

/-- `cmap` is a table of signed characters, so bytes from 128 on are added sign-extended. -/
def strHash (name : CString) : BitVec 32 :=
  name.foldl (fun ans byte => (ans <<< 3) + (ans >>> 28) + (cmap byte).toBitVec.signExtend 32) 0

/-- Only the sign of the result is documented. -/
def strcasecmp : CString → CString → Int
  | [], [] => 0
  | [], _ :: _ => -1
  | _ :: _, [] => 1
  | a :: left, b :: right =>
      if cmap a = cmap b then strcasecmp left right
      else if cmap a < cmap b then -1 else 1

def caseFold (name : CString) : CString := name.map cmap

theorem strcasecmp_eq_zero (left right : CString) :
    strcasecmp left right = 0 ↔ caseFold left = caseFold right := by
  induction left generalizing right with
  | nil => cases right <;> simp [strcasecmp, caseFold]
  | cons a left ih =>
      cases right with
      | nil => simp [strcasecmp, caseFold]
      | cons b right =>
          by_cases same : cmap a = cmap b
          · simpa [strcasecmp, caseFold, same] using ih right
          · simp only [strcasecmp, same, if_false, caseFold, List.map_cons, List.cons.injEq,
              false_and, iff_false]
            split <;> omega

theorem strcasecmp_flip (left right : CString) :
    strcasecmp left right < 0 ↔ 0 < strcasecmp right left := by
  induction left generalizing right with
  | nil => cases right <;> simp [strcasecmp]
  | cons a left ih =>
      cases right with
      | nil => simp [strcasecmp]
      | cons b right =>
          by_cases same : cmap a = cmap b
          · simpa [strcasecmp, same] using ih right
          · by_cases less : cmap a < cmap b
            · simp [strcasecmp, same, less, Ne.symm same, UInt8.not_lt.mpr (UInt8.le_of_lt less)]
            · have greater : cmap b < cmap a :=
                UInt8.lt_of_le_of_ne (UInt8.not_lt.mp less) (Ne.symm same)
              simp [strcasecmp, same, less, Ne.symm same, greater]

theorem strcasecmp_trans (left middle right : CString) (first : strcasecmp left middle ≤ 0)
    (second : strcasecmp middle right ≤ 0) : strcasecmp left right ≤ 0 := by
  induction left generalizing middle right with
  | nil => cases right <;> simp [strcasecmp]
  | cons a left ih =>
      match middle, right, first, second with
      | b :: middle, c :: right, first, second =>
          have inOrder {x y : UInt8} {xs ys : CString} (atMost : strcasecmp (x :: xs) (y :: ys) ≤ 0) :
              cmap x < cmap y ∨ cmap x = cmap y ∧ strcasecmp xs ys ≤ 0 := by
            by_cases same : cmap x = cmap y
            · exact .inr ⟨same, by simpa [strcasecmp, same] using atMost⟩
            · refine .inl ?_
              by_contra notLess
              simp [strcasecmp, same, notLess] at atMost
          rcases inOrder first with less | ⟨same, rest⟩
          · have below : cmap a < cmap c := by
              rcases inOrder second with less' | ⟨same', _⟩
              · exact UInt8.lt_trans less less'
              · exact same' ▸ less
            simp [strcasecmp, UInt8.ne_of_lt below, below]
          · rcases inOrder second with less' | ⟨same', rest'⟩
            · have below : cmap a < cmap c := same ▸ less'
              simp [strcasecmp, UInt8.ne_of_lt below, below]
            · simpa [strcasecmp, same, same'] using ih middle right rest rest'

theorem strHash_congr {left right : CString} (same : caseFold left = caseFold right) :
    strHash left = strHash right := by
  have fold (name : CString) : strHash name = (caseFold name).foldl
      (fun (ans : BitVec 32) byte =>
        (ans <<< 3) + (ans >>> 28) + byte.toBitVec.signExtend 32) 0 := by
    rw [caseFold, List.foldl_map]
    rfl
  rw [fold, fold, same]

end ToastStunt
