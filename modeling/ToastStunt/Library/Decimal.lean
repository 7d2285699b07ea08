import Mathlib.Algebra.Order.Ring.Int
import Mathlib.Data.List.Basic

/-!
Decimal numerals as bytes, and reading them back.
-/

namespace Decimal

def digit (n : Nat) : UInt8 := (48 + n).toUInt8

def isDigit (byte : UInt8) : Bool := 48 ≤ byte && byte ≤ 57

def digitsWithin : Nat → Nat → List UInt8
  | 0, _ => []
  | fuel + 1, n => if n < 10 then [digit n] else digitsWithin fuel (n / 10) ++ [digit (n % 10)]

def digits (n : Nat) : List UInt8 := digitsWithin (n + 1) n

def value (text : List UInt8) : Nat := text.foldl (fun acc byte => 10 * acc + (byte.toNat - 48)) 0

def leading (text : List UInt8) : Nat := value (text.takeWhile isDigit)

theorem digit_toNat {n : Nat} (small : n < 10) : (digit n).toNat = 48 + n := by
  simp only [digit, Nat.toUInt8, UInt8.toNat_ofNat']
  omega

theorem isDigit_digit {n : Nat} (small : n < 10) : isDigit (digit n) = true := by
  have := digit_toNat small
  simp only [isDigit, Bool.and_eq_true, decide_eq_true_eq, UInt8.le_iff_toNat_le]
  constructor
  · change 48 ≤ (digit n).toNat
    omega
  · change (digit n).toNat ≤ 57
    omega

theorem digitsWithin_spec {fuel n : Nat} (enough : n < fuel) :
    value (digitsWithin fuel n) = n ∧ (∀ byte ∈ digitsWithin fuel n, isDigit byte = true) ∧
      digitsWithin fuel n ≠ [] := by
  induction fuel generalizing n with
  | zero => omega
  | succ fuel ih =>
      rw [digitsWithin]
      by_cases small : n < 10
      · rw [if_pos small]
        refine ⟨?_, ?_, by simp⟩
        · simp [value, digit_toNat small]
        · simpa using isDigit_digit small
      · rw [if_neg small]
        obtain ⟨higher, allDigits, _⟩ := ih (n := n / 10) (by omega)
        have last : n % 10 < 10 := Nat.mod_lt n (by decide)
        refine ⟨?_, ?_, by simp⟩
        · rw [value] at higher ⊢
          rw [List.foldl_append, higher]
          simp only [List.foldl_cons, List.foldl_nil, digit_toNat last]
          omega
        · intro byte member
          rcases List.mem_append.mp member with inside | only
          · exact allDigits byte inside
          · rw [List.mem_singleton.mp only]
            exact isDigit_digit last

theorem digits_spec (n : Nat) :
    value (digits n) = n ∧ (∀ byte ∈ digits n, isDigit byte = true) ∧ digits n ≠ [] :=
  digitsWithin_spec (Nat.lt_succ_self n)

theorem leading_digits (n : Nat) {rest : List UInt8}
    (ends : ∀ byte ∈ rest.head?, isDigit byte = false) : leading (digits n ++ rest) = n := by
  obtain ⟨whole, allDigits, _⟩ := digits_spec n
  have taken : (digits n ++ rest).takeWhile isDigit = digits n := by
    rw [List.takeWhile_append_of_pos allDigits]
    cases rest with
    | nil => simp
    | cons byte rest => simp [ends byte (by simp)]
  rw [leading, taken]
  exact whole

theorem digits_head (n : Nat) : ∃ byte rest, digits n = byte :: rest ∧ isDigit byte = true := by
  obtain ⟨_, allDigits, nonempty⟩ := digits_spec n
  cases same : digits n with
  | nil => exact absurd same nonempty
  | cons byte rest => exact ⟨byte, rest, rfl, allDigits byte (by simp [same])⟩

theorem digitsWithin_length {fuel n bound : Nat} (below : n < 10 ^ bound) (positive : 0 < bound) :
    (digitsWithin fuel n).length ≤ bound := by
  induction bound generalizing fuel n with
  | zero => omega
  | succ bound ih =>
      cases fuel with
      | zero => simp [digitsWithin]
      | succ fuel =>
          rw [digitsWithin]
          split
          · simp
          · rename_i large
            have fewer : n / 10 < 10 ^ bound := by
              rw [Nat.div_lt_iff_lt_mul (by decide)]
              rwa [Nat.pow_succ] at below
            have more : 0 < bound := by
              rcases Nat.eq_zero_or_pos bound with rfl | more
              · simp at below
                omega
              · exact more
            have := @ih fuel _ fewer more
            simp only [List.length_append, List.length_singleton]
            omega

theorem digits_length {n bound : Nat} (below : n < 10 ^ bound) (positive : 0 < bound) :
    (digits n).length ≤ bound := digitsWithin_length below positive

end Decimal
