import Mathlib.Algebra.Order.Field.Power
import Mathlib.Data.Int.ModEq
import Mathlib.Data.Rat.Floor
import ToastStunt.Numbers.Modulus

/-!
`do_divide` and `do_power` of numbers.cc, and the integers for which they are the quotient and
the power.
-/

namespace ToastStunt.Numbers

open Maps

/-- What the compiler and the C library do with doubles. `pow` also says whether it sets `errno`. -/
structure DoublePowers where
  div : Double → Double → Double
  pow : Double → Double → Double × Bool
  ofNum : Num → Double
  isReal : Double → Bool

def minint : Num := wrap (-9223372036854775807)

def quotient (n d : Num) : Except Trap Num :=
  if n.val = -2 ^ 63 ∧ d.val = -1 then .error .divide else .ok (wrap (n.val.tdiv d.val))

def doDivide (doubles : DoublePowers) : Number → Number → Except Trap Answer
  | .int n, .int d =>
      if d.val = 0 then .ok (.err .div)
      else if n = minint ∧ d.val = -1 then .ok (.int minint)
      else do
        let q ← quotient n d
        return .int q
  | .float n, .float d =>
      if d.rank = 0 then .ok (.err .div)
      else
        let q := doubles.div n d
        if doubles.isReal q then .ok (.float q) else .ok (.err .float)
  | _, _ => .ok (.err .type)

def powerLoop (a r : Num) (b : Nat) : Num :=
  if b = 0 then r
  else powerLoop (wrap (a.val * a.val)) (if b % 2 = 1 then wrap (r.val * a.val) else r) (b / 2)
termination_by b

def negativePower (a b : Num) : Answer :=
  if a.val = -1 then .int (if b.val % 2 = 1 then wrap 1 else wrap (-1))
  else if a.val = 0 then .err .div
  else if a.val = 1 then .int (wrap 1)
  else .int (wrap 0)

def floatPower (doubles : DoublePowers) (lhs rhs : Double) : Answer :=
  let (d, errno) := doubles.pow lhs rhs
  if errno || !doubles.isReal d then .err .float else .float d

def doPower (doubles : DoublePowers) : Number → Number → Answer
  | .int a, .int b =>
      if b.val < 0 then negativePower a b else .int (powerLoop a (wrap 1) b.val.toNat)
  | .float lhs, .int rhs => floatPower doubles lhs (doubles.ofNum rhs)
  | .float lhs, .float rhs => floatPower doubles lhs rhs
  | .int _, .float _ => .err .type

/-! What they should return. -/

def truncate (q : ℚ) : Int := if 0 ≤ q then ⌊q⌋ else ⌈q⌉

def DividesExactly (doubles : DoublePowers) (a b : Num) : Prop :=
  b.val ≠ 0 → doDivide doubles (.int a) (.int b) = .ok (.int (wrap (a.val.tdiv b.val)))

/-- The power modulo 2^64; for a negative exponent the rational power, rounded towards zero. -/
structure RaisesExactly (doubles : DoublePowers) (a b : Num) : Prop where
  nonnegative : 0 ≤ b.val →
    doPower doubles (.int a) (.int b) = .int (wrap (a.val ^ b.val.toNat))
  zero : b.val < 0 → a.val = 0 → doPower doubles (.int a) (.int b) = .err .div
  negative : b.val < 0 → a.val ≠ 0 →
    ∃ r : Num, doPower doubles (.int a) (.int b) = .int r ∧
      r.val = truncate ((a.val : ℚ) ^ b.val)

theorem wrap_modEq (n : Int) : (wrap n).val ≡ n [ZMOD 2 ^ 64] := Int.bmod_emod

theorem eq_wrap_of_modEq {r : Num} {n : Int} (same : r.val ≡ n [ZMOD 2 ^ 64]) : r = wrap n := by
  apply Num.ext_val
  have low := r.low
  have high := r.high
  have bounds := bmod_bounds n
  have whole : r.val ≡ n.bmod (2 ^ 64) [ZMOD 2 ^ 64] := same.trans (wrap_modEq n).symm
  change r.val = n.bmod (2 ^ 64)
  have divides := Int.ModEq.dvd whole
  omega

theorem minint_val : minint.val = -2 ^ 63 + 1 := by decide

theorem doDivide_exact_iff (doubles : DoublePowers) (a b : Num) :
    DividesExactly doubles a b ↔ ¬(b.val = -1 ∧ a.val ≤ -2 ^ 63 + 1) := by
  have low := a.low
  constructor
  · rintro divides ⟨one, least⟩
    have answer := divides (by omega)
    have two : a.val = -2 ^ 63 ∨ a.val = -2 ^ 63 + 1 := by omega
    rcases two with bottom | above
    · have other : a ≠ minint := fun same => by
        rw [same, minint_val] at bottom
        omega
      simp [doDivide, quotient, one, bottom, other, bind, Except.bind] at answer
    · obtain rfl : a = minint := Num.ext_val (above.trans minint_val.symm)
      have guarded : doDivide doubles (.int minint) (.int b) = .ok (.int minint) := by
        simp [doDivide, one]
      have same := guarded.symm.trans answer
      rw [one, Except.ok.injEq, Answer.int.injEq] at same
      exact absurd same (by decide)
  · intro fits nonzero
    have other : ¬(a = minint ∧ b.val = -1) := by
      rintro ⟨rfl, one⟩
      exact fits ⟨one, by decide⟩
    have inside : ¬(a.val = -2 ^ 63 ∧ b.val = -1) := by omega
    simp only [doDivide, nonzero, if_false, other, quotient, inside]
    rfl

theorem powerLoop_modEq (a r : Num) (b : Nat) :
    (powerLoop a r b).val ≡ r.val * a.val ^ b [ZMOD 2 ^ 64] := by
  induction b using Nat.strong_induction_on generalizing a r with
  | _ b ih =>
      rw [powerLoop]
      by_cases done : b = 0
      · simp [done, Int.ModEq.refl]
      · rw [if_neg done]
        have later := ih (b / 2) (by omega) (wrap (a.val * a.val))
          (if b % 2 = 1 then wrap (r.val * a.val) else r)
        have squared : (wrap (a.val * a.val)).val ^ (b / 2) ≡ a.val ^ (2 * (b / 2)) [ZMOD 2 ^ 64] := by
          rw [pow_mul, pow_two]
          exact (wrap_modEq _).pow _
        by_cases odd : b % 2 = 1
        · rw [if_pos odd] at later ⊢
          have split : r.val * a.val ^ b = r.val * a.val * a.val ^ (2 * (b / 2)) := by
            rw [mul_assoc, ← pow_succ', show 2 * (b / 2) + 1 = b by omega]
          rw [split]
          exact later.trans ((wrap_modEq _).mul squared)
        · rw [if_neg odd] at later ⊢
          rw [show 2 * (b / 2) = b by omega] at squared
          exact later.trans (squared.mul_left _)

theorem powerLoop_eq (a : Num) (b : Nat) : powerLoop a (wrap 1) b = wrap (a.val ^ b) := by
  apply eq_wrap_of_modEq
  have kept := powerLoop_modEq a (wrap 1) b
  have one : (wrap 1).val = 1 := by decide
  rwa [one, one_mul] at kept

theorem truncate_small {q : ℚ} (small : |q| < 1) : truncate q = 0 := by
  obtain ⟨low, high⟩ := abs_lt.mp small
  rw [truncate]
  split
  · rename_i nonnegative
    exact Int.floor_eq_zero_iff.mpr ⟨nonnegative, high⟩
  · rename_i negative
    exact Int.ceil_eq_zero_iff.mpr ⟨low, le_of_not_ge negative⟩

theorem truncate_intCast (n : Int) : truncate n = n := by
  rw [truncate]
  split
  · exact Int.floor_intCast n
  · exact Int.ceil_intCast n

theorem abs_zpow_lt_one {a b : Int} (large : 1 < |a|) (negative : b < 0) : |(a : ℚ) ^ b| < 1 := by
  rw [abs_zpow]
  exact zpow_lt_one_of_neg₀ (by exact_mod_cast large) negative

theorem neg_one_zpow (b : Int) : ((-1 : Int) : ℚ) ^ b = ((if b % 2 = 1 then -1 else 1 : Int) : ℚ) := by
  by_cases odd : b % 2 = 1
  · simp [odd, (Int.odd_iff.mpr odd).neg_one_zpow]
  · have even : b % 2 = 0 := by omega
    simp [odd, (Int.even_iff.mpr even).neg_one_zpow]

theorem doPower_exact_iff (doubles : DoublePowers) (a b : Num) :
    RaisesExactly doubles a b ↔ ¬(a.val = -1 ∧ b.val < 0) := by
  constructor
  · rintro raises ⟨minus, below⟩
    obtain ⟨r, ran, value⟩ := raises.negative below (by omega)
    rw [minus, neg_one_zpow, truncate_intCast] at value
    simp only [doPower, below, if_true, negativePower, minus, Answer.int.injEq] at ran
    subst ran
    by_cases odd : b.val % 2 = 1
    · simp only [odd, if_true] at value
      exact absurd value (by decide)
    · simp only [odd, if_false] at value
      exact absurd value (by decide)
  · intro other
    refine ⟨?_, ?_, ?_⟩
    · intro nonnegative
      have above : ¬b.val < 0 := by omega
      simp only [doPower, above, if_false, powerLoop_eq]
    · intro below zero
      simp [doPower, below, negativePower, zero]
    · intro below nonzero
      have notMinus : a.val ≠ -1 := fun minus => other ⟨minus, below⟩
      by_cases one : a.val = 1
      · refine ⟨wrap 1, by simp [doPower, below, negativePower, one], ?_⟩
        rw [one, Int.cast_one, one_zpow]
        exact (truncate_intCast 1).symm
      · refine ⟨wrap 0, by simp [doPower, below, negativePower, notMinus, nonzero, one], ?_⟩
        rw [truncate_small (abs_zpow_lt_one (lt_abs.mpr (by omega)) below)]
        decide

/-- Division is exact unless it is of the least number or its successor by -1, and
exponentiation unless it is of -1 by a negative number. -/
theorem divide_power_exact_iff (doubles : DoublePowers) (a b : Num) :
    (DividesExactly doubles a b ∧ RaisesExactly doubles a b) ↔
      ¬(b.val = -1 ∧ a.val ≤ -2 ^ 63 + 1) ∧ ¬(a.val = -1 ∧ b.val < 0) :=
  and_congr (doDivide_exact_iff doubles a b) (doPower_exact_iff doubles a b)

/-- The inverse of -1 comes out as 1, and the least number divided by -1 is a trap. -/
theorem minus_one_not_exact : ¬∀ (doubles : DoublePowers) (a b : Num),
    DividesExactly doubles a b ∧ RaisesExactly doubles a b := by
  intro all
  have both := all ⟨fun x _ => x, fun x _ => (x, false), fun _ => 0, fun _ => true⟩
    (wrap (-1)) (wrap (-1))
  obtain ⟨r, ran, value⟩ := both.2.negative (by decide) (by decide)
  have one : doPower ⟨fun x _ => x, fun x _ => (x, false), fun _ => 0, fun _ => true⟩
      (.int (wrap (-1))) (.int (wrap (-1))) = .int (wrap 1) := by
    simp only [doPower]
    decide
  obtain rfl : wrap 1 = r := Answer.int.inj (one.symm.trans ran)
  rw [show (wrap (-1)).val = -1 by decide, neg_one_zpow, truncate_intCast] at value
  exact absurd value (by decide)

end ToastStunt.Numbers
