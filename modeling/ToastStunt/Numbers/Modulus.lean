import ToastStunt.Maps.Keys

/-!
`do_modulus` of numbers.cc, and the integers for which its formula is the modulus that rounds the
quotient down. What the C library does with doubles is a parameter.
-/

namespace ToastStunt.Numbers

open Maps

inductive Number where
  | int (num : Num)
  | float (fnum : Double)

inductive Answer where
  | int (num : Num)
  | float (fnum : Double)
  | err (err : Error)
  deriving DecidableEq

/-- The signal that the processor raises when a quotient does not fit. -/
inductive Trap where
  | divide
  deriving DecidableEq

structure DoubleArithmetic where
  fmod : Double → Double → Double
  add : Double → Double → Double

theorem bmod_bounds (n : Int) : -2 ^ 63 ≤ n.bmod (2 ^ 64) ∧ n.bmod (2 ^ 64) < 2 ^ 63 := by
  have low := @Int.le_bmod n (2 ^ 64) (by decide)
  have high := @Int.bmod_lt n (2 ^ 64) (by decide)
  omega

def wrap (n : Int) : Num := ⟨n.bmod (2 ^ 64), (bmod_bounds n).1, (bmod_bounds n).2⟩

def remainder (n d : Num) : Except Trap Num :=
  if n.val = -2 ^ 63 ∧ d.val = -1 then .error .divide else .ok (wrap (n.val.tmod d.val))

def doModulus (doubles : DoubleArithmetic) : Number → Number → Except Trap Answer
  | .int n, .int d =>
      if d.val = 0 then .ok (.err .div)
      else do
        let r ← remainder n d
        let result ← remainder (wrap (r.val + d.val)) d
        return .int result
  | .float n, .float d =>
      if d.rank = 0 then .ok (.err .div)
      else .ok (.float (doubles.fmod (doubles.add (doubles.fmod n d) d) d))
  | _, _ => .ok (.err .type)

/-- `r` is `a` modulo `b`, with the sign of `b`. -/
structure FlooredModulus (a b r : Num) : Prop where
  multiple : b.val ∣ a.val - r.val
  smaller : r.val.natAbs < b.val.natAbs
  sign : r.val = 0 ∨ r.val.sign = b.val.sign

theorem Num.ext_val {a b : Num} (same : a.val = b.val) : a = b := by
  cases a
  cases b
  simp only at same
  simp [same]

theorem wrap_val {n : Int} (low : -2 ^ 63 ≤ n) (high : n < 2 ^ 63) : (wrap n).val = n :=
  Int.bmod_eq_of_le (by omega) (by omega)

/-! The modulus and the remainder by the one that is never negative. -/

section

variable {a b : Int}

theorem fmod_pos (positive : 0 < b) : a.fmod b = a % b :=
  Int.fmod_eq_emod_of_nonneg a (Int.le_of_lt positive)

theorem fmod_neg (negative : b < 0) : a.fmod b = if a % b = 0 then 0 else a % b + b := by
  rw [Int.fmod_eq_emod]
  by_cases divides : b ∣ a
  · simp [divides, Int.emod_eq_zero_of_dvd divides]
  · have rest : ¬a % b = 0 := fun zero => divides (Int.dvd_of_emod_eq_zero zero)
    simp [divides, rest, Int.not_le.mpr negative]

theorem tmod_eq (a b : Int) : a.tmod b = if 0 ≤ a ∨ a % b = 0 then a % b else a % b - b.natAbs := by
  rw [Int.tmod_eq_emod]
  by_cases divides : b ∣ a
  · simp [divides, Int.emod_eq_zero_of_dvd divides]
  · have rest : ¬a % b = 0 := fun zero => divides (Int.dvd_of_emod_eq_zero zero)
    by_cases sign : 0 ≤ a <;> simp [divides, rest, sign]

theorem emod_bounds (nonzero : b ≠ 0) : 0 ≤ a % b ∧ a % b < b.natAbs :=
  ⟨Int.emod_nonneg a nonzero, Int.emod_lt a nonzero⟩

end

theorem wrap_above {n : Int} (low : 2 ^ 63 ≤ n) (high : n < 2 ^ 64 + 2 ^ 63) :
    (wrap n).val = n - 2 ^ 64 := by
  simp only [wrap, Int.bmod_def]
  omega

theorem wrap_below {n : Int} (high : n < -2 ^ 63) (low : -2 ^ 64 - 2 ^ 63 ≤ n) :
    (wrap n).val = n + 2 ^ 64 := by
  simp only [wrap, Int.bmod_def]
  omega

theorem flooredModulus_iff {a b r : Num} (nonzero : b.val ≠ 0) :
    FlooredModulus a b r ↔ r.val = a.val.fmod b.val := by
  have bounds := emod_bounds (a := a.val) nonzero
  constructor
  · rintro ⟨⟨k, multiple⟩, smaller, sign⟩
    have rest : r.val % b.val = a.val % b.val := by
      have sum : a.val = r.val + b.val * k := by omega
      rw [sum, Int.add_mul_emod_self_left]
    rcases Int.lt_or_gt_of_ne nonzero with negative | positive
    · have low : r.val ≤ 0 := by
        rcases sign with zero | sign
        · omega
        · rw [Int.sign_eq_neg_one_of_neg negative, Int.sign_eq_neg_one_iff_neg] at sign
          omega
      rw [fmod_neg negative, ← rest]
      rcases Int.lt_or_eq_of_le low with below | zero
      · have shifted : r.val % b.val = r.val + -b.val := by
          rw [← Int.emod_neg, ← Int.add_emod_right]
          exact Int.emod_eq_of_lt (by omega) (by omega)
        rw [shifted, if_neg (by omega)]
        omega
      · rw [zero, Int.zero_emod, if_pos rfl]
    · have high : 0 ≤ r.val := by
        rcases sign with zero | sign
        · omega
        · rw [Int.sign_eq_one_of_pos positive, Int.sign_eq_one_iff_pos] at sign
          omega
      rw [fmod_pos positive, ← rest, Int.emod_eq_of_lt high (by omega)]
  · intro same
    refine ⟨?_, ?_, ?_⟩
    · rw [same, ← Int.mul_fdiv_self]
      exact Int.dvd_mul_right _ _
    · rcases Int.lt_or_gt_of_ne nonzero with negative | positive
      · rw [same, fmod_neg negative]
        split <;> omega
      · rw [same, fmod_pos positive]
        omega
    · rcases Int.lt_or_gt_of_ne nonzero with negative | positive
      · rw [same, fmod_neg negative, Int.sign_eq_neg_one_of_neg negative, Int.sign_eq_neg_one_iff_neg]
        split <;> omega
      · rw [same, fmod_pos positive, Int.sign_eq_one_of_pos positive, Int.sign_eq_one_iff_pos]
        omega

theorem FlooredModulus.unique {a b r r' : Num} (nonzero : b.val ≠ 0) (first : FlooredModulus a b r)
    (second : FlooredModulus a b r') : r' = r :=
  Num.ext_val (((flooredModulus_iff nonzero).mp second).trans
    ((flooredModulus_iff nonzero).mp first).symm)

theorem remainder_eq {n d : Num} (nonzero : d.val ≠ 0) (fits : ¬(n.val = -2 ^ 63 ∧ d.val = -1)) :
    ∃ r : Num, remainder n d = .ok r ∧ r.val = n.val.tmod d.val := by
  have bounds := emod_bounds (a := n.val) nonzero
  have same := tmod_eq n.val d.val
  have low := d.low
  have high := d.high
  refine ⟨wrap (n.val.tmod d.val), if_neg fits, wrap_val ?_ ?_⟩ <;> rw [same] <;> split <;> omega

section

variable {a b : Int}

/-- The remainder plus the divisor has the sign of the divisor, unless the latter is lost. -/
theorem sum_tmod (nonzero : b ≠ 0) : (a.tmod b + b).tmod b = a.fmod b := by
  have bounds := emod_bounds (a := a) nonzero
  have truncated := tmod_eq a b
  have rest : (a.tmod b + b) % b = a % b := by
    rw [Int.add_emod_right, truncated]
    split
    · exact Int.emod_emod _ _
    · rw [Int.sub_emod, Int.emod_emod, Int.emod_eq_zero_of_dvd (Int.dvd_natAbs.mpr (Int.dvd_refl b)),
        Int.sub_zero, Int.emod_emod]
  rw [tmod_eq, rest]
  rcases Int.lt_or_gt_of_ne nonzero with negative | positive
  · rw [fmod_neg negative]
    split at truncated <;> split <;> split <;> omega
  · rw [fmod_pos positive]
    split at truncated <;> split <;> omega

theorem wrapped_tmod {s : Int} (nonzero : b ≠ 0) (other : (0 < b ∧ s < 0 ∧ 0 < a % b) ∨
    (b < 0 ∧ 0 < s ∧ 0 < a % b)) : s.tmod b ≠ a.fmod b := by
  have bounds := emod_bounds (a := a) nonzero
  have bounds' := emod_bounds (a := s) nonzero
  have truncated := tmod_eq s b
  rcases other with ⟨positive, below, rest⟩ | ⟨negative, above, rest⟩
  · rw [fmod_pos positive]
    split at truncated <;> omega
  · rw [fmod_neg negative]
    split at truncated <;> split <;> omega

end

/-- The numbers for which neither the quotient nor the remainder plus the divisor overflows. -/
structure Representable (a b : Num) : Prop where
  quotient : ¬(a.val = -2 ^ 63 ∧ b.val = -1)
  positive : 0 < a.val → 0 < b.val → a.val % b.val + b.val < 2 ^ 63
  negative : a.val < 0 → b.val < 0 → -a.val % -b.val + -b.val ≤ 2 ^ 63

theorem sum_bounds {a b : Num} (nonzero : b.val ≠ 0) :
    (-2 ^ 63 ≤ a.val.tmod b.val + b.val ∧ a.val.tmod b.val + b.val < 2 ^ 63) ↔
      (0 < a.val → 0 < b.val → a.val % b.val + b.val < 2 ^ 63) ∧
      (a.val < 0 → b.val < 0 → -a.val % -b.val + -b.val ≤ 2 ^ 63) := by
  have low := b.low
  have high := b.high
  by_cases sign : 0 ≤ a.val
  · have bounds := emod_bounds (a := a.val) nonzero
    rw [Int.tmod_eq_emod_of_nonneg sign]
    constructor
    · rintro ⟨_, above⟩
      exact ⟨fun _ _ => above, fun negative => by omega⟩
    · rintro ⟨positive, _⟩
      by_cases zero : a.val = 0
      · rw [zero, Int.zero_emod]
        omega
      · by_cases divisor : 0 < b.val
        · exact ⟨by omega, positive (by omega) divisor⟩
        · omega
  · have bounds := emod_bounds (a := -a.val) nonzero
    have opposite : a.val.tmod b.val = -(-a.val % b.val) := by
      rw [← Int.tmod_eq_emod_of_nonneg (by omega), Int.neg_tmod, Int.neg_neg]
    rw [opposite, Int.emod_neg]
    constructor
    · rintro ⟨below, _⟩
      exact ⟨fun positive => by omega, fun _ _ => by omega⟩
    · rintro ⟨_, negative⟩
      by_cases divisor : b.val < 0
      · have fits := negative (by omega) divisor
        omega
      · omega

def ReturnsFlooredModulus (doubles : DoubleArithmetic) (a b : Num) : Prop :=
  ∃ r, doModulus doubles (.int a) (.int b) = .ok (.int r) ∧ FlooredModulus a b r ∧
    ∀ r', FlooredModulus a b r' → r' = r

theorem doModulus_eq (doubles : DoubleArithmetic) {a b : Num} (nonzero : b.val ≠ 0)
    (fits : ¬(a.val = -2 ^ 63 ∧ b.val = -1)) :
    ∃ r : Num, doModulus doubles (.int a) (.int b) = .ok (.int r) ∧
      r.val = (wrap (a.val.tmod b.val + b.val)).val.tmod b.val := by
  obtain ⟨r, ran, value⟩ := remainder_eq nonzero fits
  have sum : ¬((wrap (r.val + b.val)).val = -2 ^ 63 ∧ b.val = -1) := by
    rintro ⟨least, one⟩
    rw [value, one, Int.tmod_neg, Int.tmod_one] at least
    exact absurd least (by decide)
  obtain ⟨result, ran', value'⟩ := remainder_eq nonzero sum
  refine ⟨result, ?_, value ▸ value'⟩
  simp only [doModulus, if_neg nonzero, ran, ran', bind, Except.bind]
  rfl

theorem doModulus_floored_iff (doubles : DoubleArithmetic) (a b : Num) (nonzero : b.val ≠ 0) :
    ReturnsFlooredModulus doubles a b ↔ Representable a b := by
  have bounds := sum_bounds (a := a) nonzero
  constructor
  · rintro ⟨r, ran, floored, _⟩
    have fits : ¬(a.val = -2 ^ 63 ∧ b.val = -1) := by
      intro trapped
      simp [doModulus, remainder, trapped, bind, Except.bind] at ran
    obtain ⟨r', ran', value⟩ := doModulus_eq doubles nonzero fits
    obtain rfl : r = r' := by
      rw [ran] at ran'
      simpa using ran'
    suffices inside : -2 ^ 63 ≤ a.val.tmod b.val + b.val ∧ a.val.tmod b.val + b.val < 2 ^ 63 from
      ⟨fits, (bounds.mp inside).1, (bounds.mp inside).2⟩
    by_contra outside
    have rest := emod_bounds (a := a.val) nonzero
    have truncated := tmod_eq a.val b.val
    have low := b.low
    have high := b.high
    refine wrapped_tmod nonzero ?_ (value.symm.trans ((flooredModulus_iff nonzero).mp floored))
    by_cases above : 2 ^ 63 ≤ a.val.tmod b.val + b.val
    · rw [wrap_above above (by split at truncated <;> omega)]
      split at truncated <;> omega
    · rw [wrap_below (by omega) (by split at truncated <;> omega)]
      split at truncated <;> omega
  · intro fits
    obtain ⟨r, ran, value⟩ := doModulus_eq doubles nonzero fits.quotient
    have inside := bounds.mpr ⟨fits.positive, fits.negative⟩
    rw [wrap_val inside.1 inside.2, sum_tmod nonzero] at value
    have floored := (flooredModulus_iff nonzero).mpr value
    exact ⟨r, ran, floored, fun r' other => floored.unique nonzero other⟩

/-- With the greatest divisor the sum is lost already for 2, and the result is 0. -/
theorem doModulus_two_maxint : ¬∀ (doubles : DoubleArithmetic) (a b : Num), b.val ≠ 0 →
    ReturnsFlooredModulus doubles a b := by
  intro all
  obtain ⟨r, ran, floored, _⟩ := all ⟨fun x _ => x, fun x _ => x⟩ (wrap 2) (wrap (2 ^ 63 - 1)) (by decide)
  obtain rfl : wrap 0 = r := by
    have zero : doModulus ⟨fun x _ => x, fun x _ => x⟩ (.int (wrap 2)) (.int (wrap (2 ^ 63 - 1))) =
        .ok (.int (wrap 0)) := by decide
    rw [zero] at ran
    simpa using ran
  exact absurd ((flooredModulus_iff (by decide)).mp floored) (by decide)

theorem doModulus_floored_minus_seven :
    ReturnsFlooredModulus ⟨fun x _ => x, fun x _ => x⟩ (wrap (-7)) (wrap 3) ↔
      Representable (wrap (-7)) (wrap 3) :=
  doModulus_floored_iff ⟨fun x _ => x, fun x _ => x⟩ (wrap (-7)) (wrap 3) (by decide)

example : doModulus ⟨fun x _ => x, fun x _ => x⟩ (.int (wrap (-2 ^ 63))) (.int (wrap (-1))) =
    .error .divide := by decide

end ToastStunt.Numbers
