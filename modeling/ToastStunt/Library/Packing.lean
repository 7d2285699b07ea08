import Mathlib.Data.List.Basic

/-!
Sparse arrays. Only the entries at the positions that a predicate selects are stored, one
after another; the entries at the other positions are blank.
-/

namespace Packing

variable {α : Type}

/-- The entries at the stored positions, the first entry being that of position `i`. -/
def pack (stored : Nat → Bool) : Nat → List α → List α
  | _, [] => []
  | i, x :: xs => if stored i then x :: pack stored (i + 1) xs else pack stored (i + 1) xs

def unpack (stored : Nat → Bool) (blank : α) : Nat → Nat → List α → List α
  | _, 0, _ => []
  | i, n + 1, xs =>
      if stored i then xs.headD blank :: unpack stored blank (i + 1) n xs.tail
      else blank :: unpack stored blank (i + 1) n xs

/-- How many of the `n` positions from `i` on are stored. -/
def rank (stored : Nat → Bool) : Nat → Nat → Nat
  | _, 0 => 0
  | i, n + 1 => (if stored i then 1 else 0) + rank stored (i + 1) n

variable {stored : Nat → Bool} {blank : α}

theorem length_unpack (i n : Nat) (xs : List α) : (unpack stored blank i n xs).length = n := by
  induction n generalizing i xs with
  | zero => rfl
  | succ n ih =>
      rw [unpack]
      split <;> simp [ih]

theorem mem_of_mem_pack {i : Nat} {x : α} {xs : List α} (member : x ∈ pack stored i xs) : x ∈ xs := by
  induction xs generalizing i with
  | nil => exact member
  | cons y ys ih =>
      rw [pack] at member
      split at member
      · rcases List.mem_cons.mp member with rfl | later
        · exact List.mem_cons_self
        · exact List.mem_cons_of_mem _ (ih later)
      · exact List.mem_cons_of_mem _ (ih member)

theorem length_pack (i : Nat) (xs : List α) : (pack stored i xs).length = rank stored i xs.length := by
  induction xs generalizing i with
  | nil => rfl
  | cons x xs ih =>
      rw [pack, List.length_cons, rank]
      split <;> simp [ih, Nat.add_comm]

theorem rank_le (i n : Nat) : rank stored i n ≤ n := by
  induction n generalizing i with
  | zero => exact Nat.le_refl 0
  | succ n ih =>
      have rest := ih (i + 1)
      rw [rank]
      split <;> omega

theorem rank_add (i m n : Nat) : rank stored i (m + n) = rank stored i m + rank stored (i + m) n := by
  induction m generalizing i with
  | zero => simp [rank]
  | succ m ih =>
      rw [Nat.add_right_comm m 1 n, rank, rank, ih, Nat.add_right_comm i 1 m, Nat.add_assoc i m,
        Nat.add_assoc]

theorem rank_congr {stored' : Nat → Bool} {i n : Nat}
    (agree : ∀ j, i ≤ j → j < i + n → stored j = stored' j) : rank stored i n = rank stored' i n := by
  induction n generalizing i with
  | zero => rfl
  | succ n ih =>
      rw [rank, rank, agree i (Nat.le_refl i) (by omega),
        ih fun j low high => agree j (by omega) (by omega)]

theorem rank_shift (i c n : Nat) :
    rank stored (i + c) n = rank (fun k => stored (k + c)) i n := by
  induction n generalizing i with
  | zero => rfl
  | succ n ih => rw [rank, rank, ← ih, Nat.add_right_comm]

theorem rank_all {i n : Nat} (all : ∀ j, i ≤ j → j < i + n → stored j = true) :
    rank stored i n = n := by
  induction n generalizing i with
  | zero => rfl
  | succ n ih =>
      rw [rank, all i (Nat.le_refl i) (by omega), ih fun j low high => all j (by omega) (by omega),
        if_pos rfl, Nat.add_comm]

theorem rank_none {i n : Nat} (none : ∀ j, i ≤ j → j < i + n → stored j = false) :
    rank stored i n = 0 := by
  induction n generalizing i with
  | zero => rfl
  | succ n ih =>
      rw [rank, none i (Nat.le_refl i) (by omega), ih fun j low high => none j (by omega) (by omega)]
      rfl

theorem unpack_pack {i : Nat} {xs : List α}
    (blanks : ∀ j, (bound : j < xs.length) → stored (i + j) = false → xs[j] = blank) :
    unpack stored blank i xs.length (pack stored i xs) = xs := by
  induction xs generalizing i with
  | nil => rfl
  | cons x xs ih =>
      have rest := ih (i := i + 1) fun j bound off => by
        have whole := blanks (j + 1) (Nat.succ_lt_succ bound)
        rw [← Nat.add_assoc, Nat.add_right_comm] at whole
        exact whole off
      rw [List.length_cons, pack, unpack]
      by_cases on : stored i = true
      · simp [on, rest]
      · rw [if_neg on, if_neg on, rest]
        have first := blanks 0 (Nat.succ_pos _) (by simpa using on)
        rw [List.getElem_cons_zero] at first
        rw [first]

theorem pack_unpack {i n : Nat} {xs : List α} (size : xs.length = rank stored i n) :
    pack stored i (unpack stored blank i n xs) = xs := by
  induction n generalizing i xs with
  | zero => exact (List.length_eq_zero_iff.mp size).symm
  | succ n ih =>
      rw [rank] at size
      rw [unpack]
      by_cases on : stored i = true
      · rw [if_pos on] at size ⊢
        cases xs with
        | nil =>
            rw [List.length_nil] at size
            omega
        | cons x xs =>
            rw [pack, if_pos on, List.headD_cons, List.tail_cons,
              ih (by rw [List.length_cons] at size; omega)]
      · rw [if_neg on] at size ⊢
        rw [pack, if_neg on, ih (by omega)]

theorem getElem?_unpack {i n : Nat} {xs : List α} (size : xs.length = rank stored i n) {j : Nat}
    (bound : j < n) : (unpack stored blank i n xs)[j]? =
      if stored (i + j) then xs[rank stored i j]? else some blank := by
  induction n generalizing i xs j with
  | zero => exact absurd bound (Nat.not_lt_zero j)
  | succ n ih =>
      rw [rank] at size
      rw [unpack]
      cases j with
      | zero =>
          by_cases on : stored i = true
          · rw [if_pos on] at size
            cases xs with
            | nil =>
                rw [List.length_nil] at size
                omega
            | cons x xs => simp [on, rank]
          · simp [on]
      | succ j =>
          by_cases on : stored i = true
          · rw [if_pos on] at size ⊢
            have tail := @ih (i + 1) xs.tail (by rw [List.length_tail]; omega)
              j (Nat.lt_of_succ_lt_succ bound)
            rw [List.getElem?_cons_succ, tail, Nat.add_assoc, Nat.add_comm 1 j, rank, if_pos on,
              List.getElem?_tail, Nat.add_comm 1]
          · rw [if_neg on] at size ⊢
            have rest := @ih (i + 1) xs (by omega) j (Nat.lt_of_succ_lt_succ bound)
            rw [List.getElem?_cons_succ, rest, Nat.add_assoc, Nat.add_comm 1 j, rank, if_neg on,
              Nat.zero_add]

theorem pack_append (i : Nat) (xs ys : List α) :
    pack stored i (xs ++ ys) = pack stored i xs ++ pack stored (i + xs.length) ys := by
  induction xs generalizing i with
  | nil => rfl
  | cons x xs ih =>
      have rest := ih (i + 1)
      rw [Nat.add_assoc, Nat.add_comm 1] at rest
      rw [List.cons_append, pack, pack, rest, List.length_cons]
      split <;> rfl

theorem filter_pack {keep : α → Bool} {i : Nat} {xs : List α} (dropped : keep blank = false)
    (blanks : ∀ j, (bound : j < xs.length) → stored (i + j) = false → xs[j] = blank) :
    (pack stored i xs).filter keep = xs.filter keep := by
  induction xs generalizing i with
  | nil => rfl
  | cons x xs ih =>
      have rest := @ih (i + 1) fun j bound off => by
        have whole := blanks (j + 1) (Nat.succ_lt_succ bound)
        rw [← Nat.add_assoc, Nat.add_right_comm] at whole
        exact whole off
      rw [pack]
      by_cases on : stored i = true
      · rw [if_pos on, List.filter_cons, List.filter_cons, rest]
      · have first := blanks 0 (Nat.succ_pos _) (by simpa using on)
        rw [List.getElem_cons_zero] at first
        rw [if_neg on, rest, first, List.filter_cons_of_neg (by simp [dropped])]

theorem pack_congr {stored' : Nat → Bool} {i : Nat} {xs : List α}
    (agree : ∀ j, i ≤ j → j < i + xs.length → stored j = stored' j) :
    pack stored i xs = pack stored' i xs := by
  induction xs generalizing i with
  | nil => rfl
  | cons x xs ih =>
      rw [List.length_cons] at agree
      rw [pack, pack, agree i (Nat.le_refl i) (by omega),
        ih fun j low high => agree j (by omega) (by omega)]

theorem getElem?_pack {i j : Nat} {xs : List α} (bound : j < xs.length)
    (on : stored (i + j) = true) : (pack stored i xs)[rank stored i j]? = xs[j]? := by
  induction xs generalizing i j with
  | nil => exact absurd bound (Nat.not_lt_zero j)
  | cons x xs ih =>
      cases j with
      | zero =>
          rw [Nat.add_zero] at on
          simp [pack, rank, on]
      | succ j =>
          have rest := @ih (i + 1) j (Nat.lt_of_succ_lt_succ bound)
            (by rw [← on]; congr 1; omega)
          rw [pack, rank]
          split
          · rw [Nat.add_comm 1, List.getElem?_cons_succ, rest, List.getElem?_cons_succ]
          · rw [Nat.zero_add, rest, List.getElem?_cons_succ]

theorem pack_set {i j : Nat} {xs : List α} (x : α) (bound : j < xs.length)
    (on : stored (i + j) = true) :
    pack stored i (xs.set j x) = (pack stored i xs).set (rank stored i j) x := by
  induction xs generalizing i j with
  | nil => exact absurd bound (Nat.not_lt_zero j)
  | cons y ys ih =>
      cases j with
      | zero =>
          rw [Nat.add_zero] at on
          simp [pack, rank, on]
      | succ j =>
          have rest := @ih (i + 1) j (Nat.lt_of_succ_lt_succ bound)
            (by rw [← on]; congr 1; omega)
          rw [List.set_cons_succ, pack, pack, rank, rest]
          split
          · rw [Nat.add_comm 1, List.set_cons_succ]
          · rw [Nat.zero_add]

theorem pack_insert {stored' : Nat → Bool} {i j : Nat} {xs : List α} (x : α)
    (bound : j < xs.length) (off : stored (i + j) = false) (on : stored' (i + j) = true)
    (others : ∀ k, k ≠ i + j → stored' k = stored k) :
    pack stored' i (xs.set j x) = (pack stored i xs).take (rank stored i j) ++
      x :: (pack stored i xs).drop (rank stored i j) := by
  induction xs generalizing i j with
  | nil => exact absurd bound (Nat.not_lt_zero j)
  | cons y ys ih =>
      cases j with
      | zero =>
          rw [Nat.add_zero] at off on
          have rest : pack stored' (i + 1) ys = pack stored (i + 1) ys :=
            pack_congr fun k low _ => others k (by omega)
          simp [pack, rank, off, on, rest]
      | succ j =>
          have rest := @ih (i + 1) j (Nat.lt_of_succ_lt_succ bound)
            (by rw [← off]; congr 1; omega) (by rw [← on]; congr 1; omega)
            fun k other => others k (by omega)
          rw [List.set_cons_succ, pack, pack, rank, rest, others i (by omega)]
          split
          · rw [Nat.add_comm 1, List.take_succ_cons, List.drop_succ_cons, List.cons_append]
          · rw [Nat.zero_add]

theorem pack_all {i : Nat} {xs : List α} (all : ∀ j, i ≤ j → stored j = true) :
    pack stored i xs = xs := by
  induction xs generalizing i with
  | nil => rfl
  | cons x xs ih =>
      rw [pack, if_pos (all i (Nat.le_refl i)), ih fun j later => all j (by omega)]

theorem pack_filter {keep : α → Bool} {i : Nat} {xs : List α}
    (agree : ∀ j, (bound : j < xs.length) → stored (i + j) = keep xs[j]) :
    pack stored i xs = xs.filter keep := by
  induction xs generalizing i with
  | nil => rfl
  | cons x xs ih =>
      have first := agree 0 (Nat.succ_pos _)
      rw [Nat.add_zero, List.getElem_cons_zero] at first
      have rest := ih (i := i + 1) fun j bound => by
        have later := agree (j + 1) (Nat.succ_lt_succ bound)
        rw [List.getElem_cons_succ, ← Nat.add_assoc, Nat.add_right_comm] at later
        exact later
      rw [pack, List.filter_cons, first, rest]

theorem unpack_blank (i n m : Nat) :
    unpack stored blank i n (List.replicate m blank) = List.replicate n blank := by
  induction n generalizing i m with
  | zero => rfl
  | succ n ih =>
      rw [unpack]
      split
      · cases m with
        | zero => simpa [List.replicate_succ] using ih (i + 1) 0
        | succ m => simp [ih, List.replicate_succ]
      · simp [ih, List.replicate_succ]

end Packing
