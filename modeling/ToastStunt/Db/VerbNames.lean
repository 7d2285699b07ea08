import Mathlib.Data.List.TakeWhile
import ToastStunt.Db.Verbs

/-!
What `verbcasecmp` of utils.cc matches: the names of a verb, with stars for what may be left out.
-/

namespace ToastStunt

/-! What a name should match. -/

def names (verb : CString) : List CString := (verb.splitOn 32).filter fun name => !name.isEmpty

def unstarred (name : CString) : CString := name.filter fun byte => byte ≠ 42

/-- A name without a star is the word; with a star at its end it begins the word; with a star in
it the word is the name up to the star or some way beyond. -/
def MatchesName (name word : CString) : Prop :=
  42 ∉ name ∧ caseFold word = caseFold name ∨
  (∃ front, name = front ++ [42] ∧ caseFold (unstarred front) <+: caseFold word) ∨
  ∃ front back, name = front ++ 42 :: back ∧ back ≠ [] ∧
    caseFold word <+: caseFold (unstarred name) ∧ (unstarred front).length ≤ word.length

def MatchesVerb (verb word : CString) : Prop := ∃ name ∈ names verb, MatchesName name word

/-! One name. -/

def Fits (seen : Bool) (name word : CString) : Prop :=
  seen = false ∧ 42 ∉ name ∧ caseFold word = caseFold name ∨
  (∃ front, name = front ++ [42] ∧ caseFold (unstarred front) <+: caseFold word) ∨
  caseFold word <+: caseFold (unstarred name) ∧ (seen = true ∨
    ∃ front back, name = front ++ 42 :: back ∧ back ≠ [] ∧ (unstarred front).length ≤ word.length)

theorem fits_false (name word : CString) : Fits false name word ↔ MatchesName name word := by
  constructor
  · rintro (⟨_, whole⟩ | final | ⟨starts, seen | ⟨front, back, same, more, long⟩⟩)
    · exact .inl whole
    · exact .inr (.inl final)
    · exact absurd seen (by decide)
    · exact .inr (.inr ⟨front, back, same, more, starts, long⟩)
  · rintro (whole | final | ⟨front, back, same, more, starts, long⟩)
    · exact .inl ⟨rfl, whole⟩
    · exact .inr (.inl final)
    · exact .inr (.inr ⟨starts, .inr ⟨front, back, same, more, long⟩⟩)

@[simp] theorem unstarred_star (name : CString) : unstarred (42 :: name) = unstarred name := rfl

theorem unstarred_cons {a : UInt8} (plain : a ≠ 42) (name : CString) :
    unstarred (a :: name) = a :: unstarred name := by
  simp [unstarred, plain]

theorem fits_star (seen : Bool) (name word : CString) :
    Fits seen (42 :: name) word ↔ name = [] ∨ Fits true name word := by
  by_cases last : name = []
  · subst last
    refine iff_of_true (.inr (.inl ⟨[], rfl, ?_⟩)) (.inl rfl)
    exact List.nil_prefix
  · constructor
    · rintro (⟨_, plain, _⟩ | ⟨front, same, starts⟩ | ⟨starts, _⟩)
      · exact absurd List.mem_cons_self plain
      · cases front with
        | nil => exact absurd (List.cons.inj same).2 last
        | cons head front =>
            obtain ⟨rfl, rest⟩ := List.cons.inj (same : 42 :: name = head :: (front ++ [42]))
            exact .inr (.inr (.inl ⟨front, rest, starts⟩))
      · exact .inr (.inr (.inr ⟨starts, .inl rfl⟩))
    · rintro (none | ⟨seen, _⟩ | ⟨front, same, starts⟩ | ⟨starts, _⟩)
      · exact absurd none last
      · exact absurd seen (by decide)
      · exact .inr (.inl ⟨42 :: front, by rw [same]; rfl, starts⟩)
      · exact .inr (.inr ⟨starts, .inr ⟨[], name, rfl, last, Nat.zero_le _⟩⟩)

theorem fits_nil (seen : Bool) (word : CString) : Fits seen [] word ↔ word = [] := by
  constructor
  · rintro (⟨_, _, same⟩ | ⟨front, same, _⟩ | ⟨starts, _⟩)
    · simpa [caseFold] using same
    · simp at same
    · simpa [caseFold, unstarred] using starts
  · rintro rfl
    cases seen with
    | false => exact .inl ⟨rfl, List.not_mem_nil, rfl⟩
    | true => exact .inr (.inr ⟨List.nil_prefix, .inl rfl⟩)

theorem fits_cons_nil {a : UInt8} (plain : a ≠ 42) (seen : Bool) (name : CString) :
    Fits seen (a :: name) [] ↔ seen = true := by
  constructor
  · rintro (⟨_, _, same⟩ | ⟨front, same, starts⟩ | ⟨_, seen | ⟨front, back, same, _, long⟩⟩)
    · simp [caseFold] at same
    · cases front with
      | nil => exact absurd (List.cons.inj same).1 plain
      | cons head front =>
          obtain ⟨rfl, _⟩ := List.cons.inj (same : a :: name = head :: (front ++ [42]))
          rw [unstarred_cons plain] at starts
          simp [caseFold] at starts
    · exact seen
    · cases front with
      | nil => exact absurd (List.cons.inj same).1 plain
      | cons head front =>
          obtain ⟨rfl, _⟩ := List.cons.inj (same : a :: name = head :: (front ++ 42 :: back))
          rw [unstarred_cons plain] at long
          simp at long
  · intro seen
    exact .inr (.inr ⟨List.nil_prefix, .inl seen⟩)

theorem fits_cons_cons {a : UInt8} (plain : a ≠ 42) (seen : Bool) (b : UInt8)
    (name word : CString) :
    Fits seen (a :: name) (b :: word) ↔ cmap b = cmap a ∧ Fits seen name word := by
  have apart : 42 ∉ a :: name ↔ 42 ∉ name := by simp [Ne.symm plain]
  constructor
  · rintro (⟨none, stars, same⟩ | ⟨front, same, starts⟩ |
      ⟨starts, seen | ⟨front, back, same, more, long⟩⟩)
    · obtain ⟨first, rest⟩ := List.cons.inj same
      exact ⟨first, .inl ⟨none, apart.mp stars, rest⟩⟩
    · cases front with
      | nil => exact absurd (List.cons.inj same).1 plain
      | cons head front =>
          obtain ⟨rfl, rest⟩ := List.cons.inj (same : a :: name = head :: (front ++ [42]))
          rw [unstarred_cons plain] at starts
          obtain ⟨first, starts⟩ := List.cons_prefix_cons.mp starts
          exact ⟨first.symm, .inr (.inl ⟨front, rest, starts⟩)⟩
    · rw [unstarred_cons plain] at starts
      obtain ⟨first, starts⟩ := List.cons_prefix_cons.mp starts
      exact ⟨first, .inr (.inr ⟨starts, .inl seen⟩)⟩
    · rw [unstarred_cons plain] at starts
      obtain ⟨first, starts⟩ := List.cons_prefix_cons.mp starts
      cases front with
      | nil => exact absurd (List.cons.inj same).1 plain
      | cons head front =>
          obtain ⟨rfl, rest⟩ := List.cons.inj (same : a :: name = head :: (front ++ 42 :: back))
          rw [unstarred_cons plain] at long
          refine ⟨first, .inr (.inr ⟨starts, .inr ⟨front, back, rest, more, ?_⟩⟩)⟩
          simpa using long
  · rintro ⟨first, ⟨none, stars, same⟩ | ⟨front, same, starts⟩ |
      ⟨starts, seen | ⟨front, back, same, more, long⟩⟩⟩
    · exact .inl ⟨none, apart.mpr stars, List.cons_eq_cons.mpr ⟨first, same⟩⟩
    · refine .inr (.inl ⟨a :: front, by rw [same]; rfl, ?_⟩)
      rw [unstarred_cons plain]
      exact List.cons_prefix_cons.mpr ⟨first.symm, starts⟩
    · refine .inr (.inr ⟨?_, .inl seen⟩)
      rw [unstarred_cons plain]
      exact List.cons_prefix_cons.mpr ⟨first, starts⟩
    · refine .inr (.inr ⟨?_, .inr ⟨a :: front, back, by rw [same]; rfl, more, ?_⟩⟩)
      · rw [unstarred_cons plain]
        exact List.cons_prefix_cons.mpr ⟨first, starts⟩
      · rw [unstarred_cons plain]
        simpa using long

/-! The loop over one name. -/

def Ends (after : CString) : Prop := after = [] ∨ after.head? = some 32

theorem skipStars_end {after : CString} (ends : Ends after) (star : Star) :
    skipStars after star = (after, star) := by
  cases after with
  | nil => rfl
  | cons a after =>
      obtain rfl : a = 32 := by simpa [Ends] using ends
      rfl

theorem matchName_star (v word : CString) (star : Star) :
    matchName (42 :: v) word star =
      matchName v word (if v = [] ∨ v.head? = some 32 then .end else .inner) := by
  cases word <;> simp [matchName, skipStars]

theorem matchName_end {after : CString} (ends : Ends after) (word : CString) (star : Star) :
    matchName after word star = (after, word, star) := by
  cases word with
  | nil => simp [matchName, skipStars_end ends]
  | cons b word =>
      rw [matchName, skipStars_end ends]
      cases after with
      | nil => rfl
      | cons a after =>
          obtain rfl : a = 32 := by simpa [Ends] using ends
          simp

theorem ends_append {name after : CString} (plain : 32 ∉ name) (ends : Ends after) :
    (name ++ after = [] ∨ (name ++ after).head? = some 32) ↔ name = [] := by
  cases name with
  | nil => simpa [Ends] using ends
  | cons a name =>
      have other : a ≠ 32 := fun same => plain (same ▸ List.mem_cons_self)
      simp [other]

/-- The loop over a name ends inside it or right after it, and says whether it fits the word. -/
theorem matchName_fits {name after : CString} (word : CString) (star : Star) (plain : 32 ∉ name)
    (ends : Ends after) (open' : star ≠ .end) :
    (nameMatches (matchName (name ++ after) word star) = true ↔
      Fits (star = .inner) name word) ∧
    ∃ rest, (matchName (name ++ after) word star).1 = rest ++ after ∧ 32 ∉ rest := by
  induction name generalizing word star with
  | nil =>
      rw [List.nil_append, matchName_end ends, fits_nil]
      refine ⟨?_, [], rfl, List.not_mem_nil⟩
      cases word with
      | nil =>
          simp only [nameMatches, Bool.or_eq_true, decide_eq_true_eq, iff_true]
          exact ends.elim (fun none => .inl (.inr none)) .inr
      | cons b word => simp [nameMatches, open']
  | cons a name ih =>
      have plain' : 32 ∉ name := fun member => plain (List.mem_cons_of_mem _ member)
      have notBlank : a ≠ 32 := fun same => plain (same ▸ List.mem_cons_self)
      by_cases isStar : a = 42
      · subst isStar
        rw [List.cons_append, matchName_star, fits_star]
        by_cases last : name = []
        · subst last
          simp only [List.nil_append, if_pos (show after = [] ∨ after.head? = some 32 from ends),
            matchName_end ends, true_or, iff_true]
          refine ⟨?_, [], rfl, List.not_mem_nil⟩
          cases word <;> simp [nameMatches]
        · rw [if_neg (mt (ends_append plain' ends).mp last)]
          simpa [last] using ih word .inner plain' nofun
      · have skipped : skipStars (a :: name ++ after) star = (a :: name ++ after, star) := by
          simp [skipStars, isStar]
        cases word with
        | nil =>
            rw [matchName, skipped, fits_cons_nil isStar]
            refine ⟨?_, a :: name, rfl, plain⟩
            cases star <;> simp_all [nameMatches]
        | cons b word =>
            rw [matchName, skipped, fits_cons_cons isStar]
            by_cases same : cmap b = cmap a
            · simpa [notBlank, same] using ih word star plain' open'
            · simp only [List.cons_append, ne_eq, same, not_false_iff, or_true, if_true, false_and,
                iff_false]
              refine ⟨?_, a :: name, rfl, plain⟩
              simpa [nameMatches] using open'

/-! The loop over the names. -/

theorem names_blank (v : CString) : names (32 :: v) = names v := by
  simp [names, List.splitOn_cons_eq_if_modifyHead]

theorem names_dropWhile (v : CString) : names (v.dropWhile (· = 32)) = names v := by
  induction v with
  | nil => rfl
  | cons a v ih =>
      by_cases blank : a = 32
      · subst blank
        simpa [names_blank] using ih
      · simp [blank]

theorem names_append {name after : CString} (plain : 32 ∉ name) (nonempty : name ≠ [])
    (ends : Ends after) : names (name ++ after) = name :: names after := by
  cases after with
  | nil => simp [names, List.splitOn_eq_singleton plain, nonempty]
  | cons a after =>
      obtain rfl : a = 32 := by simpa [Ends] using ends
      rw [names_blank, names, names, List.splitOn_append_cons_of_beq _ _ (by decide),
        List.splitOn_eq_singleton plain]
      simp [nonempty]

theorem split_name {v : CString} (nonempty : v ≠ []) (named : v.head? ≠ some 32) :
    ∃ name after, v = name ++ after ∧ 32 ∉ name ∧ name ≠ [] ∧ Ends after := by
  refine ⟨v.takeWhile (· ≠ 32), v.dropWhile (· ≠ 32), List.takeWhile_append_dropWhile.symm, ?_, ?_, ?_⟩
  · intro member
    simpa using List.mem_takeWhile_imp member
  · cases v with
    | nil => exact absurd rfl nonempty
    | cons a v =>
        have other : a ≠ 32 := by simpa using named
        simp [other]
  · have stopped := List.head?_dropWhile_not (· ≠ 32) v
    cases rest : v.dropWhile (· ≠ 32) with
    | nil => exact .inl rfl
    | cons a after =>
        rw [rest] at stopped
        exact .inr (by simpa using stopped)

theorem nextName_append {rest after : CString} (plain : 32 ∉ rest) (ends : Ends after) :
    nextName (rest ++ after) = after.dropWhile (· = 32) := by
  rw [nextName, List.dropWhile_append_of_pos]
  · cases after with
    | nil => rfl
    | cons a after =>
        obtain rfl : a = 32 := by simpa [Ends] using ends
        rfl
  · intro byte member
    simpa using fun same : byte = 32 => plain (same ▸ member)

theorem verbcasecmpFrom_iff (word : CString) (turns : Nat) {v : CString}
    (enough : v.length ≤ turns) (named : v.head? ≠ some 32) :
    verbcasecmpFrom turns v word = true ↔ MatchesVerb v word := by
  induction turns generalizing v with
  | zero =>
      obtain rfl : v = [] := List.length_eq_zero_iff.mp (by omega)
      simp [verbcasecmpFrom, MatchesVerb, names]
  | succ turns ih =>
      by_cases none : v = []
      · subst none
        simp [verbcasecmpFrom, MatchesVerb, names]
      · obtain ⟨name, after, rfl, plain, nonempty, ends⟩ := split_name none named
        obtain ⟨answer, rest, left, plainRest⟩ :=
          matchName_fits word .none plain ends nofun
        have shorter : (after.dropWhile (· = 32)).length ≤ turns := by
          have fewer := (List.dropWhile_suffix (l := after) (· = 32)).length_le
          have positive := List.length_pos_iff.mpr nonempty
          rw [List.length_append] at enough
          omega
        have onward : (after.dropWhile (· = 32)).head? ≠ some 32 := by
          intro blank
          have kept := List.head?_dropWhile_not (· = 32) after
          simp [blank] at kept
        simp only [verbcasecmpFrom, none, if_false, Bool.or_eq_true, answer, left,
          nextName_append plainRest ends, ih shorter onward]
        rw [MatchesVerb, MatchesVerb, names_append plain nonempty ends, names_dropWhile]
        simp [fits_false]

/-- By its content a text matches the word as one of its names does. Only the empty word is also
matched by a blank in front. -/
theorem namesMatch_iff (verb word : CString) :
    namesMatch verb word = true ↔
      MatchesVerb verb word ∨ word = [] ∧ verb.head? = some 32 := by
  by_cases blank : verb.head? = some 32
  · obtain ⟨v, rfl⟩ : ∃ v, verb = 32 :: v := by
      cases verb with
      | nil => simp at blank
      | cons a v => exact ⟨v, by simpa using blank⟩
    have ends : Ends (32 :: v) := .inr rfl
    have onward : (v.dropWhile (· = 32)).head? ≠ some 32 := by
      intro first
      have kept := List.head?_dropWhile_not (· = 32) v
      simp [first] at kept
    have next : nextName (32 :: v) = v.dropWhile (· = 32) := rfl
    rw [namesMatch, List.length_cons, verbcasecmpFrom, matchName_end ends]
    simp only [reduceCtorEq, if_false, Bool.or_eq_true, next, List.head?_cons, and_true]
    rw [verbcasecmpFrom_iff word v.length (List.dropWhile_suffix _).length_le onward, MatchesVerb,
      MatchesVerb, names_dropWhile, names_blank]
    cases word with
    | nil => simp [nameMatches]
    | cons b word => simp [nameMatches]
  · simp [namesMatch, verbcasecmpFrom_iff word verb.length (Nat.le_refl _) blank, blank]

/-! A text as its own word. -/

def StarsLast (verb : CString) : Prop := ∀ byte ∈ verb.dropWhile (· ≠ 42), byte = 42

theorem cmap_star (byte : UInt8) : cmap 42 = cmap byte ↔ byte = 42 := by
  rw [cmap, cmap]
  split
  · rename_i upper
    exact absurd upper (by decide)
  · split
    · rename_i upper
      obtain ⟨low, high⟩ := upper
      constructor
      · intro same
        have sum := congrArg UInt8.toNat same
        simp only [UInt8.le_iff_toNat_le, UInt8.toNat_add, UInt8.reduceToNat] at low high sum
        omega
      · rintro rfl
        exact absurd low (by decide)
    · exact eq_comm

theorem fits_before_star (name word : CString) :
    Fits true name (42 :: word) ↔ name ≠ [] ∧ ∀ byte ∈ name, byte = 42 := by
  induction name with
  | nil => simp [fits_nil]
  | cons a name ih =>
      by_cases isStar : a = 42
      · subst isStar
        rw [fits_star, ih]
        by_cases last : name = []
        · simp [last]
        · simp [last]
      · rw [fits_cons_cons isStar, cmap_star]
        simp [isStar]

theorem fits_self (name : CString) : Fits false name name ↔ StarsLast name := by
  induction name with
  | nil => simp [fits_nil, StarsLast]
  | cons a name ih =>
      by_cases isStar : a = 42
      · subst isStar
        rw [fits_star, fits_before_star]
        by_cases last : name = []
        · simp [last, StarsLast]
        · simp [last, StarsLast]
      · rw [fits_cons_cons isStar, ih]
        simp [StarsLast, isStar]

theorem fits_seen_nil (name : CString) : Fits true name [] :=
  .inr (.inr ⟨List.nil_prefix, .inl rfl⟩)

theorem matchesName_nil {name : CString} (nonempty : name ≠ []) :
    MatchesName name [] ↔ name.head? = some 42 := by
  cases name with
  | nil => exact absurd rfl nonempty
  | cons a name =>
      rw [← fits_false]
      by_cases isStar : a = 42
      · subst isStar
        simp [fits_star, fits_seen_nil]
      · simp [fits_cons_nil isStar, isStar]

theorem nonempty_of_mem_names {name verb : CString} (member : name ∈ names verb) : name ≠ [] := by
  simpa using (List.mem_filter.mp member).2

/-- The arguments for which the answer is the right one. One text for both is not empty and has
its stars at its end. Otherwise, where the word is empty and the other begins with a blank, one of
the names begins with a star. -/
def Operands.Told (o : Operands) : Prop :=
  if o.onePointer then o.verb ≠ [] ∧ StarsLast o.verb
  else o.word = [] → o.verb.head? = some 32 → ∃ name ∈ names o.verb, name.head? = some 42

theorem verbcasecmp_exact_iff (o : Operands) (plain : 32 ∉ o.word) :
    (o.verbcasecmp = true ↔ MatchesVerb o.verb o.word) ↔ o.Told := by
  cases one : o.onePointer with
  | true =>
      have same := o.consistent one
      simp only [Operands.verbcasecmp, Operands.Told, one, Bool.true_or, true_iff, if_true]
      by_cases empty : o.verb = []
      · simp [empty, MatchesVerb, names]
      · have single : names o.verb = [o.verb] := by
          have atEnd : Ends ([] : CString) := .inl rfl
          have alone := names_append (same ▸ plain) empty atEnd
          rwa [List.append_nil, show names [] = [] by rfl] at alone
        simp only [MatchesVerb, single, List.mem_singleton, exists_eq_left, ← same, ← fits_false,
          fits_self, ne_eq, empty, not_false_iff, true_and]
  | false =>
      simp only [Operands.verbcasecmp, Operands.Told, one, Bool.false_or, namesMatch_iff,
        Bool.false_eq_true, if_false]
      have starred : MatchesVerb o.verb [] ↔ ∃ name ∈ names o.verb, name.head? = some 42 :=
        exists_congr fun name => and_congr_right fun member =>
          matchesName_nil (nonempty_of_mem_names member)
      constructor
      · intro right empty blank
        rw [← starred, ← empty]
        exact right.mp (.inr ⟨empty, blank⟩)
      · intro told
        refine ⟨fun matched => ?_, .inl⟩
        obtain right | ⟨empty, blank⟩ := matched
        · exact right
        rw [empty]
        exact starred.mpr (told empty blank)

/-- The name `a*b` is found under itself, but not under another string of the same characters. -/
theorem starredName_matches_itself : ¬∀ o : Operands, 32 ∉ o.word →
    (o.verbcasecmp = true ↔ MatchesVerb o.verb o.word) := by
  intro all
  obtain ⟨name, member, matched⟩ :=
    (all ⟨[97, 42, 98], [97, 42, 98], true, fun _ => rfl⟩ (by decide)).mp rfl
  obtain rfl : name = [97, 42, 98] := by
    rw [show names [97, 42, 98] = [[97, 42, 98]] by decide] at member
    exact List.mem_singleton.mp member
  have last := (fits_self _).mp ((fits_false _ _).mpr matched)
  exact absurd (last 98 (by decide)) (by decide)

theorem verbcasecmp_exact_look :
    ((⟨[108, 42, 111, 111, 107], [76, 79], false, nofun⟩ : Operands).verbcasecmp = true ↔
      MatchesVerb [108, 42, 111, 111, 107] [76, 79]) ↔
    (⟨[108, 42, 111, 111, 107], [76, 79], false, nofun⟩ : Operands).Told :=
  verbcasecmp_exact_iff ⟨[108, 42, 111, 111, 107], [76, 79], false, nofun⟩ (by decide)

end ToastStunt
