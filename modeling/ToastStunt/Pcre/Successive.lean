import ToastStunt.Pcre.Storing

/-!
Exactly when `pcre_match` answers the successive matches: its loop goes on at the end of each match,
so it stays at an empty one, and it does not look at the end of the subject.
-/

namespace ToastStunt.Pcre

open ToastStunt.Maps

section

variable {matchAt : Nat → Option Match}

/-! What is left to be matched from an offset on. -/

def first (matchAt : Nat → Option Match) (length offset : Nat) : Option Match :=
  (List.range' offset (length + 1 - offset)).findSome? matchAt

def later (matchAt : Nat → Option Match) (length offset : Nat) : List Match :=
  scan matchAt (List.range' offset (length + 1 - offset)) offset

def Located (matchAt : Nat → Option Match) (length : Nat) : Prop :=
  ∀ i m, matchAt i = some m → m.start = i ∧ i ≤ m.finish ∧ m.finish ≤ length

theorem scan_beyond {places : List Nat} {free other : Nat}
    (beyond : ∀ i ∈ places, free ≤ i ∧ other ≤ i) :
    scan matchAt places free = scan matchAt places other := by
  cases places with
  | nil => rfl
  | cons i places =>
      have ⟨free_le, other_le⟩ := beyond i List.mem_cons_self
      rw [scan, scan, if_neg (by omega), if_neg (by omega)]
      cases matchAt i with
      | none => exact scan_beyond fun place member => beyond place (List.mem_cons_of_mem _ member)
      | some m => rfl

theorem scan_drop (count skipped low : Nat) :
    scan matchAt (List.range' low (skipped + count)) (low + skipped) =
      scan matchAt (List.range' (low + skipped) count) (low + skipped) := by
  induction skipped generalizing low with
  | zero => rw [Nat.zero_add, Nat.add_zero]
  | succ skipped ih =>
      have longer : skipped + 1 + count = (skipped + count) + 1 := by omega
      rw [longer, List.range'_succ, scan, if_pos (by omega)]
      have moved : low + (skipped + 1) = low + 1 + skipped := by omega
      rw [moved]
      exact ih (low + 1)

theorem later_end (matchAt : Nat → Option Match) (length : Nat) :
    later matchAt length (length + 1) = [] := by
  rw [later, Nat.sub_self]
  rfl

theorem later_none {length offset : Nat} (none_ : first matchAt length offset = none) :
    later matchAt length offset = [] := by
  rw [first, List.findSome?_eq_none_iff] at none_
  rw [later]
  generalize List.range' offset (length + 1 - offset) = places at none_
  induction places with
  | nil => rfl
  | cons i places ih =>
      rw [scan, none_ i List.mem_cons_self]
      simpa using ih fun place member => none_ place (List.mem_cons_of_mem _ member)

def resume (m : Match) : Nat := if m.start < m.finish then m.finish else m.finish + 1

theorem later_some (located : Located matchAt length) {offset : Nat} {m : Match}
    (found : first matchAt length offset = some m) :
    matchAt m.start = some m ∧ offset ≤ m.start ∧ m.start ≤ m.finish ∧ m.finish ≤ length ∧
      later matchAt length offset = m :: later matchAt length (resume m) := by
  generalize places : length + 1 - offset = count at found
  induction count generalizing offset with
  | zero =>
      rw [first, places] at found
      cases found
  | succ count ih =>
      have rest : length + 1 - (offset + 1) = count := by omega
      rw [first, places, List.range'_succ, List.findSome?_cons] at found
      cases here : matchAt offset with
      | none =>
          rw [here] at found
          obtain ⟨at_, start, order, inside, split⟩ := ih (by rw [first, rest]; exact found) rest
          refine ⟨at_, by omega, order, inside, ?_⟩
          rw [← split, later, later, places, rest, List.range'_succ, scan, if_neg (by omega), here]
          refine scan_beyond fun i member => ?_
          have := (List.mem_range'_1.mp member).1
          omega
      | some only =>
          rw [here] at found
          obtain rfl := Option.some.inj found
          obtain ⟨start, order, inside⟩ := located offset only here
          refine ⟨start ▸ here, by omega, by omega, inside, ?_⟩
          rw [later, places, List.range'_succ, scan, if_neg (by omega), here]
          simp only [List.cons.injEq, true_and]
          rw [later, resume, start]
          by_cases empty : offset < only.finish
          · rw [if_pos empty]
            have skipped : count = (only.finish - (offset + 1)) + (length + 1 - only.finish) := by
              omega
            have place : only.finish = offset + 1 + (only.finish - (offset + 1)) := by omega
            rw [skipped]
            conv_lhs => rw [place]
            conv_rhs => rw [place]
            have := @scan_drop matchAt (length + 1 - only.finish)
              (only.finish - (offset + 1)) (offset + 1)
            rwa [← place] at this ⊢
          · have stays : only.finish = offset := by omega
            rw [if_neg empty, stays, rest]
            refine scan_beyond fun i member => ?_
            have := (List.mem_range'_1.mp member).1
            omega

theorem successive_later (matchAt : Nat → Option Match) (subject : CString) : successive matchAt subject = later matchAt subject.length 0 := by
  rw [successive, later, List.range_eq_range', Nat.sub_zero]

theorem first_here {length : Nat} {m : Match} (here : matchAt m.start = some m)
    (inside : m.start ≤ length) : first matchAt length m.start = some m := by
  have more : length + 1 - m.start = (length - m.start) + 1 := by omega
  rw [first, more, List.range'_succ, List.findSome?_cons, here]

/-! The matches that the loop visits. -/

/-- The matches, and whether the limit is what ends the loop. -/
def visited (matchAt : Nat → Option Match) (length : Nat) :
    (fuel offset : Nat) → List Match × Bool
  | 0, _ => ([], true)
  | fuel + 1, offset =>
      if offset < length then
        match first matchAt length offset with
        | none => ([], false)
        | some m =>
            if fuel = 0 then ([], true)
            else
              let rest := visited matchAt length fuel m.finish
              (m :: rest.1, rest.2)
      else ([], false)

theorem visited_some {length fuel offset : Nat} {m : Match} (inside : offset < length)
    (found : first matchAt length offset = some m) (more : 0 < fuel) :
    visited matchAt length (fuel + 1) offset =
      (m :: (visited matchAt length fuel m.finish).1, (visited matchAt length fuel m.finish).2) := by
  rw [visited, if_pos inside, found]
  simp only [if_neg (Nat.ne_of_gt more)]

theorem visited_end (matchAt : Nat → Option Match) (length fuel : Nat) :
    visited matchAt length (fuel + 1) length = ([], false) := by
  rw [visited, if_neg (Nat.lt_irrefl length)]

theorem visited_stuck {length : Nat} {m : Match} (here : matchAt m.start = some m)
    (empty : m.finish = m.start) (inside : m.start < length) (fuel : Nat) :
    visited matchAt length (fuel + 1) m.start = (List.replicate fuel m, true) := by
  have found := first_here here (Nat.le_of_lt inside)
  induction fuel with
  | zero => simp [visited, inside, found]
  | succ fuel ih => rw [visited_some inside found (Nat.succ_pos fuel), empty, ih, List.replicate_succ]

section

variable {length : Nat} (located : Located matchAt length)

include located

theorem found_cases {offset : Nat} {m : Match} (found : first matchAt length offset = some m) :
    (m.finish = m.start ∧ m.start < length) ∨
    (m.start = length ∧ m.finish = length ∧ later matchAt length offset = [m]) ∨
    (m.start < m.finish ∧ m.finish ≤ length ∧
      later matchAt length offset = m :: later matchAt length m.finish) := by
  obtain ⟨_, _, order, inside, split⟩ := later_some located found
  rcases Nat.lt_or_ge m.start m.finish with moves | stays
  · rw [resume, if_pos moves] at split
    exact .inr (.inr ⟨moves, inside, split⟩)
  · rcases Nat.lt_or_ge m.start length with before | atEnd
    · exact .inl ⟨by omega, before⟩
    · have last : m.finish = length := by omega
      rw [resume, if_neg (by omega), last, later_end] at split
      exact .inr (.inl ⟨by omega, last, split⟩)

theorem later_short {offset : Nat} (inside : offset ≤ length) :
    (later matchAt length offset).length ≤ length + 1 - offset := by
  generalize room : length + 1 - offset = count
  induction count using Nat.strongRecOn generalizing offset with
  | ind count ih =>
      cases found : first matchAt length offset with
      | none => simp [later_none found]
      | some m =>
          obtain ⟨_, start, order, finish, split⟩ := later_some located found
          rw [split, List.length_cons]
          have further : offset < resume m := by
            rw [resume]
            split <;> omega
          by_cases beyond : resume m ≤ length
          · have := ih (length + 1 - resume m) (by omega) beyond rfl
            omega
          · have pastEnd : resume m = length + 1 := by
              rw [resume] at beyond ⊢
              split at beyond <;> split <;> omega
            rw [pastEnd, later_end, List.length_nil]
            omega

theorem visited_advances {fuel offset : Nat}
    (advances : Advances length offset (later matchAt length offset))
    (enough : (later matchAt length offset).length < fuel) :
    visited matchAt length fuel offset = (later matchAt length offset, false) := by
  induction fuel generalizing offset with
  | zero => omega
  | succ fuel ih =>
      cases found : first matchAt length offset with
      | none => simp [visited, found, later_none found]
      | some m =>
          obtain ⟨_, _, _, _, split⟩ := later_some located found
          rw [split, List.length_cons] at enough
          rw [split] at advances
          obtain ⟨inside, clean, rest⟩ := advances
          have more : 0 < fuel := by omega
          rw [visited_some inside found more]
          rcases found_cases located found with ⟨empty, before⟩ | ⟨_, last, split'⟩ | ⟨_, _, split'⟩
          · omega
          · obtain ⟨fuel, rfl⟩ := Nat.exists_eq_succ_of_ne_zero (Nat.ne_of_gt more)
            rw [last, visited_end, split']
          · have same := List.cons.inj (split.symm.trans split')
            rw [same.2] at rest enough
            rw [ih rest (by omega), split']

theorem visited_finished {fuel offset : Nat} (inside : offset ≤ length)
    (finished : (visited matchAt length fuel offset).2 = false)
    (all : (visited matchAt length fuel offset).1.length = (later matchAt length offset).length) :
    (visited matchAt length fuel offset).1 = later matchAt length offset ∧
      Advances length offset (later matchAt length offset) ∧
      (later matchAt length offset).length < fuel := by
  induction fuel generalizing offset with
  | zero => cases finished
  | succ fuel ih =>
      rcases Nat.lt_or_ge offset length with before | atEnd
      · cases found : first matchAt length offset with
        | none =>
            rw [later_none found]
            exact ⟨by simp [visited, found], trivial, Nat.succ_pos fuel⟩
        | some m =>
            rcases Nat.eq_zero_or_pos fuel with rfl | more
            · simp [visited, before, found] at finished
            · rw [visited_some before found more] at finished all ⊢
              obtain ⟨here, _, _⟩ := later_some located found
              obtain ⟨fuel, rfl⟩ := Nat.exists_eq_succ_of_ne_zero (Nat.ne_of_gt more)
              rcases found_cases located found with
                ⟨empty, inside⟩ | ⟨start, last, split⟩ | ⟨moves, inside, split⟩
              · rw [empty, visited_stuck here empty inside] at finished
                cases finished
              · rw [split, last, visited_end]
                exact ⟨rfl, ⟨before, .inr start, trivial⟩, by simp⟩
              · rw [split] at all ⊢
                obtain ⟨same, advances, enough⟩ := ih inside finished (Nat.succ.inj all)
                refine ⟨by rw [same], ⟨before, .inl moves, advances⟩, ?_⟩
                rw [List.length_cons]
                omega
      · have nothing : (visited matchAt length (fuel + 1) offset).1 = [] := by
          rw [visited, if_neg (by omega)]
        rw [nothing, List.length_nil] at all
        rw [nothing, List.eq_nil_of_length_eq_zero all.symm]
        exact ⟨rfl, trivial, Nat.succ_pos fuel⟩

theorem visited_limited {fuel offset : Nat} (inside : offset ≤ length) (positive : 0 < fuel)
    (many : fuel < (later matchAt length offset).length) :
    (visited matchAt length fuel offset).2 = true ∧
      ∀ m, m ∈ (visited matchAt length fuel offset).1 ↔
        m ∈ (upToEmpty length (later matchAt length offset)).take (fuel - 1) := by
  induction fuel generalizing offset with
  | zero => omega
  | succ fuel ih =>
      have short := later_short located inside
      have before : offset < length := by omega
      cases found : first matchAt length offset with
      | none =>
          rw [later_none found] at many
          exact absurd many (Nat.not_lt_zero _)
      | some m =>
          rcases Nat.eq_zero_or_pos fuel with rfl | more
          · simp [visited, before, found]
          · rw [visited_some before found more]
            obtain ⟨here, _, _, _, resumed⟩ := later_some located found
            obtain ⟨fuel, rfl⟩ := Nat.exists_eq_succ_of_ne_zero (Nat.ne_of_gt more)
            rcases found_cases located found with
              ⟨empty, inside⟩ | ⟨start, last, split⟩ | ⟨moves, inside, split⟩
            · rw [empty, visited_stuck here empty inside, resumed, upToEmpty, if_neg (by omega)]
              refine ⟨rfl, fun other => ?_⟩
              simp only [Nat.add_sub_cancel, List.take_succ_cons, List.take_nil, List.mem_cons,
                List.not_mem_nil, or_false, List.mem_replicate]
              tauto
            · rw [split, List.length_singleton] at many
              omega
            · rw [split, List.length_cons] at many
              obtain ⟨limited, same⟩ := ih inside more (by omega)
              refine ⟨limited, fun other => ?_⟩
              rw [split, upToEmpty, if_pos (.inl moves), Nat.add_sub_cancel, List.take_succ_cons,
                List.mem_cons, List.mem_cons, same other]
              exact Iff.rfl

end

end

/-! The loop. -/

def Stored (subject : CString) (nameTable : List (Nat × CString)) (ms : List Match)
    (maps : List Groups) : Prop :=
  List.Forall₂ (fun m map => Holds (entries subject nameTable m) map) ms maps

section

variable {subject : CString} {compiled : Compiled} {matchAt : Nat → Option Match}
  (documented : Documented subject compiled matchAt)

include documented

theorem Documented.located : Located matchAt subject.length := by
  intro i m here
  obtain ⟨finish, pair, order, inside⟩ := documented.starts i m here
  rw [Match.start, Match.finish, pair]
  exact ⟨rfl, order, inside⟩

theorem Documented.pcre2Match {offset : Nat} (inside : offset ≤ subject.length) :
    compiled.pcre2Match subject offset =
      (first matchAt subject.length offset).elim .noMatch .found :=
  documented.leftmost offset inside

theorem matchLoop_visits {total fuel loops offset : Nat} (ret : List Groups)
    (counts : fuel + loops = total) (positive : 0 < fuel) (inside : offset ≤ subject.length) :
    ((∀ m ∈ (visited matchAt subject.length fuel offset).1, InArray compiled.nameTable m) →
      ∃ maps, Stored subject compiled.nameTable (visited matchAt subject.length fuel offset).1 maps ∧
        matchLoop subject compiled true total fuel loops offset ret =
          some (if (visited matchAt subject.length fuel offset).2 then .maxrec total
            else .value (ret ++ maps))) ∧
    ((¬∀ m ∈ (visited matchAt subject.length fuel offset).1, InArray compiled.nameTable m) →
      matchLoop subject compiled true total fuel loops offset ret = none) := by
  induction fuel generalizing loops offset ret with
  | zero => omega
  | succ fuel ih =>
      rw [matchLoop]
      rcases Nat.lt_or_ge offset subject.length with before | atEnd
      · rw [if_pos before, documented.pcre2Match inside]
        cases found : first matchAt subject.length offset with
        | none =>
            have visits : visited matchAt subject.length (fuel + 1) offset = ([], false) := by
              simp [visited, before, found]
            rw [visits]
            exact ⟨fun _ => ⟨[], .nil, by simp⟩, fun outside => absurd (by simp) outside⟩
        | some m =>
            rcases Nat.eq_zero_or_pos fuel with rfl | more
            · have visits : visited matchAt subject.length 1 offset = ([], true) := by
                simp [visited, before, found]
              have reached : loops + 1 = total := by omega
              rw [visits]
              refine ⟨fun _ => ⟨[], .nil, ?_⟩, fun outside => absurd (by simp) outside⟩
              simp [reached]
            · have notReached : ¬loops + 1 ≥ total := by omega
              obtain ⟨_, _, _, finish, _⟩ := later_some documented.located found
              rw [visited_some before found more]
              simp only [Option.elim_some, notReached, List.forall_mem_cons]
              by_cases inArray : InArray compiled.nameTable m
              · obtain ⟨map, stored, holds⟩ := storeGroups_spec subject inArray
                obtain ⟨good, bad⟩ := @ih (loops + 1) m.finish (ret ++ [map]) (by omega) more finish
                simp only [stored, Option.bind_eq_bind, Option.bind_some, Bool.true_eq_false,
                  false_and, if_false]
                refine ⟨fun ⟨_, rest⟩ => ?_, fun outside => bad fun rest => outside ⟨inArray, rest⟩⟩
                obtain ⟨maps, kept, ran⟩ := good rest
                exact ⟨map :: maps, .cons holds kept, by simpa using ran⟩
              · rw [storeGroups_outside subject inArray]
                exact ⟨fun ⟨inside, _⟩ => absurd inside inArray, fun _ => rfl⟩
      · have visits : visited matchAt subject.length (fuel + 1) offset = ([], false) := by
          rw [visited, if_neg (by omega)]
        rw [if_neg (by omega), visits]
        exact ⟨fun _ => ⟨[], .nil, by simp⟩, fun outside => absurd (by simp) outside⟩

theorem Stored.shows_iff {ms : List Match} {maps : List Groups}
    (stored : Stored subject compiled.nameTable ms maps) :
    List.Forall₂ (Shows subject compiled.nameTable) ms maps ↔
      (ms ≠ [] → DistinctNames compiled.nameTable) := by
  induction stored with
  | nil => exact ⟨fun _ nonempty => absurd rfl nonempty, fun _ => .nil⟩
  | cons holds _ ih =>
      have shows_ := holds.shows_iff fun entry member => (documented.named entry member).2
      rw [List.forall₂_cons, shows_, ih]
      exact ⟨fun both _ => both.1, fun distinct => ⟨distinct nofun, fun _ => distinct nofun⟩⟩

theorem answers_first {total fuel : Nat} (more : 0 < fuel) (counts : fuel + 1 = total) :
    Answers subject compiled.nameTable false total (successive matchAt subject)
        (matchLoop subject compiled false total total 0 0 []) ↔
      Answerable subject compiled.nameTable false total (successive matchAt subject) := by
  rw [successive_later, ← counts, matchLoop]
  have notReached : fuel ≠ 0 := Nat.ne_of_gt more
  rcases Nat.eq_zero_or_pos subject.length with empty | inside
  · have nothing : subject = [] := List.eq_nil_of_length_eq_zero empty
    rw [if_neg (by omega)]
    cases later matchAt subject.length 0 with
    | nil => simp [Answers, Answerable]
    | cons m ms => simp [Answers, Answerable, nothing]
  · rw [if_pos inside, documented.pcre2Match (Nat.zero_le _)]
    cases found : first matchAt subject.length 0 with
    | none => simp [Answers, Answerable, later_none found]
    | some m =>
        obtain ⟨_, _, _, _, split⟩ := later_some documented.located found
        have nonempty : subject ≠ [] := List.ne_nil_of_length_pos inside
        by_cases inArray : InArray compiled.nameTable m
        · obtain ⟨map, stored, holds⟩ := storeGroups_spec subject inArray
          have shows_ := holds.shows_iff fun entry member => (documented.named entry member).2
          simpa [Answers, Answerable, split, notReached, stored, nonempty, inArray] using shows_
        · simp [Answers, Answerable, split, notReached, storeGroups_outside subject inArray, inArray]

theorem answers_all {total : Nat} (positive : 0 < total) :
    Answers subject compiled.nameTable true total (successive matchAt subject)
        (matchLoop subject compiled true total total 0 0 []) ↔
      Answerable subject compiled.nameTable true total (successive matchAt subject) := by
  rw [successive_later]
  have visits := matchLoop_visits documented [] (Nat.add_zero total) positive (Nat.zero_le _)
  have located := documented.located
  by_cases many : total < (later matchAt subject.length 0).length
  · obtain ⟨limited, same⟩ := visited_limited located (Nat.zero_le _) positive many
    rw [limited] at visits
    simp only [Answerable, Bool.true_eq_false, if_false, if_pos many, ← same]
    constructor
    · rintro (⟨maps, ran, _⟩ | ⟨_, _, loops, ran⟩)
      · by_contra outside
        rw [visits.2 outside] at ran
        cases ran
      · by_contra outside
        rw [visits.2 outside] at ran
        cases ran
    · intro inArray
      obtain ⟨maps, _, ran⟩ := visits.1 inArray
      exact .inr ⟨rfl, many, total, ran⟩
  · simp only [Answerable, Bool.true_eq_false, if_false, if_neg many]
    constructor
    · rintro (⟨maps, ran, shown⟩ | ⟨_, more, _⟩)
      · rw [if_pos rfl] at shown
        by_cases inArray : ∀ m ∈ (visited matchAt subject.length total 0).1,
            InArray compiled.nameTable m
        · obtain ⟨made, stored, ranMade⟩ := visits.1 inArray
          rw [ranMade] at ran
          cases limited : (visited matchAt subject.length total 0).2 with
          | true =>
              rw [limited] at ran
              cases ran
          | false =>
              rw [limited] at ran
              cases ran
              obtain ⟨same, advances, enough⟩ := visited_finished located (Nat.zero_le _) limited
                (stored.length_eq.trans shown.length_eq.symm)
              rw [same] at inArray stored
              exact ⟨enough, advances, inArray, (stored.shows_iff documented).mp shown⟩
        · rw [visits.2 inArray] at ran
          cases ran
      · exact absurd more many
    · rintro ⟨enough, advances, inArray, distinct⟩
      rw [visited_advances located advances enough] at visits
      obtain ⟨maps, stored, ran⟩ := visits.1 inArray
      exact .inl ⟨maps, ran, (stored.shows_iff documented).mpr distinct⟩

end

theorem totalLoops_large (option : Int) : 100 ≤ totalLoops option := by
  rw [totalLoops]
  split
  · exact Nat.le_refl _
  · split <;> omega

/-- The successive matches are answered exactly if the pattern has a text, each match found is not
empty or is the last, the limit is not reached by as many, and the groups are as the code expects. -/
theorem pcreMatch_exact_iff {getPcre : CString → Bool → Except CString Compiled} (option : Int)
    {subject pattern : CString} (caseMatters findAll : Option Int) {compiled : Compiled}
    {matchAt : Nat → Option Match}
    (compiles : getPcre pattern (caseMatters.getD 0 = 0) = .ok compiled)
    (documented : Documented subject compiled matchAt) :
    Answers subject compiled.nameTable (findAll.getD 1 ≠ 0) (totalLoops option)
        (successive matchAt subject)
        (bfPcreMatch getPcre option subject pattern caseMatters findAll) ↔
      pattern ≠ [] ∧ Answerable subject compiled.nameTable (findAll.getD 1 ≠ 0) (totalLoops option)
        (successive matchAt subject) := by
  have large := totalLoops_large option
  rw [bfPcreMatch]
  by_cases unwritten : pattern = []
  · simp [Answers, unwritten]
  · rw [if_neg unwritten, compiles]
    simp only [ne_eq, unwritten, not_false_eq_true, true_and]
    cases all : decide (¬findAll.getD 1 = 0) with
    | true => exact answers_all documented (by omega)
    | false =>
        have several : 1 < totalLoops option := Nat.lt_of_lt_of_le (by decide) large
        obtain ⟨fuel, counts⟩ := Nat.exists_eq_add_of_lt several
        exact @answers_first subject compiled matchAt documented _ (fuel + 1) (Nat.succ_pos fuel)
          (by omega)

/-! The pattern of a byte repeated at least so often. -/

def repeats (byte : UInt8) (least : Nat) (subject : CString) (i : Nat) : Option Match :=
  let count := ((subject.drop i).takeWhile (· = byte)).length
  if i ≤ subject.length ∧ least ≤ count then
    some ⟨1, fun n => if n = 0 then some (i, i + count) else none⟩
  else none

def compiledRepeats (byte : UInt8) (least : Nat) : Compiled where
  nameTable := []
  pcre2Match subject offset := (first (repeats byte least subject) subject.length offset).elim
    .noMatch .found

theorem documented_repeats (byte : UInt8) (least : Nat) (subject : CString) :
    Documented subject (compiledRepeats byte least) (repeats byte least subject) := by
  have fits (i : Nat) (inside : i ≤ subject.length) :
      i + ((subject.drop i).takeWhile (· = byte)).length ≤ subject.length := by
    have := (@List.takeWhile_prefix _ (subject.drop i) (· = byte)).length_le
    rw [List.length_drop] at this
    omega
  refine ⟨fun _ _ => rfl, fun i m here => ?_, fun i m here => ?_,
    fun entry none => absurd none List.not_mem_nil⟩
  · rw [repeats] at here
    split at here
    · rename_i holds
      cases here
      simp [fits i holds.1]
    · cases here
  · rw [repeats] at here
    split at here
    · cases here
      exact ⟨Nat.one_pos, by simp, fun n many => if_neg (Nat.ne_of_gt many)⟩
    · cases here

theorem pcreMatch_exact_plus :
    Answers [97, 120, 120] [] true 100 (successive (repeats 120 1 [97, 120, 120]) [97, 120, 120])
      (bfPcreMatch (fun _ _ => .ok (compiledRepeats 120 1)) 0 [97, 120, 120] [120, 43] none none) := by
  refine (@pcreMatch_exact_iff _ 0 _ _ none none (compiledRepeats 120 1) _ rfl
    (documented_repeats 120 1 [97, 120, 120])).mpr ⟨by decide, ?_⟩
  have only : successive (repeats 120 1 [97, 120, 120]) [97, 120, 120] =
      [⟨1, fun n => if n = 0 then some (1, 3) else none⟩] := rfl
  have clean : Advances 3 0 [⟨1, fun n => if n = 0 then some (1, 3) else none⟩] :=
    ⟨by decide, .inl (by decide), trivial⟩
  rw [only]
  exact ⟨by decide, clean, fun _ _ _ none => absurd none List.not_mem_nil, fun _ => .nil⟩

/-- `x*` in `a` has two matches, both empty, and the call raises E_MAXREC. -/
theorem pcreMatch_stays : ¬∀ (getPcre : CString → Bool → Except CString Compiled) (option : Int)
    (subject pattern : CString) (caseMatters findAll : Option Int) (compiled : Compiled)
    (matchAt : Nat → Option Match),
    getPcre pattern (caseMatters.getD 0 = 0) = .ok compiled →
    Documented subject compiled matchAt →
    Answers subject compiled.nameTable (findAll.getD 1 ≠ 0) (totalLoops option)
      (successive matchAt subject) (bfPcreMatch getPcre option subject pattern caseMatters findAll) := by
  intro claimed
  have answers := claimed (fun _ _ => .ok (compiledRepeats 120 0)) 0 [97] [120, 42] none none _ _ rfl
    (documented_repeats 120 0 [97])
  have same := @visited_stuck (repeats 120 0 [97]) 1
    ⟨1, fun n => if n = 0 then some (0, 0) else none⟩ rfl rfl (by decide) 99
  obtain ⟨maps, _, ran⟩ := (matchLoop_visits (documented_repeats 120 0 [97]) [] (Nat.add_zero 100)
    (by decide) (Nat.zero_le _)).1 fun _ _ _ none => absurd none List.not_mem_nil
  have limited : (visited (repeats 120 0 [97]) 1 100 0).2 = true := congrArg Prod.snd same
  rw [List.length_singleton, if_pos limited] at ran
  rcases answers with ⟨maps, value, _⟩ | ⟨_, many, _⟩
  · cases ran.symm.trans value
  · exact absurd many (by decide)

end ToastStunt.Pcre
