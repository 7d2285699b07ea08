import Mathlib.Data.List.Nodup
import ToastStunt.Commands.Words

/-!
The prepositions of db_verbs.cc: the table of phrases, and the search for one in the words of a
command.
-/

namespace ToastStunt.Commands

def text (string : String) : CString := string.toUTF8.toList

def prepList : List CString :=
  ["with/using", "at/to", "in front of", "in/inside/into", "on top of/on/onto/upon",
    "out of/from inside/from", "over", "through", "under/underneath/beneath", "behind", "beside",
    "for/about", "is", "as", "off/off of"].map text

def slash : UInt8 := 47

/-- `fuel` is the length of the text. -/
def aliases : (fuel : Nat) → CString → List CString
  | 0, _ | _, [] => []
  | fuel + 1, c :: rest =>
      let p := if c = slash then rest else c :: rest
      p.takeWhile (· ≠ slash) :: aliases fuel (p.dropWhile (· ≠ slash))

abbrev Phrase := List CString

/-- The phrases of each preposition, in the order of `prep_list`. -/
def prepTable : List (List Phrase) :=
  prepList.map fun p => (aliases p.length p).filterMap parseIntoWords

def matchesPhrase : (words : List CString) → Phrase → Bool
  | _, [] => true
  | [], _ :: _ => false
  | word :: words, first :: rest => strcasecmp word first = 0 && matchesPhrase words rest

def entries : List (Phrase × Nat) :=
  prepTable.zipIdx.flatMap fun row => row.1.map fun phrase => (phrase, row.2)

structure Found where
  prep : Nat
  first : Nat
  last : Nat
  deriving DecidableEq, Repr

def findAt (exactMatch : Bool) (words : List CString) : Option (Phrase × Nat) :=
  entries.find? fun entry =>
    matchesPhrase words entry.1 && (!exactMatch || entry.1.length == words.length)

def findFrom (exactMatch : Bool) (i : Nat) : (words : List CString) → Option Found
  | [] => none
  | word :: words =>
      match findAt exactMatch (word :: words) with
      | some (phrase, prep) => some ⟨prep, i, i + phrase.length - 1⟩
      | none => if exactMatch then none else findFrom exactMatch (i + 1) words

def dbFindPrep (exactMatch : Bool) (argv : List CString) : Option Found :=
  findFrom exactMatch 0 argv

def IsPhrase (words : List CString) (prep : Nat) : Prop :=
  (dbFindPrep true words).map Found.prep = some prep

def PhraseAt (argv : List CString) (i count : Nat) : Prop :=
  i + count ≤ argv.length ∧ ∃ prep, IsPhrase ((argv.drop i).take count) prep

def off : CString := text "off"
def of : CString := text "of"

/-- Where the first preposition stands, the words are "off of". -/
def OffOfFirst (argv : List CString) : Prop :=
  ∃ i, (∀ before < i, ∀ count, ¬PhraseAt argv before count) ∧
    [off, of] <+: (argv.drop i).map caseFold

/-! The table. -/

def phrases : List (Phrase × Nat) :=
  [([text "with"], 0), ([text "using"], 0), ([text "at"], 1), ([text "to"], 1),
    ([text "in", text "front", of], 2), ([text "in"], 3), ([text "inside"], 3),
    ([text "into"], 3), ([text "on", text "top", of], 4), ([text "on"], 4), ([text "onto"], 4),
    ([text "upon"], 4), ([text "out", of], 5), ([text "from", text "inside"], 5),
    ([text "from"], 5), ([text "over"], 6), ([text "through"], 7), ([text "under"], 8),
    ([text "underneath"], 8), ([text "beneath"], 8), ([text "behind"], 9), ([text "beside"], 10),
    ([text "for"], 11), ([text "about"], 11), ([text "is"], 12), ([text "as"], 13),
    ([off], 14), ([off, of], 14)]

theorem entries_eq : entries = phrases := by decide +kernel

/-- One phrase of the table: it is lower case, and only "off" begins as "off of" does. -/
structure Plainly (phrase : Phrase) : Prop where
  nonempty : phrase ≠ []
  lower : phrase.map caseFold = phrase
  comparable : phrase <+: [off, of] ∨ [off, of] <+: phrase → phrase = [off] ∨ phrase = [off, of]

/-- Two phrases, one before the other: only "off" hides a longer one after it. -/
structure InTurn (first second : Phrase) : Prop where
  distinct : first ≠ second
  hidden : first <+: second → first = [off] ∧ second = [off, of]
  shown : ¬(first = [off, of] ∧ second = [off])

instance (phrase : Phrase) : Decidable (Plainly phrase) :=
  decidable_of_iff
    (phrase ≠ [] ∧ phrase.map caseFold = phrase ∧
      (phrase <+: [off, of] ∨ [off, of] <+: phrase → phrase = [off] ∨ phrase = [off, of]))
    ⟨fun ⟨any, lower, comparable⟩ => ⟨any, lower, comparable⟩,
      fun ⟨any, lower, comparable⟩ => ⟨any, lower, comparable⟩⟩

instance (first second : Phrase) : Decidable (InTurn first second) :=
  decidable_of_iff
    (first ≠ second ∧ (first <+: second → first = [off] ∧ second = [off, of]) ∧
      ¬(first = [off, of] ∧ second = [off]))
    ⟨fun ⟨distinct, hidden, shown⟩ => ⟨distinct, hidden, shown⟩,
      fun ⟨distinct, hidden, shown⟩ => ⟨distinct, hidden, shown⟩⟩

theorem phrases_ordered :
    (∀ entry ∈ phrases, Plainly entry.1) ∧ phrases.Pairwise (fun a b => InTurn a.1 b.1) := by
  decide +kernel

theorem entry_plainly {entry : Phrase × Nat} (listed : entry ∈ entries) : Plainly entry.1 :=
  phrases_ordered.1 entry (entries_eq ▸ listed)

theorem entries_inTurn : entries.Pairwise fun a b => InTurn a.1 b.1 :=
  entries_eq ▸ phrases_ordered.2

theorem entries_distinct : (entries.map Prod.fst).Nodup :=
  List.pairwise_map.mpr (entries_inTurn.imp InTurn.distinct)

theorem off_entry : ([off], 14) ∈ entries ∧ ([off, of], 14) ∈ entries := by
  rw [entries_eq]
  simp [phrases]

/-! The search. -/

theorem matchesPhrase_iff (words : List CString) (phrase : Phrase) :
    matchesPhrase words phrase ↔ phrase.map caseFold <+: words.map caseFold := by
  induction phrase generalizing words with
  | nil => simp [matchesPhrase]
  | cons first rest ih =>
      cases words with
      | nil => simp [matchesPhrase]
      | cons word words =>
          rw [matchesPhrase, Bool.and_eq_true, decide_eq_true_eq, strcasecmp_eq_zero, ih,
            List.map_cons, List.map_cons, List.cons_prefix_cons, eq_comm]

theorem matches_entry {words : List CString} {entry : Phrase × Nat} (listed : entry ∈ entries) :
    matchesPhrase words entry.1 ↔ entry.1 <+: words.map caseFold := by
  rw [matchesPhrase_iff, (entry_plainly listed).lower]

theorem findAt_nil (exactMatch : Bool) : findAt exactMatch [] = none := by
  rw [findAt, List.find?_eq_none]
  rintro ⟨phrase, prep⟩ listed
  cases phrase with
  | nil => exact absurd rfl (entry_plainly listed).nonempty
  | cons first rest => simp [matchesPhrase]

theorem findAt_none {words : List CString} :
    findAt false words = none ↔ ∀ entry ∈ entries, ¬entry.1 <+: words.map caseFold := by
  rw [findAt, List.find?_eq_none]
  refine forall₂_congr fun entry listed => ?_
  rw [← matches_entry listed]
  simp

theorem findAt_some {words : List CString} {entry : Phrase × Nat}
    (found : findAt false words = some entry) :
    entry.1 <+: words.map caseFold ∧ ∃ before after, entries = before ++ entry :: after ∧
      ∀ other ∈ before, ¬other.1 <+: words.map caseFold := by
  obtain ⟨fits, before, after, split, earlier⟩ := List.find?_eq_some_iff_append.mp found
  have listed : entry ∈ entries := split ▸ List.mem_append_right _ List.mem_cons_self
  refine ⟨(matches_entry listed).mp (by simpa using fits), before, after, split, ?_⟩
  intro other member fits'
  have listed' : other ∈ entries := split ▸ List.mem_append_left _ member
  simpa [(matches_entry listed').mpr fits'] using earlier other member

theorem findAt_exact {words : List CString} {prep : Nat} :
    (findAt true words).map Prod.snd = some prep ↔ (words.map caseFold, prep) ∈ entries := by
  have fits {entry : Phrase × Nat} (listed : entry ∈ entries) :
      (matchesPhrase words entry.1 && (!true || entry.1.length == words.length)) = true ↔
        entry.1 = words.map caseFold := by
    rw [Bool.and_eq_true, matches_entry listed]
    constructor
    · rintro ⟨fits, same⟩
      exact fits.eq_of_length (by simpa using same)
    · intro same
      rw [same]
      simp
  have phrase {entry : Phrase × Nat} (found : findAt true words = some entry) :
      entry ∈ entries ∧ entry.1 = words.map caseFold := by
    have listed : entry ∈ entries := List.mem_of_find?_eq_some found
    have accepted := List.find?_some found
    exact ⟨listed, (fits listed).mp accepted⟩
  constructor
  · intro taken
    obtain ⟨entry, found, rfl⟩ := Option.map_eq_some_iff.mp taken
    obtain ⟨listed, same⟩ := phrase found
    rw [← same]
    exact listed
  · intro listed
    have accepted := (fits listed).mpr rfl
    cases found : findAt true words with
    | none => exact absurd accepted (List.find?_eq_none.mp found _ listed)
    | some entry =>
        obtain ⟨listed', same⟩ := phrase found
        have unique := List.inj_on_of_nodup_map entries_distinct listed' listed same
        rw [unique]
        rfl

theorem isPhrase_iff {words : List CString} {prep : Nat} :
    IsPhrase words prep ↔ (words.map caseFold, prep) ∈ entries := by
  rw [← findAt_exact, IsPhrase, dbFindPrep]
  cases words with
  | nil =>
      have none := findAt_nil true
      simp [findFrom, none]
  | cons word words =>
      rw [findFrom]
      cases findAt true (word :: words) <;> simp

theorem phraseAt_iff {argv : List CString} {i count : Nat} :
    PhraseAt argv i count ↔
      ∃ entry ∈ entries, entry.1 <+: (argv.drop i).map caseFold ∧ entry.1.length = count := by
  simp only [PhraseAt, isPhrase_iff]
  constructor
  · rintro ⟨inside, prep, listed⟩
    refine ⟨_, listed, ?_, ?_⟩
    · exact (List.take_prefix _ _).map caseFold
    · simp only [List.length_map, List.length_take, List.length_drop]
      omega
  · rintro ⟨entry, listed, fits, rfl⟩
    have short := fits.length_le
    have some := List.length_pos_of_ne_nil (entry_plainly listed).nonempty
    simp only [List.length_map, List.length_drop] at short
    refine ⟨by omega, entry.2, ?_⟩
    rw [List.map_take, ← List.prefix_iff_eq_take.mp fits]
    exact listed

theorem no_phraseAt {argv : List CString} {i : Nat} :
    (∀ count, ¬PhraseAt argv i count) ↔ findAt false (argv.drop i) = none := by
  rw [findAt_none]
  constructor
  · intro none entry listed fits
    exact none entry.1.length (phraseAt_iff.mpr ⟨entry, listed, fits, rfl⟩)
  · intro none count here
    obtain ⟨entry, listed, fits, -⟩ := phraseAt_iff.mp here
    exact none entry listed fits

theorem findFrom_none {start : Nat} {words : List CString}
    (none : findFrom false start words = none) (i : Nat) : findAt false (words.drop i) = .none := by
  have nothing := findAt_nil false
  induction words generalizing start i with
  | nil => rwa [List.drop_nil]
  | cons word words ih =>
      rw [findFrom] at none
      cases here : findAt false (word :: words) with
      | some entry => simp [here] at none
      | none =>
          rw [here] at none
          cases i with
          | zero => exact here
          | succ i => exact ih none i

theorem findFrom_some {start : Nat} {words : List CString} {found : Found}
    (some : findFrom false start words = some found) :
    ∃ i phrase, (∀ before < i, findAt false (words.drop before) = none) ∧
      findAt false (words.drop i) = .some (phrase, found.prep) ∧
      found.first = start + i ∧ found.last = start + i + phrase.length - 1 := by
  induction words generalizing start with
  | nil => cases some
  | cons word words ih =>
      rw [findFrom] at some
      cases here : findAt false (word :: words) with
      | some entry =>
          rw [here] at some
          cases some
          exact ⟨0, entry.1, nofun, here, rfl, rfl⟩
      | none =>
          rw [here] at some
          obtain ⟨i, phrase, earlier, first, at_, last⟩ := ih some
          refine ⟨i + 1, phrase, fun before below => ?_, first, by omega, by omega⟩
          cases before with
          | zero => exact here
          | succ before => exact earlier before (Nat.lt_of_succ_lt_succ below)

/-! What the search finds. -/

/-- The first preposition: nothing starts before it, and it stands in the words. -/
structure Leftmost (argv : List CString) (found : Found) : Prop where
  earlier : ∀ before < found.first, ∀ count, ¬PhraseAt argv before count
  phrase : IsPhrase ((argv.drop found.first).take (found.last + 1 - found.first)) found.prep
  ordered : found.first ≤ found.last
  inside : found.last < argv.length

theorem dbFindPrep_some {argv : List CString} {found : Found}
    (some : dbFindPrep false argv = some found) :
    Leftmost argv found ∧
      ((∀ count, PhraseAt argv found.first count → count ≤ found.last + 1 - found.first) ↔
        ¬[off, of] <+: (argv.drop found.first).map caseFold) := by
  obtain ⟨i, phrase, earlier, here, first, last⟩ := findFrom_some some
  rw [Nat.zero_add] at first last
  subst first
  obtain ⟨fits, before, after, split, tried⟩ := findAt_some here
  have listed : (phrase, found.prep) ∈ entries :=
    split ▸ List.mem_append_right _ List.mem_cons_self
  have nonempty : 0 < phrase.length := List.length_pos_of_ne_nil (entry_plainly listed).nonempty
  have length : found.last + 1 - found.first = phrase.length := by omega
  have short : phrase.length ≤ argv.length - found.first := by simpa using fits.length_le
  have whole : IsPhrase ((argv.drop found.first).take phrase.length) found.prep := by
    rw [isPhrase_iff, List.map_take, ← List.prefix_iff_eq_take.mp fits]
    exact listed
  refine ⟨⟨fun b below => no_phraseAt.mpr (earlier b below), length ▸ whole, by omega,
    by omega⟩, ?_⟩
  have pairwise := entries_inTurn
  rw [split, List.pairwise_append, List.pairwise_cons] at pairwise
  rw [length]
  constructor
  · intro longest offOf
    have two := longest 2 (phraseAt_iff.mpr ⟨_, off_entry.2, offOf, rfl⟩)
    have same : phrase = [off, of] := by
      rcases (entry_plainly listed).comparable (List.prefix_or_prefix_of_prefix fits offOf) with
        single | both
      · change phrase = [off] at single
        rw [single] at two
        contradiction
      · exact both
    have offFits : [off] <+: (argv.drop found.first).map caseFold :=
      List.IsPrefix.trans (List.prefix_append [off] [of]) offOf
    have offListed := off_entry.1
    rw [split, List.mem_append, List.mem_cons, same] at offListed
    rcases offListed with shown | same' | hidden
    · exact tried _ shown offFits
    · exact absurd (congrArg (List.length ∘ Prod.fst) same') (by simp)
    · exact (pairwise.2.1.1 _ hidden).shown ⟨same, rfl⟩
  · intro notOff count at_
    obtain ⟨entry, listed', fits', rfl⟩ := phraseAt_iff.mp at_
    by_contra longer
    rw [split, List.mem_append, List.mem_cons] at listed'
    rcases listed' with shown | rfl | hidden
    · exact tried _ shown fits'
    · exact longer (Nat.le_refl _)
    · have extends_ : phrase <+: entry.1 :=
        List.prefix_of_prefix_length_le fits fits' (Nat.le_of_lt (Nat.not_le.mp longer))
      obtain ⟨-, both⟩ := (pairwise.2.1.1 _ hidden).hidden extends_
      exact notOff (both ▸ fits')

end ToastStunt.Commands
