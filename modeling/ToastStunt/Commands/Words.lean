import Mathlib.Data.List.Forall2
import Mathlib.Logic.Function.Basic
import ToastStunt.Strings

/-!
`parse_into_words` of parse_cmd.cc: a line is cut into words where it lies, so that the words stand
in the line they were read from.
-/

namespace ToastStunt.Commands

def space : UInt8 := 32
def quotes : UInt8 := 34
def backslash : UInt8 := 92

/-- The line, how far it has been read, and how far it has been written. -/
structure Scan where
  buf : Nat → UInt8
  input : Nat
  ptr : Nat
  inQuotes : Bool

namespace Scan

def put (s : Scan) (c : UInt8) : Scan :=
  { s with buf := Function.update s.buf s.ptr c, ptr := s.ptr + 1 }

def here (s : Scan) : UInt8 := s.buf s.input

def advance (s : Scan) : Scan := { s with input := s.input + 1 }

def takeChar (s : Scan) : Scan :=
  let c := s.here
  let s := s.advance
  if c = quotes then { s with inQuotes := !s.inQuotes }
  else if c = backslash then
    if s.here ≠ 0 then (s.put s.here).advance else s
  else s.put c

end Scan

/-- The loops end at the NUL, so that the size of the line is fuel enough. -/
def wordLoop : Nat → Scan → Option Scan
  | 0, _ => none
  | fuel + 1, s =>
      if s.here ≠ 0 ∧ (s.inQuotes ∨ s.here ≠ space) then wordLoop fuel s.takeChar else some s

def skipSpaces : Nat → Scan → Option Scan
  | 0, _ => none
  | fuel + 1, s => if s.here = space then skipSpaces fuel s.advance else some s

/-- The words are where they start. -/
def wordsLoop (size : Nat) : Nat → Scan → List Nat → Option (Scan × List Nat)
  | 0, _, _ => none
  | fuel + 1, s, words =>
      if s.here = 0 then some (s, words)
      else do
        let start := s.ptr
        let s ← wordLoop size s
        let s ← skipSpaces size s
        wordsLoop size fuel (s.put 0) (words ++ [start])

def stringAt (buf : Nat → UInt8) : (size : Nat) → Nat → CString
  | 0, _ => []
  | size + 1, start =>
      if buf start = 0 then [] else buf start :: stringAt buf size (start + 1)

def parseIntoWords (line : CString) : Option (List CString) := do
  let size := line.length + 1
  let s ← skipSpaces size ⟨fun i => line.getD i 0, 0, 0, false⟩
  let (s, words) ← wordsLoop size size s []
  some (words.map (stringAt s.buf size))

/-! The words of a line, without the line that they are written over. -/

/-- A word, and what follows it. After a backslash any character is `escaped`. -/
def scanWord : (inQuotes escaped : Bool) → CString → CString × CString
  | _, _, [] => ([], [])
  | inQuotes, true, c :: rest => Prod.map (c :: ·) id (scanWord inQuotes false rest)
  | inQuotes, false, c :: rest =>
      if inQuotes = false ∧ c = space then ([], c :: rest)
      else if c = quotes then scanWord (!inQuotes) false rest
      else if c = backslash then scanWord inQuotes true rest
      else Prod.map (c :: ·) id (scanWord inQuotes false rest)

def trim (line : CString) : CString := line.dropWhile (· = space)

theorem trim_length (line : CString) : (trim line).length ≤ line.length :=
  (List.dropWhile_sublist _).length_le

theorem scanWord_length (inQuotes escaped : Bool) (line : CString) :
    (scanWord inQuotes escaped line).1.length + (scanWord inQuotes escaped line).2.length ≤
      line.length := by
  induction inQuotes, escaped, line using scanWord.induct with
  | case1 => exact Nat.le_refl _
  | case2 inQuotes c rest ih =>
      simp only [scanWord, Prod.map_fst, Prod.map_snd, List.length_cons, id]
      omega
  | case3 inQuotes c rest stop =>
      rw [scanWord, if_pos stop]
      exact Nat.le_of_eq (Nat.zero_add _)
  | case4 inQuotes rest goesOn ih =>
      rw [scanWord, if_neg goesOn, if_pos rfl]
      exact Nat.le_succ_of_le ih
  | case5 inQuotes rest goesOn plain ih =>
      rw [scanWord, if_neg goesOn, if_neg plain, if_pos rfl]
      exact Nat.le_succ_of_le ih
  | case6 inQuotes c rest goesOn plain unescaped ih =>
      rw [scanWord, if_neg goesOn, if_neg plain, if_neg unescaped]
      simp only [Prod.map_fst, Prod.map_snd, List.length_cons, id]
      omega

theorem scanWord_rest (inQuotes escaped : Bool) (line : CString) :
    (scanWord inQuotes escaped line).2.length ≤ line.length :=
  Nat.le_trans (Nat.le_add_left _ _) (scanWord_length inQuotes escaped line)

theorem scanWord_shorter {c : UInt8} {rest : CString} (word : c ≠ space) :
    (scanWord false false (c :: rest)).2.length < (c :: rest).length := by
  have goesOn : ¬(false = false ∧ c = space) := fun stop => word stop.2
  rw [scanWord, if_neg goesOn]
  split
  · exact Nat.lt_succ_of_le (scanWord_rest _ _ _)
  · split
    · exact Nat.lt_succ_of_le (scanWord_rest _ _ _)
    · exact Nat.lt_succ_of_le (scanWord_rest _ _ _)

theorem trim_head {line : CString} {c : UInt8} {rest : CString} (same : trim line = c :: rest) :
    c ≠ space := by
  have stop := List.head?_dropWhile_not (fun c => decide (c = space)) line
  rw [← trim, same] at stop
  simpa using stop

def splitWords (line : CString) : List CString :=
  match _same : trim line with
  | [] => []
  | c :: rest =>
      (scanWord false false (c :: rest)).1 :: splitWords (scanWord false false (c :: rest)).2
termination_by line.length
decreasing_by
  have shorter := @scanWord_shorter c rest (trim_head _same)
  have := trim_length line
  rw [_same] at this
  omega

theorem splitWords_nil {line : CString} (none : trim line = []) : splitWords line = [] := by
  rw [splitWords]
  split
  · rfl
  · rename_i same
    cases none.symm.trans same

theorem splitWords_cons {line : CString} {c : UInt8} {rest : CString} (some : trim line = c :: rest) :
    splitWords line =
      (scanWord false false (c :: rest)).1 :: splitWords (scanWord false false (c :: rest)).2 := by
  rw [splitWords]
  split
  · rename_i same
    cases some.symm.trans same
  · rename_i same
    cases some.symm.trans same
    rfl

/-! The line in memory. -/

def Tail (buf : Nat → UInt8) : Nat → CString → Prop
  | input, [] => buf input = 0
  | input, c :: rest => buf input = c ∧ c ≠ 0 ∧ Tail buf (input + 1) rest

def Spelled (buf : Nat → UInt8) : Nat → CString → Prop
  | _, [] => True
  | start, c :: word => buf start = c ∧ c ≠ 0 ∧ Spelled buf (start + 1) word

theorem tail_congr {buf buf' : Nat → UInt8} {input : Nat} {rest : CString}
    (same : ∀ a ≥ input, buf' a = buf a) (tail : Tail buf input rest) : Tail buf' input rest := by
  induction rest generalizing input with
  | nil => exact (same input (Nat.le_refl _)).trans tail
  | cons c rest ih =>
      exact ⟨(same input (Nat.le_refl _)).trans tail.1, tail.2.1,
        ih (fun a above => same a (by omega)) tail.2.2⟩

theorem spelled_congr {buf buf' : Nat → UInt8} {start : Nat} {word : CString}
    (same : ∀ a, start ≤ a → a < start + word.length → buf' a = buf a)
    (spelled : Spelled buf start word) : Spelled buf' start word := by
  induction word generalizing start with
  | nil => trivial
  | cons c word ih =>
      simp only [List.length_cons] at same
      exact ⟨(same start (Nat.le_refl _) (by omega)).trans spelled.1, spelled.2.1,
        ih (fun a above below => same a (by omega) (by omega)) spelled.2.2⟩

theorem tail_put {buf : Nat → UInt8} {input ptr : Nat} {rest : CString} (behind : ptr < input)
    (c : UInt8) (tail : Tail buf input rest) : Tail (Function.update buf ptr c) input rest :=
  tail_congr (fun a above => Function.update_of_ne (by omega) _ _) tail

theorem tail_getD {line : CString} (noNul : 0 ∉ line) (front : CString) :
    Tail (fun i => (front ++ line).getD i 0) front.length line := by
  induction line generalizing front with
  | nil => simp [Tail]
  | cons c line ih =>
      have next := ih (fun member => noNul (List.mem_cons_of_mem _ member)) (front ++ [c])
      rw [List.append_assoc, List.length_append] at next
      exact ⟨by simp, fun zero => noNul (zero ▸ List.mem_cons_self), next⟩

theorem stringAt_spelled {buf : Nat → UInt8} {word : CString} {size start : Nat}
    (spelled : Spelled buf start word) (ended : buf (start + word.length) = 0)
    (enough : word.length < size) : stringAt buf size start = word := by
  induction word generalizing size start with
  | nil =>
      obtain ⟨size, rfl⟩ := Nat.exists_eq_add_of_lt enough
      exact if_pos ended
  | cons c word ih =>
      obtain ⟨here, nonzero, rest⟩ := spelled
      obtain ⟨size, rfl⟩ : ∃ less, size = less + 1 := ⟨size - 1, by omega⟩
      rw [List.length_cons, Nat.add_comm word.length, ← Nat.add_assoc] at ended
      rw [stringAt, here, if_neg nonzero, ih rest ended (by simpa using enough)]

/-! The loops. -/

/-- The rest of the line stands where it is read, and is not written over. -/
structure Scanning (s : Scan) (rest : CString) : Prop where
  tail : Tail s.buf s.input rest
  behind : s.ptr ≤ s.input

theorem Scanning.nil_iff {s : Scan} {rest : CString} (scanning : Scanning s rest) :
    s.here = 0 ↔ rest = [] := by
  cases rest with
  | nil => exact iff_of_true scanning.tail rfl
  | cons c rest =>
      refine iff_of_false (fun zero => scanning.tail.2.1 ?_) nofun
      exact scanning.tail.1.symm.trans zero

theorem skipSpaces_spec {fuel : Nat} {s : Scan} {rest : CString} (scanning : Scanning s rest)
    (enough : rest.length < fuel) :
    ∃ s', skipSpaces fuel s = some s' ∧ Scanning s' (trim rest) ∧ s'.buf = s.buf ∧
      s'.ptr = s.ptr ∧ s'.inQuotes = s.inQuotes ∧
      s'.input + (trim rest).length = s.input + rest.length := by
  induction fuel generalizing s rest with
  | zero => exact absurd enough (Nat.not_lt_zero _)
  | succ fuel ih =>
      cases rest with
      | nil =>
          have notSpace : ¬s.here = space := by
            rw [scanning.nil_iff.mpr rfl]
            decide
          exact ⟨s, if_neg notSpace, scanning, rfl, rfl, rfl, rfl⟩
      | cons c rest =>
          obtain ⟨here, nonzero, tail⟩ := scanning.tail
          by_cases blank : c = space
          · subst blank
            obtain ⟨s', ran, scanning', buf, ptr, inQuotes, input⟩ := @ih s.advance rest
              ⟨tail, Nat.le_succ_of_le scanning.behind⟩ (by simpa using enough)
            have trimmed : trim (space :: rest) = trim rest := rfl
            refine ⟨s', (if_pos here).trans ran, trimmed ▸ scanning', buf, ptr, inQuotes, ?_⟩
            rw [trimmed, input, List.length_cons]
            change s.input + 1 + rest.length = _
            omega
          · have trimmed : trim (c :: rest) = c :: rest := by
              rw [trim, List.dropWhile_cons_of_neg (by simpa using blank)]
            have notSpace : ¬s.here = space := fun same => blank (here.symm.trans same)
            rw [trimmed]
            exact ⟨s, if_neg notSpace, scanning, rfl, rfl, rfl, rfl⟩

/-- From `s` to `s'` a word has been read, and written from where `s` would write. -/
structure Reads (s s' : Scan) (word rest : CString) : Prop where
  scanning : Scanning s' rest
  spelled : Spelled s'.buf s.ptr word
  ptr : s'.ptr = s.ptr + word.length
  kept : ∀ a < s.ptr, s'.buf a = s.buf a
  stopped : rest = [] ∨ s'.inQuotes = false ∧ ∃ more, rest = space :: more

theorem Reads.cons {s s₁ s' : Scan} {c : UInt8} {word rest : CString} (nonzero : c ≠ 0)
    (buf : s₁.buf = Function.update s.buf s.ptr c) (ptr : s₁.ptr = s.ptr + 1)
    (reads : Reads s₁ s' word rest) : Reads s s' (c :: word) rest := by
  have first : s'.buf s.ptr = c := by
    rw [reads.kept s.ptr (by omega), buf, Function.update_self]
  refine ⟨reads.scanning, ⟨first, nonzero, ptr ▸ reads.spelled⟩, ?_, fun a below => ?_,
    reads.stopped⟩
  · rw [reads.ptr, ptr, List.length_cons]
    omega
  · rw [reads.kept a (by omega), buf, Function.update_of_ne (by omega)]

theorem wordLoop_spec {fuel : Nat} {s : Scan} {rest : CString} (scanning : Scanning s rest)
    (enough : rest.length < fuel) :
    ∃ s', wordLoop fuel s = some s' ∧
      Reads s s' (scanWord s.inQuotes false rest).1 (scanWord s.inQuotes false rest).2 := by
  induction fuel generalizing s rest with
  | zero => exact absurd enough (Nat.not_lt_zero _)
  | succ fuel ih =>
      cases rest with
      | nil =>
          have ended : ¬(s.here ≠ 0 ∧ (s.inQuotes = true ∨ s.here ≠ space)) :=
            fun more => more.1 (scanning.nil_iff.mpr rfl)
          exact ⟨s, if_neg ended, scanning, trivial, rfl, fun _ _ => rfl, .inl rfl⟩
      | cons c rest =>
          obtain ⟨here, nonzero, tail⟩ := scanning.tail
          have behind := scanning.behind
          have short : rest.length < fuel := by simpa using enough
          change s.here = c at here
          by_cases stop : s.inQuotes = false ∧ c = space
          · have ended : ¬(s.here ≠ 0 ∧ (s.inQuotes = true ∨ s.here ≠ space)) := by
              simp [here, stop]
            rw [scanWord, if_pos stop]
            exact ⟨s, if_neg ended, scanning, trivial, rfl, fun _ _ => rfl,
              .inr ⟨stop.1, rest, congrArg (· :: rest) stop.2⟩⟩
          · have goesOn : s.here ≠ 0 ∧ (s.inQuotes = true ∨ s.here ≠ space) := by
              rw [here]
              refine ⟨nonzero, ?_⟩
              by_contra neither
              exact stop (by simpa using neither)
            have loop : wordLoop (fuel + 1) s = wordLoop fuel s.takeChar := if_pos goesOn
            rw [scanWord, if_neg stop, loop]
            by_cases quoted : c = quotes
            · have taken : s.takeChar = { s.advance with inQuotes := !s.inQuotes } := by
                rw [Scan.takeChar, here, if_pos quoted]
                rfl
              obtain ⟨s', ran, reads⟩ := @ih s.takeChar rest
                (taken ▸ ⟨tail, Nat.le_succ_of_le behind⟩) short
              rw [if_pos quoted]
              rw [taken] at ran reads ⊢
              exact ⟨s', ran, reads.scanning, reads.spelled, reads.ptr, reads.kept, reads.stopped⟩
            · rw [if_neg quoted]
              by_cases escape : c = backslash
              · rw [if_pos escape]
                cases rest with
                | nil =>
                    have none : s.advance.here = 0 := tail
                    have taken : s.takeChar = s.advance := by
                      rw [Scan.takeChar, here, if_neg quoted, if_pos escape]
                      exact if_neg (not_not.mpr none)
                    obtain ⟨s', ran, reads⟩ := @ih s.takeChar []
                      (taken ▸ ⟨tail, Nat.le_succ_of_le behind⟩) short
                    rw [taken] at ran reads ⊢
                    exact ⟨s', ran, reads.scanning, reads.spelled, reads.ptr, reads.kept,
                      reads.stopped⟩
                | cons d rest =>
                    obtain ⟨next, some, tail⟩ := tail
                    change s.advance.here = d at next
                    have taken : s.takeChar = (s.advance.put d).advance := by
                      rw [Scan.takeChar, here, if_neg quoted, if_pos escape]
                      exact (if_pos (next ▸ some)).trans (by rw [next])
                    have behind' : s.ptr + 1 ≤ s.input + 1 + 1 := by omega
                    obtain ⟨s', ran, reads⟩ := @ih s.takeChar rest (taken ▸
                      ⟨tail_put (Nat.lt_succ_of_le (Nat.le_succ_of_le behind)) d tail, behind'⟩)
                      (Nat.lt_of_succ_lt short)
                    rw [taken] at ran reads ⊢
                    exact ⟨s', ran, reads.cons some rfl rfl⟩
              · have taken : s.takeChar = s.advance.put c := by
                  rw [Scan.takeChar, here, if_neg quoted, if_neg escape]
                obtain ⟨s', ran, reads⟩ := @ih s.takeChar rest (taken ▸
                  ⟨tail_put (Nat.lt_succ_of_le behind) c tail, Nat.succ_le_succ behind⟩) short
                rw [if_neg escape]
                rw [taken] at ran reads ⊢
                exact ⟨s', ran, reads.cons nonzero rfl rfl⟩

structure Stands (size : Nat) (s : Scan) (start : Nat) (word : CString) : Prop where
  spelled : Spelled s.buf start word
  ended : s.buf (start + word.length) = 0
  written : start + word.length < s.ptr
  short : word.length < size

theorem Stands.mono {size : Nat} {s s' : Scan} {start : Nat} {word : CString}
    (stands : Stands size s start word) (kept : ∀ a < s.ptr, s'.buf a = s.buf a)
    (further : s.ptr ≤ s'.ptr) : Stands size s' start word := by
  have written := stands.written
  refine ⟨spelled_congr (fun a _ below => kept a (by omega)) stands.spelled, ?_,
    Nat.lt_of_lt_of_le written further, stands.short⟩
  rw [kept _ written, stands.ended]

theorem word_stands {size : Nat} {s : Scan} {rest : CString} (scanning : Scanning s rest)
    (enough : rest.length < size) :
    let word := scanWord s.inQuotes false rest
    ∃ s₁ s₂, wordLoop size s = some s₁ ∧ skipSpaces size s₁ = some s₂ ∧
      Stands size (s₂.put 0) s.ptr word.1 ∧ Tail (s₂.put 0).buf (s₂.put 0).input (trim word.2) ∧
      (trim word.2 = [] ∨ (s₂.put 0).inQuotes = false ∧ (s₂.put 0).ptr ≤ (s₂.put 0).input) ∧
      (∀ a < s.ptr, (s₂.put 0).buf a = s.buf a) ∧ s.ptr ≤ (s₂.put 0).ptr := by
  intro word
  have length := scanWord_length s.inQuotes false rest
  obtain ⟨s₁, scanned, reads⟩ := wordLoop_spec scanning enough
  obtain ⟨s₂, skipped, scanning₂, buf, ptr, inQuotes, input⟩ :=
    skipSpaces_spec reads.scanning (Nat.lt_of_le_of_lt (scanWord_rest _ _ _) enough)
  change s₂.input + (trim word.2).length = s₁.input + word.2.length at input
  have ahead : trim word.2 = [] ∨ s₂.inQuotes = false ∧ s₂.ptr < s₂.input := by
    rcases reads.stopped with none | ⟨outside, more, blank⟩
    · exact .inl (by rw [none]; rfl)
    · refine .inr ⟨inQuotes.trans outside, ?_⟩
      have trimmed : trim word.2 = trim more := by
        rw [blank]
        rfl
      have shorter := trim_length more
      have behind := reads.scanning.behind
      rw [trimmed, blank, List.length_cons] at input
      omega
  have ptr₂ : s₂.ptr = s.ptr + word.1.length := ptr.trans reads.ptr
  have put : (s₂.put 0).buf = Function.update s₁.buf s₂.ptr 0 := by
    rw [← buf]
    rfl
  refine ⟨s₁, s₂, scanned, skipped, ⟨?_, ?_, ?_, ?_⟩, ?_, ?_, ?_, ?_⟩
  · refine spelled_congr (fun a _ below => ?_) reads.spelled
    rw [put, Function.update_of_ne (by omega)]
  · rw [put, ptr₂, Function.update_self]
  · change s.ptr + word.1.length < s₂.ptr + 1
    omega
  · exact Nat.lt_of_le_of_lt (Nat.le_trans (Nat.le_add_right _ _) length) enough
  · rcases ahead with none | ⟨-, ahead⟩
    · have tail := scanning₂.tail
      rw [none] at tail ⊢
      change (s₂.put 0).buf s₂.input = 0
      by_cases same : s₂.input = s₂.ptr
      · rw [put, same, Function.update_self]
      · rw [put, Function.update_of_ne same, ← buf]
        exact tail
    · exact tail_put ahead 0 scanning₂.tail
  · exact ahead.imp_right fun ahead => ahead
  · intro a below
    rw [put, Function.update_of_ne (by omega), reads.kept a below]
  · change s.ptr ≤ s₂.ptr + 1
    omega

theorem wordsLoop_spec {size fuel : Nat} {s : Scan} {line : CString} {words : List Nat}
    {done : List CString} (tail : Tail s.buf s.input (trim line))
    (ready : trim line = [] ∨ s.inQuotes = false ∧ s.ptr ≤ s.input)
    (small : (trim line).length < size) (enough : (trim line).length < fuel)
    (stand : List.Forall₂ (Stands size s) words done) :
    ∃ s' words', wordsLoop size fuel s words = some (s', words') ∧
      List.Forall₂ (Stands size s') words' (done ++ splitWords line) := by
  induction fuel generalizing s line words done with
  | zero => exact absurd enough (Nat.not_lt_zero _)
  | succ fuel ih =>
      cases trimmed : trim line with
      | nil =>
          rw [trimmed] at tail
          rw [splitWords_nil trimmed, List.append_nil]
          exact ⟨s, words, if_pos tail, stand⟩
      | cons c rest =>
          rw [trimmed] at tail ready small enough
          obtain ⟨outside, behind⟩ := ready.resolve_left nofun
          have nonzero : ¬s.here = 0 := fun zero => tail.2.1 (tail.1.symm.trans zero)
          obtain ⟨s₁, s₂, scanned, skipped, first, tail', ready', kept, further⟩ :=
            word_stands ⟨tail, behind⟩ small
          rw [outside] at first tail' ready'
          have shorter := @scanWord_shorter c rest (trim_head trimmed)
          have trimLess := trim_length (scanWord false false (c :: rest)).2
          obtain ⟨s', words', ran, stand'⟩ := ih tail' ready' (by omega) (by omega)
            (List.rel_append (stand.imp fun _ _ stands => stands.mono kept further)
              (.cons first .nil))
          refine ⟨s', words', ?_, ?_⟩
          · rw [wordsLoop, if_neg nonzero, scanned]
            change (skipSpaces size s₁).bind _ = _
            rw [skipped]
            exact ran
          · rw [splitWords_cons trimmed]
            simpa using stand'

theorem stand_read {size : Nat} {s : Scan} {words : List Nat} {done : List CString}
    (stand : List.Forall₂ (Stands size s) words done) : words.map (stringAt s.buf size) = done := by
  induction stand with
  | nil => rfl
  | cons stands _ ih =>
      rw [List.map_cons, stringAt_spelled stands.spelled stands.ended stands.short, ih]

/-- What stands in the line is the words of the line. -/
theorem parseIntoWords_eq {line : CString} (noNul : 0 ∉ line) :
    parseIntoWords line = some (splitWords line) := by
  have scanning : Scanning ⟨fun i => line.getD i 0, 0, 0, false⟩ line :=
    ⟨tail_getD noNul [], Nat.le_refl _⟩
  obtain ⟨s, skipped, scanning', buf, ptr, inQuotes, -⟩ :=
    skipSpaces_spec scanning (Nat.lt_succ_self _)
  have short : (trim line).length < line.length + 1 := Nat.lt_succ_of_le (trim_length line)
  obtain ⟨s', words, ran, stand⟩ := @wordsLoop_spec (line.length + 1) _ s line [] []
    scanning'.tail (.inr ⟨inQuotes, scanning'.behind⟩) short short .nil
  rw [parseIntoWords, skipped]
  change (wordsLoop _ _ s []).bind _ = _
  rw [ran]
  exact congrArg some (stand_read stand)

/-! Quoting. -/

def escapeChar (c : UInt8) : CString := if c = quotes ∨ c = backslash then [backslash, c] else [c]

def quote (word : CString) : CString := quotes :: word.flatMap escapeChar ++ [quotes]

def buildString : List CString → CString
  | [] => []
  | first :: rest => rest.foldl (fun str word => str ++ space :: word) first

theorem buildString_cons (first next : CString) (rest : List CString) :
    buildString (first :: next :: rest) = first ++ space :: buildString (next :: rest) := by
  have after (front text : CString) : rest.foldl (fun str word => str ++ space :: word)
      (front ++ text) = front ++ rest.foldl (fun str word => str ++ space :: word) text := by
    induction rest generalizing text with
    | nil => rfl
    | cons word rest ih => rw [List.foldl_cons, List.foldl_cons, List.append_assoc, ih]
  have split := after (first ++ [space]) next
  rw [List.append_assoc, List.append_assoc, List.singleton_append, List.singleton_append] at split
  exact split

def quoteAll (words : List CString) : CString := buildString (words.map quote)

theorem scanWord_escape (c : UInt8) (rest : CString) :
    scanWord true false (escapeChar c ++ rest) =
      Prod.map (c :: ·) id (scanWord true false rest) := by
  have inside : ¬(true = false ∧ c = space) := nofun
  by_cases special : c = quotes ∨ c = backslash
  · rw [escapeChar, if_pos special]
    rfl
  · obtain ⟨plain, unescaped⟩ := not_or.mp special
    rw [escapeChar, if_neg special, List.singleton_append, scanWord, if_neg inside, if_neg plain,
      if_neg unescaped]

theorem scanWord_quote {word rest : CString} (ended : rest = [] ∨ ∃ more, rest = space :: more) :
    scanWord false false (quote word ++ rest) = (word, rest) := by
  have closed : scanWord false false rest = ([], rest) := by
    rcases ended with rfl | ⟨more, rfl⟩ <;> rfl
  have inside : scanWord true false (word.flatMap escapeChar ++ quotes :: rest) = (word, rest) := by
    induction word with
    | nil => exact closed
    | cons c word ih => rw [List.flatMap_cons, List.append_assoc, scanWord_escape, ih]; rfl
  have opened : quote word ++ rest = quotes :: (word.flatMap escapeChar ++ quotes :: rest) := by
    simp [quote]
  rw [opened]
  exact inside

theorem trim_quote (word rest : CString) : trim (quote word ++ rest) = quote word ++ rest := rfl

theorem splitWords_space (line : CString) : splitWords (space :: line) = splitWords line := by
  have trimmed : trim (space :: line) = trim line := rfl
  cases some : trim line with
  | nil => rw [splitWords_nil some, splitWords_nil (trimmed.trans some)]
  | cons c rest => rw [splitWords_cons some, splitWords_cons (trimmed.trans some)]

/-- Quoted words are split as they were joined. -/
theorem splitWords_quoteAll (words : List CString) : splitWords (quoteAll words) = words := by
  induction words with
  | nil => exact splitWords_nil rfl
  | cons word words ih =>
      have step {rest : CString} (ended : rest = [] ∨ ∃ more, rest = space :: more) :
          splitWords (quote word ++ rest) = word :: splitWords rest := by
        rw [splitWords_cons (trim_quote word rest)]
        change (scanWord false false (quote word ++ rest)).1 ::
          splitWords (scanWord false false (quote word ++ rest)).2 = _
        rw [scanWord_quote ended]
      cases words with
      | nil =>
          have single : quoteAll [word] = quote word ++ [] := (List.append_nil _).symm
          rw [single, step (.inl rfl), splitWords_nil rfl]
      | cons next words =>
          have joined : quoteAll (word :: next :: words) =
              quote word ++ space :: quoteAll (next :: words) :=
            buildString_cons (quote word) (quote next) (words.map quote)
          rw [joined, step (.inr ⟨_, rfl⟩), splitWords_space, ih]

end ToastStunt.Commands
