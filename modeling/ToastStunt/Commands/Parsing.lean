import ToastStunt.Commands.Prepositions

/-!
`parse_command` of parse_cmd.cc: a command line becomes a verb, its arguments, and the objects
before and after a preposition.
-/

namespace ToastStunt.Commands

structure ParsedCommand where
  verb : CString
  argstr : CString
  args : List CString
  dobjstr : CString
  dobj : Int
  prepstr : CString
  prep : Option Nat
  iobjstr : CString
  iobj : Int
  deriving DecidableEq, Repr

def nothing : Int := -1

def skipVerb : (inQuotes : Bool) → CString → CString
  | _, [] => []
  | inQuotes, c :: rest =>
      if inQuotes = false ∧ c = space then c :: rest
      else if c = quotes then skipVerb (!inQuotes) rest
      else
        match rest with
        | [] => []
        | d :: rest =>
            if c = backslash then skipVerb inQuotes rest else skipVerb inQuotes (d :: rest)

/-- The words are read from `buf`; three characters stand for a verb. -/
def commandLine (command : CString) : CString × CString :=
  let special (verb argstr : CString) := (verb ++ space :: argstr, argstr)
  match trim command with
  | 34 :: argstr => special (text "say") argstr
  | 58 :: argstr => special (text "emote") argstr
  | 59 :: argstr => special (text "eval") argstr
  | command => (command, trim (skipVerb false command))

def argvString (argv : List CString) (start count : Nat) : CString :=
  buildString ((argv.drop start).take count)

/-- `argv` has the verb in front of the words; places in it are one more than in the words. -/
def parseArgv (matchObject : CString → Int) (argstr verb : CString) (args : List CString) :
    ParsedCommand :=
  let argv := verb :: args
  let argc := argv.length
  let found := if argc > 1 then dbFindPrep false args else none
  let (pstart, pend) :=
    match found with
    | none => (argc, argc)
    | some found => (found.first + 1, found.last + 1)
  let (prepstr, iobjstr) :=
    match found with
    | none => ([], [])
    | some _ =>
        (argvString argv pstart (pend - pstart + 1), argvString argv (pend + 1) (argc - (pend + 1)))
  let dlen := pstart - 1
  let dobjstr := if dlen = 0 then [] else argvString argv 1 dlen
  { verb, argstr, args, dobjstr, prepstr, iobjstr
    dobj := if dlen = 0 then nothing else matchObject dobjstr
    prep := found.map Found.prep
    iobj := if found.isSome then matchObject iobjstr else nothing }

/-- `none` would be a line that never ends; the inner one is a line without words. -/
def parseCommand (matchObject : CString → Int) (command : CString) :
    Option (Option ParsedCommand) := do
  let line := commandLine command
  match ← parseIntoWords line.1 with
  | [] => some none
  | verb :: args => some (some (parseArgv matchObject line.2 verb args))

def argWords (command : CString) : List CString := (splitWords (commandLine command).1).tail

/-! The arguments and their words. -/

theorem skipVerb_cons (inQuotes : Bool) (c : UInt8) (rest : CString) :
    skipVerb inQuotes (c :: rest) =
      if inQuotes = false ∧ c = space then c :: rest
      else if c = quotes then skipVerb (!inQuotes) rest
      else if c = backslash then skipVerb inQuotes rest.tail
      else skipVerb inQuotes rest := by
  cases rest with
  | nil => simp [skipVerb]
  | cons d rest => rw [skipVerb]; rfl

theorem scanWord_skipVerb (inQuotes escaped : Bool) (line : CString) :
    (scanWord inQuotes escaped line).2 =
      skipVerb inQuotes (if escaped then line.tail else line) := by
  induction inQuotes, escaped, line using scanWord.induct with
  | case1 inQuotes escaped => cases escaped <;> rfl
  | case2 inQuotes c rest ih => exact ih
  | case3 inQuotes c rest stop =>
      rw [if_neg Bool.false_ne_true, scanWord, skipVerb_cons, if_pos stop, if_pos stop]
  | case4 inQuotes rest goesOn ih =>
      rw [if_neg Bool.false_ne_true, scanWord, skipVerb_cons, if_neg goesOn, if_neg goesOn,
        if_pos rfl, if_pos rfl]
      exact ih
  | case5 inQuotes rest goesOn plain ih =>
      rw [if_neg Bool.false_ne_true, scanWord, skipVerb_cons, if_neg goesOn, if_neg goesOn,
        if_neg plain, if_neg plain, if_pos rfl, if_pos rfl]
      exact ih
  | case6 inQuotes c rest goesOn plain unescaped ih =>
      rw [if_neg Bool.false_ne_true, scanWord, skipVerb_cons, if_neg goesOn, if_neg goesOn,
        if_neg plain, if_neg plain, if_neg unescaped, if_neg unescaped]
      exact ih

theorem trim_trim (line : CString) : trim (trim line) = trim line := by
  cases same : trim line with
  | nil => rfl
  | cons c rest => rw [trim, List.dropWhile_cons_of_neg (by simpa using trim_head same)]

theorem splitWords_trim (line : CString) : splitWords (trim line) = splitWords line := by
  cases same : trim line with
  | nil => rw [splitWords_nil same, splitWords_nil rfl]
  | cons c rest =>
      have again := trim_trim line
      rw [same] at again
      rw [splitWords_cons same, splitWords_cons again]

def Plain (word : CString) : Prop :=
  word ≠ [] ∧ ∀ c ∈ word, c ≠ space ∧ c ≠ quotes ∧ c ≠ backslash

instance (word : CString) : Decidable (Plain word) := inferInstanceAs (Decidable (_ ∧ _))

theorem scanWord_plain {word : CString} (rest : CString)
    (plain : ∀ c ∈ word, c ≠ space ∧ c ≠ quotes ∧ c ≠ backslash) :
    scanWord false false (word ++ space :: rest) = (word, space :: rest) := by
  induction word with
  | nil => rfl
  | cons c word ih =>
      obtain ⟨solid, unquoted, unescaped⟩ := plain c List.mem_cons_self
      have goesOn : ¬(false = false ∧ c = space) := fun stop => solid stop.2
      rw [List.cons_append, scanWord, if_neg goesOn, if_neg unquoted, if_neg unescaped,
        ih fun d member => plain d (List.mem_cons_of_mem _ member)]
      rfl

theorem splitWords_plain {word : CString} (plain : Plain word) (rest : CString) :
    splitWords (word ++ space :: rest) = word :: splitWords rest := by
  cases word with
  | nil => exact absurd rfl plain.1
  | cons c word =>
      have solid := (plain.2 c List.mem_cons_self).1
      have trimmed : trim (c :: word ++ space :: rest) = c :: (word ++ space :: rest) := by
        rw [trim, List.cons_append, List.dropWhile_cons_of_neg (by simpa using solid)]
      rw [splitWords_cons trimmed, ← List.cons_append, scanWord_plain rest plain.2,
        splitWords_space]

theorem spoken_plain : ∀ verb ∈ [text "say", text "emote", text "eval"],
    Plain verb ∧ 0 ∉ verb := by
  decide +kernel

theorem commandLine_cases (command : CString) :
    (∃ verb argstr, Plain verb ∧ 0 ∉ verb ∧ argstr <:+ trim command ∧
      commandLine command = (verb ++ space :: argstr, argstr)) ∨
    commandLine command = (trim command, trim (skipVerb false (trim command))) := by
  rw [commandLine]
  split
  · rename_i same
    obtain ⟨plain, noNul⟩ := spoken_plain (text "say") (by simp)
    exact .inl ⟨_, _, plain, noNul, same ▸ List.suffix_cons _ _, rfl⟩
  · rename_i same
    obtain ⟨plain, noNul⟩ := spoken_plain (text "emote") (by simp)
    exact .inl ⟨_, _, plain, noNul, same ▸ List.suffix_cons _ _, rfl⟩
  · rename_i same
    obtain ⟨plain, noNul⟩ := spoken_plain (text "eval") (by simp)
    exact .inl ⟨_, _, plain, noNul, same ▸ List.suffix_cons _ _, rfl⟩
  · exact .inr rfl

theorem argstr_words {command : CString} {verb : CString} {args : List CString}
    (words : splitWords (commandLine command).1 = verb :: args) :
    splitWords (commandLine command).2 = args := by
  rcases commandLine_cases command with ⟨special, argstr, plain, -, -, line⟩ | line
  · rw [line] at words ⊢
    rw [splitWords_plain plain] at words
    exact (List.cons.inj words).2
  · rw [line] at words ⊢
    cases start : trim command with
    | nil =>
        rw [start] at words
        cases (splitWords_nil rfl).symm.trans words
    | cons c rest =>
        rw [splitWords_cons ((trim_trim command).trans start)] at words
        rw [splitWords_trim, ← (List.cons.inj words).2, scanWord_skipVerb]
        rfl

theorem trim_suffix (line : CString) : trim line <:+ line := List.dropWhile_suffix _

theorem skipVerb_suffix (inQuotes : Bool) (line : CString) : skipVerb inQuotes line <:+ line := by
  have scanned (escaped : Bool) : (scanWord inQuotes escaped line).2 <:+ line := by
    induction inQuotes, escaped, line using scanWord.induct with
    | case1 => exact List.suffix_refl _
    | case2 inQuotes c rest ih => exact ih.trans (List.suffix_cons _ _)
    | case3 inQuotes c rest stop => simp only [scanWord, if_pos stop, List.suffix_refl]
    | case4 inQuotes rest goesOn ih =>
        rw [scanWord, if_neg goesOn, if_pos rfl]
        exact ih.trans (List.suffix_cons _ _)
    | case5 inQuotes rest goesOn plain ih =>
        rw [scanWord, if_neg goesOn, if_neg plain, if_pos rfl]
        exact ih.trans (List.suffix_cons _ _)
    | case6 inQuotes c rest goesOn plain unescaped ih =>
        rw [scanWord, if_neg goesOn, if_neg plain, if_neg unescaped]
        exact ih.trans (List.suffix_cons _ _)
  have same := scanWord_skipVerb inQuotes false line
  rw [if_neg Bool.false_ne_true] at same
  exact same ▸ scanned false

theorem commandLine_noNul {command : CString} (noNul : 0 ∉ command) :
    0 ∉ (commandLine command).1 ∧ 0 ∉ (commandLine command).2 := by
  have within {part : CString} (suffix : part <:+ trim command) : 0 ∉ part := fun member =>
    noNul ((suffix.trans (trim_suffix command)).subset member)
  rcases commandLine_cases command with ⟨special, argstr, -, spoken, suffix, line⟩ | line
  · have argument := within suffix
    rw [line]
    refine ⟨fun member => ?_, argument⟩
    rcases List.mem_append.mp member with inVerb | inRest
    · exact spoken inVerb
    · exact argument ((List.mem_cons.mp inRest).resolve_left (by decide))
  · rw [line]
    exact ⟨within (List.suffix_refl _),
      within ((trim_suffix _).trans (skipVerb_suffix _ _))⟩

/-! The parts of a command. -/

/-- The words split around the first preposition, which is taken whole. -/
structure SplitAt (args before prep after : List CString) (number : Nat) : Prop where
  parts : args = before ++ prep ++ after
  phrase : IsPhrase prep number
  leftmost : ∀ i < before.length, ∀ count, ¬PhraseAt args i count
  longest : ∀ count, PhraseAt args before.length count → count ≤ prep.length

/-- What a parsed command says of its words. -/
structure Consistent (pc : ParsedCommand) : Prop where
  args : parseIntoWords pc.argstr = some pc.args
  parts : ∃ before prep after, pc.dobjstr = buildString before ∧ pc.prepstr = buildString prep ∧
    pc.iobjstr = buildString after ∧
    match pc.prep with
    | none => pc.args = before ∧ prep = [] ∧ after = [] ∧ ∀ i count, ¬PhraseAt pc.args i count
    | some number => SplitAt pc.args before prep after number

theorem argvString_drop (verb : CString) (args : List CString) (start count : Nat) :
    argvString (verb :: args) (start + 1) count = buildString ((args.drop start).take count) := rfl

theorem parseArgv_parts (matchObject : CString → Int) (argstr verb : CString)
    (args : List CString) :
    let pc := parseArgv matchObject argstr verb args
    match dbFindPrep false args with
    | none => pc.prep = none ∧ pc.dobjstr = buildString args ∧ pc.prepstr = [] ∧ pc.iobjstr = []
    | some found => pc.prep = some found.prep ∧
        pc.dobjstr = buildString (args.take found.first) ∧
        pc.prepstr = buildString ((args.drop found.first).take (found.last + 1 - found.first)) ∧
        pc.iobjstr = buildString (args.drop (found.last + 1)) := by
  intro pc
  have parsed : pc = parseArgv matchObject argstr verb args := rfl
  have searched : (if (verb :: args).length > 1 then dbFindPrep false args else none) =
      dbFindPrep false args := by
    cases args with
    | nil => rfl
    | cons first args => exact if_pos (by simp)
  have direct (count : Nat) : (if count = 0 then [] else argvString (verb :: args) 1 count) =
      buildString (args.take count) := by
    cases count with
    | zero => rw [if_pos rfl, List.take_zero]; rfl
    | succ count => rfl
  cases search : dbFindPrep false args with
  | none =>
      rw [parseArgv, searched, search] at parsed
      have whole := direct args.length
      rw [List.take_length] at whole
      rw [parsed]
      exact ⟨rfl, whole, rfl, rfl⟩
  | some found =>
      rw [parseArgv, searched, search] at parsed
      have ordered := (dbFindPrep_some search).1.ordered
      have inside := (dbFindPrep_some search).1.inside
      rw [parsed]
      refine ⟨rfl, direct _, ?_, ?_⟩
      · change argvString (verb :: args) (found.first + 1) (found.last + 1 - (found.first + 1) + 1) = _
        have count : found.last + 1 - (found.first + 1) + 1 = found.last + 1 - found.first := by omega
        rw [argvString_drop, count]
      · change argvString (verb :: args) (found.last + 1 + 1) _ = _
        rw [argvString_drop, List.take_of_length_le]
        simp only [List.length_cons, List.length_drop]
        omega

theorem buildString_append {front back : List CString} (some : front ≠ []) (more : back ≠ []) :
    buildString (front ++ back) = buildString front ++ space :: buildString back := by
  induction front with
  | nil => exact absurd rfl some
  | cons first front ih =>
      cases front with
      | nil =>
          obtain ⟨next, back, rfl⟩ := List.exists_cons_of_ne_nil more
          exact buildString_cons first next back
      | cons next front =>
          rw [List.cons_append, List.cons_append, buildString_cons, ← List.cons_append,
            ih (List.cons_ne_nil _ _), buildString_cons, List.append_assoc, List.cons_append]

theorem leftmost_unique {argv : List CString} {i j m n : Nat}
    (none : ∀ before < i, ∀ count, ¬PhraseAt argv before count) (here : PhraseAt argv i m)
    (none' : ∀ before < j, ∀ count, ¬PhraseAt argv before count) (here' : PhraseAt argv j n) :
    i = j := by
  refine Nat.le_antisymm (Nat.le_of_not_lt fun after => ?_) (Nat.le_of_not_lt fun after => ?_)
  · exact none j after n here'
  · exact none' i after m here

theorem SplitAt.phraseAt {args before prep after : List CString} {number : Nat}
    (split : SplitAt args before prep after number) :
    PhraseAt args before.length prep.length ∧
      prep = (args.drop before.length).take prep.length := by
  have words : prep = (args.drop before.length).take prep.length := by
    rw [split.parts, List.append_assoc, List.drop_left, List.take_left]
  refine ⟨⟨?_, number, words ▸ split.phrase⟩, words⟩
  rw [split.parts, List.length_append, List.length_append]
  exact Nat.le_add_right _ _

/-- "off" has been taken, and "of" left to the words after it. -/
theorem consistent_notOff {matchObject : CString → Int} {argstr verb : CString}
    {args : List CString} (consistent : Consistent (parseArgv matchObject argstr verb args)) :
    ¬OffOfFirst args := by
  rintro ⟨i, earlier, offOf⟩
  have two : PhraseAt args i 2 := phraseAt_iff.mpr ⟨_, off_entry.2, offOf, rfl⟩
  obtain ⟨before, prep, after, -, same, -, parts⟩ := consistent.parts
  have coded := parseArgv_parts matchObject argstr verb args
  cases search : dbFindPrep false args with
  | none => exact no_phraseAt.mpr (findFrom_none search i) 2 two
  | some found =>
      obtain ⟨leftmost, longest⟩ := dbFindPrep_some search
      rw [search] at coded
      obtain ⟨number, -, taken, -⟩ := coded
      rw [number] at parts
      change SplitAt args before prep after found.prep at parts
      have taken_at : PhraseAt args found.first (found.last + 1 - found.first) := by
        have := leftmost.ordered
        have := leftmost.inside
        exact ⟨by omega, _, leftmost.phrase⟩
      have first := leftmost_unique leftmost.earlier taken_at earlier two
      have place := leftmost_unique parts.leftmost parts.phraseAt.1 earlier two
      rw [← first] at offOf
      have shorter : found.last + 1 - found.first < prep.length := by
        by_contra enough
        refine longest.mp (fun count at_ => ?_) offOf
        have := parts.longest count (by rwa [place, ← first])
        omega
      have words := parts.phraseAt.2
      rw [place, ← first] at words
      have fewer : prep.take (found.last + 1 - found.first) =
          (args.drop found.first).take (found.last + 1 - found.first) := by
        rw [words, List.take_take, Nat.min_eq_left (Nat.le_of_lt shorter)]
      have some : prep.take (found.last + 1 - found.first) ≠ [] := by
        have := leftmost.ordered
        refine List.ne_nil_of_length_pos ?_
        rw [List.length_take]
        omega
      have more : prep.drop (found.last + 1 - found.first) ≠ [] := by
        refine List.ne_nil_of_length_pos ?_
        rw [List.length_drop]
        omega
      have longer := buildString_append some more
      rw [List.take_append_drop, ← same, taken, fewer] at longer
      simp at longer

theorem notOff_consistent {matchObject : CString → Int} {argstr verb : CString}
    {args : List CString} (words : parseIntoWords argstr = some args)
    (notOff : ¬OffOfFirst args) : Consistent (parseArgv matchObject argstr verb args) := by
  have coded := parseArgv_parts matchObject argstr verb args
  refine ⟨words, ?_⟩
  cases search : dbFindPrep false args with
  | none =>
      rw [search] at coded
      obtain ⟨number, dobjstr, prepstr, iobjstr⟩ := coded
      refine ⟨args, [], [], dobjstr, prepstr, iobjstr, ?_⟩
      rw [number]
      exact ⟨rfl, rfl, rfl, fun i => no_phraseAt.mpr (findFrom_none search i)⟩
  | some found =>
      obtain ⟨leftmost, longest⟩ := dbFindPrep_some search
      have ordered := leftmost.ordered
      have inside := leftmost.inside
      rw [search] at coded
      obtain ⟨number, dobjstr, prepstr, iobjstr⟩ := coded
      refine ⟨_, _, _, dobjstr, prepstr, iobjstr, ?_⟩
      have before : (args.take found.first).length = found.first := by
        rw [List.length_take]
        omega
      have taken : ((args.drop found.first).take (found.last + 1 - found.first)).length =
          found.last + 1 - found.first := by
        rw [List.length_take, List.length_drop]
        omega
      rw [number]
      refine ⟨?_, leftmost.phrase, ?_, ?_⟩
      · have rest : args.drop (found.last + 1) =
            (args.drop found.first).drop (found.last + 1 - found.first) := by
          rw [List.drop_drop]
          congr 1
          omega
        rw [rest, List.append_assoc, List.take_append_drop, List.take_append_drop]
        rfl
      · rw [before]
        exact leftmost.earlier
      · rw [before, taken]
        exact longest.mpr fun offOf => notOff ⟨_, leftmost.earlier, offOf⟩

theorem parseCommand_args {matchObject : CString → Int} {command : CString} {pc : ParsedCommand}
    (noNul : 0 ∉ command) (parsed : parseCommand matchObject command = some (some pc)) :
    ∃ verb, pc = parseArgv matchObject (commandLine command).2 verb (argWords command) ∧
      parseIntoWords (commandLine command).2 = some (argWords command) := by
  obtain ⟨line, argument⟩ := commandLine_noNul noNul
  rw [parseCommand, parseIntoWords_eq line] at parsed
  cases words : splitWords (commandLine command).1 with
  | nil =>
      rw [words] at parsed
      cases parsed
  | cons verb args =>
      rw [words] at parsed
      cases parsed
      rw [argWords, words, parseIntoWords_eq argument, argstr_words words]
      exact ⟨verb, rfl, rfl⟩

theorem mem_buildString {words : List CString} {c : UInt8} (member : c ∈ buildString words) :
    c = space ∨ ∃ word ∈ words, c ∈ word := by
  induction words with
  | nil => cases member
  | cons first words ih =>
      cases words with
      | nil => exact .inr ⟨first, List.mem_cons_self, member⟩
      | cons next words =>
          rw [buildString_cons] at member
          rcases List.mem_append.mp member with inFirst | inRest
          · exact .inr ⟨first, List.mem_cons_self, inFirst⟩
          · rcases List.mem_cons.mp inRest with blank | inWords
            · exact .inl blank
            · exact (ih inWords).imp_right fun ⟨word, listed, inWord⟩ =>
                ⟨word, List.mem_cons_of_mem _ listed, inWord⟩

theorem quoteAll_noNul {words : List CString} (noNul : ∀ word ∈ words, 0 ∉ word) :
    0 ∉ quoteAll words := by
  intro member
  rcases mem_buildString member with blank | ⟨quoted, listed, inQuoted⟩
  · cases blank
  · obtain ⟨word, inWords, rfl⟩ := List.mem_map.mp listed
    have inWord : ∃ c ∈ word, 0 ∈ escapeChar c := by
      simpa [quote, quotes] using inQuoted
    obtain ⟨c, inWord, escaped⟩ := inWord
    rw [escapeChar] at escaped
    split at escaped
    · simp [backslash] at escaped
      exact noNul word inWords (escaped ▸ inWord)
    · exact noNul word inWords (List.mem_singleton.mp escaped ▸ inWord)

/-- A command is split as its words say, but for "off of". -/
theorem parseCommand_exact_iff (matchObject : CString → Int) (command : CString)
    (noNul : 0 ∉ command) (pc : ParsedCommand)
    (parsed : parseCommand matchObject command = some (some pc)) :
    Consistent pc ∧ (∀ words, (∀ word ∈ words, word ≠ [] ∧ 0 ∉ word) →
      parseIntoWords (quoteAll words) = some words) ↔ ¬OffOfFirst (argWords command) := by
  obtain ⟨verb, rfl, words⟩ := parseCommand_args noNul parsed
  constructor
  · rintro ⟨consistent, -⟩
    exact consistent_notOff consistent
  · intro notOff
    refine ⟨notOff_consistent words notOff, fun words strings => ?_⟩
    rw [parseIntoWords_eq (quoteAll_noNul fun word member => (strings word member).2),
      splitWords_quoteAll]

theorem parseCommand_exact_put :
    let pc : ParsedCommand :=
      { verb := text "put", argstr := text "\"red book\" in box"
        args := [text "red book", text "in", text "box"]
        dobjstr := text "red book", dobj := nothing, prepstr := text "in", prep := some 3
        iobjstr := text "box", iobj := nothing }
    Consistent pc ∧ (∀ words, (∀ word ∈ words, word ≠ [] ∧ 0 ∉ word) →
      parseIntoWords (quoteAll words) = some words) ↔
    ¬OffOfFirst (argWords (text "put \"red book\" in box")) := by
  intro pc
  have put : 0 ∉ text "put \"red book\" in box" ∧
      parseCommand (fun _ => nothing) (text "put \"red book\" in box") = some (some pc) := by
    decide +kernel
  exact parseCommand_exact_iff (fun _ => nothing) (text "put \"red book\" in box") put.1 pc put.2

/-- "off of" is a preposition, and "of" goes to the indirect object. -/
theorem parseCommand_off_of :
    ∃ pc, parseCommand (fun _ => nothing) (text "get book off of shelf") = some (some pc) ∧
      pc.prepstr = off ∧ pc.iobjstr = text "of shelf" ∧ IsPhrase [off, of] 14 ∧
      ¬Consistent pc := by
  let pc := parseArgv (fun _ => nothing) (text "book off of shelf") (text "get")
    [text "book", off, of, text "shelf"]
  have facts : parseCommand (fun _ => nothing) (text "get book off of shelf") = some (some pc) ∧
      pc.prepstr = off ∧ pc.iobjstr = text "of shelf" ∧
      findAt false [text "book", off, of, text "shelf"] = none ∧
      [off, of].map caseFold = [off, of] ∧
      [off, of] <+: [off, of, text "shelf"].map caseFold := by
    decide +kernel
  obtain ⟨parsed, prepstr, iobjstr, earlier, lower, offOf⟩ := facts
  have phrase : IsPhrase [off, of] 14 := by
    rw [isPhrase_iff, lower]
    exact off_entry.2
  have before : ∀ i < 1, ∀ count, ¬PhraseAt [text "book", off, of, text "shelf"] i count := by
    intro i below
    cases Nat.lt_one_iff.mp below
    exact no_phraseAt.mpr earlier
  refine ⟨pc, parsed, prepstr, iobjstr, phrase, fun consistent => ?_⟩
  exact consistent_notOff consistent ⟨1, before, offOf⟩

end ToastStunt.Commands
