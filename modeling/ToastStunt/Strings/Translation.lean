import Mathlib.Algebra.Order.BigOperators.Group.List
import Mathlib.Algebra.Order.Group.Nat
import ToastStunt.Binary.Encoding
import ToastStunt.Library.Failing

/-!
`strtr` of utils.cc: a table of 128 characters is filled from two strings and applied to a third.
The result is put together in a stream that the next call uses again.
-/

namespace ToastStunt.Strings

open Failing (bind_of_ok)
open ToastStunt.Binary (Fault Stream newStream streamAddChar toupper forall_byte)

/-- A `char` is signed. -/
def charValue (c : UInt8) : Int := if c < 128 then c.toNat else c.toNat - 256

def isupper (c : UInt8) : Bool := 65 ≤ c && c ≤ 90

def islower (c : UInt8) : Bool := 97 ≤ c && c ≤ 122

def isalpha (c : UInt8) : Bool := isupper c || islower c

def tolower (c : UInt8) : UInt8 := if isupper c then c + 32 else c

abbrev Table := Vector UInt8 128

def ascii : Table := Vector.ofFn fun i => UInt8.ofNat i

def store (temp : Table) (index : Int) (c : UInt8) : Except Fault Table :=
  if inside : 0 ≤ index ∧ index < 128 then .ok (temp.set index.toNat c (by omega))
  else .error .beyond

def load (temp : Table) (c : UInt8) : Except Fault UInt8 :=
  match temp[c.toNat]? with
  | some value => .ok value
  | none => .error .beyond

def enter (temp : Table) (c : UInt8) (replacement : Option UInt8) (caseCounts : Bool) :
    Except Fault Table := do
  if !caseCounts && isalpha c then
    let temp ← store temp (charValue (toupper c)) (replacement.elim 0 toupper)
    store temp (charValue (tolower c)) (replacement.elim 0 tolower)
  else store temp (charValue c) (replacement.getD 0)

def fillLoop (toStr : CString) (caseCounts : Bool) (temp : Table) (i : Nat) :
    CString → Except Fault Table
  | [] => .ok temp
  | c :: fromRest => do
      let temp ← enter temp c toStr[i]? caseCounts
      fillLoop toStr caseCounts temp (i + 1) fromRest

def emit (str : Stream) (c : UInt8) : Except Fault Stream :=
  if charValue c > 0 then streamAddChar none str c else .ok str

def sourceLoop (temp : Table) : CString → Stream → Except Fault Stream
  | [], str => .ok str
  | c :: source, str => do
      let c ← load temp c
      let str ← emit str c
      sourceLoop temp source str

/-- The translation, and the stream for the next call. Before the first there is none. -/
def strtr (source fromStr toStr : CString) (caseCounts : Bool) (static : Option Stream) :
    Except Fault (CString × Option Stream) := do
  let str := static.getD (newStream 100)
  let temp ← fillLoop toStr caseCounts ascii 0 fromStr
  let str ← sourceLoop temp source str
  .ok (str.contents, some str.reset)

/-! What the translation is to be. -/

def names (caseCounts : Bool) (c other : UInt8) : Bool :=
  if caseCounts then c = other else tolower c = tolower other

def lastNamed (caseCounts : Bool) (other : UInt8) : CString → Option Nat
  | [] => none
  | c :: rest =>
      match lastNamed caseCounts other rest with
      | some i => some (i + 1)
      | none => if names caseCounts c other then some 0 else none

def inCaseOf (caseCounts : Bool) (other replacement : UInt8) : UInt8 :=
  if caseCounts then replacement
  else if isupper other then toupper replacement
  else if islower other then tolower replacement
  else replacement

def translate (fromStr toStr : CString) (caseCounts : Bool) (c : UInt8) : CString :=
  match lastNamed caseCounts c fromStr with
  | none => [c]
  | some i => (toStr[i]?.map (inCaseOf caseCounts c)).toList

def translated (source fromStr toStr : CString) (caseCounts : Bool) : CString :=
  source.flatMap (translate fromStr toStr caseCounts)

/-- The buffer has only ever doubled, and the last text has been taken. -/
structure Idle (str : Stream) : Prop where
  doubled : ∃ k ≤ 24, str.buflen = 100 * 2 ^ k
  empty : str.contents = []

def Ready (static : Option Stream) : Prop := ∀ str, static = some str → Idle str

def Translates (source fromStr toStr : CString) (caseCounts : Bool) : Prop :=
  ∀ static, Ready static → ∃ static', Ready static' ∧
    strtr source fromStr toStr caseCounts static =
      .ok (translated source fromStr toStr caseCounts, static')

/-- The bytes that matter are below 128, and the result is shorter than the buffer can be. -/
structure SevenBit (source fromStr toStr : CString) (caseCounts : Bool) : Prop where
  read : ∀ c ∈ source, c < 128
  filled : ∀ c ∈ fromStr, c < 128
  put : ∀ c ∈ source, ∀ i r, lastNamed caseCounts c fromStr = some i → toStr[i]? = some r → r < 128
  short : (translated source fromStr toStr caseCounts).length < 100 * 2 ^ 24

/-! The table. -/

theorem charValue_toNat {c : UInt8} (low : c < 128) : charValue c = c.toNat := if_pos low

theorem charValue_neg {c : UInt8} (high : ¬c < 128) : charValue c < 0 := by
  rw [charValue, if_neg high]
  have := c.toNat_lt
  omega

theorem charValue_pos {c : UInt8} : charValue c > 0 ↔ c ≠ 0 ∧ c < 128 := by
  by_cases low : c < 128
  · rw [charValue_toNat low]
    have zero : c.toNat = 0 ↔ c = 0 := UInt8.toNat_inj (b := 0)
    constructor
    · intro positive
      exact ⟨fun same => by rw [zero.mpr same] at positive; omega, low⟩
    · rintro ⟨nonzero, -⟩
      have := mt zero.mp nonzero
      omega
  · have := charValue_neg low
    constructor
    · omega
    · rintro ⟨-, low'⟩
      exact absurd low' low

theorem store_low (temp : Table) {c : UInt8} (low : c < 128) (value : UInt8) :
    ∃ temp', store temp (charValue c) value = .ok temp' ∧
      ∀ other : UInt8, other < 128 →
        temp'[other.toNat]? = if c = other then some value else temp[other.toNat]? := by
  have bound : c.toNat < 128 := UInt8.lt_iff_toNat_lt.mp low
  have inside : 0 ≤ charValue c ∧ charValue c < 128 := by
    rw [charValue_toNat low]
    omega
  refine ⟨temp.set c.toNat value bound, ?_, fun other _ => ?_⟩
  · rw [store, dif_pos inside]
    simp only [charValue_toNat low, Int.toNat_natCast]
  · rw [Vector.getElem?_set]
    simp only [UInt8.toNat_inj]

theorem store_high {temp : Table} {c : UInt8} (high : ¬c < 128) (value : UInt8) :
    store temp (charValue c) value = .error .beyond := by
  have := charValue_neg high
  rw [store, dif_neg (by omega)]

theorem tolower_alpha {c : UInt8} (alpha : isalpha c = true) :
    islower (tolower c) = true ∧ isupper (tolower c) = false ∧ isupper (toupper c) = true ∧
      toupper (tolower c) = toupper c ∧ (c < 128 ∧ tolower c < 128 ∧ toupper c < 128) :=
  forall_byte (p := fun c => isalpha c = true → islower (tolower c) = true ∧
    isupper (tolower c) = false ∧ isupper (toupper c) = true ∧ toupper (tolower c) = toupper c ∧
    (c < 128 ∧ tolower c < 128 ∧ toupper c < 128)) (by decide +kernel) c alpha

theorem tolower_back (c : UInt8) :
    (c = tolower c ∨ c = toupper (tolower c)) ∧ tolower (tolower c) = tolower c ∧
      tolower (toupper c) = tolower c :=
  forall_byte (p := fun c => (c = tolower c ∨ c = toupper (tolower c)) ∧
    tolower (tolower c) = tolower c ∧ tolower (toupper c) = tolower c) (by decide +kernel) c

theorem tolower_plain {c : UInt8} (plain : isalpha c = false) :
    tolower c = c ∧ isupper c = false ∧ islower c = false := by
  obtain ⟨upper, lower⟩ := Bool.or_eq_false_iff.mp plain
  exact ⟨by rw [tolower, upper]; rfl, upper, lower⟩

theorem names_alpha {c : UInt8} (alpha : isalpha c = true) (other : UInt8) :
    names false c other = true ↔ tolower c = other ∨ toupper c = other := by
  have facts := tolower_alpha alpha
  simp only [names, Bool.false_eq_true, if_false, decide_eq_true_eq]
  constructor
  · intro same
    rcases (tolower_back other).1 with isLower | isUpper
    · exact .inl (same.trans isLower.symm)
    · rw [← same, facts.2.2.2.1] at isUpper
      exact .inr isUpper.symm
  · rintro (rfl | rfl)
    · exact (tolower_back c).2.1.symm
    · exact (tolower_back c).2.2.symm

theorem names_plain {c : UInt8} (plain : isalpha c = false) (other : UInt8) :
    names false c other = true ↔ c = other := by
  simp only [names, Bool.false_eq_true, if_false, decide_eq_true_eq]
  rw [(tolower_plain plain).1]
  constructor
  · intro same
    cases alpha : isalpha other with
    | false => rw [same, (tolower_plain alpha).1]
    | true =>
        have lower := (tolower_alpha alpha).1
        rw [← same, (tolower_plain plain).2.2] at lower
        cases lower
  · rintro rfl
    exact (tolower_plain plain).1.symm

def written (caseCounts : Bool) (other : UInt8) (replacement : Option UInt8) : UInt8 :=
  (replacement.map (inCaseOf caseCounts other)).getD 0

theorem enter_low (temp : Table) {c : UInt8} (low : c < 128) (replacement : Option UInt8)
    (caseCounts : Bool) :
    ∃ temp', enter temp c replacement caseCounts = .ok temp' ∧
      ∀ other : UInt8, other < 128 →
        temp'[other.toNat]? = if names caseCounts c other then
          some (written caseCounts other replacement) else temp[other.toNat]? := by
  cases caseCounts with
  | true =>
      obtain ⟨temp', stored, holds⟩ := store_low temp low (replacement.getD 0)
      refine ⟨temp', stored, fun other small => ?_⟩
      rw [holds other small]
      cases replacement <;> simp [names, written, inCaseOf]
  | false =>
      cases alpha : isalpha c with
      | false =>
          obtain ⟨temp', stored, holds⟩ := store_low temp low (replacement.getD 0)
          refine ⟨temp', by simpa [enter, alpha] using stored, fun other small => ?_⟩
          rw [holds other small]
          simp only [names_plain alpha]
          by_cases same : c = other
          · subst same
            have plain := tolower_plain alpha
            cases replacement <;> simp [written, inCaseOf, plain]
          · simp [same]
      | true =>
          obtain ⟨lower, notUpper, upper, -, -, lowSmall, upSmall⟩ := tolower_alpha alpha
          obtain ⟨middle, first, holdsFirst⟩ :=
            store_low temp upSmall (replacement.elim 0 toupper)
          obtain ⟨temp', second, holds⟩ :=
            store_low middle lowSmall (replacement.elim 0 tolower)
          have entered : enter temp c replacement false = .ok temp' := by
            simp only [enter, alpha, Bool.not_false, Bool.true_and, if_true]
            rw [first]
            exact second
          refine ⟨temp', entered, fun other small => ?_⟩
          rw [holds other small, holdsFirst other small]
          simp only [names_alpha alpha]
          by_cases isLower : tolower c = other
          · subst isLower
            cases replacement <;> simp [written, inCaseOf, notUpper, lower]
          · by_cases isUpper : toupper c = other
            · subst isUpper
              cases replacement <;> simp [isLower, written, inCaseOf, upper]
            · simp [isLower, isUpper]

theorem enter_high {temp : Table} {c : UInt8} (high : ¬c < 128) (replacement : Option UInt8)
    (caseCounts : Bool) : enter temp c replacement caseCounts = .error .beyond := by
  have plain : isalpha c = false := by
    by_contra alpha
    exact high (tolower_alpha (by simpa using alpha)).2.2.2.2.1
  simp [enter, plain, store_high high]

theorem fillLoop_low (toStr : CString) {fromStr : CString} (caseCounts : Bool) (temp : Table) (i : Nat)
    (low : ∀ c ∈ fromStr, c < 128) :
    ∃ temp', fillLoop toStr caseCounts temp i fromStr = .ok temp' ∧
      ∀ other : UInt8, other < 128 →
        temp'[other.toNat]? = match lastNamed caseCounts other fromStr with
          | none => temp[other.toNat]?
          | some k => some (written caseCounts other toStr[i + k]?) := by
  induction fromStr generalizing temp i with
  | nil => exact ⟨temp, rfl, fun _ _ => rfl⟩
  | cons c rest ih =>
      obtain ⟨middle, entered, holds⟩ :=
        enter_low temp (low c (by simp)) toStr[i]? caseCounts
      obtain ⟨temp', filled, later⟩ := ih middle (i + 1) fun c member => low c (by simp [member])
      refine ⟨temp', by rw [fillLoop, entered]; exact filled, fun other small => ?_⟩
      rw [later other small, lastNamed]
      cases named : lastNamed caseCounts other rest with
      | some k => simp only [Nat.add_assoc, Nat.add_comm 1 k]
      | none =>
          simp only [holds other small]
          cases names caseCounts c other <;> rfl

theorem fillLoop_high (toStr : CString) {fromStr : CString} (caseCounts : Bool) (temp : Table) (i : Nat)
    {c : UInt8} (member : c ∈ fromStr) (high : ¬c < 128) :
    ∃ fault, fillLoop toStr caseCounts temp i fromStr = .error fault := by
  induction fromStr generalizing temp i with
  | nil => cases member
  | cons first rest ih =>
      rcases List.mem_cons.mp member with rfl | later
      · exact ⟨.beyond, by rw [fillLoop, enter_high high]; rfl⟩
      · cases entered : enter temp first toStr[i]? caseCounts with
        | error fault => exact ⟨fault, by rw [fillLoop, entered]; rfl⟩
        | ok middle =>
            obtain ⟨fault, failed⟩ := ih middle (i + 1) later
            exact ⟨fault, by rw [fillLoop, entered]; exact failed⟩

/-! The loop over the source. -/

def taken (c : UInt8) : CString := if charValue c > 0 then [c] else []

structure Filling (str : Stream) : Prop where
  doubled : ∃ k ≤ 24, str.buflen = 100 * 2 ^ k
  room : str.contents.length < str.buflen

theorem Filling.small {str : Stream} (filling : Filling str) :
    str.contents.length < 100 * 2 ^ 24 := by
  obtain ⟨k, atMost, buflen⟩ := filling.doubled
  have power : 2 ^ k ≤ 2 ^ 24 := Nat.pow_le_pow_right (by omega) atMost
  have := filling.room
  omega

theorem streamAddChar_filling {str : Stream} (filling : Filling str) (c : UInt8) :
    if str.contents.length + 1 < 100 * 2 ^ 24 then
      ∃ str', streamAddChar none str c = .ok str' ∧ Filling str' ∧
        str'.contents = str.contents ++ [c]
    else streamAddChar none str c = .error .overflow := by
  obtain ⟨k, atMost, buflen⟩ := filling.doubled
  have power : 2 ^ k ≤ 2 ^ 24 := Nat.pow_le_pow_right (by omega) atMost
  have room := filling.room
  by_cases full : str.contents.length + 1 ≥ str.buflen
  · rcases Nat.lt_or_eq_of_le atMost with less | rfl
    · have double : 2 ^ (k + 1) ≤ 2 ^ 24 := Nat.pow_le_pow_right (by omega) less
      rw [Nat.pow_succ] at double
      have grown : str.buflen * 2 < 2 ^ 31 := by omega
      rw [if_pos (by omega)]
      refine ⟨⟨str.contents ++ [c], str.buflen * 2⟩, ?_, ⟨⟨k + 1, less, ?_⟩, ?_⟩, rfl⟩
      · simp only [streamAddChar, if_pos full, Binary.grow, if_pos grown]
        rfl
      · rw [buflen, Nat.pow_succ, Nat.mul_assoc]
      · simp only [List.length_append, List.length_singleton]
        omega
    · have exceeds : ¬str.buflen * 2 < 2 ^ 31 := by omega
      rw [if_neg (by omega)]
      simp only [streamAddChar, if_pos full, Binary.grow, if_neg exceeds]
      rfl
  · rw [if_pos (by omega)]
    refine ⟨⟨str.contents ++ [c], str.buflen⟩, ?_, ⟨filling.doubled, ?_⟩, rfl⟩
    · simp only [streamAddChar, if_neg full]
      rfl
    · simp only [List.length_append, List.length_singleton]
      omega

theorem load_low {temp : Table} {c value : UInt8} (holds : temp[c.toNat]? = some value) :
    load temp c = .ok value := by
  rw [load, holds]

theorem load_high (temp : Table) {c : UInt8} (high : ¬c < 128) :
    load temp c = .error .beyond := by
  have outside : temp[c.toNat]? = none := by
    rw [Vector.getElem?_eq_none_iff]
    exact Nat.not_lt.mp fun small => high (UInt8.lt_iff_toNat_lt.mpr small)
  rw [load, outside]

theorem sourceLoop_low {temp : Table} {value : UInt8 → UInt8}
    (holds : ∀ c : UInt8, c < 128 → temp[c.toNat]? = some (value c)) {source : CString}
    {str : Stream} (filling : Filling str) (low : ∀ c ∈ source, c < 128) :
    if str.contents.length + (source.flatMap fun c => taken (value c)).length < 100 * 2 ^ 24 then
      ∃ str', sourceLoop temp source str = .ok str' ∧ Filling str' ∧
        str'.contents = str.contents ++ source.flatMap fun c => taken (value c)
    else sourceLoop temp source str = .error .overflow := by
  induction source generalizing str with
  | nil =>
      rw [if_pos (by simpa using filling.small)]
      exact ⟨str, rfl, filling, by simp⟩
  | cons c source ih =>
      have rest {str : Stream} (filling : Filling str) :=
        ih filling fun c member => low c (by simp [member])
      have loaded := load_low (holds c (low c (by simp)))
      by_cases positive : charValue (value c) > 0
      · have added := streamAddChar_filling filling (value c)
        have text : ((c :: source).flatMap fun c => taken (value c)) =
            value c :: source.flatMap fun c => taken (value c) := by
          simp [taken, positive]
        rw [text, List.length_cons]
        by_cases room : str.contents.length + 1 < 100 * 2 ^ 24
        · rw [if_pos room] at added
          obtain ⟨str', ran, filling', contents⟩ := added
          have next := rest filling'
          rw [contents, List.length_append, List.length_singleton] at next
          have same : sourceLoop temp (c :: source) str = sourceLoop temp source str' := by
            rw [sourceLoop, bind_of_ok loaded, emit, if_pos positive]
            exact bind_of_ok ran _
          rw [same, Nat.add_comm _ 1, ← Nat.add_assoc]
          simpa using next
        · rw [if_neg room] at added
          rw [if_neg (by omega), sourceLoop, bind_of_ok loaded, emit, if_pos positive, added]
          rfl
      · have text : ((c :: source).flatMap fun c => taken (value c)) =
            source.flatMap fun c => taken (value c) := by
          simp [taken, positive]
        have same : sourceLoop temp (c :: source) str = sourceLoop temp source str := by
          rw [sourceLoop, bind_of_ok loaded, emit, if_neg positive]
          rfl
        rw [text, same]
        exact rest filling

theorem sourceLoop_high (temp : Table) {c : UInt8} {source : CString} (member : c ∈ source)
    (high : ¬c < 128) (str : Stream) : ∃ fault, sourceLoop temp source str = .error fault := by
  induction source generalizing str with
  | nil => cases member
  | cons first source ih =>
      rcases List.mem_cons.mp member with rfl | later
      · exact ⟨.beyond, by rw [sourceLoop, load_high temp high]; rfl⟩
      · cases loaded : load temp first with
        | error fault => exact ⟨fault, by rw [sourceLoop, loaded]; rfl⟩
        | ok value =>
            cases emitted : emit str value with
            | error fault => exact ⟨fault, by rw [sourceLoop, bind_of_ok loaded, emitted]; rfl⟩
            | ok str' =>
                obtain ⟨fault, failed⟩ := ih later str'
                exact ⟨fault, by rw [sourceLoop, bind_of_ok loaded, bind_of_ok emitted, failed]⟩

theorem ascii_get {c : UInt8} (low : c < 128) : ascii[c.toNat]? = some c := by
  have bound : c.toNat < 128 := UInt8.lt_iff_toNat_lt.mp low
  rw [ascii, Vector.getElem?_ofFn, dif_pos bound, UInt8.ofNat_toNat]

def entry (fromStr toStr : CString) (caseCounts : Bool) (c : UInt8) : UInt8 :=
  match lastNamed caseCounts c fromStr with
  | none => c
  | some i => written caseCounts c toStr[i]?

theorem filling_getD {static : Option Stream} (ready : Ready static) :
    Filling (static.getD (newStream 100)) ∧ (static.getD (newStream 100)).contents = [] := by
  cases static with
  | none => exact ⟨⟨⟨0, by omega, rfl⟩, by decide⟩, rfl⟩
  | some str =>
      have idle := ready str rfl
      obtain ⟨k, atMost, buflen⟩ := idle.doubled
      have : 0 < 2 ^ k := Nat.pow_pos (by omega)
      refine ⟨⟨idle.doubled, ?_⟩, idle.empty⟩
      rw [Option.getD_some, idle.empty, buflen, List.length_nil]
      omega

theorem strtr_low {source fromStr : CString} (toStr : CString) (caseCounts : Bool)
    {static : Option Stream} (ready : Ready static) (read : ∀ c ∈ source, c < 128) (filled : ∀ c ∈ fromStr, c < 128) :
    let text := source.flatMap fun c => taken (entry fromStr toStr caseCounts c)
    if text.length < 100 * 2 ^ 24 then
      ∃ static', Ready static' ∧
        strtr source fromStr toStr caseCounts static = .ok (text, static')
    else strtr source fromStr toStr caseCounts static = .error .overflow := by
  obtain ⟨temp, ran, holds⟩ :=
    fillLoop_low toStr caseCounts ascii 0 filled
  have entries : ∀ c : UInt8, c < 128 →
      temp[c.toNat]? = some (entry fromStr toStr caseCounts c) := by
    intro c small
    rw [holds c small, entry]
    cases lastNamed caseCounts c fromStr with
    | none => exact ascii_get small
    | some i => simp
  obtain ⟨filling, empty⟩ := filling_getD ready
  have looped := sourceLoop_low entries filling read
  rw [empty, List.length_nil, Nat.zero_add, List.nil_append] at looped
  intro text
  by_cases short : text.length < 100 * 2 ^ 24
  · rw [if_pos short] at looped
    obtain ⟨str', loop, filling', contents⟩ := looped
    rw [if_pos short]
    refine ⟨some str'.reset, ?_, ?_⟩
    · rintro _ ⟨⟩
      exact ⟨filling'.doubled, rfl⟩
    · rw [strtr, bind_of_ok ran, bind_of_ok loop, contents]
  · rw [if_neg short] at looped
    rw [if_neg short, strtr, bind_of_ok ran, looped]
    rfl

theorem inCaseOf_low (caseCounts : Bool) (other r : UInt8) :
    (inCaseOf caseCounts other r = 0 ↔ r = 0) ∧ (inCaseOf caseCounts other r < 128 ↔ r < 128) := by
  have upper := forall_byte (p := fun r => (toupper r = 0 ↔ r = 0) ∧ (toupper r < 128 ↔ r < 128))
    (by decide +kernel) r
  have lower := forall_byte (p := fun r => (tolower r = 0 ↔ r = 0) ∧ (tolower r < 128 ↔ r < 128))
    (by decide +kernel) r
  rw [inCaseOf]
  split
  · exact ⟨Iff.rfl, Iff.rfl⟩
  · split
    · exact upper
    · split
      · exact lower
      · exact ⟨Iff.rfl, Iff.rfl⟩

def Lost (fromStr toStr : CString) (caseCounts : Bool) (c : UInt8) : Prop :=
  ∃ i r, lastNamed caseCounts c fromStr = some i ∧ toStr[i]? = some r ∧ ¬r < 128

section Entries

variable {fromStr toStr : CString} {c : UInt8} {caseCounts : Bool}

theorem taken_kept (low : c < 128) (nonzero : c ≠ 0) (noNul : 0 ∉ toStr)
    (kept : ¬Lost fromStr toStr caseCounts c) :
    taken (entry fromStr toStr caseCounts c) = translate fromStr toStr caseCounts c := by
  rw [entry, translate]
  cases named : lastNamed caseCounts c fromStr with
  | none => simp [taken, charValue_pos, low, nonzero]
  | some i =>
      cases put : toStr[i]? with
      | none => simp [put, written, taken, charValue_pos]
      | some r =>
          have facts := inCaseOf_low caseCounts c r
          have nonzero : r ≠ 0 := fun same => noNul (same ▸ List.mem_of_getElem? put)
          have small : r < 128 := by
            by_contra high
            exact kept ⟨i, r, named, put, high⟩
          simp [put, written, taken, charValue_pos, facts, nonzero, small]

theorem taken_lost (lost : Lost fromStr toStr caseCounts c) :
    taken (entry fromStr toStr caseCounts c) = [] ∧
      (translate fromStr toStr caseCounts c).length = 1 := by
  obtain ⟨i, r, named, put, high⟩ := lost
  have facts := inCaseOf_low caseCounts c r
  rw [entry, translate]
  simp [named, put, written, taken, charValue_pos, facts, high]

end Entries

theorem flatMap_same_length {α β : Type} {f g : α → List β} {items : List α}
    (shorter : ∀ item ∈ items, (f item).length ≤ (g item).length)
    (same : items.flatMap f = items.flatMap g) :
    ∀ item ∈ items, (f item).length = (g item).length := by
  intro item member
  by_contra differ
  have less := List.sum_lt_sum (fun item => (f item).length) (fun item => (g item).length) shorter
    ⟨item, member, Nat.lt_of_le_of_ne (shorter item member) differ⟩
  have lengths := congrArg List.length same
  rw [List.length_flatMap, List.length_flatMap] at lengths
  omega

/-- `strtr` translates exactly where the bytes that matter are below 128. -/
theorem strtr_exact_iff (source fromStr toStr : CString) (caseCounts : Bool)
    (noNul : 0 ∉ source) (noNulTo : 0 ∉ toStr) :
    Translates source fromStr toStr caseCounts ↔ SevenBit source fromStr toStr caseCounts := by
  have nonzero : ∀ c ∈ source, c ≠ 0 := fun c member same => noNul (same ▸ member)
  have text (read : ∀ c ∈ source, c < 128)
      (kept : ∀ c ∈ source, ¬Lost fromStr toStr caseCounts c) :
      (source.flatMap fun c => taken (entry fromStr toStr caseCounts c)) =
        translated source fromStr toStr caseCounts :=
    List.flatMap_congr fun c member =>
      taken_kept (read c member) (nonzero c member) noNulTo (kept c member)
  constructor
  · intro translates
    obtain ⟨static', -, ran⟩ := translates none nofun
    have read : ∀ c ∈ source, c < 128 := by
      intro c member
      by_contra high
      rw [strtr] at ran
      cases filled : fillLoop toStr caseCounts ascii 0 fromStr with
      | error fault =>
          rw [filled] at ran
          cases ran
      | ok temp =>
          obtain ⟨fault, failed⟩ :=
            sourceLoop_high temp member high (newStream 100)
          rw [bind_of_ok filled, Option.getD_none, failed] at ran
          cases ran
    have filled : ∀ c ∈ fromStr, c < 128 := by
      intro c member
      by_contra high
      obtain ⟨fault, failed⟩ :=
        fillLoop_high toStr caseCounts ascii 0 member high
      rw [strtr, failed] at ran
      cases ran
    have low := @strtr_low source fromStr toStr caseCounts none nofun read filled
    have short : (source.flatMap fun c => taken (entry fromStr toStr caseCounts c)).length <
        100 * 2 ^ 24 := by
      by_contra long
      rw [if_neg long, ran] at low
      cases low
    rw [if_pos short] at low
    obtain ⟨_, -, ran'⟩ := low
    have same := (Prod.mk.inj (Except.ok.inj (ran'.symm.trans ran))).1
    have kept : ∀ c ∈ source, ¬Lost fromStr toStr caseCounts c := by
      intro c member lost
      have shorter : ∀ c ∈ source, (taken (entry fromStr toStr caseCounts c)).length ≤
          (translate fromStr toStr caseCounts c).length := by
        intro c member
        by_cases lost : Lost fromStr toStr caseCounts c
        · simp [taken_lost lost]
        · rw [taken_kept (read c member) (nonzero c member) noNulTo lost]
      have lengths := flatMap_same_length shorter same c member
      obtain ⟨empty, one⟩ := taken_lost lost
      rw [empty, one] at lengths
      cases lengths
    refine ⟨read, filled, fun c member i r named put => ?_, text read kept ▸ short⟩
    by_contra high
    exact kept c member ⟨i, r, named, put, high⟩
  · intro sevenBit static ready
    have kept : ∀ c ∈ source, ¬Lost fromStr toStr caseCounts c := by
      rintro c member ⟨i, r, named, put, high⟩
      exact high (sevenBit.put c member i r named put)
    have low := strtr_low toStr caseCounts ready sevenBit.read sevenBit.filled
    rw [text sevenBit.read kept, if_pos sevenBit.short] at low
    exact low

theorem strtr_exact_hello :
    Translates [104, 101, 108, 108, 111] [101, 108] [105, 112] false ↔
      SevenBit [104, 101, 108, 108, 111] [101, 108] [105, 112] false :=
  strtr_exact_iff [104, 101, 108, 108, 111] [101, 108] [105, 112] false (by decide) (by decide)

/-- `strtr("a", "a", chr(200))` is the empty string, and `strtr(chr(200), "a", "b")` reads past the
end of the table. -/
theorem strtr_loses_high :
    strtr [97] [97] [200] false none = .ok ([], some ⟨[], 100⟩) ∧
      ¬Translates [97] [97] [200] false ∧
      strtr [200] [97] [98] false none = .error .beyond := by
  have lost : strtr [97] [97] [200] false none = .ok ([], some ⟨[], 100⟩) := by rfl
  refine ⟨lost, fun translates => ?_, by rfl⟩
  obtain ⟨static', -, ran⟩ := translates none nofun
  have same := (Prod.mk.inj (Except.ok.inj (lost.symm.trans ran))).1
  exact absurd same (by decide +kernel)

end ToastStunt.Strings
