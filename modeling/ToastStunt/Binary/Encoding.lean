import ToastStunt.Binary.Streams
import ToastStunt.Lists.Positions

/-!
Binary strings: `raw_bytes_to_binary` and `binary_to_raw_bytes` of utils.cc, `decode_binary` and
`encode_binary` of list.cc.
-/

namespace ToastStunt.Binary

open ToastStunt.Lists

def tilde : UInt8 := 126

/-- The server never sets a locale. -/
def isgraph (c : UInt8) : Bool := 33 ≤ c && c ≤ 126

def toupper (c : UInt8) : UInt8 := if 97 ≤ c ∧ c ≤ 122 then c - 32 else c

def hexUpper (digit : UInt8) : UInt8 := if digit ≤ 9 then 48 + digit else 55 + digit

def escaped (c : UInt8) : CString := [tilde, hexUpper (c / 16), hexUpper (c % 16)]

def streamAddRawByte (maximum : Option Nat) (s : Stream) (c : UInt8) : Except Fault Stream :=
  if c ≠ tilde ∧ (isgraph c ∨ c = 32) then streamAddChar maximum s c
  else streamAddString maximum s (escaped c)

def streamAddRawBytesToBinary (maximum : Option Nat) (s : Stream) :
    List UInt8 → Except Fault Stream
  | [] => .ok s
  | c :: buffer => do streamAddRawBytesToBinary maximum (← streamAddRawByte maximum s c) buffer

/-- The buffer `s` is kept from call to call, and is empty between two calls. -/
def rawBytesToBinary (s : Stream) (buffer : List UInt8) : Except Fault (CString × Stream) := do
  let s ← streamAddRawBytesToBinary none s buffer
  .ok (s.contents, s.reset)

/-! Decoding. -/

/-- What is left of a string up to its NUL; `none` is past it. -/
abbrev Pointer := Option CString

def fetch : Pointer → Except Fault (UInt8 × Pointer)
  | none => .error .beyond
  | some [] => .ok (0, none)
  | some (c :: rest) => .ok (c, some rest)

def isHex (c : UInt8) : Bool := 48 ≤ c && c ≤ 57 || 65 ≤ c && c ≤ 70

def hexValue (c : UInt8) : UInt8 := if c ≤ 57 then c - 48 else c - 65 + 10

/-- The inner failure is `return nullptr`. -/
def readHex : Nat → UInt8 → Pointer → Except Fault (Option (UInt8 × Pointer))
  | 0, cc, ptr => .ok (some (cc, ptr))
  | count + 1, cc, ptr => do
      let (c, ptr) ← fetch ptr
      let c := toupper c
      if isHex c then readHex count (cc * 16 + hexValue c) ptr else .ok none

/-- Every step moves on, so that the fuel of the caller does not run out. -/
def rawLoop : Nat → Pointer → Stream → Except Fault (Option Stream)
  | 0, _, _ => .error .beyond
  | _, none, _ => .error .beyond
  | _, some [], s => .ok (some s)
  | fuel + 1, some (c :: rest), s => do
      if c ≠ tilde then rawLoop fuel (some rest) (← streamAddChar none s c)
      else
        match ← readHex 2 0 (some rest) with
        | none => .ok none
        | some (cc, ptr) => rawLoop fuel ptr (← streamAddChar none s cc)

/-- `s` is the buffer that the function keeps. A call that fails leaves its text there. -/
def binaryToRawBytes (s : Stream) (binary : CString) : Except Fault (Option (List UInt8)) := do
  let s ← rawLoop (binary.length + 1) (some binary) s.reset
  .ok (s.map Stream.contents)

/-! The built-in functions. -/

inductive Item
  | int (num : Int)
  | str (str : CString)
  | list (items : List Item)
  | other

inductive Answer (α : Type)
  | value (value : α)
  | invarg
  | space

/-- The options as the server canonicalizes them; `stream_alloc_maximum` is one more than the limit
on strings. -/
structure Limits where
  list : Num
  concat : Nat
  atLeast : 1021 ≤ concat
  atMost : concat ≤ 2 ^ 31 - 1 - 1021

def Limits.streamAllocMaximum (limits : Limits) : Nat := limits.concat + 1

def inString (c : UInt8) : Bool := isgraph c || c = 32 || c = 9

def countLoop : List UInt8 → Nat → Bool → Nat
  | [], count, _ => count
  | c :: bytes, count, in_string =>
      if inString c then countLoop bytes (if in_string then count else count + 1) true
      else countLoop bytes (count + 1) false

def store (r : List (Option Item)) (i : Nat) (v : Item) : Except Fault (List (Option Item)) :=
  if 1 ≤ i ∧ i ≤ r.length then .ok (r.set (i - 1) (some v)) else .error .beyond

def newList (size : Int) : Except Fault (List (Option Item)) :=
  if listRoom size then .ok (List.replicate size.toNat none) else .error .overflow

def fillFully : List UInt8 → Nat → List (Option Item) → Except Fault (List (Option Item))
  | [], _, r => .ok r
  | c :: bytes, i, r => do fillFully bytes (i + 1) (← store r i (.int c.toNat))

def flush (count : Nat) (in_string : Bool) (s : Stream) (r : List (Option Item)) :
    Except Fault (Nat × Stream × List (Option Item)) :=
  if in_string then (store r count (.str s.contents)).map fun r => (count + 1, s.reset, r)
  else .ok (count, s, r)

def fillLoop : List UInt8 → Nat → Bool → Stream → List (Option Item) →
    Except Fault (List (Option Item))
  | [], count, in_string, s, r => if in_string then store r count (.str s.contents) else .ok r
  | c :: bytes, count, in_string, s, r => do
      if inString c then fillLoop bytes count true (← streamAddChar none s c) r
      else
        let (count, s, r) ← flush count in_string s r
        fillLoop bytes (count + 1) false s (← store r count (.int c.toNat))

def itemBytes : Option Item → Nat
  | some (.str str) => 16 + str.length + 1
  | _ => 16

def decodeElements (bytes : List UInt8) (fully : Bool) : Except Fault (List (Option Item)) :=
  if fully then newList bytes.length >>= fillFully bytes 1
  else newList (countLoop bytes 0 false) >>= fillLoop bytes 1 false (newStream 50)

def bfDecodeBinary (limits : Limits) (s : Stream) (binary : CString) (fully : Bool) :
    Except Fault (Answer (List (Option Item))) := do
  match ← binaryToRawBytes s binary with
  | none => .ok .invarg
  | some bytes =>
      let r ← decodeElements bytes fully
      .ok (if valueBytes itemBytes r ≤ limits.list.val then .value r else .space)

mutual

/-- The inner failure is the result 0. -/
def encodeBinary (most : Nat) (minimum maximum : Int) (s : Stream) :
    Item → Except Fault (Option Stream)
  | .int num =>
      if num < minimum ∨ num > maximum then .ok none
      else (streamAddChar (some most) s (UInt8.ofNat num.toNat)).map some
  | .str str => (streamAddString (some most) s str).map some
  | .list items => encodeItems most minimum maximum s items
  | .other => .ok none

def encodeItems (most : Nat) (minimum maximum : Int) (s : Stream) :
    List Item → Except Fault (Option Stream)
  | [] => .ok (some s)
  | item :: items => do
      match ← encodeBinary most minimum maximum s item with
      | none => .ok none
      | some s => encodeItems most minimum maximum s items

end

def escapeRaw (most : Nat) (s : Stream) : Except Fault (Answer CString) := do
  let s2 ← streamAddRawBytesToBinary (some most) (newStream 100) s.contents
  .ok (.value s2.contents)

def encodeArguments (most : Nat) (arglist : List Item) : Except Fault (Answer CString) := do
  match ← encodeBinary most 0 255 (newStream 100) (.list arglist) with
  | none => .ok .invarg
  | some s => escapeRaw most s

def caught (result : Except Fault (Answer CString)) : Except Fault (Answer CString) :=
  match result with
  | .error .tooBig => .ok .space
  | result => result

def bfEncodeBinary (limits : Limits) (arglist : List Item) : Except Fault (Answer CString) :=
  caught (encodeArguments limits.streamAllocMaximum arglist)

def chrArguments (most : Nat) (wizard : Bool) (arglist : List Item) :
    Except Fault (Answer CString) := do
  let encoded ←
    if wizard then encodeBinary most 0 255 (newStream 100) (.list arglist)
    else encodeBinary most 32 254 (newStream 100) (.list arglist)
  match encoded with
  | none => .ok .invarg
  | some s => .ok (.value (s.contents.takeWhile (· ≠ 0)))

def bfChr (limits : Limits) (wizard : Bool) (arglist : List Item) :
    Except Fault (Answer CString) :=
  caught (chrArguments limits.streamAllocMaximum wizard arglist)

/-! Bytes as text. -/

def escape (c : UInt8) : CString :=
  if c ≠ tilde ∧ (isgraph c ∨ c = 32) then [c] else escaped c

def canonical (bytes : List UInt8) : CString := bytes.flatMap escape

def isHexDigit (c : UInt8) : Bool := 48 ≤ c && c ≤ 57 || 65 ≤ c && c ≤ 70 || 97 ≤ c && c ≤ 102

def digitValue (c : UInt8) : UInt8 := hexValue (toupper c)

def unescape : CString → Option (List UInt8)
  | [] => some []
  | c :: rest =>
      if c ≠ tilde then (unescape rest).map (c :: ·)
      else
        match rest with
        | high :: low :: rest =>
            if isHexDigit high && isHexDigit low then
              (unescape rest).map ((digitValue high * 16 + digitValue low) :: ·)
            else none
        | _ => none

theorem unescape_plain {c : UInt8} (plain : c ≠ tilde) (rest : CString) :
    unescape (c :: rest) = (unescape rest).map (c :: ·) :=
  match rest with
  | [] | [_] | _ :: _ :: _ => if_pos plain

theorem unescape_pair (high low : UInt8) (rest : CString) :
    unescape (tilde :: high :: low :: rest) =
      if isHexDigit high && isHexDigit low then
        (unescape rest).map ((digitValue high * 16 + digitValue low) :: ·)
      else none := rfl

theorem unescape_short {rest : CString} (short : ∀ high low more, rest ≠ high :: low :: more) :
    unescape (tilde :: rest) = none :=
  match rest with
  | [] | [_] => rfl
  | high :: low :: more => absurd rfl (short high low more)

theorem forall_byte {p : UInt8 → Prop} [DecidablePred p]
    (all : ∀ n : Fin 256, p (UInt8.ofFin n)) (c : UInt8) : p c := all c.toFin

theorem isHex_toupper (c : UInt8) : isHex (toupper c) = isHexDigit c :=
  forall_byte (p := fun c => isHex (toupper c) = isHexDigit c) (by decide +kernel) c

theorem isHexDigit_ne {c : UInt8} (digit : isHexDigit c = true) : c ≠ tilde := by
  rintro rfl
  cases digit

theorem escaped_digits (c : UInt8) :
    isHexDigit (hexUpper (c / 16)) = true ∧ isHexDigit (hexUpper (c % 16)) = true ∧
      digitValue (hexUpper (c / 16)) * 16 + digitValue (hexUpper (c % 16)) = c :=
  forall_byte (p := fun c => isHexDigit (hexUpper (c / 16)) = true ∧
    isHexDigit (hexUpper (c % 16)) = true ∧
    digitValue (hexUpper (c / 16)) * 16 + digitValue (hexUpper (c % 16)) = c) (by decide +kernel) c

theorem unescape_escape (c : UInt8) (rest : CString) :
    unescape (escape c ++ rest) = (unescape rest).map (c :: ·) := by
  rw [escape]
  split
  · rename_i plain
    rw [List.singleton_append, unescape_plain plain.1]
  · obtain ⟨high, low, whole⟩ := escaped_digits c
    rw [escaped, List.cons_append, List.cons_append, List.cons_append, List.nil_append,
      unescape_pair, high, low, whole]
    rfl

theorem unescape_canonical (bytes : List UInt8) : unescape (canonical bytes) = some bytes := by
  induction bytes with
  | nil => rfl
  | cons c bytes ih =>
      have split : canonical (c :: bytes) = escape c ++ canonical bytes := rfl
      rw [split, unescape_escape, ih]
      rfl

def HexPair (text : CString) : Prop :=
  ∃ high low rest, text = high :: low :: rest ∧ isHexDigit high = true ∧ isHexDigit low = true

def Malformed (s : CString) : Prop :=
  ∃ before after, s = before ++ tilde :: after ∧ ¬HexPair after

theorem malformed_nil : ¬Malformed [] := by
  rintro ⟨before, after, same, _⟩
  exact absurd same.symm (by simp)

theorem malformed_cons {c : UInt8} {rest : CString} (plain : c ≠ tilde) :
    Malformed (c :: rest) ↔ Malformed rest := by
  constructor
  · rintro ⟨before, after, same, bad⟩
    cases before with
    | nil => exact absurd (List.cons.inj same).1 plain
    | cons b before => exact ⟨before, after, (List.cons.inj same).2, bad⟩
  · rintro ⟨before, after, rfl, bad⟩
    exact ⟨c :: before, after, rfl, bad⟩

theorem malformed_tilde {rest : CString} (pair : HexPair rest) :
    Malformed (tilde :: rest) ↔ Malformed rest := by
  constructor
  · rintro ⟨before, after, same, bad⟩
    cases before with
    | nil => exact absurd ((List.cons.inj same).2 ▸ pair) bad
    | cons b before => exact ⟨before, after, (List.cons.inj same).2, bad⟩
  · rintro ⟨before, after, rfl, bad⟩
    exact ⟨tilde :: before, after, rfl, bad⟩

theorem unescape_none (s : CString) : unescape s = none ↔ Malformed s := by
  induction s using unescape.induct with
  | case1 => exact iff_of_false nofun malformed_nil
  | case2 c rest plain ih =>
      rw [unescape_plain plain, Option.map_eq_none_iff, ih, malformed_cons plain]
  | case3 c tilded high low rest digits ih =>
      obtain rfl := not_not.mp tilded
      obtain ⟨first, second⟩ := Bool.and_eq_true_iff.mp digits
      have pair : HexPair (high :: low :: rest) := ⟨high, low, rest, rfl, first, second⟩
      rw [malformed_tilde pair, malformed_cons (isHexDigit_ne first),
        malformed_cons (isHexDigit_ne second), ← ih, unescape_pair, if_pos digits,
        Option.map_eq_none_iff]
  | case4 c tilded high low rest digits =>
      obtain rfl := not_not.mp tilded
      refine iff_of_true (if_neg digits) ⟨[], high :: low :: rest, rfl, ?_⟩
      rintro ⟨high', low', rest', same, first, second⟩
      obtain ⟨sameHigh, same⟩ := List.cons.inj same
      obtain ⟨sameLow, _⟩ := List.cons.inj same
      exact digits (by rw [sameHigh, sameLow, first, second]; rfl)
  | case5 c rest tilded short =>
      obtain rfl := not_not.mp tilded
      refine iff_of_true (unescape_short short) ⟨[], rest, rfl, ?_⟩
      rintro ⟨high, low, rest', rfl, _⟩
      exact short high low rest' rfl

/-! Runs of the two conversions. -/

theorem streamAddRawByte_appends (maximum : Option Nat) (c : UInt8) :
    Appends maximum (streamAddRawByte maximum · c) (escape c) := by
  by_cases plain : c ≠ tilde ∧ (isgraph c ∨ c = 32)
  · simp only [escape, streamAddRawByte, if_pos plain]
    exact streamAddChar_appends maximum c
  · simp only [escape, streamAddRawByte, if_neg plain]
    exact streamAddString_appends maximum (escaped c)

theorem streamAddRawBytes_appends (maximum : Option Nat) (bytes : List UInt8) :
    Appends maximum (streamAddRawBytesToBinary maximum · bytes) (canonical bytes) := by
  induction bytes with
  | nil => exact Appends.nil maximum
  | cons c bytes ih => exact (streamAddRawByte_appends maximum c).bind ih

theorem escape_length (c : UInt8) : 1 ≤ (escape c).length ∧ (escape c).length ≤ 3 := by
  rw [escape]
  split
  · simp
  · simp [escaped]

/-- A byte is at most three characters, so that the text may be longer than an `int` tells. -/
theorem streamAddRawBytes_tooBig {most : Nat} (int : most + 3 ≤ 2 ^ 31) {bytes : List UInt8}
    {s : Stream} (sound : s.Sound (some most))
    (exceeds : most ≤ s.contents.length + (canonical bytes).length) :
    streamAddRawBytesToBinary (some most) s bytes = .error .tooBig := by
  have below : s.contents.length < most := Nat.lt_of_lt_of_le sound.room (sound.kept most rfl)
  induction bytes generalizing s with
  | nil => exact absurd exceeds (Nat.not_le.mpr below)
  | cons c bytes ih =>
      have split : canonical (c :: bytes) = escape c ++ canonical bytes := rfl
      have short := (escape_length c).2
      have piece := streamAddRawByte_appends (some most) c
      rw [split, List.length_append, ← Nat.add_assoc] at exceeds
      by_cases inside : s.contents.length + (escape c).length < most
      · have fits : Fits (some most) (s.contents.length + (escape c).length) :=
          ⟨inside, by omega⟩
        obtain ⟨s', ran, contents, sound'⟩ := piece.ok s sound fits
        have total : s'.contents.length = s.contents.length + (escape c).length := by
          rw [contents, List.length_append]
        rw [streamAddRawBytesToBinary, ran]
        exact ih sound' (total ▸ exceeds) (total ▸ inside)
      · rw [streamAddRawBytesToBinary, piece.tooBig s most rfl (by omega) sound (by omega) (by omega)]
        rfl

theorem rawBytesToBinary_sizeOnly (s : Stream) (bytes : List UInt8) :
    SizeOnly (rawBytesToBinary s bytes) := by
  have added : SizeOnly (streamAddRawBytesToBinary none s bytes) := by
    induction bytes generalizing s with
    | nil => exact .ok _
    | cons c bytes ih =>
        have byte : SizeOnly (streamAddRawByte none s c) := by
          rw [streamAddRawByte]
          split
          · exact streamAddChar_sizeOnly none s c
          · exact streamAddString_sizeOnly none s _
        exact SizeOnly.bind byte fun s => ih s
  exact SizeOnly.bind added fun _ => .ok _

theorem rawBytesToBinary_ok {s : Stream} (sound : s.Sound none) (empty : s.contents = [])
    {bytes : List UInt8} (small : (canonical bytes).length < 2 ^ 30) :
    ∃ s', rawBytesToBinary s bytes = .ok (canonical bytes, s') ∧ s'.Sound none ∧
      s'.contents = [] := by
  have fits : Fits none (s.contents.length + (canonical bytes).length) := by
    rw [empty, List.length_nil, Nat.zero_add]
    exact small
  obtain ⟨s', ran, contents, sound'⟩ := (streamAddRawBytes_appends none bytes).ok s sound fits
  rw [empty, List.nil_append] at contents
  refine ⟨s'.reset, ?_, sound'.reset, rfl⟩
  rw [rawBytesToBinary, ran, ← contents]
  rfl

theorem readHex_short {rest : CString} (short : ∀ high low more, rest ≠ high :: low :: more) :
    readHex 2 0 (some rest) = .ok none := by
  match rest with
  | [] => rfl
  | [high] =>
      change (if isHex (toupper high) then readHex 1 _ (some []) else _) = _
      split <;> rfl
  | high :: low :: more => exact absurd rfl (short high low more)

theorem readHex_pair (high low : UInt8) (rest : CString) :
    readHex 2 0 (some (high :: low :: rest)) =
      .ok (if isHexDigit high && isHexDigit low then
        some (digitValue high * 16 + digitValue low, some rest) else none) := by
  change (if isHex (toupper high) then
    if isHex (toupper low) then
      Except.ok (some ((0 * 16 + digitValue high) * 16 + digitValue low, some rest))
    else Except.ok none
    else Except.ok none) = _
  rw [isHex_toupper, isHex_toupper, UInt8.zero_mul, UInt8.zero_add]
  cases isHexDigit high <;> cases isHexDigit low <;> rfl

/-- The loop never reads past the NUL, and says what the string says. -/
theorem rawLoop_spec {fuel : Nat} (binary : CString) {s : Stream} (sound : s.Sound none)
    (enough : binary.length < fuel) (small : s.contents.length + binary.length < 2 ^ 30) :
    ∃ result, rawLoop fuel (some binary) s = .ok result ∧
      result.map Stream.contents = (unescape binary).map (s.contents ++ ·) := by
  induction fuel generalizing binary s with
  | zero => exact absurd enough (Nat.not_lt_zero _)
  | succ fuel ih =>
      have next (c : UInt8) (rest : CString) (shorter : rest.length + 1 ≤ binary.length) :
          ∃ s' result, streamAddChar none s c = .ok s' ∧ rawLoop fuel (some rest) s' = .ok result ∧
            result.map Stream.contents = (unescape rest).map fun bytes => s.contents ++ c :: bytes := by
        have fits : Fits none (s.contents.length + [c].length) := by
          change s.contents.length + 1 < 2 ^ 30
          omega
        obtain ⟨s', ran, contents, sound'⟩ := (streamAddChar_appends none c).ok s sound fits
        have length : s'.contents.length = s.contents.length + 1 := by
          rw [contents, List.length_append, List.length_singleton]
        obtain ⟨result, ran', same⟩ := ih rest sound' (by omega) (by omega)
        refine ⟨s', result, ran, ran', ?_⟩
        simpa only [contents, List.append_assoc, List.singleton_append] using same
      match binary with
      | [] => exact ⟨some s, rfl, by simp [unescape]⟩
      | c :: rest =>
          by_cases plain : c ≠ tilde
          · obtain ⟨s', result, added, ran, same⟩ := next c rest (Nat.le_refl _)
            refine ⟨result, ?_, ?_⟩
            · rw [rawLoop, if_pos plain, added]
              exact ran
            · rw [same, unescape_plain plain, Option.map_map]
              rfl
          · obtain rfl := not_not.mp plain
            have failed (stopped : readHex 2 0 (some rest) = .ok none)
                (none' : unescape (tilde :: rest) = none) :
                ∃ result, rawLoop (fuel + 1) (some (tilde :: rest)) s = .ok result ∧
                  result.map Stream.contents =
                    (unescape (tilde :: rest)).map (s.contents ++ ·) := by
              refine ⟨none, ?_, by rw [none']; rfl⟩
              rw [rawLoop, if_neg plain, stopped]
              rfl
            match rest with
            | [] => exact failed rfl rfl
            | [high] => exact failed (readHex_short (by simp)) rfl
            | high :: low :: rest =>
                by_cases digits : (isHexDigit high && isHexDigit low) = true
                · obtain ⟨s', result, added, ran, same⟩ :=
                    next (digitValue high * 16 + digitValue low) rest
                      (by simp only [List.length_cons]; omega)
                  refine ⟨result, ?_, ?_⟩
                  · rw [rawLoop, if_neg plain, readHex_pair, if_pos digits]
                    change (streamAddChar none s _ >>= _) = _
                    rw [added]
                    exact ran
                  · rw [same, unescape_pair, if_pos digits, Option.map_map]
                    rfl
                · refine failed ?_ (if_neg digits)
                  rw [readHex_pair, if_neg digits]

theorem binaryToRawBytes_eq {s : Stream} (sound : s.Sound none) {binary : CString}
    (small : binary.length < 2 ^ 30) : binaryToRawBytes s binary = .ok (unescape binary) := by
  obtain ⟨result, ran, same⟩ := rawLoop_spec binary sound.reset (Nat.lt_succ_self _)
    (by simpa [Stream.reset] using small)
  rw [binaryToRawBytes, ran]
  change Except.ok (result.map Stream.contents) = _
  rw [same]
  simp [Stream.reset]

end ToastStunt.Binary
