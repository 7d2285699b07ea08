import Mathlib.Algebra.Order.Ring.Int
import ToastStunt.Strings

/-!
The streams of streams.cc: text that grows in a buffer of known size, up to a maximum where
exceptions are enabled.
-/

namespace ToastStunt.Binary

/-- `stream_too_big`, an `int` that overflows, an access past the end of a block, and a read of a
variable that is not set. -/
inductive Fault
  | tooBig
  | overflow
  | beyond
  | unset
  deriving DecidableEq

structure Stream where
  contents : List UInt8
  buflen : Nat

def newStream (size : Nat) : Stream := ⟨[], max size 1⟩

def Stream.reset (s : Stream) : Stream := { s with contents := [] }

/-- `maximum` is `stream_alloc_maximum` where exceptions are enabled. There an `int` that has
overflowed to a negative number is larger than the maximum, which is a `size_t`. -/
def grow (maximum : Option Nat) (s : Stream) (newlen need : Nat) : Except Fault Stream :=
  match maximum with
  | none => if newlen < 2 ^ 31 then .ok { s with buflen := newlen } else .error .overflow
  | some maximum =>
      if newlen > maximum then
        if s.contents.length + need < maximum then .ok { s with buflen := maximum }
        else .error .tooBig
      else .ok { s with buflen := newlen }

def streamAddChar (maximum : Option Nat) (s : Stream) (c : UInt8) : Except Fault Stream := do
  let s ← if s.contents.length + 1 ≥ s.buflen then grow maximum s (s.buflen * 2) 1 else .ok s
  .ok { s with contents := s.contents ++ [c] }

def wanted (buflen length : Nat) : Nat := if buflen * 2 ≤ length then length + 1 else buflen * 2

def streamAddString (maximum : Option Nat) (s : Stream) (string : CString) :
    Except Fault Stream := do
  let len := string.length
  if s.contents.length + len ≥ 2 ^ 31 then .error .overflow
  else
    let s ←
      if s.contents.length + len ≥ s.buflen then
        grow maximum s (wanted s.buflen (s.contents.length + len)) len
      else .ok s
    .ok { s with contents := s.contents ++ string }

/-- A stream between two calls: there is room for the NUL, and the maximum is kept. -/
structure Stream.Sound (maximum : Option Nat) (s : Stream) : Prop where
  room : s.contents.length < s.buflen
  kept : ∀ most, maximum = some most → s.buflen ≤ most

/-- Text of this length finds a place. Without exceptions the buffer may double up to 2^31. -/
def Fits (maximum : Option Nat) (length : Nat) : Prop :=
  match maximum with
  | none => length < 2 ^ 30
  | some most => length < most ∧ most < 2 ^ 31

theorem Fits.mono {maximum : Option Nat} {length less : Nat} (fits : Fits maximum length)
    (atMost : less ≤ length) : Fits maximum less := by
  cases maximum with
  | none => exact Nat.lt_of_le_of_lt atMost fits
  | some most => exact ⟨Nat.lt_of_le_of_lt atMost fits.1, fits.2⟩

theorem Fits.int {maximum : Option Nat} {length : Nat} (fits : Fits maximum length) :
    length < 2 ^ 31 := by
  cases maximum with
  | none =>
      have : length < 2 ^ 30 := fits
      omega
  | some most =>
      have := fits.1
      have := fits.2
      omega

/-- The call adds the text where it fits, and raises `stream_too_big` where it does not. -/
structure Appends (maximum : Option Nat) (run : Stream → Except Fault Stream) (text : List UInt8) :
    Prop where
  ok : ∀ s, s.Sound maximum → Fits maximum (s.contents.length + text.length) →
    ∃ s', run s = .ok s' ∧ s'.contents = s.contents ++ text ∧ s'.Sound maximum
  tooBig : ∀ s most, maximum = some most → most < 2 ^ 31 → s.Sound maximum →
    most ≤ s.contents.length + text.length → s.contents.length + text.length < 2 ^ 31 →
    run s = .error .tooBig

theorem Appends.nil (maximum : Option Nat) : Appends maximum .ok [] := by
  constructor
  · intro s sound _
    exact ⟨s, rfl, (List.append_nil _).symm, sound⟩
  · rintro s most rfl _ sound exceeds
    have := sound.room
    have := sound.kept most rfl
    simp only [List.length_nil] at exceeds
    omega

theorem Appends.bind {maximum : Option Nat} {first second : Stream → Except Fault Stream}
    {text later : List UInt8} (one : Appends maximum first text)
    (two : Appends maximum second later) :
    Appends maximum (fun s => first s >>= second) (text ++ later) := by
  constructor
  · intro s sound fits
    rw [List.length_append, ← Nat.add_assoc] at fits
    obtain ⟨s', ran, contents, sound'⟩ := one.ok s sound (fits.mono (by omega))
    have total : s'.contents.length = s.contents.length + text.length := by
      rw [contents, List.length_append]
    obtain ⟨s'', ran', contents', sound''⟩ := two.ok s' sound' (total ▸ fits)
    refine ⟨s'', ?_, ?_, sound''⟩
    · rw [ran]
      exact ran'
    · rw [contents', contents, List.append_assoc]
  · intro s most is int sound exceeds small
    rw [List.length_append, ← Nat.add_assoc] at exceeds small
    by_cases inside : s.contents.length + text.length < most
    · have fits : Fits maximum (s.contents.length + text.length) := is ▸ ⟨inside, int⟩
      obtain ⟨s', ran, contents, sound'⟩ := one.ok s sound fits
      have total : s'.contents.length = s.contents.length + text.length := by
        rw [contents, List.length_append]
      rw [ran]
      exact two.tooBig s' most is int sound' (total ▸ exceeds) (total ▸ small)
    · rw [one.tooBig s most is int sound (by omega) (by omega)]
      rfl

theorem grow_ok {maximum : Option Nat} {s : Stream} {newlen need : Nat} (sound : s.Sound maximum)
    (fits : Fits maximum (s.contents.length + need))
    (enough : s.contents.length + need < newlen) (int : maximum = none → newlen < 2 ^ 31) :
    ∃ buflen, grow maximum s newlen need = .ok { s with buflen := buflen } ∧
      s.contents.length + need < buflen ∧ ∀ most, maximum = some most → buflen ≤ most := by
  cases maximum with
  | none =>
      rw [grow, if_pos (int rfl)]
      exact ⟨newlen, rfl, enough, nofun⟩
  | some most =>
      rw [grow]
      by_cases exceeds : newlen > most
      · rw [if_pos exceeds, if_pos fits.1]
        exact ⟨most, rfl, fits.1, fun _ is => Nat.le_of_eq (Option.some.inj is)⟩
      · rw [if_neg exceeds]
        exact ⟨newlen, rfl, enough, fun _ is => Option.some.inj is ▸ Nat.not_lt.mp exceeds⟩

theorem wanted_bounds {buflen length : Nat} (full : buflen ≤ length) :
    length < wanted buflen length ∧ wanted buflen length ≤ length * 2 + 1 := by
  rw [wanted]
  split <;> omega

theorem streamAddString_appends (maximum : Option Nat) (string : CString) :
    Appends maximum (streamAddString maximum · string) string := by
  constructor
  · intro s sound fits
    have room := sound.room
    have int : ¬s.contents.length + string.length ≥ 2 ^ 31 := Nat.not_le.mpr fits.int
    by_cases full : s.contents.length + string.length ≥ s.buflen
    · have bounds := wanted_bounds full
      have most : maximum = none → wanted s.buflen (s.contents.length + string.length) < 2 ^ 31 := by
        rintro rfl
        have : s.contents.length + string.length < 2 ^ 30 := fits
        omega
      obtain ⟨buflen, grown, space, kept⟩ := grow_ok sound fits bounds.1 most
      refine ⟨⟨s.contents ++ string, buflen⟩, ?_, rfl, ?_, kept⟩
      · simp only [streamAddString, if_neg int, if_pos full]
        rw [grown]
        rfl
      · rwa [List.length_append]
    · refine ⟨⟨s.contents ++ string, s.buflen⟩, ?_, rfl, ?_, sound.kept⟩
      · simp only [streamAddString, if_neg int, if_neg full]
        rfl
      · rw [List.length_append]
        exact Nat.not_le.mp full
  · intro s most is _ sound exceeds small
    have bound := sound.kept most is
    have int : ¬s.contents.length + string.length ≥ 2 ^ 31 := Nat.not_le.mpr small
    have full : s.contents.length + string.length ≥ s.buflen := Nat.le_trans bound exceeds
    have larger := (wanted_bounds full).1
    simp only [streamAddString, if_neg int, if_pos full, is]
    rw [grow, if_pos (by omega), if_neg (Nat.not_lt.mpr exceeds)]
    rfl

theorem streamAddChar_eq {maximum : Option Nat} {s : Stream} (sound : s.Sound maximum)
    (small : s.contents.length + 1 < 2 ^ 31) (c : UInt8) :
    streamAddChar maximum s c = streamAddString maximum s [c] := by
  have room := sound.room
  have int : ¬s.contents.length + 1 ≥ 2 ^ 31 := by omega
  have double : wanted s.buflen (s.contents.length + 1) = s.buflen * 2 := if_neg (by omega)
  simp only [streamAddChar, streamAddString, List.length_singleton, if_neg int, double]

theorem streamAddChar_appends (maximum : Option Nat) (c : UInt8) :
    Appends maximum (streamAddChar maximum · c) [c] := by
  have whole := streamAddString_appends maximum [c]
  constructor
  · intro s sound fits
    rw [streamAddChar_eq sound fits.int]
    exact whole.ok s sound fits
  · intro s most is int sound exceeds small
    rw [streamAddChar_eq sound small]
    exact whole.tooBig s most is int sound exceeds small

theorem newStream_sound {maximum : Option Nat} {size : Nat}
    (kept : ∀ most, maximum = some most → max size 1 ≤ most) :
    (newStream size).Sound maximum := by
  refine ⟨?_, kept⟩
  change 0 < max size 1
  omega

theorem Stream.Sound.reset {maximum : Option Nat} {s : Stream} (sound : s.Sound maximum) :
    s.reset.Sound maximum :=
  ⟨Nat.lt_of_le_of_lt (Nat.zero_le _) sound.room, sound.kept⟩

/-! What can go wrong with a stream. -/

def SizeOnly {α : Type} (result : Except Fault α) : Prop :=
  ∀ fault, result = .error fault → fault = .tooBig ∨ fault = .overflow

theorem SizeOnly.ok {α : Type} (value : α) : SizeOnly (.ok value) := nofun

theorem SizeOnly.bind {α β : Type} {first : Except Fault α} {next : α → Except Fault β}
    (one : SizeOnly first) (two : ∀ value, SizeOnly (next value)) : SizeOnly (first >>= next) := by
  cases first with
  | error fault =>
      rintro _ ⟨⟩
      exact one fault rfl
  | ok value => exact two value

theorem grow_sizeOnly (maximum : Option Nat) (s : Stream) (newlen need : Nat) :
    SizeOnly (grow maximum s newlen need) := by
  intro fault failed
  cases maximum with
  | none =>
      rw [grow] at failed
      split at failed
      · cases failed
      · cases failed
        exact .inr rfl
  | some most =>
      rw [grow] at failed
      split at failed
      · split at failed
        · cases failed
        · cases failed
          exact .inl rfl
      · cases failed

theorem streamAddChar_sizeOnly (maximum : Option Nat) (s : Stream) (c : UInt8) :
    SizeOnly (streamAddChar maximum s c) := by
  rw [streamAddChar]
  split
  · exact SizeOnly.bind (grow_sizeOnly _ _ _ _) fun _ => .ok _
  · exact .ok _

theorem streamAddString_sizeOnly (maximum : Option Nat) (s : Stream) (string : CString) :
    SizeOnly (streamAddString maximum s string) := by
  rw [streamAddString]
  split
  · rintro _ ⟨⟩
    exact .inr rfl
  · split
    · exact SizeOnly.bind (grow_sizeOnly _ _ _ _) fun _ => .ok _
    · exact .ok _

end ToastStunt.Binary
