import ToastStunt.Binary.Encoding
import ToastStunt.Library.Failing

/-!
`bf_file_read` of fileio.cc: a record is read in pieces, and each piece goes through the filter of
the file's type into a stream.
-/

namespace ToastStunt.Files

open Failing (bind_of_ok)
open ToastStunt.Binary (Fault Stream newStream streamAddChar streamAddString rawBytesToBinary
  isgraph canonical Appends)

def fileIoBufferLength : Nat := 4096

structure File where
  contents : List UInt8
  position : Nat

def File.remaining (f : File) : List UInt8 := f.contents.drop f.position

/-- `fread` may bring fewer bytes than are asked for and there are, but one at least: no more than
`grant` others come with it. For more bytes than can be addressed the system reads nothing (`EFAULT`):
at most the `grant` bytes come that the stream has in its own buffer. -/
def fread (f : File) (asked grant : Nat) : List UInt8 × File :=
  let bytes := f.remaining.take (if asked < 2 ^ 63 then min asked (grant + 1) else grant)
  (bytes, { f with position := f.position + bytes.length })

def freadMessage (asked : Nat) : String := if asked < 2 ^ 63 then "End of file" else "Bad address"

inductive FileType
  | binary
  | text

/-- The static streams: one of the built-in function, one of each filter. -/
structure Streams where
  str : Option Stream
  binary : Option Stream
  clean : Option Stream

def streamAddCleanByte (s : Stream) (c : UInt8) : Except Fault Stream :=
  if isgraph c ∨ c = 32 then streamAddChar none s c else .ok s

def streamAddRawBytesToClean (s : Stream) : List UInt8 → Except Fault Stream
  | [] => .ok s
  | c :: buffer => do
      let s ← streamAddCleanByte s c
      streamAddRawBytesToClean s buffer

def rawBytesToClean (s : Stream) (buffer : List UInt8) : Except Fault (CString × Stream) := do
  let s ← streamAddRawBytesToClean s buffer
  .ok (s.contents, s.reset)

def inFilter (type : FileType) (streams : Streams) (buffer : List UInt8) :
    Except Fault (CString × Streams) :=
  match type with
  | .binary => do
      let (text, s) ← rawBytesToBinary (streams.binary.getD (newStream 100)) buffer
      .ok (text, { streams with binary := some s })
  | .text => do
      let (text, s) ← rawBytesToClean (streams.clean.getD (newStream (buffer.length + 1))) buffer
      .ok (text, { streams with clean := some s })

inductive Package
  | perm
  | invarg (message : String)
  | file (message : String)
  | str (text : CString)

structure OpenFile where
  readable : Bool
  type : FileType
  file : File

/-- What a call of `fread` is asked for, and what of the record is still to come. -/
structure Ask where
  asked : Nat
  wanted : Int

structure Result where
  package : Package
  handle : Option OpenFile
  streams : Streams
  asks : List Ask

def sizeT (value : Int) : Nat := (value % 2 ^ 64).toNat

def readLength (recordLength : Int64) : Int :=
  if sizeT recordLength.toInt > fileIoBufferLength then fileIoBufferLength else recordLength.toInt

section Loop

variable (recordLength : Int64) (grant : Nat → Nat)

/-- From `try_again` on; `k` counts the calls of `fread`. `len` is an `int`. -/
def readLoop : (fuel k len : Nat) → OpenFile → Stream → Streams → List Ask →
    Option (Except Fault Result)
  | 0, _, _, _, _, _, _ => none
  | fuel + 1, k, len, opened, str, streams, asks =>
      let wanted := recordLength.toInt - len
      let asked := sizeT (min (readLength recordLength) wanted)
      let (buffer, f) := fread opened.file asked (grant k)
      let opened : OpenFile := { opened with file := f }
      let asks := ⟨asked, wanted⟩ :: asks
      if buffer.length > fileIoBufferLength then some (.error .beyond)
      else if buffer = [] ∧ len = 0 then
        some (.ok ⟨.file (freadMessage asked), opened, { streams with str := str }, asks⟩)
      else if buffer ≠ [] ∧ len + buffer.length ≥ 2 ^ 31 then some (.error .overflow)
      else
        match inFilter opened.type streams buffer with
        | .error fault => some (.error fault)
        | .ok (text, streams) =>
            match streamAddString none str text with
            | .error fault => some (.error fault)
            | .ok str =>
                if buffer ≠ [] ∧ (len + buffer.length : Int) < recordLength.toInt then
                  readLoop fuel (k + 1) (len + buffer.length) opened str streams asks
                else
                  some (.ok ⟨.str str.contents, opened, { streams with str := str.reset }, asks⟩)

end Loop

def bfFileRead (fuel : Nat) (wizard : Bool) (handle : Option OpenFile) (recordLength : Int64)
    (grant : Nat → Nat) (streams : Streams) : Option (Except Fault Result) :=
  let str := streams.str.getD (newStream fileIoBufferLength)
  let untouched (package : Package) : Option (Except Fault Result) :=
    some (.ok ⟨package, handle, { streams with str := str }, []⟩)
  if !wizard then untouched .perm
  else
    match handle with
    | none => untouched (.invarg "Invalid FHANDLE")
    | some opened =>
        if !opened.readable then untouched (.invarg "File is open write-only")
        else readLoop recordLength grant fuel 0 0 opened str streams []

/-! What a read is to give. -/

def filtered : FileType → List UInt8 → CString
  | .binary, bytes => canonical bytes
  | .text, bytes => bytes.filter fun c => isgraph c ∨ c = 32

def Idle (static : Option Stream) : Prop :=
  ∀ s, static = some s → s.contents = [] ∧ s.Sound none

structure Streams.Idle (streams : Streams) : Prop where
  str : Files.Idle streams.str
  binary : Files.Idle streams.binary
  clean : Files.Idle streams.clean

def OpenFile.advance (opened : OpenFile) (count : Nat) : OpenFile :=
  { opened with file.position := opened.file.position + count }

def record (recordLength : Int64) (f : File) : List UInt8 :=
  f.remaining.take recordLength.toInt.toNat

def Ask.Fine (ask : Ask) : Prop := ask.asked ≤ fileIoBufferLength ∧ ask.asked ≤ ask.wanted

def Answers (recordLength : Int64) (opened : OpenFile) (result : Result) : Prop :=
  if 1 ≤ recordLength.toInt then
    result.handle = some (opened.advance (record recordLength opened.file).length) ∧
    result.package = if opened.file.remaining = [] then .file "End of file"
      else .str (filtered opened.type (record recordLength opened.file))
  else result.handle = some opened

/-- The read ends, asks for no more than the buffer holds or is still to come, and answers. -/
def ReadsNext (recordLength : Int64) (opened : OpenFile) (grant : Nat → Nat) (streams : Streams) :
    Prop :=
  ∀ fuel > opened.file.remaining.length, ∃ result,
    bfFileRead fuel true opened recordLength grant streams = some (.ok result) ∧
    result.streams.Idle ∧ (∀ ask ∈ result.asks, ask.Fine) ∧ Answers recordLength opened result

def pieces (grant : Nat → Nat) (k : Nat) (bytes : List UInt8) : List (List UInt8) :=
  if bytes = [] then []
  else
    let piece := bytes.take (min fileIoBufferLength (grant k + 1))
    piece :: pieces grant (k + 1) (bytes.drop piece.length)
termination_by bytes.length
decreasing_by
  rename_i some
  have := List.length_pos_iff.mpr some
  simp only [List.length_drop, List.length_take, fileIoBufferLength]
  omega

def addAll (str : Stream) (texts : List CString) : Except Fault Stream :=
  texts.foldlM (streamAddString none) str

/-- The length is not negative, and no `int` overflows: neither `len` nor the size of `str`. -/
structure InRange (recordLength : Int64) (opened : OpenFile) (grant : Nat → Nat)
    (streams : Streams) : Prop where
  nonneg : 0 ≤ recordLength.toInt
  small : (record recordLength opened.file).length < 2 ^ 31
  room : ∃ str', addAll (streams.str.getD (newStream fileIoBufferLength))
    ((pieces grant 0 (record recordLength opened.file)).map (filtered opened.type)) = .ok str'

/-! The filters. -/

theorem filtered_append (type : FileType) (left right : List UInt8) :
    filtered type (left ++ right) = filtered type left ++ filtered type right := by
  cases type with
  | binary => exact List.flatMap_append
  | text => exact List.filter_append left right

theorem clean_appends (bytes : List UInt8) :
    Appends none (streamAddRawBytesToClean · bytes) (filtered .text bytes) := by
  induction bytes with
  | nil => exact Appends.nil none
  | cons c bytes ih =>
      have step : Appends none (streamAddCleanByte · c) (filtered .text [c]) := by
        by_cases printable : isgraph c ∨ c = 32
        · simp only [streamAddCleanByte, if_pos printable, filtered, List.filter_cons, decide_eq_true printable,
            List.filter_nil]
          exact Binary.streamAddChar_appends none c
        · simp only [streamAddCleanByte, if_neg printable, filtered, List.filter_cons, decide_eq_false printable,
            List.filter_nil]
          exact Appends.nil none
      have whole := step.bind ih
      rw [← filtered_append, List.singleton_append] at whole
      exact whole

theorem rawBytesToClean_ok {s : Stream} (sound : s.Sound none) (empty : s.contents = [])
    {bytes : List UInt8} (small : (filtered .text bytes).length < 2 ^ 30) :
    ∃ s', rawBytesToClean s bytes = .ok (filtered .text bytes, s') ∧ s'.Sound none ∧
      s'.contents = [] := by
  have fits : Binary.Fits none (s.contents.length + (filtered .text bytes).length) := by
    rw [empty, List.length_nil, Nat.zero_add]
    exact small
  obtain ⟨s', ran, contents, sound'⟩ := (clean_appends bytes).ok s sound fits
  rw [empty, List.nil_append] at contents
  refine ⟨s'.reset, ?_, sound'.reset, rfl⟩
  rw [rawBytesToClean, bind_of_ok ran, contents]

theorem filtered_length (type : FileType) (bytes : List UInt8) :
    (filtered type bytes).length ≤ 3 * bytes.length := by
  cases type with
  | binary =>
      induction bytes with
      | nil => exact Nat.le_refl _
      | cons c bytes ih =>
          have split : filtered .binary (c :: bytes) =
              Binary.escape c ++ filtered .binary bytes := rfl
          have := (Binary.escape_length c).2
          rw [split, List.length_append, List.length_cons]
          omega
  | text =>
      have := List.length_filter_le (fun c => decide (isgraph c ∨ c = 32)) bytes
      rw [filtered]
      omega

theorem idle_getD {static : Option Stream} (idle : Idle static) (size : Nat) :
    (static.getD (newStream size)).Sound none ∧ (static.getD (newStream size)).contents = [] := by
  cases static with
  | none => exact ⟨Binary.newStream_sound nofun, rfl⟩
  | some s => exact ⟨(idle s rfl).2, (idle s rfl).1⟩

theorem Idle.of_reset {s : Stream} (sound : s.Sound none) (empty : s.contents = []) :
    Idle (some s) := by
  rintro _ ⟨⟩
  exact ⟨empty, sound⟩

theorem inFilter_ok {streams : Streams} (binary : Idle streams.binary) (clean : Idle streams.clean)
    (type : FileType) {buffer : List UInt8} (fits : buffer.length ≤ fileIoBufferLength) :
    ∃ streams', inFilter type streams buffer = .ok (filtered type buffer, streams') ∧
      Idle streams'.binary ∧ Idle streams'.clean := by
  have length := filtered_length type buffer
  have small : (filtered type buffer).length < 2 ^ 30 := by
    rw [fileIoBufferLength] at fits
    omega
  cases type with
  | binary =>
      obtain ⟨sound, empty⟩ := idle_getD binary 100
      obtain ⟨s', ran, sound', empty'⟩ := Binary.rawBytesToBinary_ok sound empty small
      exact ⟨_, bind_of_ok ran _, Idle.of_reset sound' empty', clean⟩
  | text =>
      obtain ⟨sound, empty⟩ := idle_getD clean (buffer.length + 1)
      obtain ⟨s', ran, sound', empty'⟩ := rawBytesToClean_ok sound empty small
      exact ⟨_, bind_of_ok ran _, binary, Idle.of_reset sound' empty'⟩

/-! The stream of the record. -/

theorem streamAddString_keeps {s s' : Stream} {text : CString}
    (added : streamAddString none s text = .ok s') :
    s'.contents = s.contents ++ text ∧ s'.contents.length < s'.buflen ∧
      s'.contents.length < 2 ^ 31 := by
  rw [streamAddString] at added
  split at added
  · cases added
  · rename_i int
    have small : (s.contents ++ text).length < 2 ^ 31 := by
      rw [List.length_append]
      exact Nat.not_le.mp int
    split at added
    · rename_i full
      obtain ⟨grown, grew, rest⟩ := Failing.bind_ok added
      cases rest
      have larger := (Binary.wanted_bounds full).1
      rw [Binary.grow] at grew
      split at grew
      · cases grew
        exact ⟨rfl, by rwa [List.length_append], small⟩
      · cases grew
    · rename_i roomy
      cases added
      refine ⟨rfl, ?_, small⟩
      rw [List.length_append]
      exact Nat.not_le.mp roomy

theorem streamAddString_nil {s : Stream} (room : s.contents.length < s.buflen)
    (small : s.contents.length < 2 ^ 31) : streamAddString none s [] = .ok s := by
  have int : ¬s.contents.length + ([] : CString).length ≥ 2 ^ 31 := Nat.not_le.mpr small
  have roomy : ¬s.contents.length + ([] : CString).length ≥ s.buflen := Nat.not_le.mpr room
  rw [streamAddString]
  simp only [if_neg int, if_neg roomy]
  change Except.ok _ = _
  rw [List.append_nil]

/-! The loop. -/

section Loop

variable {recordLength : Int64} {grant : Nat → Nat}

theorem sizeT_nonneg {value : Int} (nonneg : 0 ≤ value) (small : value < 2 ^ 64) :
    (sizeT value : Int) = value := by
  rw [sizeT, Int.emod_eq_of_lt nonneg small]
  omega

theorem asked_eq {len : Nat} (more : (len : Int) < recordLength.toInt) :
    sizeT (min (readLength recordLength) (recordLength.toInt - len)) =
      min fileIoBufferLength (recordLength.toInt - len).toNat := by
  have bound := recordLength.toInt_lt
  have same : (sizeT recordLength.toInt : Int) = recordLength.toInt :=
    sizeT_nonneg (by omega) (by omega)
  have least : min (readLength recordLength) (recordLength.toInt - len) =
      min (fileIoBufferLength : Int) (recordLength.toInt - len) := by
    rw [readLength]
    split
    · rfl
    · rw [fileIoBufferLength] at *
      omega
  have nonneg := @sizeT_nonneg (min (fileIoBufferLength : Int) (recordLength.toInt - len))
    (by rw [fileIoBufferLength]; omega) (by rw [fileIoBufferLength]; omega)
  rw [least]
  omega

theorem asked_small (wanted : Nat) : min fileIoBufferLength wanted < 2 ^ 63 := by
  rw [fileIoBufferLength]
  omega

theorem freadMessage_small (wanted : Nat) :
    freadMessage (min fileIoBufferLength wanted) = "End of file" := if_pos (asked_small wanted)

theorem fread_piece (f : File) {wanted : Nat} (k : Nat) :
    let bytes := f.remaining.take wanted
    let piece := bytes.take (min fileIoBufferLength (grant k + 1))
    fread f (min fileIoBufferLength wanted) (grant k) =
        (piece, { f with position := f.position + piece.length }) ∧
      ({ f with position := f.position + piece.length } : File).remaining.take
        (wanted - piece.length) = bytes.drop piece.length := by
  intro bytes piece
  have same : f.remaining.take (min (min fileIoBufferLength wanted) (grant k + 1)) = piece := by
    change _ = (f.remaining.take wanted).take _
    rw [List.take_take, Nat.min_right_comm]
  refine ⟨?_, ?_⟩
  · rw [fread, if_pos (asked_small wanted), same]
  · rw [File.remaining, ← List.drop_drop, List.drop_take]
    rfl

theorem fine_cons {len : Nat} (more : (len : Int) < recordLength.toInt) {asks : List Ask}
    (fine : ∀ ask ∈ asks, ask.Fine) :
    ∀ ask ∈ ⟨min fileIoBufferLength (recordLength.toInt - len).toNat, recordLength.toInt - len⟩ ::
      asks, ask.Fine := by
  intro ask member
  rcases List.mem_cons.mp member with rfl | old
  · refine ⟨Nat.min_le_left _ _, ?_⟩
    change ((min fileIoBufferLength (recordLength.toInt - len).toNat : Nat) : Int) ≤
      recordLength.toInt - len
    omega
  · exact fine ask old

section Turn

variable {opened : OpenFile} {str : Stream} {streams : Streams} {asks : List Ask}
  {fuel k len : Nat} (binary : Idle streams.binary) (clean : Idle streams.clean)
  (more : (len : Int) < recordLength.toInt) (fine : ∀ ask ∈ asks, ask.Fine)

include binary clean more fine

theorem readLoop_turn {bytes : List UInt8}
    (rest : opened.file.remaining.take (recordLength.toInt - len).toNat = bytes)
    (any : bytes ≠ []) :
    let piece := bytes.take (min fileIoBufferLength (grant k + 1))
    let opened' := opened.advance piece.length
    ∃ (streams' : Streams) (asks' : List Ask), Idle streams'.binary ∧ Idle streams'.clean ∧ (∀ ask ∈ asks', ask.Fine) ∧
      readLoop recordLength grant (fuel + 1) k len opened str streams asks =
        if len + piece.length ≥ 2 ^ 31 then some (.error .overflow)
        else
          match streamAddString none str (filtered opened.type piece) with
          | .error fault => some (.error fault)
          | .ok str =>
              if (len + piece.length : Int) < recordLength.toInt then
                readLoop recordLength grant fuel (k + 1) (len + piece.length) opened' str streams'
                  asks'
              else
                some (.ok ⟨.str str.contents, opened', { streams' with str := str.reset }, asks'⟩) := by
  intro piece opened'
  have nonempty : piece ≠ [] := by
    intro empty
    have length := congrArg List.length empty
    have := List.length_pos_iff.mpr any
    simp only [piece, List.length_take, fileIoBufferLength, List.length_nil] at length
    omega
  have fits : piece.length ≤ fileIoBufferLength := by
    simp only [piece, List.length_take]
    omega
  obtain ⟨streams', ran, binary', clean'⟩ := inFilter_ok binary clean opened.type fits
  obtain ⟨read, -⟩ := @fread_piece grant opened.file (recordLength.toInt - len).toNat k
  rw [rest] at read
  change _ = (piece, opened'.file) at read
  clear_value piece
  refine ⟨streams', ⟨min fileIoBufferLength (recordLength.toInt - len).toNat,
    recordLength.toInt - len⟩ :: asks, binary', clean', fine_cons more fine, ?_⟩
  simp only [readLoop, asked_eq more]
  rw [read]
  simp only [if_neg (Nat.not_lt.mpr fits), nonempty, false_and, if_false, ne_eq, not_false_eq_true,
    true_and]
  rw [ran]
  rfl

theorem readLoop_end (rest : opened.file.remaining.take (recordLength.toInt - len).toNat = [])
    (room : str.contents.length < str.buflen) (small : str.contents.length < 2 ^ 31) :
    ∃ (streams' : Streams) (asks' : List Ask), Idle streams'.binary ∧ Idle streams'.clean ∧ (∀ ask ∈ asks', ask.Fine) ∧
      readLoop recordLength grant (fuel + 1) k len opened str streams asks =
        some (.ok (if len = 0 then
          ⟨.file "End of file", opened, { streams' with str := str }, asks'⟩
        else ⟨.str str.contents, opened, { streams' with str := str.reset }, asks'⟩)) := by
  obtain ⟨streams', ran, binary', clean'⟩ := @inFilter_ok streams binary clean opened.type []
    (Nat.zero_le _)
  have nothing : filtered opened.type [] = [] := by cases opened.type <;> rfl
  obtain ⟨read, -⟩ := @fread_piece grant opened.file (recordLength.toInt - len).toNat k
  rw [rest, List.take_nil] at read
  have fine' := fine_cons more fine
  by_cases first : len = 0
  · refine ⟨streams, _, binary, clean, fine', ?_⟩
    simp only [readLoop, asked_eq more]
    rw [read, freadMessage_small]
    simp [first]
  · refine ⟨streams', _, binary', clean', fine', ?_⟩
    simp only [readLoop, asked_eq more]
    rw [read]
    simp only [first, and_false, if_false, List.length_nil, Nat.not_lt_zero, ne_eq,
      not_true_eq_false, false_and, gt_iff_lt]
    rw [ran, nothing]
    simp only
    rw [streamAddString_nil room small]
    rfl

end Turn

theorem pieces_some {k : Nat} {bytes : List UInt8} (any : bytes ≠ []) :
    pieces grant k bytes =
      let piece := bytes.take (min fileIoBufferLength (grant k + 1))
      piece :: pieces grant (k + 1) (bytes.drop piece.length) := by
  rw [pieces, if_neg any]

theorem pieces_nil (k : Nat) : pieces grant k [] = [] := by
  rw [pieces, if_pos rfl]

theorem piece_length {bytes : List UInt8} (any : bytes ≠ []) (k : Nat) :
    let piece := bytes.take (min fileIoBufferLength (grant k + 1))
    0 < piece.length ∧ piece.length ≤ bytes.length := by
  have := List.length_pos_iff.mpr any
  simp only [List.length_take, fileIoBufferLength]
  omega

def Fails (run : Option (Except Fault Result)) : Prop := ∃ fault, run = some (.error fault)

def Delivers (run : Option (Except Fault Result)) (str : Stream) (opened : OpenFile) : Prop :=
  ∃ (streams' : Streams) (asks' : List Ask), Idle streams'.binary ∧ Idle streams'.clean ∧
    (∀ ask ∈ asks', ask.Fine) ∧
    run = some (.ok ⟨.str str.contents, opened, { streams' with str := str.reset }, asks'⟩)

theorem advance_advance (opened : OpenFile) (count more : Nat) :
    (opened.advance count).advance more = opened.advance (count + more) := by
  simp only [OpenFile.advance, Nat.add_assoc]

/-- The rest of a record goes through the filter, or something overflows. -/
theorem readLoop_spec {fuel k len : Nat} {opened : OpenFile} {str : Stream} {streams : Streams}
    {asks : List Ask} (binary : Idle streams.binary) (clean : Idle streams.clean)
    (more : (len : Int) < recordLength.toInt) (fine : ∀ ask ∈ asks, ask.Fine)
    {bytes : List UInt8}
    (rest : opened.file.remaining.take (recordLength.toInt - len).toNat = bytes)
    (begun : len ≠ 0 ∨ bytes ≠ []) (room : str.contents.length < str.buflen)
    (small : str.contents.length < 2 ^ 31) (int : len < 2 ^ 31) (enough : bytes.length < fuel) :
    let run := readLoop recordLength grant fuel k len opened str streams asks
    match addAll str ((pieces grant k bytes).map (filtered opened.type)) with
    | .error _ => Fails run
    | .ok str' =>
        if len + bytes.length < 2 ^ 31 then Delivers run str' (opened.advance bytes.length)
        else Fails run := by
  intro run
  induction fuel generalizing k len opened str streams asks bytes with
  | zero => exact absurd enough (Nat.not_lt_zero _)
  | succ fuel ih =>
      by_cases any : bytes = []
      · subst any
        have first := begun.resolve_right (not_not.mpr rfl)
        obtain ⟨streams', asks', binary', clean', fine', ran⟩ :=
          @readLoop_end recordLength grant opened str streams asks fuel k len binary clean more fine
            rest room small
        rw [pieces_nil]
        change if len < 2 ^ 31 then Delivers run str (opened.advance 0) else _
        rw [if_pos int]
        rw [if_neg first] at ran
        exact ⟨streams', asks', binary', clean', fine', ran⟩
      · obtain ⟨streams', asks', binary', clean', fine', ran⟩ :=
          @readLoop_turn recordLength grant opened str streams asks fuel k len binary clean more fine
            bytes rest any
        obtain ⟨positive, atMost⟩ := @piece_length grant bytes any k
        obtain ⟨-, after⟩ := @fread_piece grant opened.file (recordLength.toInt - len).toNat k
        rw [rest] at after
        rw [pieces_some any]
        generalize bytes.take (min fileIoBufferLength (grant k + 1)) = piece at *
        rw [List.map_cons, addAll, List.foldlM_cons]
        change run = _ at ran
        by_cases exceeds : len + piece.length ≥ 2 ^ 31
        · have failed : Fails run := ⟨_, ran.trans (if_pos exceeds)⟩
          split
          · exact failed
          · rw [if_neg (by omega)]
            exact failed
        · rw [if_neg exceeds] at ran
          cases added : streamAddString none str (filtered opened.type piece) with
          | error fault =>
              rw [added] at ran
              exact ⟨fault, ran⟩
          | ok middle =>
              rw [added] at ran
              obtain ⟨-, room', small'⟩ := streamAddString_keeps added
              have dropped : (bytes.drop piece.length).length = bytes.length - piece.length :=
                List.length_drop
              have total : len + bytes.length =
                  len + piece.length + (bytes.drop piece.length).length := by omega
              have moved : opened.advance bytes.length =
                  (opened.advance piece.length).advance (bytes.drop piece.length).length := by
                rw [advance_advance]
                exact congrArg opened.advance (by omega)
              rw [total, moved]
              by_cases goesOn : (len + piece.length : Int) < recordLength.toInt
              · have rest' : (opened.advance piece.length).file.remaining.take
                    (recordLength.toInt - (len + piece.length : Nat)).toNat =
                    bytes.drop piece.length := by
                  rw [← after]
                  exact congrArg (fun count => List.take count _) (by omega)
                have next := @ih (k + 1) (len + piece.length) (opened.advance piece.length) middle
                  streams' asks' binary' clean' (by push_cast; exact goesOn) fine' _ rest'
                  (.inl (by omega)) room' small' (by omega) (by omega)
                rw [ran.trans (if_pos goesOn)]
                exact next
              · have none : bytes.drop piece.length = [] := by
                  rw [← after]
                  exact List.take_eq_nil_iff.mpr (.inl (by omega))
                have last := ran.trans (if_neg goesOn)
                rw [none, pieces_nil]
                change if len + piece.length < 2 ^ 31 then
                  Delivers run middle (opened.advance piece.length) else _
                rw [if_pos (by omega)]
                exact ⟨streams', asks', binary', clean', fine', last⟩

theorem readLoop_negative (negative : recordLength.toInt < 0) {fuel : Nat} {opened : OpenFile}
    {str : Stream} {streams : Streams} {result : Result}
    (ran : readLoop recordLength grant (fuel + 1) 0 0 opened str streams [] = some (.ok result)) :
    ∃ ask ∈ result.asks, ¬ask.Fine := by
  suffices asks : ∃ asked, result.asks = [⟨asked, recordLength.toInt - (0 : Nat)⟩] by
    obtain ⟨asked, only⟩ := asks
    refine ⟨_, only ▸ List.mem_singleton_self _, fun fine => ?_⟩
    have atMost : (asked : Int) ≤ recordLength.toInt - (0 : Nat) := fine.2
    omega
  simp only [readLoop] at ran
  split at ran
  · cases ran
  · split at ran
    · cases ran
      exact ⟨_, rfl⟩
    · split at ran
      · cases ran
      · split at ran
        · cases ran
        · split at ran
          · cases ran
          · rw [if_neg (by omega)] at ran
            cases ran
            exact ⟨_, rfl⟩

end Loop

theorem addAll_keeps {str str' : Stream} {texts : List CString}
    (added : addAll str texts = .ok str') (room : str.contents.length < str.buflen) :
    str'.contents = str.contents ++ texts.flatten ∧ str'.contents.length < str'.buflen := by
  induction texts generalizing str with
  | nil =>
      cases added
      exact ⟨(List.append_nil _).symm, room⟩
  | cons text texts ih =>
      obtain ⟨middle, first, rest⟩ := Failing.foldlM_cons_ok added
      obtain ⟨contents, room', -⟩ := streamAddString_keeps first
      obtain ⟨contents', room''⟩ := ih rest room'
      refine ⟨?_, room''⟩
      rw [contents', contents, List.append_assoc, List.flatten_cons]

theorem pieces_filtered (type : FileType) (grant : Nat → Nat) (k : Nat) (bytes : List UInt8) :
    ((pieces grant k bytes).map (filtered type)).flatten = filtered type bytes := by
  induction k, bytes using pieces.induct grant with
  | case1 k =>
      rw [pieces_nil]
      cases type <;> rfl
  | case2 k bytes any piece ih =>
      have isPrefix : bytes.take piece.length = piece := by
        simp only [piece, List.length_take]
        rw [← List.take_eq_take_min]
      have whole : piece ++ bytes.drop piece.length = bytes := by
        nth_rewrite 1 [← isPrefix]
        exact List.take_append_drop piece.length bytes
      rw [pieces_some any, List.map_cons, List.flatten_cons, ih, ← filtered_append]
      exact congrArg (filtered type) whole

theorem bfFileRead_readable {opened : OpenFile} (readable : opened.readable = true) (fuel : Nat)
    (recordLength : Int64) (grant : Nat → Nat) (streams : Streams) :
    bfFileRead fuel true opened recordLength grant streams =
      readLoop recordLength grant fuel 0 0 opened
        (streams.str.getD (newStream fileIoBufferLength)) streams [] := by
  simp [bfFileRead, readable]

section Exact

variable {recordLength : Int64} {opened : OpenFile} {streams : Streams}

theorem record_rest (opened : OpenFile) :
    opened.file.remaining.take (recordLength.toInt - (0 : Nat)).toNat =
      record recordLength opened.file := by
  rw [record, Int.natCast_zero, Int.sub_zero]

theorem record_nil (positive : 0 < recordLength.toInt) :
    record recordLength opened.file = [] ↔ opened.file.remaining = [] := by
  rw [record, List.take_eq_nil_iff]
  constructor
  · rintro (none | none)
    · omega
    · exact none
  · exact .inr

theorem record_positive (any : record recordLength opened.file ≠ []) : 0 < recordLength.toInt := by
  by_contra notPositive
  have zero : recordLength.toInt.toNat = 0 := by omega
  exact any (by rw [record, zero, List.take_zero])

theorem record_length (recordLength : Int64) (f : File) :
    (record recordLength f).length ≤ f.remaining.length := by
  rw [record, List.length_take]
  exact Nat.min_le_right _ _

theorem readLoop_record (grant : Nat → Nat) (idle : streams.Idle) (positive : 0 < recordLength.toInt)
    (any : record recordLength opened.file ≠ []) {fuel : Nat}
    (enough : opened.file.remaining.length < fuel) :
    let str := streams.str.getD (newStream fileIoBufferLength)
    let run := readLoop recordLength grant fuel 0 0 opened str streams []
    let bytes := record recordLength opened.file
    match addAll str ((pieces grant 0 bytes).map (filtered opened.type)) with
    | .error _ => Fails run
    | .ok str' =>
        if bytes.length < 2 ^ 31 then Delivers run str' (opened.advance bytes.length)
        else Fails run := by
  intro str run bytes
  obtain ⟨sound, empty⟩ := idle_getD idle.str fileIoBufferLength
  have length := record_length recordLength opened.file
  have spec := @readLoop_spec recordLength grant fuel 0 0 opened str streams [] idle.binary
    idle.clean positive nofun _ (record_rest opened) (.inr any) sound.room
    (by rw [empty]; exact Nat.two_pow_pos 31) (Nat.two_pow_pos 31)
    (Nat.lt_of_le_of_lt length enough)
  rwa [Nat.zero_add] at spec

theorem readLoop_nothing (grant : Nat → Nat) (idle : streams.Idle) (nonneg : 0 ≤ recordLength.toInt)
    (none : record recordLength opened.file = []) {fuel : Nat} (enough : 0 < fuel) :
    let str := streams.str.getD (newStream fileIoBufferLength)
    ∃ (streams' : Streams) (asks' : List Ask), Idle streams'.binary ∧ Idle streams'.clean ∧
      (∀ ask ∈ asks', ask.Fine) ∧
      readLoop recordLength grant fuel 0 0 opened str streams [] =
        some (.ok ⟨.file "End of file", opened, { streams' with str := str }, asks'⟩) := by
  intro str
  obtain ⟨fuel, rfl⟩ := Nat.exists_eq_add_of_lt enough
  obtain ⟨sound, empty⟩ := idle_getD idle.str fileIoBufferLength
  rcases Int.lt_or_eq_of_le nonneg with positive | zero
  · exact @readLoop_end recordLength grant opened str streams [] (0 + fuel) 0 0 idle.binary
      idle.clean positive nofun ((record_rest opened).trans none) sound.room
      (by rw [empty]; exact Nat.two_pow_pos 31)
  · have asked : sizeT (min (readLength recordLength) (recordLength.toInt - (0 : Nat))) = 0 := by
      rw [readLength, ← zero]
      rfl
    refine ⟨streams, [⟨0, recordLength.toInt - (0 : Nat)⟩], idle.binary, idle.clean, ?_, ?_⟩
    · intro ask member
      obtain rfl := List.mem_singleton.mp member
      refine ⟨Nat.zero_le _, ?_⟩
      change ((0 : Nat) : Int) ≤ recordLength.toInt - (0 : Nat)
      omega
    · simp only [readLoop]
      rw [asked]
      simp [fread, freadMessage, fileIoBufferLength]

end Exact

/-- `file_read` gives the next bytes exactly where the length is not negative and no `int`
overflows. -/
theorem fileRead_exact_iff (recordLength : Int64) (opened : OpenFile) (grant : Nat → Nat)
    (streams : Streams) (idle : streams.Idle) (readable : opened.readable = true) :
    ReadsNext recordLength opened grant streams ↔ InRange recordLength opened grant streams := by
  obtain ⟨sound, empty⟩ := idle_getD idle.str fileIoBufferLength
  have whole := bfFileRead_readable readable
  constructor
  · intro reads
    obtain ⟨result, ran, -, fine, -⟩ := reads (opened.file.remaining.length + 1) (Nat.lt_succ_self _)
    rw [whole] at ran
    have nonneg : 0 ≤ recordLength.toInt := by
      by_contra negative
      obtain ⟨ask, member, greedy⟩ := readLoop_negative (Int.not_le.mp negative) ran
      exact greedy (fine ask member)
    by_cases any : record recordLength opened.file = []
    · refine ⟨nonneg, ?_, ?_⟩
      · rw [any]
        exact Nat.two_pow_pos 31
      · rw [any, pieces_nil]
        exact ⟨_, rfl⟩
    · have positive := record_positive any
      have spec := readLoop_record grant idle positive any (Nat.lt_succ_self _)
      cases added : addAll (streams.str.getD (newStream fileIoBufferLength))
          ((pieces grant 0 (record recordLength opened.file)).map (filtered opened.type)) with
      | error fault =>
          simp only [added] at spec
          obtain ⟨fault, failed⟩ := spec
          cases failed.symm.trans ran
      | ok str' =>
          refine ⟨nonneg, ?_, str', added⟩
          by_contra exceeds
          simp only [added, if_neg exceeds] at spec
          obtain ⟨fault, failed⟩ := spec
          cases failed.symm.trans ran
  · intro range fuel enough
    rw [whole]
    by_cases any : record recordLength opened.file = []
    · obtain ⟨streams', asks', binary, clean, fine, ran⟩ := readLoop_nothing grant idle
        range.nonneg any (Nat.lt_of_le_of_lt (Nat.zero_le _) enough)
      refine ⟨_, ran, ⟨Idle.of_reset sound empty, binary, clean⟩, fine, ?_⟩
      rw [Answers]
      split
      · rename_i positive
        rw [if_pos ((record_nil (by omega)).mp any), any]
        exact ⟨rfl, rfl⟩
      · rfl
    · have positive := record_positive any
      obtain ⟨str', added⟩ := range.room
      have spec := readLoop_record grant idle positive any enough
      simp only [added, if_pos range.small] at spec
      obtain ⟨streams', asks', binary, clean, fine, ran⟩ := spec
      obtain ⟨contents, room⟩ := addAll_keeps added sound.room
      rw [empty, List.nil_append, pieces_filtered] at contents
      have emptied : str'.reset.Sound none :=
        ⟨Nat.lt_of_le_of_lt (Nat.zero_le _) room, nofun⟩
      refine ⟨_, ran, ⟨Idle.of_reset emptied rfl, binary, clean⟩, fine, ?_⟩
      rw [Answers, if_pos (by omega), if_neg (mt (record_nil positive).mpr any)]
      exact ⟨rfl, congrArg Package.str contents⟩

theorem fileRead_exact_hello :
    ReadsNext 3 ⟨true, .text, ⟨[104, 101, 108, 108, 111], 0⟩⟩ (fun _ => 0) ⟨none, none, none⟩ ↔
      InRange 3 ⟨true, .text, ⟨[104, 101, 108, 108, 111], 0⟩⟩ (fun _ => 0) ⟨none, none, none⟩ :=
  fileRead_exact_iff 3 ⟨true, .text, ⟨[104, 101, 108, 108, 111], 0⟩⟩ (fun _ => 0)
    ⟨none, none, none⟩ ⟨nofun, nofun, nofun⟩ rfl

/-- A length of -1 asks for 2 ^ 64 - 1 bytes, which the system refuses. -/
theorem fileRead_minus_one :
    ¬ReadsNext (-1) ⟨true, .text, ⟨[104, 105], 0⟩⟩ (fun _ => 0) ⟨none, none, none⟩ ∧
      ∃ result, bfFileRead 3 true (some ⟨true, .text, ⟨[104, 105], 0⟩⟩) (-1) (fun _ => 0)
        ⟨none, none, none⟩ = some (.ok result) ∧ result.package = .file "Bad address" ∧
        result.asks = [⟨2 ^ 64 - 1, -1⟩] := by
  refine ⟨fun reads => ?_, _, rfl, rfl, rfl⟩
  obtain ⟨result, ran, -, fine, -⟩ := reads 3 (by decide)
  rw [bfFileRead_readable rfl] at ran
  obtain ⟨ask, member, greedy⟩ := readLoop_negative (by decide) ran
  exact greedy (fine ask member)

end ToastStunt.Files
