import ToastStunt.Binary.RoundTrip

/-!
`encode_base64` and `decode_base64` of base64.cc, with the standard alphabet and the one that is
safe in a URL.
-/

namespace ToastStunt.Binary

def base64Chars : CString :=
  "ABCDEFGHIJKLMNOPQRSTUVWXYZabcdefghijklmnopqrstuvwxyz0123456789+/".toList.map
    fun c => c.toNat.toUInt8

def urlSafeBase64Chars : CString :=
  "ABCDEFGHIJKLMNOPQRSTUVWXYZabcdefghijklmnopqrstuvwxyz0123456789-_".toList.map
    fun c => c.toNat.toUInt8

def base64Table : List UInt8 := [
  80, 80, 80, 80, 80, 80, 80, 80, 80, 80, 80, 80, 80, 80, 80, 80,
  80, 80, 80, 80, 80, 80, 80, 80, 80, 80, 80, 80, 80, 80, 80, 80,
  80, 80, 80, 80, 80, 80, 80, 80, 80, 80, 80, 62, 80, 80, 80, 63,
  52, 53, 54, 55, 56, 57, 58, 59, 60, 61, 80, 80, 80, 90, 80, 80,
  80, 0, 1, 2, 3, 4, 5, 6, 7, 8, 9, 10, 11, 12, 13, 14,
  15, 16, 17, 18, 19, 20, 21, 22, 23, 24, 25, 80, 80, 80, 80, 80,
  80, 26, 27, 28, 29, 30, 31, 32, 33, 34, 35, 36, 37, 38, 39, 40,
  41, 42, 43, 44, 45, 46, 47, 48, 49, 50, 51, 80, 80, 80, 80, 80,
  80, 80, 80, 80, 80, 80, 80, 80, 80, 80, 80, 80, 80, 80, 80, 80,
  80, 80, 80, 80, 80, 80, 80, 80, 80, 80, 80, 80, 80, 80, 80, 80,
  80, 80, 80, 80, 80, 80, 80, 80, 80, 80, 80, 80, 80, 80, 80, 80,
  80, 80, 80, 80, 80, 80, 80, 80, 80, 80, 80, 80, 80, 80, 80, 80,
  80, 80, 80, 80, 80, 80, 80, 80, 80, 80, 80, 80, 80, 80, 80, 80,
  80, 80, 80, 80, 80, 80, 80, 80, 80, 80, 80, 80, 80, 80, 80, 80,
  80, 80, 80, 80, 80, 80, 80, 80, 80, 80, 80, 80, 80, 80, 80, 80,
  80, 80, 80, 80, 80, 80, 80, 80, 80, 80, 80, 80, 80, 80, 80, 80]

def urlSafeBase64Table : List UInt8 := [
  80, 80, 80, 80, 80, 80, 80, 80, 80, 80, 80, 80, 80, 80, 80, 80,
  80, 80, 80, 80, 80, 80, 80, 80, 80, 80, 80, 80, 80, 80, 80, 80,
  80, 80, 80, 80, 80, 80, 80, 80, 80, 80, 80, 80, 80, 62, 80, 80,
  52, 53, 54, 55, 56, 57, 58, 59, 60, 61, 80, 80, 80, 90, 80, 80,
  80, 0, 1, 2, 3, 4, 5, 6, 7, 8, 9, 10, 11, 12, 13, 14,
  15, 16, 17, 18, 19, 20, 21, 22, 23, 24, 25, 80, 80, 80, 80, 63,
  80, 26, 27, 28, 29, 30, 31, 32, 33, 34, 35, 36, 37, 38, 39, 40,
  41, 42, 43, 44, 45, 46, 47, 48, 49, 50, 51, 80, 80, 80, 80, 80,
  80, 80, 80, 80, 80, 80, 80, 80, 80, 80, 80, 80, 80, 80, 80, 80,
  80, 80, 80, 80, 80, 80, 80, 80, 80, 80, 80, 80, 80, 80, 80, 80,
  80, 80, 80, 80, 80, 80, 80, 80, 80, 80, 80, 80, 80, 80, 80, 80,
  80, 80, 80, 80, 80, 80, 80, 80, 80, 80, 80, 80, 80, 80, 80, 80,
  80, 80, 80, 80, 80, 80, 80, 80, 80, 80, 80, 80, 80, 80, 80, 80,
  80, 80, 80, 80, 80, 80, 80, 80, 80, 80, 80, 80, 80, 80, 80, 80,
  80, 80, 80, 80, 80, 80, 80, 80, 80, 80, 80, 80, 80, 80, 80, 80,
  80, 80, 80, 80, 80, 80, 80, 80, 80, 80, 80, 80, 80, 80, 80, 80]

def pick (safe : Bool) (index : UInt8) : UInt8 :=
  (if safe then urlSafeBase64Chars else base64Chars).getD index.toNat 0

def lookup (safe : Bool) (c : UInt8) : UInt8 :=
  (if safe then urlSafeBase64Table else base64Table).getD c.toNat 0

def equals : UInt8 := 61

inductive Package
  | str (str : CString)
  | raise (message : String) (value : CString)
  | space

def padding (safe : Bool) (count : Nat) : CString := if safe then [] else List.replicate count equals

def encodeLoop (safe : Bool) : List UInt8 → CString
  | a :: b :: c :: inp =>
      pick safe (a >>> 2) ::
      pick safe (((a &&& 0x03) <<< 4) ||| (b >>> 4)) ::
      pick safe (((b &&& 0x0f) <<< 2) ||| (c >>> 6)) ::
      pick safe (c &&& 0x3f) :: encodeLoop safe inp
  | [a, b] =>
      [pick safe (a >>> 2), pick safe (((a &&& 0x03) <<< 4) ||| (b >>> 4)),
        pick safe ((b &&& 0x0f) <<< 2)] ++ padding safe 1
  | [a] => [pick safe (a >>> 2), pick safe ((a &&& 0x03) <<< 4)] ++ padding safe 2
  | [] => []

/-- The size is a negative `int` if it overflows, which is larger than the maximum as a `size_t`.
-/
def bfEncodeBase64 (limits : Limits) (kept : Stream) (str : CString) (safe : Bool) :
    Except Fault Package := do
  match ← binaryToRawBytes kept str with
  | none => .ok (.raise "Invalid binary string" str)
  | some bytes =>
      .ok (if bytes.length / 3 * 4 > limits.streamAllocMaximum then .space
        else .str (encodeLoop safe bytes))

/-! Decoding. -/

def checkLoop (safe : Bool) : CString → Nat → Except String Nat
  | [], pad => .ok pad
  | tmp :: str, pad =>
      if lookup safe tmp = 80 then .error "Invalid character in encoded data"
      else if pad ≠ 0 ∧ tmp ≠ equals then .error "Pad character in encoded data"
      else checkLoop safe str (if tmp = equals then pad + 1 else pad)

def checkInput (safe : Bool) (str : CString) : Except String Unit := do
  let pad ← checkLoop safe str 0
  if pad > 2 then .error "Too many pad characters"
  else if str.length - pad = 1 ∨ safe = false ∧ str.length % 4 ≠ 0 then .error "Invalid length"
  else .ok ()

/-- The arrays `block` and `ar`, where no element is set at first. -/
structure Cells where
  block : List (Option UInt8)
  ar : List (Option UInt8)
  buffer : List UInt8

def noCells : Cells := ⟨List.replicate 4 none, List.replicate 4 none, []⟩

def readCell (cells : List (Option UInt8)) (i : Nat) : Except Fault UInt8 :=
  match cells[i]? with
  | some (some c) => .ok c
  | some none => .error .unset
  | none => .error .beyond

def join (a b c d : UInt8) : List UInt8 :=
  [(a <<< 2) ||| (b >>> 4), (b <<< 4) ||| (c >>> 2), (c <<< 6) ||| d]

def flushBlock (cells : Cells) : Except Fault Cells := do
  let a ← readCell cells.block 0
  let b ← readCell cells.block 1
  let c ← readCell cells.block 2
  let d ← readCell cells.block 3
  .ok { cells with buffer := cells.buffer ++ join a b c d }

def inputs (safe : Bool) (str : CString) : List (UInt8 × UInt8) :=
  str.map (fun c => (lookup safe c, c)) ++ List.replicate (str.length % 4) (0, equals)

def setCells (cells : Cells) (i : Nat) (input : UInt8 × UInt8) : Cells :=
  { cells with block := cells.block.set i (some input.1), ar := cells.ar.set i (some input.2) }

def decodeLoop : List (UInt8 × UInt8) → Nat → Cells → Except Fault Cells
  | [], _, cells => .ok cells
  | input :: rest, i, cells => do
      let cells := setCells cells (i % 4) input
      decodeLoop rest (i + 1) (← if i % 4 = 3 then flushBlock cells else .ok cells)

def trimmed (cells : Cells) : Except Fault (List UInt8) := do
  let size := cells.buffer.length
  if size = 0 then .ok cells.buffer
  else
    if (← readCell cells.ar 2) = equals then .ok (cells.buffer.take (size - 2))
    else if (← readCell cells.ar 3) = equals then .ok (cells.buffer.take (size - 1))
    else .ok cells.buffer

def bfDecodeBase64 (limits : Limits) (out : Stream) (str : CString) (safe : Bool) :
    Except Fault Package :=
  match checkInput safe str with
  | .error message => .ok (.raise message str)
  | .ok _ =>
      if str.length / 4 * 3 > limits.streamAllocMaximum then .ok .space
      else do
        let bytes ← trimmed (← decodeLoop (inputs safe str) 0 noCells)
        let (ret, _) ← rawBytesToBinary out bytes
        .ok (.str ret)

/-! Six bits at a time. -/

theorem or_small {x y : UInt8} (smallX : x < 64) (smallY : y < 64) : x ||| y < 64 := by
  rw [UInt8.lt_iff_toNat_lt] at *
  rw [UInt8.toNat_or]
  exact Nat.or_lt_two_pow (n := 6) smallX smallY

theorem first_small (a : UInt8) : a >>> 2 < 64 :=
  forall_byte (p := fun a => a >>> 2 < 64) (by decide +kernel) a

theorem second_small (a b : UInt8) : ((a &&& 0x03) <<< 4) ||| (b >>> 4) < 64 :=
  or_small (forall_byte (p := fun a => (a &&& 0x03) <<< 4 < 64) (by decide +kernel) a)
    (forall_byte (p := fun b => b >>> 4 < 64) (by decide +kernel) b)

theorem third_small (b c : UInt8) : ((b &&& 0x0f) <<< 2) ||| (c >>> 6) < 64 :=
  or_small (forall_byte (p := fun b => (b &&& 0x0f) <<< 2 < 64) (by decide +kernel) b)
    (forall_byte (p := fun c => c >>> 6 < 64) (by decide +kernel) c)

theorem fourth_small (c : UInt8) : c &&& 0x3f < 64 :=
  forall_byte (p := fun c => c &&& 0x3f < 64) (by decide +kernel) c

theorem byte_ext {a b : UInt8} (same : ∀ i ∈ [0, 1, 2, 3, 4, 5, 6, 7],
    a.toBitVec.getLsbD i = b.toBitVec.getLsbD i) : a = b := by
  rw [← UInt8.toBitVec_inj]
  refine BitVec.eq_of_getLsbD_eq fun i inside => same i ?_
  simp only [List.mem_cons, List.not_mem_nil]
  omega

theorem first_byte (a b : UInt8) :
    ((a >>> 2) <<< 2) ||| ((((a &&& 0x03) <<< 4) ||| (b >>> 4)) >>> 4) = a := by
  apply byte_ext
  simp

theorem second_byte (a b c : UInt8) :
    ((((a &&& 0x03) <<< 4) ||| (b >>> 4)) <<< 4) ||| ((((b &&& 0x0f) <<< 2) ||| (c >>> 6)) >>> 2) =
      b := by
  apply byte_ext
  simp

theorem third_byte (b c : UInt8) :
    ((((b &&& 0x0f) <<< 2) ||| (c >>> 6)) <<< 6) ||| (c &&& 0x3f) = c := by
  apply byte_ext
  simp

theorem join_bytes (a b c : UInt8) :
    join (a >>> 2) (((a &&& 0x03) <<< 4) ||| (b >>> 4)) (((b &&& 0x0f) <<< 2) ||| (c >>> 6))
      (c &&& 0x3f) = [a, b, c] := by
  rw [join, first_byte, second_byte, third_byte]

/-! The tables. -/

theorem pick_spec (safe : Bool) {index : UInt8} (small : index < 64) :
    lookup safe (pick safe index) = index ∧ pick safe index ≠ equals := by
  cases safe with
  | false =>
      exact forall_byte (p := fun index => index < 64 →
        lookup false (pick false index) = index ∧ pick false index ≠ equals)
        (by decide +kernel) index small
  | true =>
      exact forall_byte (p := fun index => index < 64 →
        lookup true (pick true index) = index ∧ pick true index ≠ equals)
        (by decide +kernel) index small

theorem lookup_equals (safe : Bool) : lookup safe equals = 90 := by
  cases safe <;> decide

/-! The loop of the decoder. -/

def joined : List UInt8 → List UInt8
  | a :: b :: c :: d :: rest => join a b c d ++ joined rest
  | _ => []

def marks : List UInt8 → Option (UInt8 × UInt8) → Option (UInt8 × UInt8)
  | _ :: _ :: c :: d :: rest, _ => marks rest (some (c, d))
  | _, last => last

structure Marked (cells : Cells) (last : Option (UInt8 × UInt8)) : Prop where
  block : cells.block.length = 4
  ar : cells.ar.length = 4
  set : ∀ c d, last = some (c, d) → cells.ar[2]? = some (some c) ∧ cells.ar[3]? = some (some d)
  some : cells.buffer ≠ [] → last ≠ none

theorem setCells_marked {cells : Cells} {last : Option (UInt8 × UInt8)} (marked : Marked cells last)
    {i : Nat} (early : i < 2) (input : UInt8 × UInt8) : Marked (setCells cells i input) last where
  block := by rw [setCells, List.length_set, marked.block]
  ar := by rw [setCells, List.length_set, marked.ar]
  set c d is := by
    obtain ⟨third, fourth⟩ := marked.set c d is
    rw [setCells, List.getElem?_set_ne (by omega), List.getElem?_set_ne (by omega)]
    exact ⟨third, fourth⟩
  some := marked.some

theorem decodeLoop_four {cells : Cells} {last : Option (UInt8 × UInt8)} (marked : Marked cells last)
    (a b c d : UInt8 × UInt8) (rest : List (UInt8 × UInt8)) {i : Nat} (aligned : i % 4 = 0) :
    ∃ cells', decodeLoop (a :: b :: c :: d :: rest) i cells = decodeLoop rest (i + 4) cells' ∧
      cells'.buffer = cells.buffer ++ join a.1 b.1 c.1 d.1 ∧ Marked cells' (some (c.2, d.2)) := by
  obtain ⟨block, ar, buffer⟩ := cells
  obtain ⟨w, x, y, z, rfl⟩ := List.length_eq_four.mp marked.block
  obtain ⟨w', x', y', z', rfl⟩ := List.length_eq_four.mp marked.ar
  have places : (i + 1) % 4 = 1 ∧ (i + 1 + 1) % 4 = 2 ∧ (i + 1 + 1 + 1) % 4 = 3 := by omega
  refine ⟨⟨[some a.1, some b.1, some c.1, some d.1], [some a.2, some b.2, some c.2, some d.2],
    buffer ++ join a.1 b.1 c.1 d.1⟩, ?_, rfl, rfl, rfl, ?_, nofun⟩
  · simp only [decodeLoop, aligned, places]
    rfl
  · rintro _ _ ⟨⟩
    exact ⟨rfl, rfl⟩

/-- No element is read that is not set, and what is left over changes neither the text nor the
elements that the end of the text is told by. -/
theorem decodeLoop_spec : ∀ (input : List (UInt8 × UInt8)) {cells : Cells}
    {last : Option (UInt8 × UInt8)} {i : Nat}, Marked cells last → i % 4 = 0 →
    input.length % 4 ≤ 2 →
    ∃ cells', decodeLoop input i cells = .ok cells' ∧
      cells'.buffer = cells.buffer ++ joined (input.map Prod.fst) ∧
      Marked cells' (marks (input.map Prod.snd) last)
  | [], cells, _, _, marked, _, _ => ⟨cells, rfl, (List.append_nil _).symm, marked⟩
  | [a], cells, _, i, marked, aligned, _ => by
      refine ⟨setCells cells 0 a, ?_, (List.append_nil _).symm, setCells_marked marked (by omega) a⟩
      simp only [decodeLoop, aligned]
      rfl
  | [a, b], cells, _, i, marked, aligned, _ => by
      have place : (i + 1) % 4 = 1 := by omega
      refine ⟨setCells (setCells cells 0 a) 1 b, ?_, (List.append_nil _).symm,
        setCells_marked (setCells_marked marked (by omega) a) (by omega) b⟩
      simp only [decodeLoop, aligned, place]
      rfl
  | [_, _, _], _, _, _, _, _, short => absurd short (by simp)
  | a :: b :: c :: d :: rest, cells, _, i, marked, aligned, short => by
      obtain ⟨cells', ran, text, marked'⟩ := decodeLoop_four marked a b c d rest aligned
      simp only [List.length_cons] at short
      obtain ⟨cells'', ran', text', marked''⟩ :=
        decodeLoop_spec rest marked' (i := i + 4) (by omega) (by omega)
      refine ⟨cells'', ran.trans ran', ?_, marked''⟩
      rw [text', text, List.append_assoc]
      rfl

theorem noCells_marked : Marked noCells none := ⟨rfl, rfl, nofun, fun text => absurd rfl text⟩

def trim (text : List UInt8) : Option (UInt8 × UInt8) → List UInt8
  | none => text
  | some (c, d) =>
      if c = equals then text.take (text.length - 2)
      else if d = equals then text.take (text.length - 1) else text

theorem trimmed_eq {cells : Cells} {last : Option (UInt8 × UInt8)} (marked : Marked cells last) :
    trimmed cells = .ok (trim cells.buffer last) := by
  rw [trimmed]
  by_cases empty : cells.buffer.length = 0
  · rw [if_pos empty, List.length_eq_zero_iff.mp empty]
    cases last with
    | none => rfl
    | some mark => simp [trim]
  · cases last with
    | none => exact absurd rfl (marked.some fun text => empty (by rw [text]; rfl))
    | some mark =>
        obtain ⟨third, fourth⟩ := marked.set mark.1 mark.2 rfl
        rw [if_neg empty, readCell, readCell, third, fourth, trim]
        change (if _ then _ else _) = _
        split
        · rfl
        · change (if _ then _ else _) = _
          split <;> rfl

theorem inputs_length (safe : Bool) (str : CString) : (inputs safe str).length % 4 ≤ 2 := by
  rw [inputs, List.length_append, List.length_map, List.length_replicate]
  omega

/-- What the decoder makes of any text. -/
def decoded (safe : Bool) (str : CString) : List UInt8 :=
  trim (joined ((inputs safe str).map Prod.fst)) (marks ((inputs safe str).map Prod.snd) none)

theorem decode_eq (safe : Bool) (str : CString) :
    (do trimmed (← decodeLoop (inputs safe str) 0 noCells)) = .ok (decoded safe str) := by
  obtain ⟨cells, ran, text, marked⟩ :=
    decodeLoop_spec (inputs safe str) noCells_marked (i := 0) rfl (inputs_length safe str)
  rw [ran]
  change trimmed cells = _
  rw [trimmed_eq marked, text]
  rfl

/-! What is encoded is decoded. -/

def Ends (extra : List UInt8) : Option (UInt8 × UInt8) → Prop
  | none => extra = []
  | some (c, d) => extra.length = if c = equals then 2 else if d = equals then 1 else 0

theorem trim_ends {extra : List UInt8} {last : Option (UInt8 × UInt8)} (ends : Ends extra last)
    (bytes : List UInt8) : trim (bytes ++ extra) last = bytes := by
  have cut {count : Nat} (length : extra.length = count) :
      (bytes ++ extra).take ((bytes ++ extra).length - count) = bytes := by
    rw [List.length_append, length, Nat.add_sub_cancel, List.take_left]
  cases last with
  | none =>
      obtain rfl : extra = [] := ends
      exact List.append_nil bytes
  | some mark =>
      obtain ⟨c, d⟩ := mark
      have length : extra.length = if c = equals then 2 else if d = equals then 1 else 0 := ends
      rw [trim]
      split
      · rw [if_pos ‹_›] at length
        exact cut length
      · rw [if_neg ‹_›] at length
        split
        · rw [if_pos ‹_›] at length
          exact cut length
        · rw [if_neg ‹_›] at length
          rw [List.length_eq_zero_iff.mp length, List.append_nil]

theorem inputs_four (safe : Bool) (p q r s : UInt8) (str : CString) :
    inputs safe (p :: q :: r :: s :: str) =
      (lookup safe p, p) :: (lookup safe q, q) :: (lookup safe r, r) :: (lookup safe s, s) ::
        inputs safe str := by
  have length : (p :: q :: r :: s :: str).length % 4 = str.length % 4 := by
    simp only [List.length_cons]
    omega
  rw [inputs, inputs, length]
  rfl

theorem inputs_eq (safe : Bool) {str : CString} {n : Nat} (length : str.length % 4 = n) :
    inputs safe str =
      str.map (fun c => (lookup safe c, c)) ++ List.replicate n (0, equals) := by
  rw [inputs, length]

theorem encodeLoop_ends (safe : Bool) : ∀ (bytes : List UInt8) (last : Option (UInt8 × UInt8)),
    Ends [] last →
    ∃ extra, joined ((inputs safe (encodeLoop safe bytes)).map Prod.fst) = bytes ++ extra ∧
      Ends extra (marks ((inputs safe (encodeLoop safe bytes)).map Prod.snd) last)
  | [], _, ends => ⟨[], rfl, ends⟩
  | [a], last, _ => by
      obtain ⟨first, _⟩ := pick_spec safe (first_small a)
      obtain ⟨second, _⟩ := pick_spec safe (second_small a 0)
      have whole := first_byte a 0
      rw [show (0 : UInt8) >>> 4 = 0 by decide, UInt8.or_zero] at second whole
      obtain ⟨y, z, block⟩ : ∃ y z, inputs safe (encodeLoop safe [a]) =
          [(lookup safe (pick safe (a >>> 2)), pick safe (a >>> 2)),
            (lookup safe (pick safe ((a &&& 0x03) <<< 4)), pick safe ((a &&& 0x03) <<< 4)),
            (y, equals), (z, equals)] := by
        cases safe
        · exact ⟨_, _, inputs_eq false (n := 0) (by simp [encodeLoop, padding])⟩
        · exact ⟨_, _, inputs_eq true (n := 2) (by simp [encodeLoop, padding])⟩
      rw [block, first, second]
      refine ⟨(join (a >>> 2) ((a &&& 0x03) <<< 4) y z).tail, ?_, ?_⟩
      · simp only [List.map_cons, List.map_nil, joined, join, whole]
        rfl
      · simp only [List.map_cons, List.map_nil, marks, Ends, if_true]
        rfl
  | [a, b], last, _ => by
      obtain ⟨first, _⟩ := pick_spec safe (first_small a)
      obtain ⟨second, _⟩ := pick_spec safe (second_small a b)
      obtain ⟨third, plain⟩ := pick_spec safe (third_small b 0)
      have whole := second_byte a b 0
      rw [show (0 : UInt8) >>> 6 = 0 by decide, UInt8.or_zero] at third plain whole
      obtain ⟨z, more, short, block⟩ : ∃ z more, (more = [] ∨ more = [(0, equals), (0, equals)]) ∧
          inputs safe (encodeLoop safe [a, b]) =
            (lookup safe (pick safe (a >>> 2)), pick safe (a >>> 2)) ::
            (lookup safe (pick safe (((a &&& 0x03) <<< 4) ||| (b >>> 4))),
              pick safe (((a &&& 0x03) <<< 4) ||| (b >>> 4))) ::
            (lookup safe (pick safe ((b &&& 0x0f) <<< 2)), pick safe ((b &&& 0x0f) <<< 2)) ::
            (z, equals) :: more := by
        cases safe
        · exact ⟨_, _, .inl rfl, inputs_eq false (n := 0) (by simp [encodeLoop, padding])⟩
        · exact ⟨_, _, .inr rfl, inputs_eq true (n := 3) (by simp [encodeLoop, padding])⟩
      have rest : joined (more.map Prod.fst) = [] ∧
          ∀ last, marks (more.map Prod.snd) last = last := by
        rcases short with rfl | rfl <;> exact ⟨rfl, fun _ => rfl⟩
      rw [block, first, second, third]
      refine ⟨(join (a >>> 2) (((a &&& 0x03) <<< 4) ||| (b >>> 4)) ((b &&& 0x0f) <<< 2) z).drop 2,
        ?_, ?_⟩
      · simp only [List.map_cons, joined, join, first_byte, whole, rest.1]
        rfl
      · simp only [List.map_cons, marks, rest.2, Ends, if_neg plain, if_true]
        rfl
  | a :: b :: c :: rest, _, _ => by
      obtain ⟨first, _⟩ := pick_spec safe (first_small a)
      obtain ⟨second, _⟩ := pick_spec safe (second_small a b)
      obtain ⟨third, plain⟩ := pick_spec safe (third_small b c)
      obtain ⟨fourth, plain'⟩ := pick_spec safe (fourth_small c)
      obtain ⟨extra, text, ends⟩ := encodeLoop_ends safe rest (some (_, _))
        (by rw [Ends, if_neg plain, if_neg plain']; rfl)
      refine ⟨extra, ?_, ?_⟩
      · rw [encodeLoop, inputs_four, List.map_cons, List.map_cons, List.map_cons, List.map_cons,
          joined, first, second, third, fourth, join_bytes, text]
        rfl
      · rw [encodeLoop, inputs_four]
        exact ends

theorem decoded_encodeLoop (safe : Bool) (bytes : List UInt8) :
    decoded safe (encodeLoop safe bytes) = bytes := by
  obtain ⟨extra, text, ends⟩ := encodeLoop_ends safe bytes none rfl
  rw [decoded, text]
  exact trim_ends ends bytes

/-! What is encoded passes the checks of the decoder. -/

def Digit (safe : Bool) (c : UInt8) : Prop := lookup safe c ≠ 80 ∧ c ≠ equals

theorem pick_digit (safe : Bool) {index : UInt8} (small : index < 64) :
    Digit safe (pick safe index) := by
  obtain ⟨value, plain⟩ := pick_spec safe small
  refine ⟨fun invalid => ?_, plain⟩
  rw [value] at invalid
  rw [invalid] at small
  exact absurd small (by decide)

theorem checkLoop_digits {safe : Bool} {body : CString} (digits : ∀ c ∈ body, Digit safe c)
    (rest : CString) : checkLoop safe (body ++ rest) 0 = checkLoop safe rest 0 := by
  induction body with
  | nil => rfl
  | cons c body ih =>
      obtain ⟨valid, plain⟩ := digits c List.mem_cons_self
      rw [List.cons_append, checkLoop, if_neg valid, if_neg (fun both => both.1 rfl), if_neg plain]
      exact ih fun later member => digits later (List.mem_cons_of_mem c member)

theorem checkLoop_padding (safe : Bool) (count pad : Nat) :
    checkLoop safe (List.replicate count equals) pad = .ok (pad + count) := by
  induction count generalizing pad with
  | zero => rfl
  | succ count ih =>
      have valid : lookup safe equals ≠ 80 := by
        rw [lookup_equals]
        decide
      rw [List.replicate_succ, checkLoop, if_neg valid, if_neg (fun both => both.2 rfl), if_pos rfl,
        ih]
      congr 1
      omega

structure Shaped (safe : Bool) (bytes : List UInt8) (body : CString) (pad : Nat) : Prop where
  text : encodeLoop safe bytes = body ++ List.replicate pad equals
  digits : ∀ c ∈ body, Digit safe c
  few : pad ≤ 2
  more : body.length ≠ 1
  whole : safe = false → (body.length + pad) % 4 = 0
  short : body.length + pad ≤ bytes.length / 3 * 4 + 4

theorem encodeLoop_shaped (safe : Bool) : ∀ bytes, ∃ body pad, Shaped safe bytes body pad
  | [] => ⟨[], 0, rfl, fun _ member => absurd member List.not_mem_nil, by decide, by decide,
      fun _ => rfl, by decide⟩
  | [a] => by
      have second := second_small a 0
      rw [show (0 : UInt8) >>> 4 = 0 by decide, UInt8.or_zero] at second
      refine ⟨[pick safe (a >>> 2), pick safe ((a &&& 0x03) <<< 4)], if safe then 0 else 2, ?_, ?_,
        ?_, by simp, ?_, ?_⟩
      · cases safe <;> rfl
      · simpa using ⟨pick_digit safe (first_small a), pick_digit safe second⟩
      · split <;> decide
      · rintro rfl
        simp
      · cases safe <;> simp
  | [a, b] => by
      have third := third_small b 0
      rw [show (0 : UInt8) >>> 6 = 0 by decide, UInt8.or_zero] at third
      refine ⟨[pick safe (a >>> 2), pick safe (((a &&& 0x03) <<< 4) ||| (b >>> 4)),
        pick safe ((b &&& 0x0f) <<< 2)], if safe then 0 else 1, ?_, ?_, ?_, by simp, ?_, ?_⟩
      · cases safe <;> rfl
      · simpa using ⟨pick_digit safe (first_small a), pick_digit safe (second_small a b),
          pick_digit safe third⟩
      · split <;> decide
      · rintro rfl
        simp
      · cases safe <;> simp
  | a :: b :: c :: rest => by
      obtain ⟨body, pad, shaped⟩ := encodeLoop_shaped safe rest
      have short := shaped.short
      refine ⟨pick safe (a >>> 2) :: pick safe (((a &&& 0x03) <<< 4) ||| (b >>> 4)) ::
        pick safe (((b &&& 0x0f) <<< 2) ||| (c >>> 6)) :: pick safe (c &&& 0x3f) :: body, pad,
        ?_, ?_, shaped.few, by simp, ?_, ?_⟩
      · rw [encodeLoop, shaped.text]
        rfl
      · simpa using ⟨pick_digit safe (first_small a), pick_digit safe (second_small a b),
          pick_digit safe (third_small b c), pick_digit safe (fourth_small c), shaped.digits⟩
      · intro standard
        have := shaped.whole standard
        simp only [List.length_cons]
        omega
      · simp only [List.length_cons]
        omega

theorem checkInput_encodeLoop (safe : Bool) (bytes : List UInt8) :
    checkInput safe (encodeLoop safe bytes) = .ok () := by
  obtain ⟨body, pad, shaped⟩ := encodeLoop_shaped safe bytes
  have length : (encodeLoop safe bytes).length = body.length + pad := by
    rw [shaped.text, List.length_append, List.length_replicate]
  have counted : checkLoop safe (encodeLoop safe bytes) 0 = .ok pad := by
    rw [shaped.text, checkLoop_digits shaped.digits, checkLoop_padding, Nat.zero_add]
  have valid : ¬((encodeLoop safe bytes).length - pad = 1 ∨
      safe = false ∧ (encodeLoop safe bytes).length % 4 ≠ 0) := by
    rw [length, Nat.add_sub_cancel]
    rintro (one | ⟨standard, odd⟩)
    · exact shaped.more one
    · exact odd (shaped.whole standard)
  rw [checkInput, counted]
  change (if pad > 2 then _ else _) = _
  rw [if_neg (Nat.not_lt.mpr shaped.few), if_neg valid]

theorem bfDecodeBase64_eq (limits : Limits) (out : Stream) {str : CString} {safe : Bool}
    (accepted : checkInput safe str = .ok ())
    (within : ¬str.length / 4 * 3 > limits.streamAllocMaximum) :
    bfDecodeBase64 limits out str safe =
      (rawBytesToBinary out (decoded safe str)).map fun ret => .str ret.1 := by
  have read := decode_eq safe str
  rw [bfDecodeBase64, accepted]
  change (if _ then _ else _) = _
  rw [if_neg within]
  cases ran : decodeLoop (inputs safe str) 0 noCells with
  | error fault =>
      rw [ran] at read
      cases read
  | ok cells =>
      rw [ran] at read
      change trimmed cells = _ at read
      change ((trimmed cells) >>= _) = _
      rw [read]
      change (rawBytesToBinary out (decoded safe str) >>= _) = _
      cases rawBytesToBinary out (decoded safe str) <;> rfl

theorem bfEncodeBase64_eq (limits : Limits) {kept : Stream} (sound : kept.Sound none)
    {bytes : List UInt8} (small : (canonical bytes).length < 2 ^ 30) (safe : Bool) :
    bfEncodeBase64 limits kept (canonical bytes) safe =
      .ok (if bytes.length / 3 * 4 > limits.streamAllocMaximum then .space
        else .str (encodeLoop safe bytes)) := by
  rw [bfEncodeBase64, binaryToRawBytes_eq sound small, unescape_canonical]
  rfl

theorem decode_encoded (limits : Limits) {out : Stream} (sound : out.Sound none)
    (empty : out.contents = []) {bytes : List UInt8} (small : (canonical bytes).length < 2 ^ 30)
    (safe : Bool) (within : ¬bytes.length / 3 * 4 > limits.streamAllocMaximum) :
    bfDecodeBase64 limits out (encodeLoop safe bytes) safe = .ok (.str (canonical bytes)) := by
  obtain ⟨body, pad, shaped⟩ := encodeLoop_shaped safe bytes
  have short := shaped.short
  have length : (encodeLoop safe bytes).length = body.length + pad := by
    rw [shaped.text, List.length_append, List.length_replicate]
  have atLeast : 1022 ≤ limits.streamAllocMaximum := Nat.succ_le_succ limits.atLeast
  have fits : ¬(encodeLoop safe bytes).length / 4 * 3 > limits.streamAllocMaximum := by omega
  obtain ⟨out', ran, _⟩ := rawBytesToBinary_ok sound empty small
  rw [bfDecodeBase64_eq limits out (checkInput_encodeLoop safe bytes) fits, decoded_encodeLoop, ran]
  rfl

/-- `out` and `kept` are the buffers of the conversions of binary strings. -/
structure Base64Exact (limits : Limits) (out kept : Stream) : Prop where
  roundTrip : ∀ bytes safe, (canonical bytes).length < 2 ^ 30 →
    if bytes.length / 3 * 4 > limits.streamAllocMaximum then
      bfEncodeBase64 limits kept (canonical bytes) safe = .ok .space
    else ∃ text, bfEncodeBase64 limits kept (canonical bytes) safe = .ok (.str text) ∧
      bfDecodeBase64 limits out text safe = .ok (.str (canonical bytes))
  noUnset : ∀ str safe, bfDecodeBase64 limits out str safe ≠ .error .unset

theorem base64_exact (limits : Limits) {out kept : Stream} (soundOut : out.Sound none)
    (empty : out.contents = []) (soundKept : kept.Sound none) : Base64Exact limits out kept where
  roundTrip bytes safe small := by
    have encoded := bfEncodeBase64_eq limits soundKept small safe
    by_cases large : bytes.length / 3 * 4 > limits.streamAllocMaximum
    · rw [if_pos large] at encoded ⊢
      exact encoded
    · rw [if_neg large] at encoded ⊢
      exact ⟨_, encoded, decode_encoded limits soundOut empty small safe large⟩
  noUnset str safe := by
    cases checked : checkInput safe str with
    | error message =>
        rw [bfDecodeBase64, checked]
        nofun
    | ok accepted =>
        by_cases large : str.length / 4 * 3 > limits.streamAllocMaximum
        · rw [bfDecodeBase64, checked]
          change (if _ then _ else _) ≠ _
          rw [if_pos large]
          nofun
        · rw [bfDecodeBase64_eq limits out checked large]
          intro unset
          cases ran : rawBytesToBinary out (decoded safe str) with
          | error fault =>
              rw [ran] at unset
              obtain rfl : fault = .unset := Except.error.inj unset
              rcases rawBytesToBinary_sizeOnly out _ _ ran with other | other <;> cases other
          | ok result =>
              rw [ran] at unset
              cases unset

theorem base64_exact_smallest : Base64Exact smallest (newStream 100) (newStream 100) :=
  base64_exact smallest (newStream_sound nofun) rfl (newStream_sound nofun)

/-- The text for 768 letters is longer than the smallest limit on strings. -/
theorem encode_base64_space : ¬∀ (limits : Limits) (bytes : List UInt8) (safe : Bool),
    (canonical bytes).length < 2 ^ 30 →
    ∃ text, bfEncodeBase64 limits (newStream 100) (canonical bytes) safe = .ok (.str text) ∧
      bfDecodeBase64 limits (newStream 100) text safe = .ok (.str (canonical bytes)) := by
  intro all
  have small : (canonical (List.replicate 768 65)).length < 2 ^ 30 := by decide +kernel
  have large : (List.replicate 768 (65 : UInt8)).length / 3 * 4 > smallest.streamAllocMaximum := by
    rw [List.length_replicate]
    decide
  obtain ⟨text, ran, _⟩ := all smallest (List.replicate 768 65) false small
  rw [bfEncodeBase64_eq smallest (newStream_sound nofun) small, if_pos large] at ran
  cases ran

end ToastStunt.Binary
