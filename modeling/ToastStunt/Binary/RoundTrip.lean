import ToastStunt.Binary.Encoding

/-!
`decode_binary` and `encode_binary` on a binary string: the elements that the first makes, and
what the second makes of them.
-/

namespace ToastStunt.Binary

open ToastStunt.Lists

/-! The two passes of `decode_binary`. -/

def pending (text : List UInt8) : List Item := if text = [] then [] else [.str text]

/-- The elements for these bytes, after a string that has begun with `text`. -/
def pieces (text : List UInt8) : List UInt8 → List Item
  | [] => pending text
  | c :: bytes =>
      if inString c then pieces (text ++ [c]) bytes
      else pending text ++ .int c.toNat :: pieces [] bytes

def elements (fully : Bool) (bytes : List UInt8) : List Item :=
  if fully then bytes.map fun c => .int c.toNat else pieces [] bytes

def begun (text : List UInt8) : Bool := !text.isEmpty

theorem begun_append (text : List UInt8) (c : UInt8) : begun (text ++ [c]) = true := by
  cases text <;> rfl

theorem pending_length (text : List UInt8) : (pending text).length = if begun text then 1 else 0 := by
  cases text <;> rfl

theorem countLoop_eq (bytes text : List UInt8) (count : Nat) :
    countLoop bytes count (begun text) + (pending text).length =
      count + (pieces text bytes).length := by
  induction bytes generalizing text count with
  | nil => rfl
  | cons c bytes ih =>
      by_cases inside : inString c = true
      · have later := ih (text ++ [c]) (if begun text then count else count + 1)
        rw [begun_append, pending_length, begun_append, if_pos rfl] at later
        rw [countLoop, pieces, if_pos inside, if_pos inside, pending_length]
        by_cases begins : begun text = true
        · rw [if_pos begins] at later
          rw [if_pos begins, if_pos begins]
          exact later
        · rw [if_neg begins] at later
          rw [if_neg begins, if_neg begins]
          omega
      · have later := ih [] (count + 1)
        have none' : pending [] = [] := rfl
        have empty : begun [] = false := rfl
        rw [none', empty, List.length_nil] at later
        rw [countLoop, pieces, if_neg inside, if_neg inside, List.length_append, List.length_cons]
        omega

def filled (done : List Item) (left : Nat) : List (Option Item) :=
  done.map some ++ List.replicate left none

theorem store_next (done : List Item) (left : Nat) (v : Item) :
    store (filled done (left + 1)) (done.length + 1) v = .ok (filled (done ++ [v]) left) := by
  have room : 1 ≤ done.length + 1 ∧ done.length + 1 ≤ (filled done (left + 1)).length := by
    rw [filled, List.length_append, List.length_map, List.length_replicate]
    omega
  rw [store, if_pos room]
  congr 1
  simp [filled, List.replicate_succ, List.set_append_right]

theorem fillFully_eq (bytes : List UInt8) (done : List Item) :
    fillFully bytes (done.length + 1) (filled done bytes.length) =
      .ok ((done ++ elements true bytes).map some) := by
  induction bytes generalizing done with
  | nil => simp [fillFully, filled, elements]
  | cons c bytes ih =>
      have later := ih (done ++ [.int c.toNat])
      rw [List.length_append, List.length_singleton] at later
      rw [fillFully, List.length_cons, store_next]
      change fillFully bytes _ _ = _
      rw [later]
      simp [elements]

theorem flush_eq {text : List UInt8} (done : List Item) (left : Nat) {s : Stream}
    (sound : s.Sound none) (holds : s.contents = text) :
    ∃ s', flush (done.length + 1) (begun text) s (filled done ((pending text).length + left)) =
        .ok ((done ++ pending text).length + 1, s', filled (done ++ pending text) left) ∧
      s'.Sound none ∧ s'.contents = [] := by
  cases text with
  | nil =>
      have none' : pending [] = [] := rfl
      refine ⟨s, ?_, sound, holds⟩
      rw [none', List.append_nil, List.length_nil, Nat.zero_add]
      rfl
  | cons first text =>
      have one : pending (first :: text) = [.str (first :: text)] := rfl
      have begins : begun (first :: text) = true := rfl
      refine ⟨s.reset, ?_, sound.reset, rfl⟩
      rw [one, List.length_singleton, Nat.add_comm 1, flush, begins, if_pos rfl, holds, store_next,
        List.length_append]
      rfl

theorem fillLoop_eq {bytes : List UInt8} (text : List UInt8) (done : List Item) {s : Stream}
    (sound : s.Sound none) (holds : s.contents = text) (small : text.length + bytes.length < 2 ^ 30) :
    fillLoop bytes (done.length + 1) (begun text) s (filled done (pieces text bytes).length) =
      .ok ((done ++ pieces text bytes).map some) := by
  induction bytes generalizing text done s with
  | nil =>
      cases text with
      | nil => simp [fillLoop, begun, filled, pieces, pending]
      | cons first text =>
          have begins : begun (first :: text) = true := rfl
          have one : pieces (first :: text) [] = [.str (first :: text)] := rfl
          rw [fillLoop, begins, if_pos rfl, one, List.length_singleton, store_next, holds]
          simp [filled]
  | cons c bytes ih =>
      rw [List.length_cons] at small
      by_cases inside : inString c = true
      · have fits : Fits none (s.contents.length + [c].length) := by
          change s.contents.length + 1 < 2 ^ 30
          rw [holds]
          omega
        obtain ⟨s', ran, contents, sound'⟩ := (streamAddChar_appends none c).ok s sound fits
        have later := ih (text ++ [c]) done sound' (by rw [contents, holds])
          (by rw [List.length_append, List.length_singleton]; omega)
        rw [begun_append] at later
        rw [fillLoop, pieces, if_pos inside, if_pos inside, ran]
        exact later
      · obtain ⟨s', ran, sound', empty⟩ :=
          flush_eq done ((pieces [] bytes).length + 1) sound holds
        have later := ih [] (done ++ pending text ++ [.int c.toNat]) sound' empty
          (by rw [List.length_nil]; omega)
        have whole : done ++ pending text ++ [.int c.toNat] ++ pieces [] bytes =
            done ++ (pending text ++ .int c.toNat :: pieces [] bytes) := by
          rw [List.append_assoc, List.append_assoc, List.singleton_append]
        have counted : (done ++ pending text ++ [Item.int c.toNat]).length =
            (done ++ pending text).length + 1 := by
          rw [List.length_append, List.length_singleton]
        rw [whole, counted] at later
        rw [fillLoop, pieces, if_neg inside, if_neg inside, List.length_append, List.length_cons, ran]
        change (store _ _ _ >>= _) = _
        rw [store_next]
        exact later

theorem unescape_length (s : CString) :
    ∀ bytes, unescape s = some bytes → bytes.length ≤ s.length := by
  induction s using unescape.induct with
  | case1 =>
      rintro bytes ⟨⟩
      exact Nat.le_refl _
  | case2 c rest plain ih =>
      intro bytes decoded
      rw [unescape_plain plain] at decoded
      obtain ⟨later, read, rfl⟩ := Option.map_eq_some_iff.mp decoded
      exact Nat.succ_le_succ (ih later read)
  | case3 c tilded high low rest digits ih =>
      intro bytes decoded
      obtain rfl := not_not.mp tilded
      rw [unescape_pair, if_pos digits] at decoded
      obtain ⟨later, read, rfl⟩ := Option.map_eq_some_iff.mp decoded
      have := ih later read
      simp only [List.length_cons]
      omega
  | case4 c tilded high low rest digits =>
      intro bytes decoded
      obtain rfl := not_not.mp tilded
      rw [unescape_pair, if_neg digits] at decoded
      cases decoded
  | case5 c rest tilded short =>
      intro bytes decoded
      obtain rfl := not_not.mp tilded
      rw [unescape_short short] at decoded
      cases decoded

theorem newList_eq {count : Nat} (room : listRoom count = true) :
    newList count = .ok (filled [] count) := by
  rw [newList, if_pos room]
  rfl

theorem decodeElements_eq {bytes : List UInt8} (small : bytes.length < 2 ^ 30) {fully : Bool}
    (room : listRoom (elements fully bytes).length = true) :
    decodeElements bytes fully = .ok ((elements fully bytes).map some) := by
  cases fully with
  | true =>
      have length : (elements true bytes).length = bytes.length := List.length_map _
      rw [length] at room
      rw [decodeElements, if_pos rfl, newList_eq room]
      exact fillFully_eq bytes []
  | false =>
      have counted := countLoop_eq bytes [] 0
      have none' : pending [] = [] := rfl
      rw [none', List.length_nil, Nat.zero_add, Nat.add_zero] at counted
      change countLoop bytes 0 false = (elements false bytes).length at counted
      rw [decodeElements, if_neg Bool.false_ne_true, counted, newList_eq room]
      exact fillLoop_eq [] [] (newStream_sound nofun) rfl
        (by rw [List.length_nil]; omega)

theorem bfDecodeBinary_eq (limits : Limits) {s : Stream} (sound : s.Sound none) {binary : CString}
    (small : binary.length < 2 ^ 30) {bytes : List UInt8} (decoded : unescape binary = some bytes)
    {fully : Bool} (room : listRoom (elements fully bytes).length = true) :
    bfDecodeBinary limits s binary fully =
      .ok (if valueBytes itemBytes ((elements fully bytes).map some) ≤ limits.list.val then
        .value ((elements fully bytes).map some) else .space) := by
  have short := unescape_length binary bytes decoded
  rw [bfDecodeBinary, binaryToRawBytes_eq sound small, decoded]
  change (decodeElements bytes fully >>= _) = _
  rw [decodeElements_eq (by omega) room]
  rfl

theorem bfDecodeBinary_invarg (limits : Limits) {s : Stream} (sound : s.Sound none)
    {binary : CString} (small : binary.length < 2 ^ 30) (malformed : unescape binary = none)
    (fully : Bool) : bfDecodeBinary limits s binary fully = .ok .invarg := by
  rw [bfDecodeBinary, binaryToRawBytes_eq sound small, malformed]
  rfl

/-! Encoding. -/

def rawOf : Item → List UInt8
  | .int num => [UInt8.ofNat num.toNat]
  | .str str => str
  | _ => []

def Flat : Item → Prop
  | .int num => 0 ≤ num ∧ num ≤ 255
  | .str _ => True
  | _ => False

theorem encodeBinary_flat (most : Nat) {item : Item} (flat : Flat item) :
    ∃ run, Appends (some most) run (rawOf item) ∧
      ∀ s, encodeBinary most 0 255 s item = (run s).map some := by
  match item with
  | .int num =>
      have inside : ¬(num < 0 ∨ num > 255) := by
        have := flat.1
        have := flat.2
        omega
      refine ⟨_, streamAddChar_appends (some most) _, fun s => ?_⟩
      rw [encodeBinary, if_neg inside]
  | .str str => exact ⟨_, streamAddString_appends (some most) str, fun s => by rw [encodeBinary]⟩

theorem encodeItems_flat (most : Nat) {items : List Item} (flat : ∀ item ∈ items, Flat item) :
    ∃ run, Appends (some most) run (items.flatMap rawOf) ∧
      ∀ s, encodeItems most 0 255 s items = (run s).map some := by
  induction items with
  | nil => exact ⟨.ok, Appends.nil _, fun s => by rw [encodeItems]; rfl⟩
  | cons item items ih =>
      obtain ⟨first, one, ranOne⟩ := encodeBinary_flat most (flat item List.mem_cons_self)
      obtain ⟨second, two, ranTwo⟩ := ih fun later member => flat later (List.mem_cons_of_mem _ member)
      refine ⟨fun s => first s >>= second, one.bind two, fun s => ?_⟩
      rw [encodeItems, ranOne]
      change _ = (first s >>= second).map some
      cases first s with
      | error fault => rfl
      | ok s' => exact ranTwo s'

theorem canonical_length (bytes : List UInt8) : bytes.length ≤ (canonical bytes).length := by
  induction bytes with
  | nil => exact Nat.le_refl _
  | cons c bytes ih =>
      have split : canonical (c :: bytes) = escape c ++ canonical bytes := rfl
      have piece := (escape_length c).1
      rw [split, List.length_append, List.length_cons]
      omega

theorem bfEncodeBinary_eq (limits : Limits) {items : List Item} (flat : ∀ item ∈ items, Flat item)
    {bytes : List UInt8} (raw : items.flatMap rawOf = bytes) (small : bytes.length < 2 ^ 31) :
    bfEncodeBinary limits items =
      .ok (if (canonical bytes).length ≤ limits.concat then .value (canonical bytes) else .space) := by
  obtain ⟨run, appends, ran⟩ := encodeItems_flat limits.streamAllocMaximum flat
  have text := streamAddRawBytes_appends (some limits.streamAllocMaximum) bytes
  have atLeast := limits.atLeast
  have atMost := limits.atMost
  have start : (newStream 100).Sound (some limits.streamAllocMaximum) := newStream_sound (by
    rintro most ⟨⟩
    change 100 ≤ limits.concat + 1
    omega)
  have below : limits.streamAllocMaximum < 2 ^ 31 := by
    change limits.concat + 1 < 2 ^ 31
    omega
  have tooLong {length : Nat} (exceeds : ¬length ≤ limits.concat) :
      limits.streamAllocMaximum ≤ (newStream 100).contents.length + length := by
    change limits.concat + 1 ≤ 0 + length
    omega
  have empty : (newStream 100).contents.length = 0 := rfl
  have longer := canonical_length bytes
  rw [raw] at appends
  have fitsIff {length : Nat} :
      Fits (some limits.streamAllocMaximum) ((newStream 100).contents.length + length) ↔
        length ≤ limits.concat := by
    change 0 + length < limits.concat + 1 ∧ limits.concat + 1 < 2 ^ 31 ↔ _
    omega
  have encoding : encodeArguments limits.streamAllocMaximum items =
      run (newStream 100) >>= escapeRaw limits.streamAllocMaximum := by
    rw [encodeArguments, encodeBinary, ran]
    cases run (newStream 100) <;> rfl
  rw [bfEncodeBinary, encoding]
  by_cases within : bytes.length ≤ limits.concat
  · obtain ⟨s, ranFirst, contents, _⟩ := appends.ok _ start (fitsIff.mpr within)
    change s.contents = bytes at contents
    rw [ranFirst]
    change caught (escapeRaw _ s) = _
    rw [escapeRaw, contents]
    by_cases fits : (canonical bytes).length ≤ limits.concat
    · obtain ⟨s2, ranSecond, contents2, _⟩ := text.ok _ start (fitsIff.mpr fits)
      change s2.contents = canonical bytes at contents2
      rw [if_pos fits, ← contents2, ranSecond]
      rfl
    · have int : limits.streamAllocMaximum + 3 ≤ 2 ^ 31 := by
        change limits.concat + 1 + 3 ≤ 2 ^ 31
        omega
      rw [if_neg fits, streamAddRawBytes_tooBig int start (tooLong fits)]
      rfl
  · rw [if_neg (by omega), appends.tooBig _ _ rfl below start (tooLong within) (by omega)]
    rfl

theorem encode_nested (limits : Limits) (items : List Item) :
    bfEncodeBinary limits [.list items] = bfEncodeBinary limits items := by
  have same : encodeBinary limits.streamAllocMaximum 0 255 (newStream 100) (.list [.list items]) =
      encodeBinary limits.streamAllocMaximum 0 255 (newStream 100) (.list items) := by
    simp only [encodeBinary, encodeItems]
    cases encodeItems limits.streamAllocMaximum 0 255 (newStream 100) items with
    | error fault => rfl
    | ok result =>
        cases result with
        | none => rfl
        | some s => rfl
  rw [bfEncodeBinary, bfEncodeBinary, encodeArguments, encodeArguments, same]

theorem int_flat (c : UInt8) : Flat (.int c.toNat) ∧ rawOf (.int c.toNat) = [c] := by
  have small := c.toNat_lt
  refine ⟨⟨by omega, by omega⟩, ?_⟩
  simp [rawOf]

theorem pending_flat (text : List UInt8) :
    (∀ item ∈ pending text, Flat item) ∧ (pending text).flatMap rawOf = text := by
  cases text with
  | nil => exact ⟨fun _ member => absurd member List.not_mem_nil, rfl⟩
  | cons c text =>
      refine ⟨fun item member => ?_, List.append_nil _⟩
      obtain rfl := List.mem_singleton.mp member
      trivial

theorem pieces_flat (bytes text : List UInt8) :
    (∀ item ∈ pieces text bytes, Flat item) ∧ (pieces text bytes).flatMap rawOf = text ++ bytes := by
  induction bytes generalizing text with
  | nil =>
      rw [pieces, List.append_nil]
      exact pending_flat text
  | cons c bytes ih =>
      rw [pieces]
      split
      · obtain ⟨flat, raw⟩ := ih (text ++ [c])
        refine ⟨flat, ?_⟩
        rw [raw, List.append_assoc, List.singleton_append]
      · obtain ⟨flat, raw⟩ := ih []
        obtain ⟨before, rawBefore⟩ := pending_flat text
        obtain ⟨here, rawHere⟩ := int_flat c
        refine ⟨fun item member => ?_, ?_⟩
        · rcases List.mem_append.mp member with first | later
          · exact before item first
          · rcases List.mem_cons.mp later with rfl | later
            · exact here
            · exact flat item later
        · rw [List.flatMap_append, List.flatMap_cons, rawBefore, rawHere, raw]
          rfl

theorem elements_flat (fully : Bool) (bytes : List UInt8) :
    (∀ item ∈ elements fully bytes, Flat item) ∧ (elements fully bytes).flatMap rawOf = bytes := by
  cases fully with
  | false => exact pieces_flat bytes []
  | true =>
      refine ⟨fun item member => ?_, ?_⟩
      · obtain ⟨c, _, rfl⟩ := List.mem_map.mp member
        exact (int_flat c).1
      · change (bytes.map fun c => .int c.toNat).flatMap rawOf = bytes
        induction bytes with
        | nil => rfl
        | cons c bytes ih =>
            rw [List.map_cons, List.flatMap_cons, (int_flat c).2, ih]
            rfl

/-! The round trips. -/

def ListOrSpace (limits : Limits) (items : List Item)
    (result : Except Fault (Answer (List (Option Item)))) : Prop :=
  result = .ok (if valueBytes itemBytes (items.map some) ≤ limits.list.val then
    .value (items.map some) else .space)

def TextOrSpace (limits : Limits) (text : CString) (result : Except Fault (Answer CString)) : Prop :=
  result = .ok (if text.length ≤ limits.concat then .value text else .space)

/-- `out` and `kept` are the buffers of the two conversions. Nothing is read or written past the
end of a block, and whoever decodes a string and encodes its elements, as the arguments or as one
list, gets the canonical text, as far as the limits let it. -/
structure RoundTrip (limits : Limits) (out kept : Stream) : Prop where
  bytes : ∀ bytes, (canonical bytes).length < 2 ^ 30 →
    ∃ out', rawBytesToBinary out bytes = .ok (canonical bytes, out') ∧
      binaryToRawBytes kept (canonical bytes) = .ok (some bytes)
  fails : ∀ s, s.length < 2 ^ 30 →
    ∃ result, binaryToRawBytes kept s = .ok result ∧ (result = none ↔ Malformed s)
  invarg : ∀ s fully, s.length < 2 ^ 30 → Malformed s →
    bfDecodeBinary limits kept s fully = .ok .invarg
  text : ∀ s bytes fully, s.length < 2 ^ 30 → binaryToRawBytes kept s = .ok (some bytes) →
    listRoom (elements fully bytes).length = true →
    ListOrSpace limits (elements fully bytes) (bfDecodeBinary limits kept s fully) ∧
      TextOrSpace limits (canonical bytes) (bfEncodeBinary limits (elements fully bytes)) ∧
      TextOrSpace limits (canonical bytes) (bfEncodeBinary limits [.list (elements fully bytes)])

theorem binary_round_trip (limits : Limits) {out kept : Stream} (soundOut : out.Sound none)
    (empty : out.contents = []) (soundKept : kept.Sound none) : RoundTrip limits out kept where
  bytes bytes small := by
    obtain ⟨out', ran, _⟩ := rawBytesToBinary_ok soundOut empty small
    refine ⟨out', ran, ?_⟩
    rw [binaryToRawBytes_eq soundKept small, unescape_canonical]
  fails s small := ⟨unescape s, binaryToRawBytes_eq soundKept small, unescape_none s⟩
  invarg s fully small malformed :=
    bfDecodeBinary_invarg limits soundKept small ((unescape_none s).mpr malformed) fully
  text s bytes fully small ran room := by
    rw [binaryToRawBytes_eq soundKept small] at ran
    have decoded : unescape s = some bytes := Except.ok.inj ran
    have short := unescape_length s bytes decoded
    obtain ⟨flat, raw⟩ := elements_flat fully bytes
    have encoded := bfEncodeBinary_eq limits flat raw (by omega)
    refine ⟨bfDecodeBinary_eq limits soundKept small decoded room, encoded, ?_⟩
    rw [TextOrSpace, encode_nested]
    exact encoded

def smallest : Limits := ⟨⟨1021, by decide, by decide⟩, 1021, by decide, by decide⟩

theorem round_trip_smallest : RoundTrip smallest (newStream 100) (newStream 100) :=
  binary_round_trip smallest (newStream_sound nofun) rfl (newStream_sound nofun)

def manyLetters : CString := List.replicate 62 65

/-- The 62 numbers for as many letters are more than the smallest limit on lists lets pass. -/
theorem decode_binary_space : ¬∀ (limits : Limits) (s : CString) (bytes : List UInt8)
    (fully : Bool), s.length < 2 ^ 30 → binaryToRawBytes (newStream 100) s = .ok (some bytes) →
    ∃ items, bfDecodeBinary limits (newStream 100) s fully = .ok (.value (items.map some)) ∧
      bfEncodeBinary limits items = .ok (.value (canonical bytes)) := by
  intro all
  have sound : (newStream 100).Sound none := newStream_sound nofun
  have small : manyLetters.length < 2 ^ 30 := by decide
  have decoded : unescape manyLetters = some manyLetters := by decide
  have read : binaryToRawBytes (newStream 100) manyLetters = .ok (some manyLetters) := by
    rw [binaryToRawBytes_eq sound small, decoded]
  obtain ⟨items, ran, _⟩ := all smallest manyLetters manyLetters true small read
  have tooLarge : ¬valueBytes itemBytes ((elements true manyLetters).map some) ≤ smallest.list.val := by
    decide
  rw [bfDecodeBinary_eq smallest sound small decoded (by decide), if_neg tooLarge] at ran
  cases ran

end ToastStunt.Binary
