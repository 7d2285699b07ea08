import ToastStunt.Json.Text

/-!
What `generate_json` writes, and how deep a value may be nested for it.
-/

namespace ToastStunt.Json

open Maps RedBlack ColorTree

/-! Values. -/

mutual

def Everywhere (P : Value → Prop) : Value → Prop
  | .list items => P (.list items) ∧ EveryItem P items
  | .map entries => P (.map entries) ∧ EveryEntry P entries
  | value => P value

def EveryItem (P : Value → Prop) : List Value → Prop
  | [] => True
  | value :: rest => Everywhere P value ∧ EveryItem P rest

def EveryEntry (P : Value → Prop) : List (Key × Value) → Prop
  | [] => True
  | (_, value) :: rest => Everywhere P value ∧ EveryEntry P rest

end

mutual

def nesting : Value → Nat
  | .list items => nestingItems items + 1
  | .map entries => nestingEntries entries + 1
  | _ => 0

def nestingItems : List Value → Nat
  | [] => 0
  | value :: rest => max (nesting value) (nestingItems rest)

def nestingEntries : List (Key × Value) → Nat
  | [] => 0
  | (_, value) :: rest => max (nesting value) (nestingEntries rest)

end

def IsAscii (text : CString) : Prop := ∀ byte ∈ text, 0 < byte ∧ byte < 128

def PlainKey : Key → Prop
  | .int _ | .obj _ | .err _ => True
  | .str str => IsAscii str
  | _ => False

def PlainHere : Value → Prop
  | .int _ | .obj _ | .err _ | .bool _ | .list _ => True
  | .str str => IsAscii str
  | .map entries => ∀ entry ∈ entries, PlainKey entry.1
  | _ => False

/-- Integers, objects, errors, strings of ASCII characters, booleans, lists, and maps whose keys
are integers, objects, errors or strings. -/
def Plain : Value → Prop := Everywhere PlainHere

def OrderedHere : Value → Prop
  | .map entries => entries.Pairwise fun first second => 0 < compare false second.1 first.1
  | _ => True

def Ordered : Value → Prop := Everywhere OrderedHere

def AboveHere : Value → Prop
  | .int num => minint ≤ num.val
  | _ => True

def AboveMinimum : Value → Prop := Everywhere AboveHere

/-! What is written. -/

def keyText : Key → CString
  | .obj obj => tagged .embeddedTypes .obj (objLiteral obj)
  | .int num => tagged .embeddedTypes .int (intLiteral num)
  | .err err => tagged .embeddedTypes .err (errorName err)
  | .str str => guarded .embeddedTypes str
  | _ => []

mutual

def wire : Value → List Event
  | .int num => [.number true (intLiteral num)]
  | .obj obj => [.string (tagged .embeddedTypes .obj (objLiteral obj))]
  | .err err => [.string (tagged .embeddedTypes .err (errorName err))]
  | .str str => [.string (guarded .embeddedTypes str)]
  | .bool truth => [.boolean truth]
  | .list items => .startArray :: wireItems items ++ [.endArray]
  | .map entries => .startMap :: wireEntries entries ++ [.endMap]
  | _ => []

def wireItems : List Value → List Event
  | [] => []
  | value :: rest => wire value ++ wireItems rest

def wireEntries : List (Key × Value) → List Event
  | [] => []
  | (key, value) :: rest => .string (keyText key) :: wire value ++ wireEntries rest

end

/-! A boolean is written by more than its truth. -/

section

variable (padding : Nat → BitVec 56)

@[simp] def writtenAs (n : Nat) : Event → Event
  | .boolean truth => .boolean (genBool truth (padding n))
  | event => event

@[simp] def written (n : Nat) : List Event → List Event
  | [] => []
  | event :: rest => writtenAs padding n event :: written (n + 1) rest

@[simp] theorem written_length (n : Nat) (events : List Event) :
    (written padding n events).length = events.length := by
  induction events generalizing n with
  | nil => rfl
  | cons event rest ih => simp [ih]

@[simp] theorem written_append (n : Nat) (first second : List Event) :
    written padding n (first ++ second) =
      written padding n first ++ written padding (n + first.length) second := by
  induction first generalizing n with
  | nil => rfl
  | cons event rest ih =>
      rw [List.cons_append, written, ih, written, List.cons_append, List.length_cons,
        Nat.add_assoc, Nat.add_comm 1]

end

section

variable (floatLiteral : Double → CString) (floatText : Double → Option CString)
  (padding : Nat → BitVec 56)

theorem generateKey_writes {key : Key} (plain : PlainKey key) {g : Gen}
    (shallow : g.depth < yajlMaxDepth) :
    generateKey floatLiteral .embeddedTypes key g =
      .ok (.ok, ⟨g.depth, g.events ++ [.string (keyText key)]⟩) := by
  cases key <;> simp_all [PlainKey, generateKey, keyText, emit]

mutual

theorem generate_writes : ∀ (value : Value) (g : Gen), Plain value →
    g.depth + nesting value < yajlMaxDepth →
    generate floatLiteral floatText padding .embeddedTypes value g =
      .ok (.ok, ⟨g.depth, g.events ++ written padding g.events.length (wire value)⟩)
  | .list items, g, plain, shallow => by
      simp only [nesting] at shallow
      have inside := generateItems_writes items ⟨g.depth + 1, g.events ++ [.startArray]⟩ plain.2
        (by simp only; omega)
      have above : g.depth < yajlMaxDepth ∧ ¬yajlMaxDepth ≤ g.depth + 1 ∧
          g.depth + 1 < yajlMaxDepth := by omega
      simp [generate, openContainer, above, bind, Except.bind, inside, closeContainer, wire]
  | .map entries, g, plain, shallow => by
      simp only [nesting] at shallow
      have inside := generateEntries_writes entries ⟨g.depth + 1, g.events ++ [.startMap]⟩ plain.1
        plain.2 (by simp only; omega)
      have above : g.depth < yajlMaxDepth ∧ ¬yajlMaxDepth ≤ g.depth + 1 ∧
          g.depth + 1 < yajlMaxDepth := by omega
      simp [generate, openContainer, above, bind, Except.bind, inside, closeContainer, wire]
  | .int num, g, _, shallow => by simp_all [generate, emit, wire, nesting]
  | .obj obj, g, _, shallow => by simp_all [generate, emit, wire, nesting]
  | .err err, g, _, shallow => by simp_all [generate, emit, wire, nesting]
  | .str str, g, _, shallow => by simp_all [generate, emit, wire, nesting]
  | .bool truth, g, _, shallow => by simp_all [generate, emit, wire, nesting]
  | .float _, _, plain, _ => plain.elim
  | .anon _, _, plain, _ => plain.elim
  | .waif _, _, plain, _ => plain.elim

theorem generateItems_writes : ∀ (items : List Value) (g : Gen), EveryItem PlainHere items →
    g.depth + nestingItems items < yajlMaxDepth →
    generateItems floatLiteral floatText padding .embeddedTypes items g =
      .ok (.ok, ⟨g.depth, g.events ++ written padding g.events.length (wireItems items)⟩)
  | [], g, _, _ => by simp [generateItems, wireItems]
  | value :: rest, g, plain, shallow => by
      simp only [nestingItems] at shallow
      have first := generate_writes value g plain.1 (by omega)
      have later := generateItems_writes rest ⟨g.depth, g.events ++ written padding g.events.length (wire value)⟩ plain.2
        (by simp only; omega)
      simp [generateItems, first, bind, Except.bind, later, wireItems]

theorem generateEntries_writes : ∀ (entries : List (Key × Value)) (g : Gen),
    (∀ entry ∈ entries, PlainKey entry.1) → EveryEntry PlainHere entries →
    g.depth + nestingEntries entries < yajlMaxDepth →
    generateEntries floatLiteral floatText padding .embeddedTypes entries g =
      .ok (.ok, ⟨g.depth, g.events ++ written padding g.events.length (wireEntries entries)⟩)
  | [], g, _, _, _ => by simp [generateEntries, wireEntries]
  | (key, value) :: rest, g, keys, plain, shallow => by
      simp only [nestingEntries] at shallow
      have named := generateKey_writes floatLiteral (keys (key, value) (by simp)) (g := g)
        (by omega)
      have first := generate_writes value ⟨g.depth, g.events ++ [.string (keyText key)]⟩ plain.1
        (by simp only; omega)
      have later := generateEntries_writes rest
        ⟨g.depth, g.events ++ [.string (keyText key)] ++ written padding (g.events.length + 1) (wire value)⟩
        (fun entry member => keys entry (by simp [member])) plain.2 (by simp only; omega)
      simp [generateEntries, named, bind, Except.bind, first] at later ⊢
      simp [later, wireEntries, Nat.add_assoc, Nat.add_comm 1]

end

theorem generateKey_deep {key : Key} (plain : PlainKey key) {g : Gen}
    (deep : yajlMaxDepth ≤ g.depth) :
    generateKey floatLiteral .embeddedTypes key g = .error .undefined := by
  have below : ¬g.depth < yajlMaxDepth := by omega
  cases key <;> simp_all [PlainKey, generateKey, emit]

mutual

/-- A container that is the 128th inside one another is opened past the states of the generator. -/
theorem generate_deep : ∀ (value : Value) (g : Gen), Plain value → g.depth ≤ yajlMaxDepth →
    yajlMaxDepth ≤ g.depth + nesting value →
    generate floatLiteral floatText padding .embeddedTypes value g = .error .undefined
  | .list items, g, plain, _, deep => by
      simp only [nesting] at deep
      by_cases full : g.depth < yajlMaxDepth
      · by_cases last : yajlMaxDepth ≤ g.depth + 1
        · have none := generateItems_deep items ⟨g.depth + 1, g.events⟩ plain.2
            (by simp only; omega) (by simp only; omega)
          have past : ¬g.depth + 1 < yajlMaxDepth := by omega
          cases items with
          | nil => simp [generate, openContainer, bind, Except.bind, full, last, generateItems,
              closeContainer, past]
          | cons item rest => simp [generate, openContainer, bind, Except.bind, full, last, none]
        · have none := generateItems_deep items ⟨g.depth + 1, g.events ++ [.startArray]⟩ plain.2
            (by simp only; omega) (by simp only; omega)
          have nonempty : items ≠ [] := by
            rintro rfl
            simp only [nestingItems] at deep
            omega
          simp [generate, openContainer, bind, Except.bind, full, last, none nonempty]
      · simp [generate, openContainer, bind, Except.bind, full]
  | .map entries, g, plain, _, deep => by
      simp only [nesting] at deep
      by_cases full : g.depth < yajlMaxDepth
      · by_cases last : yajlMaxDepth ≤ g.depth + 1
        · have none := generateEntries_deep entries ⟨g.depth + 1, g.events⟩ plain.1 plain.2
            (by simp only; omega) (by simp only; omega)
          have past : ¬g.depth + 1 < yajlMaxDepth := by omega
          cases entries with
          | nil => simp [generate, openContainer, bind, Except.bind, full, last, generateEntries,
              closeContainer, past]
          | cons entry rest => simp [generate, openContainer, bind, Except.bind, full, last, none]
        · have none := generateEntries_deep entries ⟨g.depth + 1, g.events ++ [.startMap]⟩ plain.1
            plain.2 (by simp only; omega) (by simp only; omega)
          have nonempty : entries ≠ [] := by
            rintro rfl
            simp only [nestingEntries] at deep
            omega
          simp [generate, openContainer, bind, Except.bind, full, last, none nonempty]
      · simp [generate, openContainer, bind, Except.bind, full]
  | .int num, g, _, _, deep => by simp_all [generate, emit, nesting]
  | .obj obj, g, _, _, deep => by simp_all [generate, emit, nesting]
  | .err err, g, _, _, deep => by simp_all [generate, emit, nesting]
  | .str str, g, _, _, deep => by simp_all [generate, emit, nesting]
  | .bool truth, g, _, _, deep => by simp_all [generate, emit, nesting]
  | .float _, _, plain, _, _ => plain.elim
  | .anon _, _, plain, _, _ => plain.elim
  | .waif _, _, plain, _, _ => plain.elim

theorem generateItems_deep : ∀ (items : List Value) (g : Gen), EveryItem PlainHere items →
    g.depth ≤ yajlMaxDepth → yajlMaxDepth ≤ g.depth + nestingItems items → items ≠ [] →
    generateItems floatLiteral floatText padding .embeddedTypes items g = .error .undefined
  | [], _, _, _, _, nonempty => absurd rfl nonempty
  | value :: rest, g, plain, inside, deep, _ => by
      simp only [nestingItems] at deep
      by_cases here : yajlMaxDepth ≤ g.depth + nesting value
      · simp [generateItems, bind, Except.bind, generate_deep value g plain.1 inside here]
      · have first := generate_writes floatLiteral floatText padding value g plain.1 (by omega)
        have later : rest ≠ [] := by
          rintro rfl
          simp only [nestingItems] at deep
          omega
        have none := generateItems_deep rest ⟨g.depth, g.events ++ written padding g.events.length (wire value)⟩ plain.2
          (by simp only; omega) (by simp only; omega) later
        simp [generateItems, bind, Except.bind, first, none]

theorem generateEntries_deep : ∀ (entries : List (Key × Value)) (g : Gen),
    (∀ entry ∈ entries, PlainKey entry.1) → EveryEntry PlainHere entries →
    g.depth ≤ yajlMaxDepth → yajlMaxDepth ≤ g.depth + nestingEntries entries → entries ≠ [] →
    generateEntries floatLiteral floatText padding .embeddedTypes entries g = .error .undefined
  | [], _, _, _, _, _, nonempty => absurd rfl nonempty
  | (key, value) :: rest, g, keys, plain, inside, deep, _ => by
      simp only [nestingEntries] at deep
      have keyPlain := keys (key, value) (by simp)
      by_cases full : g.depth < yajlMaxDepth
      · have named := generateKey_writes floatLiteral keyPlain full
        by_cases here : yajlMaxDepth ≤ g.depth + nesting value
        · have none := generate_deep value ⟨g.depth, g.events ++ [.string (keyText key)]⟩ plain.1
            inside here
          simp [generateEntries, bind, Except.bind, named, none]
        · have first := generate_writes floatLiteral floatText padding value
            ⟨g.depth, g.events ++ [.string (keyText key)]⟩ plain.1 (by simp only; omega)
          have later : rest ≠ [] := by
            rintro rfl
            simp only [nestingEntries] at deep
            omega
          have none := generateEntries_deep rest
            ⟨g.depth, g.events ++ [.string (keyText key)] ++ written padding (g.events.length + 1) (wire value)⟩
            (fun entry member => keys entry (by simp [member])) plain.2 (by simp only; omega)
            (by simp only; omega) later
          simp only [List.append_assoc, List.cons_append, List.nil_append] at none
          simp [generateEntries, bind, Except.bind, named, first, none]
      · simp [generateEntries, bind, Except.bind,
          generateKey_deep floatLiteral keyPlain (Nat.not_lt.mp full)]

end

/-- `generate_json` answers exactly for the values whose containers are not nested so deep. -/
theorem bfGenerateJson_writes {value : Value} (plain : Plain value) :
    bfGenerateJson floatLiteral floatText padding .embeddedTypes value =
      if nesting value < yajlMaxDepth then .ok (some (written padding 0 (wire value))) else .error .undefined := by
  split
  · rename_i shallow
    have written := generate_writes floatLiteral floatText padding value ⟨0, []⟩ plain (by simpa using shallow)
    simp [bfGenerateJson, bind, Except.bind, written]
  · rename_i deep
    have none := generate_deep floatLiteral floatText padding value ⟨0, []⟩ plain (by simp)
      (by simpa using deep)
    simp [bfGenerateJson, bind, Except.bind, none]

end

end ToastStunt.Json
