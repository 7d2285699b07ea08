import ToastStunt.Binary.Encoding
import ToastStunt.Dbio.Var
import ToastStunt.Maps.Rebuilding

/-!
`dbio_read_var` after `dbio_write_var`, over every value and whatever follows it in the file.
-/

namespace ToastStunt.Dbio

open Maps Json RedBlack

mutual

def Everywhere (P : Var → Prop) : Var → Prop
  | .list items => P (.list items) ∧ EveryItem P items
  | .map entries => P (.map entries) ∧ EveryEntry P entries
  | value => P value

def EveryItem (P : Var → Prop) : List Var → Prop
  | [] => True
  | value :: rest => Everywhere P value ∧ EveryItem P rest

def EveryEntry (P : Var → Prop) : List (Key × Var) → Prop
  | [] => True
  | (_, value) :: rest => Everywhere P value ∧ EveryEntry P rest

end

mutual

def nesting : Var → Nat
  | .list items => nestingItems items + 1
  | .map entries => nestingEntries entries + 1
  | _ => 0

def nestingItems : List Var → Nat
  | [] => 0
  | value :: rest => max (nesting value) (nestingItems rest)

def nestingEntries : List (Key × Var) → Nat
  | [] => 0
  | (_, value) :: rest => max (nesting value) (nestingEntries rest)

end

def StorableKey : Key → Prop
  | .int _ | .obj _ | .err _ | .bool _ => True
  | .str str => 0 ∉ str
  | _ => False

def StorableHere : Var → Prop
  | .float _ | .anon _ | .waif _ => False
  | .str str => 0 ∉ str
  | .list items => items.length < 2 ^ 31
  | .map entries => entries.length < 2 ^ 31 ∧ ∀ entry ∈ entries, StorableKey entry.1
  | _ => True

def Storable : Var → Prop := Everywhere StorableHere

def OrderedHere : Var → Prop
  | .map entries => entries.Pairwise fun first second => Maps.compare false first.1 second.1 < 0
  | _ => True

/-- Each key of a map compares below the keys that come after it. -/
def Ordered : Var → Prop := Everywhere OrderedHere

def FreeKey : Key → Prop
  | .str str => NewlineFree str
  | _ => True

def FreeHere : Var → Prop
  | .str str => NewlineFree str
  | .map entries => ∀ entry ∈ entries, FreeKey entry.1
  | _ => True

def Free : Var → Prop := Everywhere FreeHere

/-! Maps put together again. -/

mutual

/-- The value after each of its maps, inner ones first, has been made anew from its bindings, the
first of them first. -/
def relist : Var → Option Var
  | .list items => (relistItems items).map .list
  | .map entries => do
      let entries ← relistEntries entries
      (rebuild entries).map fun map => .map map.bindings
  | value => some value

def relistItems : List Var → Option (List Var)
  | [] => some []
  | value :: rest => do
      let value ← relist value
      let rest ← relistItems rest
      some (value :: rest)

def relistEntries : List (Key × Var) → Option (List (Key × Var))
  | [] => some []
  | (key, value) :: rest => do
      let value ← relist value
      let rest ← relistEntries rest
      some ((key, value) :: rest)

end

theorem StorableKey.isNumber {key : Key} (storable : StorableKey key) : key.isNumber := by
  cases key <;> trivial

theorem rebuild_below {entries : List (Key × Var)}
    (storable : ∀ entry ∈ entries, StorableKey entry.1) (below : OrderedHere (.map entries)) :
    ∃ map, rebuild entries = some map ∧ map.bindings = entries := by
  have whole : (rbnew : RBTree Key Var).bindings ++ entries = entries := by
    simp [RBTree.bindings, rbnew]
  obtain ⟨map, built, bindings⟩ := insertAll_ascending Sound.new
    (fun entry member => (storable entry member).isNumber) (whole.symm ▸ below)
  exact ⟨map, built, bindings.trans whole⟩

mutual

theorem relist_ordered : ∀ value : Var, Storable value → Ordered value → relist value = some value
  | .list items, storable, ordered => by
      simp [relist, relistItems_ordered items storable.2 ordered.2]
  | .map entries, storable, ordered => by
      obtain ⟨map, built, bindings⟩ := rebuild_below storable.1.2 ordered.1
      simp [relist, relistEntries_ordered entries storable.2 ordered.2, built, bindings]
  | .int _, _, _ | .obj _, _, _ | .str _, _, _ | .err _, _, _ | .clear, _, _ | .none, _, _
  | .catchMark _, _, _ | .finallyMark _, _, _ | .float _, _, _ | .anon _, _, _ | .waif _, _, _
  | .bool _, _, _ => rfl

theorem relistItems_ordered : ∀ items : List Var, EveryItem StorableHere items →
    EveryItem OrderedHere items → relistItems items = some items
  | [], _, _ => rfl
  | value :: rest, storable, ordered => by
      simp [relistItems, relist_ordered value storable.1 ordered.1,
        relistItems_ordered rest storable.2 ordered.2]

theorem relistEntries_ordered : ∀ entries : List (Key × Var), EveryEntry StorableHere entries →
    EveryEntry OrderedHere entries → relistEntries entries = some entries
  | [], _, _ => rfl
  | (key, value) :: rest, storable, ordered => by
      simp [relistEntries, relist_ordered value storable.1 ordered.1,
        relistEntries_ordered rest storable.2 ordered.2]

end

/-! Reading what was written. -/

theorem natNum_val {n : Nat} (small : n < 2 ^ 31) : (natNum n).val = n := by
  rw [natNum, clamp, dif_neg (by omega), dif_neg (by omega)]

theorem readInt_written {n : Nat} (small : n < 2 ^ 31) (rest : CString) :
    readInt (dbioWriteNum (natNum n) ++ rest) = some ((n : Int), rest) := by
  have same : ((n : Int)).bmod (2 ^ 32) = n := Int.bmod_eq_of_le (by omega) (by omega)
  simp only [readInt, bind, StateT.bind, dbioReadNum_written, Option.bind_some, natNum_val small, same]
  rfl

theorem readType_written (type : VarType) (rest : CString) :
    readType (dbioWriteType type ++ rest) = some (some type, rest) := by
  have small : type.code < 2 ^ 31 := by cases type <;> decide
  have found : (allTypes.find? fun other => (other.code : Int) = type.code) = some type := by
    cases type <;> decide
  simp only [readType, dbioWriteType, bind, StateT.bind, readInt_written small, Option.bind_some,
    found]
  rfl

theorem asKey_errorNum (err : Error) : asKey (.err (errorNum err)) = some (.err err) := by
  cases err <;> decide

section

variable (dbioWriteFloat : Double → CString) (dbWriteAnonymous writeWaif : Nat → CString)
  (dbioReadFloat : Reading Double) (dbReadAnonymous readWaif : Reading Nat)

theorem readVar_key {key : Key} (storable : StorableKey key) (free : FreeKey key) (fuel : Nat)
    (rest : CString) : ∃ value,
      readVar dbioReadFloat dbReadAnonymous readWaif (fuel + 1)
        (dbioWriteKey dbioWriteFloat dbWriteAnonymous writeWaif key ++ rest) = some (value, rest) ∧
      asKey value = some key := by
  cases key with
  | int num =>
      refine ⟨.int num, ?_, rfl⟩
      simp [dbioWriteKey, readVar, bind, StateT.bind, List.append_assoc, readType_written,
        dbioReadNum_written, Reading.pure_eq]
  | obj obj =>
      refine ⟨.obj obj, ?_, rfl⟩
      simp [dbioWriteKey, readVar, bind, StateT.bind, List.append_assoc, readType_written,
        dbioReadNum_written, Reading.pure_eq]
  | str str =>
      refine ⟨.str str, ?_, rfl⟩
      simp [dbioWriteKey, readVar, bind, StateT.bind, List.append_assoc, readType_written,
        dbioReadString_written rest free storable, Reading.pure_eq]
  | err err =>
      refine ⟨.err (errorNum err), ?_, asKey_errorNum err⟩
      simp [dbioWriteKey, readVar, bind, StateT.bind, List.append_assoc, readType_written,
        dbioReadNum_written, Reading.pure_eq]
  | bool truth =>
      refine ⟨.bool truth, ?_, rfl⟩
      cases truth <;> simp [dbioWriteKey, readVar, bind, StateT.bind, List.append_assoc,
        readType_written, dbioReadNum_written, natNum_val, Reading.pure_eq]
  | float _ => exact storable.elim
  | anon _ => exact storable.elim
  | waif _ => exact storable.elim

theorem mapinsert_shared {shared : Bool} {map : RBTree Key Var}
    (fresh : shared = true → map = rbnew) (key : Key) (value : Var) :
    mapinsert shared map key value = mapinsert false map key value := by
  cases shared with
  | false => rfl
  | true => rw [fresh rfl, mapinsert_new]

theorem readEntries_turn {read : Reading Var} {input middle rest : CString} {keyVar value : Var}
    {key : Key} (readKey : read input = some (keyVar, middle))
    (readValue : read middle = some (value, rest)) (asKey : asKey keyVar = some key)
    {shared : Bool} {map : RBTree Key Var} (fresh : shared = true → map = rbnew) (count : Nat) :
    readEntries read (count + 1) shared map input =
      (mapinsert false map key value).bind fun map => readEntries read count false map rest := by
  have inserted := mapinsert_shared fresh key value
  cases made : mapinsert false map key value with
  | none => simp [readEntries, bind, StateT.bind, readKey, readValue, asKey, lift, inserted, made]
  | some map' =>
      simp [readEntries, bind, StateT.bind, readKey, readValue, asKey, lift, inserted, made]

mutual

theorem readVar_written : ∀ (value : Var) (fuel : Nat) (rest : CString), Storable value →
    Free value → nesting value < fuel →
    readVar dbioReadFloat dbReadAnonymous readWaif fuel
        (dbioWriteVar dbioWriteFloat dbWriteAnonymous writeWaif value ++ rest) =
      (relist value).map (·, rest)
  | value, 0, _, _, _, shallow => absurd shallow (Nat.not_lt_zero _)
  | .list items, fuel + 1, rest, storable, free, shallow => by
      simp only [nesting] at shallow
      have inside := readItems_written items fuel rest storable.2 free.2 (by omega)
      have positive : ¬(items.length : Int) < 0 := by omega
      cases made : relistItems items with
      | none =>
          simp [dbioWriteVar, readVar, bind, StateT.bind, List.append_assoc, readType_written,
            readInt_written storable.1, positive, inside, relist, made]
      | some again =>
          simp [dbioWriteVar, readVar, bind, StateT.bind, List.append_assoc, readType_written,
            readInt_written storable.1, positive, inside, relist, made, Reading.pure_eq]
  | .map entries, fuel + 1, rest, storable, free, shallow => by
      simp only [nesting] at shallow
      have inside := readEntries_written entries fuel rest true rbnew (fun _ => rfl) storable.1.2
        free.1 storable.2 free.2 (by omega)
      rw [relist]
      simp only [dbioWriteVar, readVar, bind, StateT.bind, List.append_assoc, readType_written,
        readInt_written storable.1.1, Option.bind_some, Int.toNat_natCast, inside]
      cases relistEntries entries with
      | none => rfl
      | some again =>
          cases made : insertAll rbnew again with
          | none => simp [rebuild, made]
          | some map => simp [rebuild, made, Reading.pure_eq]
  | .str str, fuel + 1, rest, storable, free, _ => by
      simp [dbioWriteVar, readVar, bind, StateT.bind, List.append_assoc, readType_written,
        dbioReadString_written rest free storable, Reading.pure_eq, relist]
  | .bool truth, fuel + 1, rest, _, _, _ => by
      cases truth <;> simp [dbioWriteVar, readVar, bind, StateT.bind, List.append_assoc,
        readType_written, dbioReadNum_written, natNum_val, Reading.pure_eq, relist]
  | .int num, fuel + 1, rest, _, _, _ => by
      simp [dbioWriteVar, readVar, bind, StateT.bind, List.append_assoc, readType_written,
        dbioReadNum_written, Reading.pure_eq, relist]
  | .obj obj, fuel + 1, rest, _, _, _ => by
      simp [dbioWriteVar, readVar, bind, StateT.bind, List.append_assoc, readType_written,
        dbioReadNum_written, Reading.pure_eq, relist]
  | .err num, fuel + 1, rest, _, _, _ => by
      simp [dbioWriteVar, readVar, bind, StateT.bind, List.append_assoc, readType_written,
        dbioReadNum_written, Reading.pure_eq, relist]
  | .catchMark num, fuel + 1, rest, _, _, _ => by
      simp [dbioWriteVar, readVar, bind, StateT.bind, List.append_assoc, readType_written,
        dbioReadNum_written, Reading.pure_eq, relist]
  | .finallyMark num, fuel + 1, rest, _, _, _ => by
      simp [dbioWriteVar, readVar, bind, StateT.bind, List.append_assoc, readType_written,
        dbioReadNum_written, Reading.pure_eq, relist]
  | .clear, fuel + 1, rest, _, _, _ => by
      simp [dbioWriteVar, readVar, bind, StateT.bind, readType_written, Reading.pure_eq, relist]
  | .none, fuel + 1, rest, _, _, _ => by
      simp [dbioWriteVar, readVar, bind, StateT.bind, readType_written, Reading.pure_eq, relist]
  | .float _, _ + 1, _, storable, _, _ => storable.elim
  | .anon _, _ + 1, _, storable, _, _ => storable.elim
  | .waif _, _ + 1, _, storable, _, _ => storable.elim

theorem readItems_written : ∀ (items : List Var) (fuel : Nat) (rest : CString),
    EveryItem StorableHere items → EveryItem FreeHere items → nestingItems items < fuel →
    readItems (readVar dbioReadFloat dbReadAnonymous readWaif fuel) items.length
        (dbioWriteItems dbioWriteFloat dbWriteAnonymous writeWaif items ++ rest) =
      (relistItems items).map (·, rest)
  | [], _, _, _, _, _ => rfl
  | value :: later, fuel, rest, storable, free, shallow => by
      simp only [nestingItems] at shallow
      have first := readVar_written value fuel
        (dbioWriteItems dbioWriteFloat dbWriteAnonymous writeWaif later ++ rest) storable.1 free.1
        (by omega)
      have second := readItems_written later fuel rest storable.2 free.2 (by omega)
      rw [relistItems]
      simp only [dbioWriteItems, List.length_cons, readItems, bind, StateT.bind, List.append_assoc,
        first]
      cases relist value with
      | none => rfl
      | some again =>
          simp only [Option.map_some, Option.bind_some, second]
          cases relistItems later <;> simp [Reading.pure_eq]

theorem readEntries_written : ∀ (entries : List (Key × Var)) (fuel : Nat) (rest : CString)
    (shared : Bool) (map : RBTree Key Var), (shared = true → map = rbnew) →
    (∀ entry ∈ entries, StorableKey entry.1) → (∀ entry ∈ entries, FreeKey entry.1) →
    EveryEntry StorableHere entries → EveryEntry FreeHere entries →
    nestingEntries entries < fuel →
    readEntries (readVar dbioReadFloat dbReadAnonymous readWaif fuel) entries.length shared
        map (dbioWriteEntries dbioWriteFloat dbWriteAnonymous writeWaif entries ++ rest) =
      (relistEntries entries).bind fun entries => (insertAll map entries).map (·, rest)
  | [], _, _, _, map, _, _, _, _, _, _ => rfl
  | (key, value) :: later, fuel, rest, shared, map, fresh, keys, freeKeys, storable, free,
      shallow => by
      simp only [nestingEntries] at shallow
      obtain ⟨fuel, rfl⟩ : ∃ less, fuel = less + 1 := ⟨fuel - 1, by omega⟩
      obtain ⟨keyVar, readKey, asKey⟩ := readVar_key dbioWriteFloat dbWriteAnonymous writeWaif
        dbioReadFloat dbReadAnonymous readWaif (keys (key, value) (by simp))
        (freeKeys (key, value) (by simp)) fuel
        (dbioWriteVar dbioWriteFloat dbWriteAnonymous writeWaif value ++
          (dbioWriteEntries dbioWriteFloat dbWriteAnonymous writeWaif later ++ rest))
      have readValue := readVar_written value (fuel + 1)
        (dbioWriteEntries dbioWriteFloat dbWriteAnonymous writeWaif later ++ rest) storable.1 free.1
        (by omega)
      have onward (map : RBTree Key Var) := readEntries_written later (fuel + 1) rest false map nofun
        (fun entry member => keys entry (by simp [member]))
        (fun entry member => freeKeys entry (by simp [member])) storable.2 free.2 (by omega)
      rw [dbioWriteEntries, List.append_assoc, List.append_assoc, List.length_cons, relistEntries]
      cases made : relist value with
      | none =>
          rw [made] at readValue
          simp [readEntries, bind, StateT.bind, readKey, readValue]
      | some again =>
          rw [made] at readValue
          rw [readEntries_turn readKey readValue asKey fresh later.length]
          cases inserted : mapinsert false map key again with
          | none =>
              cases relistEntries later <;> simp [insertAll, inserted]
          | some middle =>
              rw [Option.bind_some, onward]
              cases relistEntries later <;> simp [insertAll, inserted]

end

theorem dbioWriteNum_length (num : Num) : 0 < (dbioWriteNum num).length := by
  simp [dbioWriteNum]

mutual

theorem nesting_length : ∀ value : Var,
    nesting value ≤ (dbioWriteVar dbioWriteFloat dbWriteAnonymous writeWaif value).length
  | .list items => by
      have inside := nestingItems_length items
      have := dbioWriteNum_length (natNum items.length)
      simp only [nesting, dbioWriteVar, List.length_append]
      omega
  | .map entries => by
      have inside := nestingEntries_length entries
      have := dbioWriteNum_length (natNum entries.length)
      simp only [nesting, dbioWriteVar, List.length_append]
      omega
  | .int _ | .obj _ | .str _ | .err _ | .clear | .none | .catchMark _ | .finallyMark _
  | .float _ | .anon _ | .waif _ | .bool _ => by simp [nesting]

theorem nestingItems_length : ∀ items : List Var, nestingItems items ≤
    (dbioWriteItems dbioWriteFloat dbWriteAnonymous writeWaif items).length
  | [] => Nat.zero_le _
  | value :: later => by
      have := nesting_length value
      have := nestingItems_length later
      simp only [nestingItems, dbioWriteItems, List.length_append]
      omega

theorem nestingEntries_length : ∀ entries : List (Key × Var), nestingEntries entries ≤
    (dbioWriteEntries dbioWriteFloat dbWriteAnonymous writeWaif entries).length
  | [] => Nat.zero_le _
  | (key, value) :: later => by
      have := nesting_length value
      have := nestingEntries_length later
      simp only [nestingEntries, dbioWriteEntries, List.length_append]
      omega

end

/-! Whatever the file holds, no string that is read has a newline in it. -/

theorem asKey_free {value : Var} {key : Key} (same : asKey value = some key) (free : Free value) :
    FreeKey key := by
  cases key with
  | str str =>
      cases value <;> simp [asKey] at same
      obtain rfl := same
      exact free
  | int _ | obj _ | err _ | float _ | bool _ | anon _ | waif _ => trivial

theorem readItems_free {read : Reading Var}
    (free : ∀ input value rest, read input = some (value, rest) → Free value) {count : Nat}
    {input rest : CString} {items : List Var} (ran : readItems read count input = some (items, rest)) :
    EveryItem FreeHere items := by
  induction count generalizing input items rest with
  | zero =>
      obtain ⟨rfl, _⟩ := Prod.mk.inj (Option.some.inj ran)
      trivial
  | succ count ih =>
      obtain ⟨⟨value, middle⟩, first, ran⟩ := Option.bind_eq_some_iff.mp ran
      obtain ⟨⟨later, last⟩, second, ran⟩ := Option.bind_eq_some_iff.mp ran
      obtain ⟨rfl, _⟩ := Prod.mk.inj (Option.some.inj ran)
      exact ⟨free _ _ _ first, ih second⟩

theorem everyEntry_iff {P : Var → Prop} {entries : List (Key × Var)} :
    EveryEntry P entries ↔ ∀ entry ∈ entries, Everywhere P entry.2 := by
  induction entries with
  | nil => simp [EveryEntry]
  | cons entry rest ih =>
      obtain ⟨key, value⟩ := entry
      simp [EveryEntry, ih]

theorem readEntries_free {read : Reading Var}
    (free : ∀ input value rest, read input = some (value, rest) → Free value) {count : Nat}
    {shared : Bool} {input rest : CString} {map map' : RBTree Key Var}
    (fresh : shared = true → map = rbnew)
    (already : ∀ entry ∈ map.bindings, FreeKey entry.1 ∧ Free entry.2)
    (ran : readEntries read count shared map input = some (map', rest)) :
    ∀ entry ∈ map'.bindings, FreeKey entry.1 ∧ Free entry.2 := by
  induction count generalizing input shared map with
  | zero =>
      obtain ⟨rfl, _⟩ := Prod.mk.inj (Option.some.inj ran)
      exact already
  | succ count ih =>
      obtain ⟨⟨keyVar, middle⟩, first, ran⟩ := Option.bind_eq_some_iff.mp ran
      obtain ⟨⟨value, last⟩, second, ran⟩ := Option.bind_eq_some_iff.mp ran
      obtain ⟨⟨key, _⟩, third, ran⟩ := Option.bind_eq_some_iff.mp ran
      obtain ⟨key', isKey, same⟩ := Option.map_eq_some_iff.mp third
      obtain ⟨rfl, rfl⟩ := Prod.mk.inj same
      obtain ⟨⟨middleMap, _⟩, fourth, ran⟩ := Option.bind_eq_some_iff.mp ran
      obtain ⟨map'', inserted, same⟩ := Option.map_eq_some_iff.mp fourth
      obtain ⟨rfl, rfl⟩ := Prod.mk.inj same
      have unshared := (mapinsert_shared fresh key' value).symm.trans inserted
      refine ih ?_ (fun entry member => ?_) (show readEntries read count false map'' last = _ from ran)
      · nofun
      · rcases mapinsert_entries unshared entry member with rfl | old
        · exact ⟨asKey_free isKey (free _ _ _ first), free _ _ _ second⟩
        · exact already entry old

theorem made_free {α : Type} {read : Reading α} {make : α → Var} {input rest : CString}
    {value : Var} (ran : (do return make (← read) : Reading Var) input = some (value, rest))
    (free : ∀ a input rest, read input = some (a, rest) → Free (make a)) : Free value := by
  obtain ⟨⟨a, middle⟩, first, ran⟩ := Option.bind_eq_some_iff.mp ran
  obtain ⟨rfl, _⟩ := Prod.mk.inj (Option.some.inj ran)
  exact free _ _ _ first

theorem readVar_free {fuel : Nat} {input rest : CString} {value : Var}
    (ran : readVar dbioReadFloat dbReadAnonymous readWaif fuel input = some (value, rest)) :
    Free value := by
  induction fuel generalizing input value rest with
  | zero => cases ran
  | succ fuel ih =>
      obtain ⟨⟨type, middle⟩, _, ran⟩ := Option.bind_eq_some_iff.mp ran
      cases type with
      | none =>
          obtain ⟨rfl, _⟩ := Prod.mk.inj (Option.some.inj ran)
          trivial
      | some type =>
          cases type with
          | clear | none =>
              obtain ⟨rfl, _⟩ := Prod.mk.inj (Option.some.inj ran)
              trivial
          | str => exact made_free ran fun _ _ _ read => dbioReadString_free read
          | obj | err | int | catchMark | finallyMark | float | anon | waif | bool =>
              exact made_free ran fun _ _ _ _ => trivial
          | iter => exact ih ran
          | map =>
              obtain ⟨⟨l, counted⟩, _, ran⟩ := Option.bind_eq_some_iff.mp ran
              refine made_free ran ?_
              intro map input rest read
              have entries := readEntries_free (fun _ _ _ => ih) (fun _ => rfl)
                (by simp [RBTree.bindings, rbnew]) read
              exact ⟨fun entry member => (entries entry member).1,
                everyEntry_iff.mpr fun entry member => (entries entry member).2⟩
          | list =>
              obtain ⟨⟨l, counted⟩, _, ran⟩ := Option.bind_eq_some_iff.mp ran
              simp only at ran
              split at ran
              · cases ran
              · exact made_free ran fun _ _ _ read =>
                  ⟨trivial, readItems_free (fun _ _ _ => ih) read⟩

theorem dbioReadVar_written {value : Var} (storable : Storable value) (free : Free value)
    (rest : CString) :
    dbioReadVar dbioReadFloat dbReadAnonymous readWaif
        (dbioWriteVar dbioWriteFloat dbWriteAnonymous writeWaif value ++ rest) =
      (relist value).map (·, rest) := by
  have deep := nesting_length dbioWriteFloat dbWriteAnonymous writeWaif value
  refine readVar_written _ _ _ _ _ _ value _ rest storable free ?_
  simp only [List.length_append]
  omega

/-- A value is read back, and the position is at what follows it. -/
theorem dbioReadVar_written_iff {value : Var} (storable : Storable value) (rest : CString) :
    dbioReadVar dbioReadFloat dbReadAnonymous readWaif
        (dbioWriteVar dbioWriteFloat dbWriteAnonymous writeWaif value ++ rest) =
      some (value, rest) ↔ Free value ∧ relist value = some value := by
  constructor
  · intro again
    have free := readVar_free dbioReadFloat dbReadAnonymous readWaif again
    rw [dbioReadVar_written _ _ _ _ _ _ storable free] at again
    obtain ⟨value', made, same⟩ := Option.map_eq_some_iff.mp again
    obtain ⟨rfl, _⟩ := Prod.mk.inj same
    exact ⟨free, made⟩
  · rintro ⟨free, made⟩
    rw [dbioReadVar_written _ _ _ _ _ _ storable free, made, Option.map_some]

end

def listedMap : Var := .list [.map [(.str (ascii "key"), .int (natNum 7))], .bool true]

theorem listedMap_read : dbioReadVar failure failure failure
    (dbioWriteVar (fun _ => []) (fun _ => []) (fun _ => []) listedMap ++ ascii "0") =
      some (listedMap, ascii "0") := by
  have letters : 0 ∉ ascii "key" ∧ newline ∉ ascii "key" := by decide +kernel
  have storable : Storable listedMap :=
    ⟨by simp [StorableHere], ⟨⟨by simp, by simpa [StorableKey] using letters.1⟩, trivial, trivial⟩,
      trivial, trivial⟩
  have ordered : Ordered listedMap :=
    ⟨trivial, ⟨List.pairwise_singleton _ _, trivial, trivial⟩, trivial, trivial⟩
  have free : Free listedMap :=
    ⟨trivial, ⟨by simpa [FreeHere, FreeKey, NewlineFree] using letters.2, trivial, trivial⟩, trivial,
      trivial⟩
  exact (dbioReadVar_written_iff _ _ _ _ _ _ storable (ascii "0")).mpr
    ⟨free, relist_ordered listedMap storable ordered⟩

/-- A wizard's `chr("a", 10, "b")` is a string that is not read back. -/
theorem newline_not_read :
    (∀ limits, Binary.bfChr limits true [.str (ascii "a"), .int 10, .str (ascii "b")] =
      .ok (.value (ascii "a\nb"))) ∧
    Storable (.str (ascii "a\nb")) ∧
    dbioReadVar failure failure failure
      (dbioWriteVar (fun _ => []) (fun _ => []) (fun _ => []) (.str (ascii "a\nb")) ++ []) ≠
        some (.str (ascii "a\nb"), []) := by
  have storable : Storable (.str (ascii "a\nb")) := by
    change 0 ∉ ascii "a\nb"
    decide +kernel
  refine ⟨fun _ => rfl, storable, fun read => ?_⟩
  have free : Free (.str (ascii "a\nb")) :=
    ((dbioReadVar_written_iff _ _ _ _ _ _ storable []).mp read).1
  have broken : newline ∈ ascii "a\nb" := by decide +kernel
  exact free broken

end ToastStunt.Dbio
