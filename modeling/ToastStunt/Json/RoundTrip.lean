import Mathlib.Algebra.Order.BigOperators.Group.List
import Mathlib.Algebra.Order.Ring.Nat
import ToastStunt.Json.Wire
import ToastStunt.Library.Failing
import ToastStunt.Maps.Rebuilding

/-!
What `parse_json` makes of the text of `generate_json`, over every value.
-/

namespace ToastStunt.Json

open Maps RedBlack ColorTree

/-! Maps put together again. -/

mutual

/-- The value after each of its maps, inner ones first, has been made anew from its bindings, the
last of them first. -/
def relist : Value → Option Value
  | .list items => (relistItems items).map .list
  | .map entries => do
      let entries ← relistEntries entries
      (rebuild entries.reverse).map fun map => .map map.bindings
  | value => some value

def relistItems : List Value → Option (List Value)
  | [] => some []
  | value :: rest => do
      let value ← relist value
      let rest ← relistItems rest
      some (value :: rest)

def relistEntries : List (Key × Value) → Option (List (Key × Value))
  | [] => some []
  | (key, value) :: rest => do
      let value ← relist value
      let rest ← relistEntries rest
      some ((key, value) :: rest)

end

theorem PlainKey.isNumber {key : Key} (plain : PlainKey key) : key.isNumber := by
  cases key <;> trivial

theorem rebuild_ascending {entries : List (Key × Value)}
    (plain : ∀ entry ∈ entries, PlainKey entry.1)
    (ascending : OrderedHere (.map entries)) :
    ∃ map, rebuild entries.reverse = some map ∧ map.bindings = entries := by
  have whole : entries.reverse.reverse ++ rbnew.bindings = entries := by
    simp [RBTree.bindings, rbnew]
  obtain ⟨map, built, bindings⟩ := insertAll_descending Sound.new
    (fun entry member => (plain entry (List.mem_reverse.mp member)).isNumber)
    (whole.symm ▸ ascending)
  exact ⟨map, built, bindings.trans whole⟩

mutual

theorem relist_ordered : ∀ value : Value, Plain value → Ordered value → relist value = some value
  | .list items, plain, ordered => by
      simp [relist, relistItems_ordered items plain.2 ordered.2]
  | .map entries, plain, ordered => by
      obtain ⟨map, built, bindings⟩ := rebuild_ascending plain.1 ordered.1
      simp [relist, relistEntries_ordered entries plain.2 ordered.2, built, bindings]
  | .int _, _, _ => rfl
  | .obj _, _, _ => rfl
  | .err _, _, _ => rfl
  | .str _, _, _ => rfl
  | .bool _, _, _ => rfl
  | .float _, _, _ => rfl
  | .anon _, _, _ => rfl
  | .waif _, _, _ => rfl

theorem relistItems_ordered : ∀ items : List Value, EveryItem PlainHere items →
    EveryItem OrderedHere items → relistItems items = some items
  | [], _, _ => rfl
  | value :: rest, plain, ordered => by
      simp [relistItems, relist_ordered value plain.1 ordered.1,
        relistItems_ordered rest plain.2 ordered.2]

theorem relistEntries_ordered : ∀ entries : List (Key × Value), EveryEntry PlainHere entries →
    EveryEntry OrderedHere entries → relistEntries entries = some entries
  | [], _, _ => rfl
  | (key, value) :: rest, plain, ordered => by
      simp [relistEntries, relist_ordered value plain.1 ordered.1,
        relistEntries_ordered rest plain.2 ordered.2]

end

theorem ordered_of_comparable {map : RBTree Key Value}
    (well : Maps.WellFormed (Maps.compare false) map) (numbers : ∀ key ∈ map.keys, key.isNumber)
    (comparable : ∀ a ∈ map.keys, ∀ b ∈ map.keys, Comparable a b) :
    OrderedHere (.map map.bindings) :=
  well.sorted.imp_of_mem fun memberFirst memberSecond less =>
    (compare_flip (numbers _ (mem_keys memberFirst)) (numbers _ (mem_keys memberSecond))
      (comparable _ (mem_keys memberFirst) _ (mem_keys memberSecond))).mp less

/-! Taking values off the stack. -/

def ofKey : Key → Value
  | .int num => .int num
  | .obj obj => .obj obj
  | .str str => .str str
  | .err err => .err err
  | .float fnum => .float fnum
  | .bool truth => .bool truth
  | .anon anon => .anon anon
  | .waif waif => .waif waif

theorem asKey_ofKey (key : Key) : asKey (ofKey key) = .ok key := by cases key <;> rfl

theorem popItems_items (items : List Value) (stack : List StackItem) (list : List Value) :
    popItems (items.map .value ++ .arraySentinel :: stack) list =
      .ok (items.reverse ++ list, stack) := by
  induction items generalizing list with
  | nil => rfl
  | cons item rest ih => simp [popItems, ih]

def stacked (entry : Key × Value) : List StackItem := [.value entry.2, .value (ofKey entry.1)]

theorem mapinsert_shared {shared : Bool} {map : RBTree Key Value}
    (fresh : shared = true → map = rbnew) (key : Key) (value : Value) :
    mapinsert shared map key value = mapinsert false map key value := by
  cases shared with
  | false => rfl
  | true => rw [fresh rfl, mapinsert_new]

theorem popEntries_entries (entries : List (Key × Value)) {map : RBTree Key Value}
    {shared : Bool} (fresh : shared = true → map = rbnew) (stack : List StackItem) :
    popEntries (entries.flatMap stacked ++ .mapSentinel :: .mapSentinel :: stack) shared map =
      match insertAll map entries with
      | some map => .ok (map, stack)
      | none => .error .undefined := by
  induction entries generalizing map shared with
  | nil => rfl
  | cons entry rest ih =>
      have inserted := mapinsert_shared fresh entry.1 entry.2
      cases made : mapinsert false map entry.1 entry.2 with
      | none => simp [stacked, popEntries, asKey_ofKey, inserted, made, insertAll, bind, Except.bind]
      | some map' =>
          have later := @ih map' false (by simp)
          simpa [stacked, popEntries, asKey_ofKey, inserted, made, insertAll, bind, Except.bind]
            using later

section

variable (strtod : CString → Option Double)

theorem handleString_keyText {key : Key} (plain : PlainKey key) :
    handleString strtod .embeddedTypes (keyText key) = ofKey key := by
  cases key with
  | obj obj => exact handleString_obj strtod obj
  | int num => exact handleString_int strtod num
  | err err => exact handleString_err strtod err
  | str str => exact handleString_str strtod str
  | float _ => exact plain.elim
  | bool _ => exact plain.elim
  | anon _ => exact plain.elim
  | waif _ => exact plain.elim

/-! The parser's run over the text of a value without the least integer. -/

def proceed (maxDepth : Int) (rest : List Event) (depth : Nat) :
    Option (List StackItem) → Except Crash (Option ParseContext)
  | some stack => parseEvents strtod .embeddedTypes maxDepth rest ⟨stack, depth⟩
  | none => .error .undefined

variable {maxDepth : Int}

theorem parseEvents_startArray (rest : List Event) {pctx : ParseContext}
    (shallow : (pctx.depth : Int) < maxDepth) :
    parseEvents strtod .embeddedTypes maxDepth (.startArray :: rest) pctx =
      parseEvents strtod .embeddedTypes maxDepth rest
        ⟨.arraySentinel :: pctx.stack, pctx.depth + 1⟩ := by
  simp [parseEvents, handle, bind, Except.bind, Int.not_le.mpr shallow]

theorem parseEvents_startMap (rest : List Event) {pctx : ParseContext}
    (shallow : (pctx.depth : Int) < maxDepth) :
    parseEvents strtod .embeddedTypes maxDepth (.startMap :: rest) pctx =
      parseEvents strtod .embeddedTypes maxDepth rest
        ⟨.mapSentinel :: .mapSentinel :: pctx.stack, pctx.depth + 1⟩ := by
  simp [parseEvents, handle, bind, Except.bind, Int.not_le.mpr shallow]

theorem parseEvents_endArray (rest : List Event) (items : List Value) (stack : List StackItem)
    (depth : Nat) :
    parseEvents strtod .embeddedTypes maxDepth (.endArray :: rest)
        ⟨(items.map .value).reverse ++ .arraySentinel :: stack, depth + 1⟩ =
      parseEvents strtod .embeddedTypes maxDepth rest ⟨.value (.list items) :: stack, depth⟩ := by
  have popped := popItems_items items.reverse stack []
  rw [List.map_reverse, List.reverse_reverse, List.append_nil] at popped
  simp [parseEvents, handle, bind, Except.bind, popped]

theorem parseEvents_endMap (maxDepth : Int) (rest : List Event) (entries : List (Key × Value))
    (stack : List StackItem) (depth : Nat) :
    parseEvents strtod .embeddedTypes maxDepth (.endMap :: rest)
        ⟨entries.reverse.flatMap stacked ++ .mapSentinel :: .mapSentinel :: stack, depth + 1⟩ =
      proceed strtod maxDepth rest depth
        ((rebuild entries.reverse).map fun map => .value (.map map.bindings) :: stack) := by
  have fresh : true = true → (rbnew : RBTree Key Value) = rbnew := fun _ => rfl
  have popped := popEntries_entries entries.reverse fresh stack
  rw [← rebuild] at popped
  cases made : rebuild entries.reverse with
  | none => simp [parseEvents, handle, bind, Except.bind, popped, made, proceed]
  | some map => simp [parseEvents, handle, bind, Except.bind, popped, made, proceed]

mutual

theorem parseEvents_wire : ∀ (value : Value) (rest : List Event) (pctx : ParseContext),
    Plain value → AboveMinimum value → (pctx.depth + nesting value : Int) ≤ maxDepth →
    parseEvents strtod .embeddedTypes maxDepth (wire value ++ rest) pctx =
      proceed strtod maxDepth rest pctx.depth
        ((relist value).map fun value => .value value :: pctx.stack)
  | .list items, rest, pctx, plain, above, shallow => by
      simp only [nesting] at shallow
      have inside := parseEvents_items items (.endArray :: rest)
        ⟨.arraySentinel :: pctx.stack, pctx.depth + 1⟩ plain.2 above.2
        (by simp only; omega)
      simp only [wire, List.cons_append, List.append_assoc, List.nil_append]
      rw [parseEvents_startArray strtod _ (by omega), inside]
      cases made : relistItems items with
      | none => simp [relist, made, proceed]
      | some again => simp [relist, made, proceed, ← parseEvents_endArray]
  | .map entries, rest, pctx, plain, above, shallow => by
      simp only [nesting] at shallow
      have inside := parseEvents_entries entries (.endMap :: rest)
        ⟨.mapSentinel :: .mapSentinel :: pctx.stack, pctx.depth + 1⟩ plain.1 plain.2 above.2
        (by simp only; omega)
      simp only [wire, List.cons_append, List.append_assoc, List.nil_append]
      rw [parseEvents_startMap strtod _ (by omega), inside]
      cases made : relistEntries entries with
      | none => simp [relist, made, proceed]
      | some again =>
          have ended := parseEvents_endMap strtod maxDepth rest again pctx.stack pctx.depth
          simpa [relist, made, proceed, Option.map_bind, Function.comp_def] using ended
  | .int num, rest, pctx, _, above, _ => by
      have read : handleNumber strtod true (intLiteral num) = some (.int num) :=
        (handleNumber_intLiteral strtod num).trans (if_pos above)
      simp [wire, parseEvents, handle, bind, Except.bind, relist, read, proceed]
  | .obj obj, rest, pctx, _, _, _ => by
      simp [wire, parseEvents, handle, bind, Except.bind, relist, proceed, handleString_obj]
  | .err err, rest, pctx, _, _, _ => by
      simp [wire, parseEvents, handle, bind, Except.bind, relist, proceed, handleString_err]
  | .str str, rest, pctx, _, _, _ => by
      simp [wire, parseEvents, handle, bind, Except.bind, relist, proceed, handleString_str]
  | .bool truth, rest, pctx, _, _, _ => by
      simp [wire, parseEvents, handle, bind, Except.bind, relist, proceed]
  | .float _, _, _, plain, _, _ => plain.elim
  | .anon _, _, _, plain, _, _ => plain.elim
  | .waif _, _, _, plain, _, _ => plain.elim

theorem parseEvents_items : ∀ (items : List Value) (rest : List Event) (pctx : ParseContext),
    EveryItem PlainHere items → EveryItem AboveHere items →
    (pctx.depth + nestingItems items : Int) ≤ maxDepth →
    parseEvents strtod .embeddedTypes maxDepth (wireItems items ++ rest) pctx =
      proceed strtod maxDepth rest pctx.depth
        ((relistItems items).map fun items =>
          (items.map StackItem.value).reverse ++ pctx.stack)
  | [], _, _, _, _, _ => rfl
  | value :: later, rest, pctx, plain, above, shallow => by
      simp only [nestingItems] at shallow
      have first := parseEvents_wire value (wireItems later ++ rest) pctx plain.1 above.1
        (by omega)
      rw [wireItems, List.append_assoc, first]
      cases made : relist value with
      | none => simp [relistItems, made, proceed]
      | some again =>
          have second := parseEvents_items later rest ⟨.value again :: pctx.stack, pctx.depth⟩
            plain.2 above.2 (by simp only; omega)
          simp only [proceed, Option.map_some, second]
          cases madeLater : relistItems later with
          | none => simp [relistItems, made, madeLater]
          | some againLater => simp [relistItems, made, madeLater]

theorem parseEvents_entries : ∀ (entries : List (Key × Value)) (rest : List Event)
    (pctx : ParseContext), (∀ entry ∈ entries, PlainKey entry.1) → EveryEntry PlainHere entries →
    EveryEntry AboveHere entries → (pctx.depth + nestingEntries entries : Int) ≤ maxDepth →
    parseEvents strtod .embeddedTypes maxDepth (wireEntries entries ++ rest) pctx =
      proceed strtod maxDepth rest pctx.depth
        ((relistEntries entries).map fun entries =>
          entries.reverse.flatMap stacked ++ pctx.stack)
  | [], _, _, _, _, _, _ => rfl
  | (key, value) :: later, rest, pctx, keys, plain, above, shallow => by
      simp only [nestingEntries] at shallow
      have named := handleString_keyText strtod (keys (key, value) (by simp))
      have first := parseEvents_wire value (wireEntries later ++ rest)
        ⟨.value (ofKey key) :: pctx.stack, pctx.depth⟩ plain.1 above.1 (by simp only; omega)
      simp only [wireEntries, List.cons_append, List.append_assoc]
      rw [parseEvents]
      simp only [handle, bind, Except.bind, named, first]
      cases made : relist value with
      | none => simp [relistEntries, made, proceed]
      | some again =>
          have second := parseEvents_entries later rest
            ⟨.value again :: .value (ofKey key) :: pctx.stack, pctx.depth⟩
            (fun entry member => keys entry (by simp [member])) plain.2 above.2
            (by simp only; omega)
          simp only [proceed, Option.map_some, second]
          cases madeLater : relistEntries later with
          | none => simp [relistEntries, made, madeLater]
          | some againLater => simp [relistEntries, made, madeLater, stacked]

end

theorem bfParseJson_wire {value : Value} (plain : Plain value) (above : AboveMinimum value)
    (shallow : (nesting value : Int) ≤ maxDepth) :
    bfParseJson strtod .embeddedTypes maxDepth (wire value) =
      match relist value with
      | some value => .ok (some value)
      | none => .error .undefined := by
  have parsed := parseEvents_wire strtod value [] ⟨[], 0⟩ plain above (by simpa using shallow)
  rw [List.append_nil] at parsed
  cases made : relist value with
  | none => simp [bfParseJson, parsed, made, proceed, bind, Except.bind]
  | some again => simp [bfParseJson, parsed, made, proceed, bind, Except.bind, parseEvents]

/-! What a text can lose: a boolean that is false, and the least integer. -/

def least (num : Num) : Nat := if num.val < minint then 1 else 0

def frailKey : Key → Nat
  | .int num => least num
  | .bool truth => if truth then 0 else 1
  | _ => 0

mutual

/-- How many booleans that are false and integers -2^63 are in the value, keys included. -/
def frail : Value → Nat
  | .int num => least num
  | .bool truth => if truth then 0 else 1
  | .list items => frailItems items
  | .map entries => frailEntries entries
  | _ => 0

def frailItems : List Value → Nat
  | [] => 0
  | value :: rest => frail value + frailItems rest

def frailEntries : List (Key × Value) → Nat
  | [] => 0
  | (key, value) :: rest => frailKey key + frail value + frailEntries rest

end

def frailEvent : Event → Nat
  | .boolean truth => if truth then 0 else 1
  | .string text => frail (handleString strtod .embeddedTypes text)
  | _ => 0

def frailEvents (events : List Event) : Nat := (events.map (frailEvent strtod)).sum

def frailStack : List StackItem → Nat
  | [] => 0
  | .value value :: rest => frail value + frailStack rest
  | _ :: rest => frailStack rest

theorem frailEntries_sum (entries : List (Key × Value)) :
    frailEntries entries = (entries.map fun entry => frailKey entry.1 + frail entry.2).sum := by
  induction entries with
  | nil => rfl
  | cons entry rest ih => rw [frailEntries, ih, List.map_cons, List.sum_cons]

theorem frailEntries_subperm {entries others : List (Key × Value)}
    (fewer : entries.Subperm others) : frailEntries entries ≤ frailEntries others := by
  obtain ⟨middle, same, inside⟩ := fewer
  rw [frailEntries_sum, frailEntries_sum, ← (same.map _).sum_nat]
  exact (inside.map _).sum_le_sum fun _ _ => Nat.zero_le _

theorem frail_handleNumber {integer : Bool} {text : CString} {value : Value}
    (read : handleNumber strtod integer text = some value) : frail value = 0 := by
  unfold handleNumber at read
  split at read
  rename_i num range
  split at read
  · rename_i inRange
    obtain rfl := Option.some.inj read
    simp only [Bool.and_eq_true, decide_eq_true_eq] at inRange
    simp [frail, least, Int.not_lt.mpr inRange.1.2]
  · obtain ⟨fnum, _, rfl⟩ := Option.map_eq_some_iff.mp read
    simp [frail]

theorem popItems_frail {stack rest : List StackItem} {items items' : List Value}
    (popped : popItems stack items = .ok (items', rest)) :
    frailItems items' + frailStack rest = frailItems items + frailStack stack := by
  induction stack generalizing items with
  | nil => cases popped
  | cons top below ih =>
      cases top with
      | value value =>
          have later := ih popped
          simp only [frailItems, frailStack] at later ⊢
          omega
      | arraySentinel =>
          obtain ⟨rfl, rfl⟩ := Prod.mk.inj (Except.ok.inj popped)
          simp [frailStack]
      | mapSentinel =>
          obtain ⟨rfl, rfl⟩ := Prod.mk.inj (Except.ok.inj popped)
          simp [frailStack]

theorem frail_of_asKey {value : Value} {key : Key} (named : asKey value = .ok key) :
    frail value = frailKey key := by
  cases value <;> cases named <;> simp [frail, frailKey]

theorem popEntries_frail {stack rest : List StackItem} {shared : Bool}
    {map map' : RBTree Key Value} (fresh : shared = true → map = rbnew) (apart : Apart map)
    (popped : popEntries stack shared map = .ok (map', rest)) :
    frailEntries map'.bindings + frailStack rest ≤
      frailEntries map.bindings + frailStack stack := by
  fun_induction popEntries stack shared map with
  | case1 value key below shared map ih =>
      obtain ⟨name, named, popped⟩ := Failing.bind_ok popped
      split at popped
      · rename_i inserted
        rw [mapinsert_shared fresh] at inserted
        obtain ⟨fewer, apart'⟩ := mapinsert_subperm apart inserted
        have later := ih _ (by simp) apart' popped
        have atMost := frailEntries_subperm fewer
        simp only [frailEntries, frailStack, frail_of_asKey named] at later atMost ⊢
        omega
      · cases popped
  | case2 item rest shared map =>
      obtain ⟨rfl, rfl⟩ := Prod.mk.inj (Except.ok.inj popped)
      cases item <;> simp only [frailStack] <;> omega
  | case3 item rest shared map =>
      obtain ⟨rfl, rfl⟩ := Prod.mk.inj (Except.ok.inj popped)
      cases item <;> simp only [frailStack] <;> omega
  | case4 => cases popped

theorem handle_frail {event : Event} {pctx pctx' : ParseContext}
    (ran : handle strtod .embeddedTypes maxDepth event pctx = .ok (some pctx')) :
    frailStack pctx'.stack ≤ frailStack pctx.stack + frailEvent strtod event := by
  cases event with
  | null =>
      obtain rfl := Option.some.inj (Except.ok.inj ran)
      simp [frailStack, frail]
  | boolean truth =>
      obtain rfl := Option.some.inj (Except.ok.inj ran)
      simp [frailStack, frail, frailEvent, Nat.add_comm]
  | number integer text =>
      obtain ⟨value, read, rfl⟩ := Option.map_eq_some_iff.mp (Except.ok.inj ran)
      simp [frailStack, frail_handleNumber strtod read]
  | string text =>
      obtain rfl := Option.some.inj (Except.ok.inj ran)
      simp [frailStack, frailEvent, Nat.add_comm]
  | startMap =>
      rw [handle] at ran
      split at ran
      · cases ran
      · obtain rfl := Option.some.inj (Except.ok.inj ran)
        simp [frailStack]
  | startArray =>
      rw [handle] at ran
      split at ran
      · cases ran
      · obtain rfl := Option.some.inj (Except.ok.inj ran)
        simp [frailStack]
  | endMap =>
      obtain ⟨⟨map, rest⟩, popped, ran⟩ := Failing.bind_ok ran
      obtain rfl := Option.some.inj (Except.ok.inj ran)
      have kept := popEntries_frail (fun _ => rfl) List.nodup_nil popped
      simpa [frailStack, frail, frailEvent, frailEntries, RBTree.bindings, rbnew] using kept
  | endArray =>
      obtain ⟨⟨list, rest⟩, popped, ran⟩ := Failing.bind_ok ran
      obtain rfl := Option.some.inj (Except.ok.inj ran)
      have kept := popItems_frail popped
      simp only [frailItems] at kept
      simp only [frailStack, frail]
      omega

theorem parseEvents_frail {events : List Event} {pctx pctx' : ParseContext}
    (ran : parseEvents strtod .embeddedTypes maxDepth events pctx = .ok (some pctx')) :
    frailStack pctx'.stack ≤ frailStack pctx.stack + frailEvents strtod events := by
  induction events generalizing pctx with
  | nil =>
      obtain rfl := Option.some.inj (Except.ok.inj ran)
      simp
  | cons event rest ih =>
      obtain ⟨next, handled, ran⟩ := Failing.bind_ok ran
      cases next with
      | none => cases ran
      | some next =>
          have here := handle_frail strtod handled
          have later := ih ran
          simp only [frailEvents, List.map_cons, List.sum_cons] at later ⊢
          omega

theorem bfParseJson_frail {events : List Event} {value : Value}
    (ran : bfParseJson strtod .embeddedTypes maxDepth events = .ok (some value)) :
    frail value ≤ frailEvents strtod events := by
  obtain ⟨parsed, run, ran⟩ := Failing.bind_ok ran
  rcases parsed with _ | ⟨stack, depth⟩
  · cases ran
  · rcases stack with _ | ⟨top, rest⟩
    · cases ran
    · cases top with
      | value last =>
          obtain rfl := Option.some.inj (Except.ok.inj ran)
          have kept := parseEvents_frail strtod run
          simp only [frailStack] at kept
          omega
      | arraySentinel => cases ran
      | mapSentinel => cases ran

theorem frailEvents_append (first second : List Event) :
    frailEvents strtod (first ++ second) = frailEvents strtod first + frailEvents strtod second := by
  simp [frailEvents]

theorem frailEvents_cons (event : Event) (rest : List Event) :
    frailEvents strtod (event :: rest) = frailEvent strtod event + frailEvents strtod rest := by
  simp [frailEvents]

theorem frail_ofKey (key : Key) : frail (ofKey key) = frailKey key := by
  cases key <;> simp [frail, frailKey, ofKey]

mutual

theorem frail_wire : ∀ value : Value, Plain value →
    frailEvents strtod (wire value) ≤ frail value ∧
      (frail value ≤ frailEvents strtod (wire value) → AboveMinimum value)
  | .list items, plain => by
      obtain ⟨less, above⟩ := frailItems_wire items plain.2
      simp only [wire, List.cons_append, frailEvents_cons, frailEvents_append, frail]
      simp only [frailEvent, frailEvents, List.map_nil, List.sum_nil, Nat.zero_add] at less above ⊢
      exact ⟨less, fun atMost => ⟨trivial, above atMost⟩⟩
  | .map entries, plain => by
      obtain ⟨less, above⟩ := frailEntries_wire entries plain.1 plain.2
      simp only [wire, List.cons_append, frailEvents_cons, frailEvents_append, frail]
      simp only [frailEvent, frailEvents, List.map_nil, List.sum_nil, Nat.zero_add] at less above ⊢
      exact ⟨less, fun atMost => ⟨trivial, above atMost⟩⟩
  | .int num, _ => by
      refine ⟨by simp [wire, frailEvents, frailEvent], fun atMost => ?_⟩
      simp only [wire, frailEvents, frailEvent, frail, least, List.map_cons, List.map_nil,
        List.sum_cons, List.sum_nil] at atMost
      split at atMost
      · omega
      · exact Int.not_lt.mp ‹_›
  | .obj obj, _ => by
      simp [wire, frailEvents, frailEvent, handleString_obj, frail, AboveMinimum, Everywhere,
        AboveHere]
  | .err err, _ => by
      simp [wire, frailEvents, frailEvent, handleString_err, frail, AboveMinimum, Everywhere,
        AboveHere]
  | .str str, _ => by
      simp [wire, frailEvents, frailEvent, handleString_str, frail, AboveMinimum, Everywhere,
        AboveHere]
  | .bool truth, _ => by
      simp [wire, frailEvents, frailEvent, frail, AboveMinimum, Everywhere, AboveHere]
  | .float _, plain => plain.elim
  | .anon _, plain => plain.elim
  | .waif _, plain => plain.elim

theorem frailItems_wire : ∀ items : List Value, EveryItem PlainHere items →
    frailEvents strtod (wireItems items) ≤ frailItems items ∧
      (frailItems items ≤ frailEvents strtod (wireItems items) → EveryItem AboveHere items)
  | [], _ => ⟨Nat.le_refl _, fun _ => trivial⟩
  | value :: rest, plain => by
      obtain ⟨less, above⟩ := frail_wire value plain.1
      obtain ⟨lessRest, aboveRest⟩ := frailItems_wire rest plain.2
      rw [wireItems, frailEvents_append, frailItems]
      exact ⟨Nat.add_le_add less lessRest, fun atMost =>
        ⟨above (by omega), aboveRest (by omega)⟩⟩

theorem frailEntries_wire : ∀ entries : List (Key × Value),
    (∀ entry ∈ entries, PlainKey entry.1) → EveryEntry PlainHere entries →
    frailEvents strtod (wireEntries entries) ≤ frailEntries entries ∧
      (frailEntries entries ≤ frailEvents strtod (wireEntries entries) →
        EveryEntry AboveHere entries)
  | [], _, _ => ⟨Nat.le_refl _, fun _ => trivial⟩
  | (key, value) :: rest, keys, plain => by
      obtain ⟨less, above⟩ := frail_wire value plain.1
      obtain ⟨lessRest, aboveRest⟩ := frailEntries_wire rest
        (fun entry member => keys entry (by simp [member])) plain.2
      have named : frailEvent strtod (.string (keyText key)) = frailKey key := by
        rw [frailEvent, handleString_keyText strtod (keys (key, value) (by simp)), frail_ofKey]
      rw [wireEntries, List.cons_append, frailEvents_cons, named, frailEvents_append, frailEntries]
      exact ⟨by omega, fun atMost => ⟨above (by omega), aboveRest (by omega)⟩⟩

end

/-! What the generator is given for a boolean. -/

theorem genBool_true (padding : BitVec 56) : genBool true padding = true := by
  rw [genBool, bne_iff_ne]
  intro zero
  have bit := congrArg (fun bits => bits.getLsbD 0) zero
  simp [boolNum] at bit

section

variable (padding : Nat → BitVec 56)

theorem frail_written (n : Nat) (events : List Event) :
    frailEvents strtod (written padding n events) ≤ frailEvents strtod events ∧
      (frailEvents strtod events ≤ frailEvents strtod (written padding n events) →
        written padding n events = events) := by
  induction events generalizing n with
  | nil => exact ⟨Nat.le_refl _, fun _ => rfl⟩
  | cons event rest ih =>
      have here : frailEvent strtod (writtenAs padding n event) ≤ frailEvent strtod event ∧
          (frailEvent strtod event ≤ frailEvent strtod (writtenAs padding n event) →
            writtenAs padding n event = event) := by
        cases event with
        | boolean truth =>
            cases truth with
            | true => simp [frailEvent, genBool_true]
            | false => cases given : genBool false (padding n) <;> simp [frailEvent, given]
        | _ => exact ⟨Nat.le_refl _, fun _ => rfl⟩
      obtain ⟨less, same⟩ := ih (n + 1)
      rw [written, frailEvents_cons, frailEvents_cons]
      exact ⟨by omega, fun atMost => by rw [here.2 (by omega), same (by omega)]⟩

theorem written_same_iff (n : Nat) (events : List Event) :
    written padding n events = events ↔
      ∀ i, events[i]? = some (.boolean false) → genBool false (padding (n + i)) = false := by
  induction events generalizing n with
  | nil => simp
  | cons event rest ih =>
      have here : writtenAs padding n event = event ↔
          (event = .boolean false → genBool false (padding n) = false) := by
        cases event with
        | boolean truth => cases truth <;> simp [genBool_true]
        | _ => simp
      rw [written, List.cons_eq_cons, here, ih]
      constructor
      · rintro ⟨first, later⟩ i place
        cases i with
        | zero => exact first (Option.some.inj place)
        | succ i => simpa [Nat.add_assoc, Nat.add_comm 1] using later i place
      · intro all
        refine ⟨fun same => all 0 (congrArg some same), fun i place => ?_⟩
        simpa [Nat.add_assoc, Nat.add_comm 1] using all (i + 1) place

/-- Where a boolean is false, the generator is given zero. -/
def FalsesKept (value : Value) : Prop :=
  ∀ n, (wire value)[n]? = some (.boolean false) → genBool false (padding n) = false

variable (floatLiteral : Double → CString) (floatText : Double → Option CString)

/-- `generate_json` succeeds, and `parse_json` gives the value back. -/
def RoundTrips (maxDepth : Int) (value : Value) : Prop :=
  ∃ text, bfGenerateJson floatLiteral floatText padding .embeddedTypes value = .ok (some text) ∧
    bfParseJson strtod .embeddedTypes maxDepth text = .ok (some value)

theorem roundTrips_iff {value : Value} (plain : Plain value)
    (shallow : (nesting value : Int) < maxDepth) :
    RoundTrips strtod padding floatLiteral floatText maxDepth value ↔
      AboveMinimum value ∧ FalsesKept padding value ∧ nesting value < yajlMaxDepth ∧
        relist value = some value := by
  have generates := bfGenerateJson_writes floatLiteral floatText padding plain
  have unchanged : written padding 0 (wire value) = wire value ↔ FalsesKept padding value := by
    simpa [FalsesKept] using written_same_iff padding 0 (wire value)
  constructor
  · rintro ⟨text, generated, again⟩
    rw [generates] at generated
    split at generated
    · rename_i fits
      obtain rfl := Option.some.inj (Except.ok.inj generated)
      have read := bfParseJson_frail strtod again
      obtain ⟨fewer, same⟩ := frail_written strtod padding 0 (wire value)
      obtain ⟨atMost, above⟩ := frail_wire strtod value plain
      have noLeast := above (by omega)
      have whole := same (by omega)
      rw [whole, bfParseJson_wire strtod plain noLeast (Int.le_of_lt shallow)] at again
      refine ⟨noLeast, unchanged.mp whole, fits, ?_⟩
      cases made : relist value with
      | none => simp [made] at again
      | some again' => simpa [made] using again
    · cases generated
  · rintro ⟨above, kept, fits, made⟩
    refine ⟨wire value, by rw [generates, if_pos fits, unchanged.mpr kept], ?_⟩
    rw [bfParseJson_wire strtod plain above (Int.le_of_lt shallow), made]

end

def typedText : Value :=
  .map [(.int ⟨1, by decide, by decide⟩, .list [.str (ascii "1|int"), .bool false])]

theorem roundTrips_typedText :
    RoundTrips (fun _ => none) (fun _ => 0) (fun _ => []) (fun _ => none) 1000 typedText := by
  have letters : IsAscii (ascii "1|int") := by
    unfold IsAscii
    decide +kernel
  have plain : Plain typedText :=
    ⟨by simp [PlainHere, PlainKey], ⟨trivial, letters, trivial, trivial⟩, trivial⟩
  have ordered : Ordered typedText :=
    ⟨by simp [OrderedHere], ⟨trivial, trivial, trivial, trivial⟩, trivial⟩
  have above : AboveMinimum typedText :=
    ⟨trivial, ⟨trivial, trivial, trivial, trivial⟩, trivial⟩
  have zero : genBool false 0 = false := by decide
  exact (roundTrips_iff _ _ _ _ plain (by decide)).mpr
    ⟨above, fun _ _ => zero, by decide, relist_ordered typedText plain ordered⟩

theorem leastInt_low : (-2 ^ 63 : Int) ≤ -2 ^ 63 := Int.le_refl _

theorem leastInt_high : (-2 ^ 63 : Int) < 2 ^ 63 := by decide

def leastInt : Num := ⟨-2 ^ 63, leastInt_low, leastInt_high⟩

theorem leastInt_not_roundTrips : Plain (.int leastInt) ∧ nesting (.int leastInt) < 1000 ∧
    bfGenerateJson (fun _ => []) (fun _ => none) (fun _ => 0) .embeddedTypes (.int leastInt) =
      .ok (some [.number true (ascii "-9223372036854775808")]) ∧
    ¬RoundTrips (fun _ => some 0xc3e0000000000000) (fun _ => 0) (fun _ => []) (fun _ => none) 1000
      (.int leastInt) := by
  have plain : Plain (.int leastInt) := trivial
  have text : intLiteral leastInt = ascii "-9223372036854775808" := by decide +kernel
  have generated : bfGenerateJson (fun _ => []) (fun _ => none) (fun _ => 0) .embeddedTypes
      (.int leastInt) = .ok (some [.number true (ascii "-9223372036854775808")]) := by
    rw [bfGenerateJson_writes _ _ _ plain, if_pos (by decide), wire, text]
    rfl
  refine ⟨plain, by decide, generated, ?_⟩
  rintro ⟨text', generated', again⟩
  rw [generated] at generated'
  obtain rfl := Option.some.inj (Except.ok.inj generated')
  have kept := bfParseJson_frail _ again
  exact absurd kept (by decide)

end

end ToastStunt.Json
