import ToastStunt.Execute.ForLoopTurns

/-!
For-loops visit exactly what was there when they were entered, whatever their bodies do and however
often the database is dumped and loaded.
-/

namespace ToastStunt.Loops

open Counting Dbio ToastStunt.Execute ToastStunt.Lists Maps Numbers OrderedTable RedBlack
open ColorTree Runs

/-! What is read back after a load. -/

section

variable {codecs : Codecs}

theorem readsBack_of_relist {value : Var} (storable : Storable value) (free : Dbio.Free value)
    (made : relist value = some value) : ReadsBack codecs value := by
  intro rest
  rw [Codecs.readVar, Codecs.writeVar, dbioReadVar_written _ _ _ _ _ _ storable free, made,
    Option.map_some]

theorem int_readsBack (num : Num) : ReadsBack codecs (.int num) :=
  readsBack_of_relist trivial trivial rfl

theorem obj_readsBack (obj : Num) : ReadsBack codecs (.obj obj) :=
  readsBack_of_relist trivial trivial rfl

theorem keyReadsBack_of_free {key : Key} (storable : StorableKey key) (free : FreeKey key) :
    KeyReadsBack codecs key := fun rest =>
  readVar_key codecs.dbioWriteFloat codecs.dbWriteAnonymous codecs.writeWaif codecs.dbioReadFloat
    codecs.dbReadAnonymous codecs.readWaif storable free _ rest

theorem readIter_none (rest : CString) :
    codecs.readIter (dbioWriteType .none ++ rest) = some (.none, rest) := by
  have read : codecs.readVar (dbioWriteType .none ++ rest) = some (.none, rest) :=
    readsBack_of_relist (show Storable .none from trivial) trivial rfl rest
  simp only [Codecs.readIter, bind, StateT.bind, read, Option.bind_some]
  rfl

theorem readIter_clear (rest : CString) :
    codecs.readIter (dbioWriteType .clear ++ rest) = some (.clear, rest) := by
  have read : codecs.readVar (dbioWriteType .clear ++ rest) = some (.clear, rest) :=
    readsBack_of_relist (show Storable .clear from trivial) trivial rfl rest
  simp only [Codecs.readIter, bind, StateT.bind, read, Option.bind_some]
  rfl

theorem readIter_key {key : Key} (back : KeyReadsBack codecs key) (rest : CString) :
    codecs.readIter (codecs.writeKey key ++ rest) = some (.key key, rest) := by
  obtain ⟨value, read, isKey⟩ := back rest
  simp only [Codecs.readIter, bind, StateT.bind, read, Option.bind_some]
  cases value with
  | none => cases isKey
  | clear => cases isKey
  | list | map | catchMark | finallyMark => cases isKey
  | int | obj | str | err | float | anon | waif | bool =>
      simp only [isKey]
      rfl

theorem readStr_back {str : CString} (back : ReadsBack codecs (.str str)) (rest : CString) :
    codecs.readValue (codecs.writeVar (.str str) ++ rest) = some (.str str, rest) := by
  have read := back rest
  have type : readType (codecs.writeVar (.str str) ++ rest) =
      some (some .str, dbioWriteString str ++ rest) := by
    rw [Codecs.writeVar, dbioWriteVar, List.append_assoc, readType_written]
  have inside : ∀ fuel, Dbio.readVar codecs.dbioReadFloat codecs.dbReadAnonymous codecs.readWaif
      (fuel + 1) (codecs.writeVar (.str str) ++ rest) =
        (dbioReadString (dbioWriteString str ++ rest)).map
          fun read => (.str read.1, read.2) := by
    intro fuel
    simp only [Dbio.readVar, bind, StateT.bind, type, Option.bind_some]
    cases dbioReadString (dbioWriteString str ++ rest) <;> rfl
  rw [Codecs.readVar, dbioReadVar, inside] at read
  obtain ⟨⟨text, after⟩, string, same⟩ := Option.map_eq_some_iff.mp read
  simp only [Prod.mk.injEq, Var.str.injEq] at same
  obtain ⟨rfl, rfl⟩ := same
  simp only [Codecs.readValue, type, Option.bind_some, Codecs.readStr, bind, StateT.bind,
    string]
  rfl

theorem readItems_back {items : List Var} (back : ∀ item ∈ items, ReadsBack codecs item)
    (rest : CString) :
    readItems codecs.readVar items.length (dbioWriteItems codecs.dbioWriteFloat
      codecs.dbWriteAnonymous codecs.writeWaif items ++ rest) = some (items, rest) := by
  induction items with
  | nil => rfl
  | cons item items ih =>
      have first := back item (by simp)
      have later := ih fun other member => back other (by simp [member])
      rw [dbioWriteItems, List.append_assoc, List.length_cons]
      simp only [readItems, bind, StateT.bind]
      rw [show dbioWriteVar codecs.dbioWriteFloat codecs.dbWriteAnonymous codecs.writeWaif item =
        codecs.writeVar item from rfl, first]
      simp only [Option.bind_some, later]
      rfl

theorem readList_back {items : List Var} (small : items.length < 2 ^ 31)
    (back : ∀ item ∈ items, ReadsBack codecs item) (rest : CString) :
    codecs.readValue (codecs.writeVar (.list items) ++ rest) =
      some (.block (.list items), rest) := by
  have positive : ¬(items.length : Int) < 0 := by omega
  rw [Codecs.writeVar, dbioWriteVar, List.append_assoc, List.append_assoc]
  simp only [Codecs.readValue, readType_written, Option.bind_some, Codecs.readList, bind,
    StateT.bind, readInt_written small, positive, if_false, Int.toNat_natCast, readItems_back back]
  rfl

theorem kept_size {Used : Key → Prop} {map : RBTree Key Var} (kept : Execute.Kept Used map) :
    map.size = map.bindings.length := by
  rw [kept.well.size, RBTree.bindings, List.length_map, inorder_length]

theorem readEntries_back {Used : Key → Prop} (order : TotalPreorder (compare false) Used)
    {entries : List (Key × Var)}
    (back : ∀ entry ∈ entries, KeyReadsBack codecs entry.1 ∧ ReadsBack codecs entry.2)
    (used : ∀ entry ∈ entries, Used entry.1) {map : RBTree Key Var} (kept : Execute.Kept Used map)
    (sorted : Sorted (compare false) (map.bindings ++ entries))
    (small : (map.bindings ++ entries).length < 2 ^ 31) (shared : Bool) (rest : CString) :
    ∃ map', readEntries codecs.readVar entries.length shared map (dbioWriteEntries
        codecs.dbioWriteFloat codecs.dbWriteAnonymous codecs.writeWaif entries ++ rest) =
        some (map', rest) ∧
      Execute.Kept Used map' ∧ map'.bindings = map.bindings ++ entries := by
  induction entries generalizing map shared with
  | nil => exact ⟨map, rfl, kept, (List.append_nil _).symm⟩
  | cons entry entries ih =>
      obtain ⟨key, value⟩ := entry
      obtain ⟨keyBack, valueBack⟩ := back (key, value) (by simp)
      have below : ∀ old ∈ map.bindings, compare false old.1 key < 0 := fun old member =>
        (List.pairwise_append.mp sorted).2.2 old member (key, value) (by simp)
      rw [List.length_append, List.length_cons] at small
      obtain ⟨middle, inserted, keptMiddle, bindings⟩ := kept.insert order
        (by rw [kept_size kept]; omega) shared value (used (key, value) (by simp))
      have appended : middle.bindings = map.bindings ++ [(key, value)] := by
        rw [bindings, ← List.append_nil map.bindings, put_between value below
          (fun _ member => absurd member List.not_mem_nil), List.append_nil]
      have split : map.bindings ++ (key, value) :: entries = middle.bindings ++ entries := by
        rw [appended, List.append_assoc]
        rfl
      obtain ⟨map', later, kept', whole⟩ := ih
        (fun other member => back other (by simp [member]))
        (fun other member => used other (by simp [member])) keptMiddle (split ▸ sorted)
        (by rw [← split, List.length_append, List.length_cons]; exact small) false
      refine ⟨map', ?_, kept', whole.trans split.symm⟩
      obtain ⟨keyVar, readKey, isKey⟩ := keyBack (codecs.writeVar value ++ (dbioWriteEntries
        codecs.dbioWriteFloat codecs.dbWriteAnonymous codecs.writeWaif entries ++ rest))
      rw [dbioWriteEntries, List.append_assoc, List.append_assoc, List.length_cons]
      change readEntries _ _ _ _ (codecs.writeKey key ++ (codecs.writeVar value ++ _)) = _
      simp only [readEntries, bind, StateT.bind, readKey, Option.bind_some, valueBack _, isKey,
        lift, Option.map_some, inserted, later]

theorem readMap_back {Used : Key → Prop} (order : TotalPreorder (compare false) Used)
    {map : RBTree Key Var} (kept : Execute.Kept Used map) (small : map.size < 2 ^ 31)
    (back : ∀ entry ∈ map.bindings, KeyReadsBack codecs entry.1 ∧ ReadsBack codecs entry.2)
    (rest : CString) :
    ∃ map', codecs.readValue (codecs.writeVar (.map map.bindings) ++ rest) =
        some (.block (.map map'), rest) ∧
      Execute.Kept Used map' ∧ map'.bindings = map.bindings := by
  rw [kept_size kept] at small
  obtain ⟨map', read, kept', same⟩ := readEntries_back order back kept.all kept_rbnew
    (by simpa [RBTree.bindings, rbnew] using kept.well.sorted)
    (by simpa [RBTree.bindings, rbnew] using small) true rest
  refine ⟨map', ?_, kept', by simpa [RBTree.bindings, rbnew] using same⟩
  rw [Codecs.writeVar, dbioWriteVar, List.append_assoc, List.append_assoc]
  simp only [Codecs.readValue, readType_written, Option.bind_some, Codecs.readMap, bind,
    StateT.bind, readInt_written small, Int.toNat_natCast, read]
  rfl

/-! Where the loop stands is read back too. -/

theorem atPosition_back {iter : Iter} {n : Nat} (stands : AtPosition iter n) (value : Value) :
    ∃ text, codecs.writeIter value iter = some text ∧
      ∀ rest, codecs.readIter (text ++ rest) = some (iter, rest) := by
  obtain ⟨num, start, _⟩ := stands
  cases iter with
  | none => exact ⟨_, rfl, readIter_none⟩
  | key key =>
      obtain rfl := Iter.key.inj start
      exact ⟨_, rfl, readIter_key (keyReadsBack_of_free trivial trivial)⟩
  | clear => cases start
  | iter trav => cases start

theorem atNode_back {map map' : RBTree Key Var} {iter : Iter} {entries : List (Key × Var)}
    (stands : AtNode map iter entries) (apart : (map.root.inorder.map Maps.Node.addr).Nodup)
    (same : map'.bindings = map.bindings)
    (back : ∀ entry ∈ map.bindings, KeyReadsBack codecs entry.1) :
    ∃ text, codecs.writeIter (.block (.map map)) iter = some text ∧
      ∀ rest, ∃ iter', codecs.readIter (text ++ rest) = some (iter', rest) ∧
        AtNode map' iter' entries := by
  cases stands with
  | start => exact ⟨_, rfl, fun rest => ⟨_, readIter_none rest, same ▸ .start⟩⟩
  | @key key value visited later split =>
      have isKey := back (key, value) (by simp [split])
      exact ⟨_, rfl, fun rest => ⟨_, readIter_key isKey rest, .key (same.trans split)⟩⟩
  | clear => exact ⟨_, rfl, fun rest => ⟨_, readIter_clear rest, .clear⟩⟩
  | @trav trav items reached =>
      obtain ⟨trav', followed, reached'⟩ := reached.at_pointers apart
      cases items with
      | nil =>
          refine ⟨dbioWriteType .clear, ?_, fun rest => ⟨_, readIter_clear rest, .clear⟩⟩
          simp [Codecs.writeIter, followed, reached'.at_end]
      | cons item items =>
          obtain ⟨red, left, right, it⟩ := reached'.here
          obtain ⟨earlier, whole⟩ := reached'.suffix
          have split : map.bindings = earlier.map Maps.Node.binding ++ (item.key, item.value) ::
              items.map Maps.Node.binding := by
            rw [RBTree.bindings, ← whole, List.map_append, List.map_cons]
            rfl
          have isKey := back (item.key, item.value) (by simp [split])
          refine ⟨codecs.writeKey item.key, ?_, fun rest =>
            ⟨_, readIter_key isKey rest, .key (same.trans split)⟩⟩
          simp [Codecs.writeIter, followed, it]

theorem readEach_parts {value : Value} {iter : Iter} {text more rest : CString}
    (first : codecs.readValue (text ++ (more ++ rest)) = some (value, more ++ rest))
    (second : codecs.readIter (more ++ rest) = some (iter, rest)) :
    codecs.readEach ((text ++ more) ++ rest) = some ((value, iter), rest) := by
  rw [List.append_assoc]
  simp only [Codecs.readEach, bind, StateT.bind, first, second, Option.bind_some]
  rfl

theorem readRange_back {first last : Var} (firstBack : ReadsBack codecs first)
    (lastBack : ReadsBack codecs last) (rest : CString) :
    codecs.readRange ((codecs.writeVar first ++ codecs.writeVar last) ++ rest) =
      some ((first, last), rest) := by
  rw [List.append_assoc]
  simp only [Codecs.readRange, bind, StateT.bind, firstBack _, lastBack _, Option.bind_some]
  rfl

end

/-! The invariant of a loop, and what keeps it. -/

/-- The loop over what it was entered with has still to make these visits. -/
inductive Standing (Used : Key → Prop) : Subject → LoopState → List Visit → Prop
  | str {s : LoopState} {str : CString} {iter : Iter} {n : Nat}
      (slots : s.slots = .each (.str str) iter) (stands : AtPosition iter n) :
      Standing Used (.value (.str str)) s ((numbered (chars str)).drop n)
  | list {s : LoopState} {addr : Nat} {items items' : List Var} {iter : Iter} {n : Nat}
      (slots : s.slots = .each (.block addr) iter)
      (there : s.heap.content addr = some (.list items'))
      (counted : Covered s.heap ([addr] ++ s.others)) (same : items'.length = items.length)
      (stands : AtPosition iter n) :
      Standing Used (.value (.block (.list items))) s ((numbered items').drop n)
  | map {s : LoopState} {addr : Nat} {map map' : RBTree Key Var} {iter : Iter}
      {rest : List (Key × Var)} (slots : s.slots = .each (.block addr) iter)
      (there : s.heap.content addr = some (.map map'))
      (counted : Covered s.heap ([addr] ++ s.others)) (kept : Execute.Kept Used map')
      (same : map'.bindings.length = map.bindings.length) (stands : AtNode map' iter rest) :
      Standing Used (.value (.block (.map map))) s (rest.map entryVisit)
  | ints {s : LoopState} {start stop first last : Num}
      (slots : s.slots = .range (.int first) (.int last)) :
      Standing Used (.range (.int start) (.int stop)) s
        ((upTo first last).map fun num => ⟨.int num, none⟩)
  | objs {s : LoopState} {start stop first last : Num}
      (slots : s.slots = .range (.obj first) (.obj last)) :
      Standing Used (.range (.obj start) (.obj stop)) s
        ((upTo first last).map fun obj => ⟨.obj obj, none⟩)

section

variable {Used : Key → Prop} {subject : Subject} {s : LoopState} {rest : List Visit}

theorem same_small (same : SameOrder (compare false) Key.order Used) {map map' : RBTree Key Var}
    (iterable : Iterable Used (.value (.block (.map map)))) (kept : Execute.Kept Used map')
    (bindings : map'.bindings.length = map.bindings.length) : map'.size < 2 ^ 31 := by
  obtain ⟨made, small⟩ := iterable
  rw [kept_size (made.kept (same.totalPreorder (order_total Used)))] at small
  rw [kept_size kept, bindings]
  exact small

/-- One turn binds the first of the visits that are left, and ends where there is none. -/
theorem Standing.turn (same : SameOrder (compare false) Key.order Used)
    (standing : Standing Used subject s rest) (iterable : Iterable Used subject) :
    (rest = [] ∧ Loops.turn s.heap s.slots = some .over) ∨
    ∃ visit later slots, rest = visit :: later ∧
      Loops.turn s.heap s.slots = some (.bind visit slots) ∧
      ∀ vars, Standing Used subject (s.bound vars visit slots) later := by
  cases standing with
  | @str _ str iter n slots stands =>
      have room := (strRoom_iff.mp iterable).2
      have length : toInt str.length = (chars str).length := by
        rw [toInt_eq (by omega) (by omega), chars, List.length_map]
      have elements : ∀ i (inside : i < (chars str).length),
          strget str (toInt (i + 1)) = some (chars str)[i] :=
        fun i inside => strget_chars (by omega) inside
      have small : (chars str).length < 2 ^ 31 := by
        rw [chars, List.length_map]
        omega
      rw [slots, Loops.turn, forList, length]
      rcases forPositions_stands (.str str) (chars str) (fun i => strget str (toInt i)) stands small
        elements with
        ⟨none, ran⟩ | ⟨visit, iter', first, next, ran⟩
      · exact .inl ⟨none, ran⟩
      · exact .inr ⟨visit, _, _, first, ran, fun _ => .str rfl next⟩
  | @list _ addr entered items iter n slots there counted same stands =>
      have room := (listRoom_iff.mp iterable).2
      have length : toInt items.length = items.length := toInt_eq (by omega) (by omega)
      have elements : ∀ i (inside : i < items.length), element items (i + 1) = some items[i] :=
        fun i inside => by rw [element_eq, List.getElem?_eq_getElem inside]
      rw [slots, Loops.turn, forList, there, Option.bind_some]
      simp only [length]
      rcases forPositions_stands (.block addr) items (element items) stands (by omega) elements with
        ⟨none, ran⟩ | ⟨visit, iter', first, next, ran⟩
      · exact .inl ⟨none, ran⟩
      · exact .inr ⟨visit, _, _, first, ran, fun _ => .list rfl there counted same next⟩
  | @map _ addr map map' iter entries slots there counted kept bindings stands =>
      have small := same_small same iterable kept bindings
      rw [slots, Loops.turn, forList, there, Option.bind_some]
      cases entries with
      | nil => exact .inl ⟨rfl, forMap_over same stands kept small⟩
      | cons entry entries =>
          obtain ⟨iter', next, ran⟩ := @forMap_next _ same _ (.block addr) _ _ _ stands kept small
          exact .inr ⟨_, _, _, rfl, ran, fun _ => .map rfl there counted kept bindings next⟩
  | @ints _ _ _ first last slots =>
      rw [slots, Loops.turn, forRange]
      rcases countUp_stands .int first last with ⟨none, ran⟩ | ⟨first', last', listed, ran⟩
      · exact .inl ⟨by rw [none]; rfl, congrArg some ran⟩
      · exact .inr ⟨_, _, _, by rw [listed]; rfl, congrArg some ran, fun _ => .ints rfl⟩
  | @objs _ _ _ first last slots =>
      rw [slots, Loops.turn, forRange]
      rcases countUp_stands .obj first last with ⟨none, ran⟩ | ⟨first', last', listed, ran⟩
      · exact .inl ⟨by rw [none]; rfl, congrArg some ran⟩
      · exact .inr ⟨_, _, _, by rw [listed]; rfl, congrArg some ran, fun _ => .objs rfl⟩

theorem Standing.moved (standing : Standing Used subject s rest) {heap : Store Collection}
    {others : List Nat} (moves : Moves s.heap s.others heap others) (env : Nat → Var) :
    Standing Used subject ⟨heap, others, env, s.slots⟩ rest := by
  cases standing with
  | str slots stands => exact .str slots stands
  | list slots there counted same stands =>
      obtain ⟨counted', agree⟩ := moves.unseen counted
      exact .list slots ((agree _ (by simp)).trans there) counted' same stands
  | map slots there counted kept bindings stands =>
      obtain ⟨counted', agree⟩ := moves.unseen counted
      exact .map slots ((agree _ (by simp)).trans there) counted' kept bindings stands
  | ints slots => exact .ints slots
  | objs slots => exact .objs slots

theorem numbered_drop_congr {items items' : List Var} {n : Nat}
    (left : items'.drop n = items.drop n) : (numbered items').drop n = (numbered items).drop n := by
  refine List.ext_getElem? fun i => ?_
  have here : items'[n + i]? = items[n + i]? := by
    rw [← List.getElem?_drop, left, List.getElem?_drop]
  simp [numbered, List.getElem?_drop, List.getElem?_zipIdx, here]

/-- A write in place that spares what is left to visit. -/
theorem Standing.written {codecs : Codecs} (standing : Standing Used subject s rest) {addr : Nat}
    {content' : Collection} (permitted : Permitted codecs s (.writes addr content'))
    (env : Nat → Var) :
    Standing Used subject ⟨s.heap.replace addr content', s.others, env, s.slots⟩ rest := by
  cases standing with
  | str slots stands => exact .str slots stands
  | @list _ addr' items items' iter n slots there counted same stands =>
      obtain ⟨counted', contents⟩ := counted.overwrite addr content'
      have now := contents addr' (by simp)
      by_cases here : addr' = addr
      · subst here
        rw [if_pos rfl] at now
        cases permitted iter _ slots there with
        | list length left =>
            rw [← numbered_drop_congr (left n stands)]
            exact .list slots now counted' (length.trans same) stands
      · rw [if_neg here] at now
        exact .list slots (now.trans there) counted' same stands
  | @map _ addr' map map' iter entries slots there counted kept same stands =>
      obtain ⟨counted', contents⟩ := counted.overwrite addr content'
      have now := contents addr' (by simp)
      by_cases here : addr' = addr
      · subst here
        rw [if_pos rfl] at now
        cases permitted iter _ slots there with
        | @map _ f left =>
            have stands' := stands.revalued f
            have unchanged : (entries.map fun entry => (entry.1, f entry.1 entry.2)) = entries := by
              refine (List.map_congr_left fun entry member => ?_).trans (List.map_id entries)
              exact Prod.ext rfl (left entries stands entry member)
            rw [unchanged] at stands'
            refine .map slots now counted' (kept_revalue kept f) ?_ stands'
            rwa [bindings_revalue, List.length_map]
      · rw [if_neg here] at now
        exact .map slots (now.trans there) counted' kept same stands
  | ints slots => exact .ints slots
  | objs slots => exact .objs slots

theorem Standing.changed (standing : Standing Used subject s rest) {addr addr' : Nat}
    {others : List Nat} {copy edit : Collection → Option Collection} {heap : Store Collection}
    (held : s.others = addr :: others) (counted : Covered s.heap s.others)
    (ran : s.heap.change addr copy edit = some (heap, addr')) (env : Nat → Var) :
    Standing Used subject ⟨heap, addr' :: others, env, s.slots⟩ rest := by
  refine standing.moved ?_ env
  rw [held] at counted ⊢
  exact change_moves counted ran

theorem Standing.inserted (standing : Standing Used subject s rest) {addr addr' : Nat}
    {others : List Nat} {key : Key} {value : Var} {heap : Store Collection}
    (held : s.others = addr :: others) (counted : Covered s.heap s.others)
    (ran : mapinsertHeld s.heap addr key value = some (heap, addr')) (env : Nat → Var) :
    Standing Used subject ⟨heap, addr' :: others, env, s.slots⟩ rest :=
  standing.changed held counted ran env

theorem Standing.elementSet (standing : Standing Used subject s rest) {addr addr' : Nat}
    {others : List Nat} {value : Var} {pos : Int} {heap : Store Collection}
    (held : s.others = addr :: others) (counted : Covered s.heap s.others)
    (ran : listsetHeld s.heap addr value pos = some (heap, addr')) (env : Nat → Var) :
    Standing Used subject ⟨heap, addr' :: others, env, s.slots⟩ rest :=
  standing.changed held counted ran env

theorem value_str {heap : Store Collection} {base : Base} {str : CString}
    (placed : base.value heap = some (.str str)) : base = .str str := by
  cases base with
  | str => exact congrArg Base.str (Value.str.inj (Option.some.inj placed))
  | block addr =>
      obtain ⟨_, _, same⟩ := Option.map_eq_some_iff.mp placed
      cases same
  | other => cases placed

theorem value_block {heap : Store Collection} {base : Base} {content : Collection}
    (placed : base.value heap = some (.block content)) :
    ∃ addr, base = .block addr ∧ heap.content addr = some content := by
  cases base with
  | block addr =>
      obtain ⟨_, there, same⟩ := Option.map_eq_some_iff.mp placed
      cases same
      exact ⟨addr, rfl, there⟩
  | str => cases placed
  | other => cases placed

theorem reload_parts {codecs : Codecs} {heap : Store Collection} {base : Base}
    {iter iter' iter'' : Iter} {value value' value'' : Value}
    {first more text after after' : CString}
    (there : base.value heap = some value) (wroteValue : codecs.writeValue value = some first)
    (wroteIter : codecs.writeIter value iter = some more)
    (readValue : codecs.readValue (first ++ (more ++ after)) = some (value', more ++ after))
    (readIter : codecs.readIter (more ++ after) = some (iter', after))
    (written : codecs.writeSlots heap (.each base iter) = some text)
    (read : codecs.readEach (text ++ after) = some ((value'', iter''), after')) :
    value'' = value' ∧ iter'' = iter' := by
  simp only [Codecs.writeSlots, there, Option.bind_some, wroteValue, wroteIter, Option.map_some,
    Option.some.injEq] at written
  subst written
  rw [readEach_parts readValue readIter, Option.some.injEq, Prod.mk.injEq, Prod.mk.injEq] at read
  exact ⟨read.1.1.symm, read.1.2.symm⟩

theorem Standing.reloaded {codecs : Codecs} (same : SameOrder (compare false) Key.order Used)
    (standing : Standing Used subject s rest) (iterable : Iterable Used subject)
    (permitted : Permitted codecs s .reload) {base base' : Base} {iter iter' : Iter} {value : Value}
    {text after after' : CString} (slots : s.slots = .each base iter)
    (written : codecs.writeSlots s.heap s.slots = some text)
    (read : codecs.readEach (text ++ after) = some ((value, iter'), after'))
    {heap : Store Collection} {others : List Nat} (placed : base'.value heap = some value)
    (counted : Covered heap (base'.held ++ others)) (env : Nat → Var) :
    Standing Used subject ⟨heap, others, env, .each base' iter'⟩ rest := by
  cases standing with
  | @str _ str _ n here stands =>
      obtain ⟨more, wrote, readIter⟩ := @atPosition_back codecs _ _ stands (.str str)
      have back := permitted _ _ _ here rfl
      rw [here] at written
      obtain ⟨rfl, rfl⟩ :=
        reload_parts rfl rfl wrote (readStr_back back _) (readIter after) written read
      obtain rfl := value_str placed
      exact .str rfl stands
  | @list _ addr entered items _ n here there _ sameLength stands =>
      have room := (listRoom_iff.mp iterable).2
      have value : (Base.block addr).value s.heap = some (.block (.list items)) := by
        rw [Base.value, there]
        rfl
      obtain ⟨more, wrote, readIter⟩ := @atPosition_back codecs _ _ stands (.block (.list items))
      have back := permitted _ _ _ here value
      rw [here] at written
      obtain ⟨rfl, rfl⟩ := reload_parts value rfl wrote (readList_back (by omega) back _)
        (readIter after) written read
      obtain ⟨addr', rfl, there'⟩ := value_block placed
      exact .list rfl there' counted sameLength stands
  | @map _ addr map map' _ entries here there _ kept bindings stands =>
      have value : (Base.block addr).value s.heap = some (.block (.map map')) := by
        rw [Base.value, there]
        rfl
      have order := same.totalPreorder (order_total Used)
      have small := same_small same iterable kept bindings
      have partsBack : ∀ entry ∈ map'.bindings, KeyReadsBack codecs entry.1 ∧
          ReadsBack codecs entry.2 := permitted _ _ _ here value
      have keysBack : ∀ entry ∈ map'.bindings, KeyReadsBack codecs entry.1 :=
        fun entry member => (partsBack entry member).1
      obtain ⟨more, wrote, _⟩ := atNode_back stands kept.well.apart rfl keysBack
      obtain ⟨loaded, readMap, keptLoaded, sameLoaded⟩ :=
        readMap_back order kept small partsBack (more ++ after)
      obtain ⟨more', wrote', readIter⟩ := atNode_back stands kept.well.apart sameLoaded keysBack
      obtain rfl := Option.some.inj (wrote.symm.trans wrote')
      obtain ⟨iter'', readIter, stands'⟩ := readIter after
      rw [here] at written
      obtain ⟨rfl, rfl⟩ := reload_parts value rfl wrote readMap readIter written read
      obtain ⟨addr', rfl, there'⟩ := value_block placed
      exact .map rfl there' counted keptLoaded (by rwa [sameLoaded]) stands'
  | ints here => cases here.symm.trans slots
  | objs here => cases here.symm.trans slots

theorem reload_range {codecs : Codecs} {heap : Store Collection} {first last first' last' : Var}
    {text after after' : CString} (firstBack : ReadsBack codecs first)
    (lastBack : ReadsBack codecs last)
    (written : codecs.writeSlots heap (.range first last) = some text)
    (read : codecs.readRange (text ++ after) = some ((first', last'), after')) :
    first' = first ∧ last' = last := by
  obtain rfl := Option.some.inj written
  rw [readRange_back firstBack lastBack, Option.some.injEq, Prod.mk.injEq, Prod.mk.injEq] at read
  exact ⟨read.1.1.symm, read.1.2.symm⟩

theorem Standing.reloadedRange {codecs : Codecs} (standing : Standing Used subject s rest)
    {first last first' last' : Var} {text after after' : CString}
    (slots : s.slots = .range first last) (written : codecs.writeSlots s.heap s.slots = some text)
    (read : codecs.readRange (text ++ after) = some ((first', last'), after'))
    (heap : Store Collection) (others : List Nat) (env : Nat → Var) :
    Standing Used subject ⟨heap, others, env, .range first' last'⟩ rest := by
  cases standing with
  | str here => cases here.symm.trans slots
  | list here => cases here.symm.trans slots
  | map here => cases here.symm.trans slots
  | @ints _ _ _ first last here =>
      rw [here] at written
      obtain ⟨rfl, rfl⟩ := reload_range (int_readsBack first) (int_readsBack last) written read
      exact .ints rfl
  | @objs _ _ _ first last here =>
      rw [here] at written
      obtain ⟨rfl, rfl⟩ := reload_range (obj_readsBack first) (obj_readsBack last) written read
      exact .objs rfl

theorem Standing.body {codecs : Codecs} (same : SameOrder (compare false) Key.order Used)
    (standing : Standing Used subject s rest) (iterable : Iterable Used subject) {event : Event}
    (permitted : Permitted codecs s event) {s' : LoopState} (body : Body codecs s event s') :
    Standing Used subject s' rest := by
  cases body with
  | moves env moves => exact standing.moved moves env
  | writes env there => exact standing.written permitted env
  | reload env slots written read placed counted =>
      exact standing.reloaded same iterable permitted slots written read placed counted env
  | reloadRange env slots written read _ =>
      exact standing.reloadedRange slots written read _ _ env

theorem enters_standing (same : SameOrder (compare false) Key.order Used)
    (enters : Enters s subject) (iterable : Iterable Used subject) :
    ∃ elements, Elements subject elements ∧ Standing Used subject s elements := by
  cases enters with
  | @each base value slots there counted =>
      match value, iterable with
      | .str str, _ =>
          obtain rfl := value_str there
          exact ⟨_, .str str, .str slots atPosition_start⟩
      | .block (.list items), _ =>
          obtain ⟨addr, rfl, content⟩ := value_block there
          exact ⟨_, .list items, .list slots content counted rfl atPosition_start⟩
      | .block (.map map), ⟨made, _⟩ =>
          obtain ⟨addr, rfl, content⟩ := value_block there
          have kept := made.kept (same.totalPreorder (order_total Used))
          exact ⟨_, .map (.refl _) ((same.sorted_iff kept.all).mp kept.well.sorted),
            .map slots content counted kept rfl .start⟩
  | range slots =>
      rcases iterable with ⟨start, stop, rfl, rfl⟩ | ⟨start, stop, rfl, rfl⟩
      · exact ⟨_, .ints start stop, .ints slots⟩
      · exact ⟨_, .objs start stop, .objs slots⟩

/-- A loop visits what was there when it was entered: where `compare` tells the order of the keys in
use, and every step of the body is permitted. -/
theorem forLoop_exact (codecs : Codecs) (vars : LoopVars)
    (same : SameOrder (compare false) Key.order Used) (enters : Enters s subject)
    (iterable : Iterable Used subject) :
    LoopExact codecs vars (Permitted codecs) s subject := by
  obtain ⟨elements, listed, standing⟩ := enters_standing same enters iterable
  refine ⟨elements, listed, fun visits s' goes => ?_⟩
  have along : ∃ rest, elements = visits ++ rest ∧ Standing Used subject s' rest := by
    induction goes with
    | enter => exact ⟨elements, rfl, standing⟩
    | pass _ bound body ih =>
        obtain ⟨rest, whole, stands⟩ := ih
        rcases stands.turn same iterable with ⟨_, ran⟩ | ⟨visit, later, slots, rfl, ran, next⟩
        · rw [ran] at bound
          cases bound
        · rw [ran] at bound
          cases bound
          refine ⟨later, by simpa using whole,
            body.invariant (Standing Used subject · later) (next vars) ?_⟩
          rintro before after stands' ⟨event, allowed, taken⟩
          exact stands'.body same iterable allowed taken
  obtain ⟨rest, whole, stands⟩ := along
  refine ⟨rest, whole, ?_⟩
  rcases stands.turn same iterable with ⟨rfl, ran⟩ | ⟨visit, later, slots, rfl, ran, _⟩
  · exact ran
  · exact ⟨slots, ran⟩

end

def atMap (map : RBTree Key Var) : LoopState :=
  ⟨[some ⟨1, .map map⟩], [], fun _ => .none, .each (.block 0) .none⟩

theorem enters_atMap (map : RBTree Key Var) : Enters (atMap map) (.value (.block (.map map))) := by
  refine .each rfl rfl fun a member => ?_
  obtain rfl := List.mem_singleton.mp member
  exact ⟨_, rfl, by simp [Base.held, atMap]⟩

def number (n : Nat) : Key := .int (natNum n)

def twoNumbers : RBTree Key Var :=
  ⟨node false nil ⟨0, number 1, .bool true⟩ (node true nil ⟨1, number 2, .none⟩ nil), 2⟩

def noCodecs : Codecs := ⟨fun _ => [], fun _ => [], fun _ => [], failure, failure, failure⟩

theorem forLoop_exact_two : LoopExact noCodecs ⟨0, some 1⟩ (Permitted noCodecs) (atMap twoNumbers)
    (.value (.block (.map twoNumbers))) := by
  have made : Made (fun key => key = number 1 ∨ key = number 2) twoNumbers :=
    @Made.insert _ _ (single (number 1) (.bool true)) _ (number 2) .none false
      (made_single _ (.inl rfl)) (single_small _ _) (.inr rfl) rfl
  have same : SameOrder (compare false) Key.order (fun key => key = number 1 ∨ key = number 2) := by
    refine sameOrder_of_comparable ?_ ?_
    · rintro key (rfl | rfl) <;> trivial
    · rintro a b (rfl | rfl) (rfl | rfl) <;> exact ⟨by decide, by decide⟩
  exact forLoop_exact noCodecs ⟨0, some 1⟩ same (enters_atMap twoNumbers)
    ⟨made, (by decide : 2 < 2 ^ 31)⟩

def booleans : RBTree Key Var :=
  ⟨node false (node true nil ⟨1, .bool true, .bool true⟩ nil) ⟨0, .bool false, .bool false⟩ nil, 2⟩

/-- A loop over `[false -> false, true -> true]` begins with `true`. -/
theorem forLoop_booleans : ¬∀ codecs vars start subject, Enters start subject →
    Iterable (fun _ => True) subject → LoopExact codecs vars (fun _ _ => True) start subject := by
  intro all
  have made : Made (fun _ => True) booleans :=
    @Made.insert _ _ (single (.bool false) (.bool false)) _ (.bool true) (.bool true) false
      (made_single _ trivial) (single_small _ _) trivial rfl
  obtain ⟨elements, listed, runs⟩ := all noCodecs ⟨0, some 1⟩ _ _ (enters_atMap booleans)
    ⟨made, (by decide : 2 < 2 ^ 31)⟩
  obtain ⟨rest, whole, goesOn⟩ := runs [] _ .enter
  cases listed with
  | @map _ entries perm ascending =>
      have last : (.bool false, .bool false) ∈ entries :=
        perm.mem_iff.mpr (by simp [RBTree.bindings, booleans, Maps.Node.binding])
      cases entries with
      | nil => cases last
      | cons entry entries =>
          obtain ⟨key, value⟩ := entry
          obtain rfl := whole
          obtain ⟨slots, ran⟩ := goesOn
          obtain ⟨slots', first⟩ : ∃ slots', turn (atMap booleans).heap (atMap booleans).slots =
              some (.bind ⟨.bool true, some (.bool true)⟩ slots') := ⟨_, rfl⟩
          rw [first, Option.some.injEq, Turn.bind.injEq, entryVisit, Visit.mk.injEq,
            Option.some.injEq] at ran
          obtain ⟨⟨rfl, isTrue⟩, _⟩ := ran
          obtain rfl : key = .bool true := by
            cases key <;> cases isTrue
            rfl
          rcases List.mem_cons.mp last with same | later
          · cases same
          · have less := (List.pairwise_cons.mp ascending).1 _ later
            exact absurd less (by decide)

end ToastStunt.Loops
