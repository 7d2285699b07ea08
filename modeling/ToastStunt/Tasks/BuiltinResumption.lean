import ToastStunt.Tasks.BuiltinData

/-!
Which built-ins go on after a restart as they would have without one. The readers of `create`,
`recreate` and `recycle` make a block of the size of an object number, where the built-in looks for
a `Var`.
-/

namespace ToastStunt.Tasks

open Json Dbio

inductive Keeps : Builtin → BiFuncData → Prop
  | create {value type : BitVec 64} :
      type.setWidth 32 = typeObj ∨ type.setWidth 32 = typeAnon → Keeps .create (.block [value, type])
  | recreate {value type : BitVec 64} :
      type.setWidth 32 = typeObj → Keeps .recreate (.block [value, type])
  | recycle {value type : BitVec 64} :
      type.setWidth 32 = typeObj ∨ type.setWidth 32 = typeAnon → Keeps .recycle (.block [value, type])
  | move {what place position : BitVec 64} : Keeps .move (.block [what, place, position])
  | eval : Keeps .eval .null
  | callFunction {fnum : Builtin} {data : BiFuncData} :
      Keeps fnum data → Keeps .callFunction (.cfState fnum data)

def waitsIn : Builtin → BiFuncData → Builtin
  | .callFunction, .cfState fnum data => waitsIn fnum data
  | f, _ => f

section Purpose

variable (V R : Type)

def GoesOnAlike (f : Builtin) (data data' : BiFuncData) : Prop :=
  ∀ (isTrue : R → Bool) (back : Return R), 2 ≤ back.pc → ∀ s : Db V,
    callBiFunc isTrue back f data' s = callBiFunc isTrue back f data s

/-- The data can be saved and read back, and the built-in goes on with what is read as it would
have with what was saved. -/
def Survives (f : Builtin) (data : BiFuncData) : Prop :=
  ∀ (upper : BitVec 32) (rest : CString), ∃ text loaded rest',
    writeBiFuncData upper f data = .ok text ∧
      readBiFuncData f (text ++ rest) = some (loaded, rest') ∧ GoesOnAlike V R f data loaded

end Purpose

section Reading

def reloaded (upper : BitVec 32) : Builtin → BiFuncData → BiFuncData
  | .move, .block (what :: place :: position :: _) =>
      .block [what, place, upper ++ position.setWidth 32]
  | .callFunction, .cfState fnum data => .cfState fnum (reloaded upper fnum data)
  | _, .block (value :: _) => .block [value]
  | _, data => data

theorem numWord_wordNum (word : BitVec 64) : numWord (wordNum word) = word := BitVec.ofInt_toInt

theorem numberFuncByName_name (f : Builtin) : numberFuncByName (nameFuncByNum f) = some f := by
  cases f <;> decide

theorem bfCreate_reads (word : BitVec 64) (rest : CString) : ∃ rest',
    bfCreateRead (dbioPrintf createFormat [wordNum word] ++ rest) = some (.block [word], rest') := by
  obtain ⟨rest', scanned⟩ :=
    @dbioScanf_printed createFormat (by decide) [wordNum word] rfl rest
  exact ⟨rest', by simp [bfCreateRead, scanned, numWord_wordNum]⟩

theorem recycle_zero (num : Num) : dbioPrintf recycleWriteFormat [num] =
    dbioPrintf recycleReadFormat [num, ⟨0, by decide, by decide⟩] := rfl

theorem bfRecycle_reads (word : BitVec 64) (rest : CString) : ∃ rest',
    bfRecycleRead (dbioPrintf recycleWriteFormat [wordNum word] ++ rest) =
      some (.block [word], rest') := by
  obtain ⟨rest', scanned⟩ := @dbioScanf_printed recycleReadFormat (by decide)
    [wordNum word, ⟨0, by decide, by decide⟩] rfl rest
  exact ⟨rest', by simp [bfRecycleRead, recycle_zero, scanned, numWord_wordNum]⟩

theorem bfMove_reads (what place position : BitVec 64) (rest : CString) : ∃ rest',
    bfMoveRead (dbioPrintf moveFormat [wordNum what, wordNum place, wordNum position] ++ rest) =
      some (.block [what, place, position], rest') := by
  obtain ⟨rest', scanned⟩ := @dbioScanf_printed moveFormat (by decide)
    [wordNum what, wordNum place, wordNum position] rfl rest
  exact ⟨rest', by simp [bfMoveRead, scanned, numWord_wordNum]⟩

theorem callFunction_line (fnum : Builtin) :
    NewlineFree (callFunctionText ++ nameFuncByNum fnum) ∧
      0 ∉ callFunctionText ++ nameFuncByNum fnum := by
  rw [NewlineFree]
  cases fnum <;> decide

/-- What a built-in has saved is read back, however deep it is in calls of `call_function`. -/
theorem readBiFuncData_written (upper : BitVec 32) {f : Builtin} {data : BiFuncData}
    (keeps : Keeps f data) : ∃ text, writeBiFuncData upper f data = .ok text ∧
      ∀ fuel, text.length < fuel → ∀ rest, ∃ rest',
        readBiFuncDataWithin fuel f (text ++ rest) = some (reloaded upper f data, rest') := by
  induction keeps with
  | create | recreate | recycle | move =>
      refine ⟨_, rfl, fun fuel enough rest => ?_⟩
      obtain ⟨fuel, rfl⟩ : ∃ less, fuel = less + 1 := ⟨fuel - 1, by omega⟩
      first
        | exact bfCreate_reads _ rest
        | exact bfRecycle_reads _ rest
        | exact bfMove_reads _ _ _ rest
  | eval =>
      refine ⟨[], rfl, fun fuel enough rest => ⟨rest, ?_⟩⟩
      obtain ⟨fuel, rfl⟩ : ∃ less, fuel = less + 1 := ⟨fuel - 1, by omega⟩
      rfl
  | @callFunction fnum data _ ih =>
      obtain ⟨inner, written, read⟩ := ih
      refine ⟨dbioWriteString (callFunctionText ++ nameFuncByNum fnum) ++ inner, ?_,
        fun fuel enough rest => ?_⟩
      · rw [writeBiFuncData, Failing.bind_of_ok written]
        rfl
      · obtain ⟨fuel, rfl⟩ : ∃ less, fuel = less + 1 := ⟨fuel - 1, by omega⟩
        have shorter : inner.length < fuel := by
          simp only [dbioWriteString, List.length_append, List.length_singleton] at enough
          omega
        obtain ⟨rest', inside⟩ := read fuel shorter rest
        obtain ⟨free, string⟩ := callFunction_line fnum
        have line := dbioReadString_written (inner ++ rest) free string
        have headed : callFunctionText.isPrefixOf (callFunctionText ++ nameFuncByNum fnum) = true :=
          List.isPrefixOf_iff_prefix.mpr (List.prefix_append _ _)
        have name := numberFuncByName_name fnum
        refine ⟨rest', ?_⟩
        rw [List.append_assoc]
        simp only [readBiFuncDataWithin, bind, StateT.bind, line, Option.bind_some, headed, if_true,
          List.drop_left, name, inside, Reading.pure_eq, reloaded]

end Reading

section Resuming

variable {V R : Type}

theorem readMove_reloaded (upper : BitVec 32) (what place position : BitVec 64) :
    readMove (reloaded upper .move (.block [what, place, position])) =
      readMove (.block [what, place, position]) := by
  have lower (half : BitVec 32) : (upper ++ half : BitVec (32 + 32)).setWidth 32 = half := by
    rw [BitVec.setWidth_append, dif_pos (Nat.le_refl 32), BitVec.setWidth_eq]
  have low : (upper ++ position.setWidth 32 : BitVec 64).setWidth 32 = position.setWidth 32 :=
    lower _
  simp only [reloaded, readMove, low]

theorem readVar_kept {value type : BitVec 64}
    (object : type.setWidth 32 = typeObj ∨ type.setWidth 32 = typeAnon) :
    ∃ v, readVar (.block [value, type]) = .ok v ∧ isValid (Db.empty : Db V) v = false := by
  rcases object with obj | anon
  · exact ⟨.obj value.toInt, by rw [readVar, if_pos obj], rfl⟩
  · have other : type.setWidth 32 ≠ typeObj := by
      rw [anon]
      decide
    exact ⟨.anon value.toNat, by rw [readVar, if_neg other, if_pos anon], rfl⟩

theorem create_lost [Inhabited R] {f : Builtin} (creates : f = .create ∨ f = .recreate)
    {value type : BitVec 64}
    (object : type.setWidth 32 = typeObj ∨ type.setWidth 32 = typeAnon) :
    ¬GoesOnAlike V R f (.block [value, type]) (.block [value]) := by
  intro alike
  obtain ⟨v, kept, -⟩ := @readVar_kept V value type object
  have same := alike (fun _ => false) ⟨2, false, 0, default⟩ (Nat.le_refl 2) Db.empty
  rcases creates with rfl | rfl
  all_goals
    simp only [callBiFunc, bfCreateResumed, kept] at same
    cases same

theorem recycle_lost [Inhabited R] {value type : BitVec 64}
    (object : type.setWidth 32 = typeObj ∨ type.setWidth 32 = typeAnon) :
    ¬GoesOnAlike V R .recycle (.block [value, type]) (.block [value]) := by
  intro alike
  obtain ⟨v, kept, invalid⟩ := @readVar_kept V value type object
  have same := alike (fun _ => false) ⟨2, false, 0, default⟩ (Nat.le_refl 2) Db.empty
  have goesOn : callBiFunc (fun _ => false) ⟨2, false, 0, (default : R)⟩ .recycle
      (.block [value, type]) (Db.empty : Db V) = .ok (.error .E_INVARG, Db.empty) := by
    simp only [callBiFunc, bfRecycleResumed, ne_eq, not_true_eq_false, if_false, kept]
    simp [recycleResumed, invalid, bind, Except.bind, pure, Except.pure, Reply.ofPackage]
  rw [goesOn] at same
  cases same

theorem goesOnAlike_reloaded_iff [Inhabited R] (upper : BitVec 32) {f : Builtin} {data : BiFuncData}
    (keeps : Keeps f data) : GoesOnAlike V R f data (reloaded upper f data) ↔
      waitsIn f data = .move ∨ waitsIn f data = .eval := by
  induction keeps with
  | create object => exact iff_of_false (create_lost (.inl rfl) object) (by simp [waitsIn])
  | recreate object => exact iff_of_false (create_lost (.inr rfl) (.inl object)) (by simp [waitsIn])
  | recycle object => exact iff_of_false (recycle_lost object) (by simp [waitsIn])
  | @move what place position =>
      refine iff_of_true (fun isTrue back _ s => ?_) (.inl rfl)
      simp only [callBiFunc, bfMoveResumed, readMove_reloaded]
  | eval => exact iff_of_true (fun _ _ _ _ => rfl) (.inr rfl)
  | callFunction _ ih => exact ih

theorem survives_reloaded {f : Builtin} {data : BiFuncData} (keeps : Keeps f data) :
    Survives V R f data ↔ ∀ upper, GoesOnAlike V R f data (reloaded upper f data) := by
  have read (upper : BitVec 32) (rest : CString) : ∃ text rest',
      writeBiFuncData upper f data = .ok text ∧
        readBiFuncData f (text ++ rest) = some (reloaded upper f data, rest') := by
    obtain ⟨text, written, read⟩ := readBiFuncData_written upper keeps
    obtain ⟨rest', loaded⟩ := read ((text ++ rest).length + 1) (by simp only [List.length_append]; omega) rest
    exact ⟨text, rest', written, loaded⟩
  constructor
  · intro survives upper
    obtain ⟨text, loaded, rest', written, found, alike⟩ := survives upper []
    obtain ⟨text', rest'', written', found'⟩ := read upper []
    rw [written] at written'
    cases written'
    rw [found] at found'
    cases found'
    exact alike
  · intro alike upper rest
    obtain ⟨text, rest', written, found⟩ := read upper rest
    exact ⟨text, _, rest', written, found, alike upper⟩

/-- Exactly the built-ins that have kept no `Var` go on after a restart as without one. -/
theorem bi_func_data_survives_iff [Inhabited R] {f : Builtin} {data : BiFuncData}
    (keeps : Keeps f data) :
    Survives V R f data ↔ waitsIn f data = .move ∨ waitsIn f data = .eval := by
  rw [survives_reloaded keeps]
  constructor
  · exact fun alike => (goesOnAlike_reloaded_iff 0 keeps).mp (alike 0)
  · exact fun waits upper => (goesOnAlike_reloaded_iff upper keeps).mpr waits

theorem move_survives : Survives Unit Unit .move (.block [3, 4, 0]) :=
  (bi_func_data_survives_iff .move).mpr (by decide)

/-- `create` has made #7 and waits for `initialize`. -/
theorem create_not_survives : ¬Survives Unit Unit .create (.block [7, 1]) := by
  rw [survives_reloaded (.create (by decide))]
  exact fun alike => create_lost (.inl rfl) (by decide) (alike 0)

end Resuming

end ToastStunt.Tasks
