import ToastStunt.Json.Codec

/-!
On which values `generate_json` comes back, and when it refuses them.
-/

namespace ToastStunt.Json

open Maps

/-! Anonymous objects and waifs inside a value. -/

def Key.Formless : Key → Prop
  | .anon _ | .waif _ => True
  | _ => False

mutual

def Formless : Value → Prop
  | .anon _ | .waif _ => True
  | .list items => FormlessItem items
  | .map entries => FormlessEntry entries
  | _ => False

def FormlessItem : List Value → Prop
  | [] => False
  | value :: rest => Formless value ∨ FormlessItem rest

def FormlessEntry : List (Key × Value) → Prop
  | [] => False
  | (key, value) :: rest => Key.Formless key ∨ Formless value ∨ FormlessEntry rest

end

/-! What stands in the way of generating a value, in the order in which it is come to. -/

inductive Obstacle
  | formless
  | notFinite
  | boolKey
  | tooDeep
  deriving DecidableEq

/-- What a call of the generator needs that many lists and maps deep. -/
def depthObstacles (depth : Nat) : List Obstacle :=
  if depth < yajlMaxDepth then [] else [.tooDeep]

def keyObstacles (depth : Nat) : Key → List Obstacle
  | .anon _ | .waif _ => [.formless]
  | .bool _ => [.boolKey]
  | _ => depthObstacles depth

section

variable (floatLiteral : Double → CString) (floatText : Double → Option CString)
  (padding : Nat → BitVec 56)

mutual

def obstacles (depth : Nat) : Value → List Obstacle
  | .anon _ | .waif _ => [.formless]
  | .float fnum =>
      depthObstacles depth ++ if (floatText fnum).isSome then [] else [.notFinite]
  | .list items =>
      depthObstacles depth ++ (itemObstacles (depth + 1) items ++ depthObstacles (depth + 1))
  | .map entries =>
      depthObstacles depth ++ (entryObstacles (depth + 1) entries ++ depthObstacles (depth + 1))
  | _ => depthObstacles depth

def itemObstacles (depth : Nat) : List Value → List Obstacle
  | [] => []
  | value :: rest => obstacles depth value ++ itemObstacles depth rest

def entryObstacles (depth : Nat) : List (Key × Value) → List Obstacle
  | [] => []
  | (key, value) :: rest =>
      keyObstacles depth key ++ (obstacles depth value ++ entryObstacles depth rest)

end

def Answers (depth : Nat) (ahead : List Obstacle) (ran : Except Crash (Status × Gen)) : Prop :=
  match ahead.head? with
  | none => ∃ g, ran = .ok (.ok, g) ∧ g.depth = depth
  | some .formless => ∃ status g, ran = .ok (status, g) ∧ status ≠ .ok
  | some .notFinite => ∃ status g, ran = .ok (status, g) ∧ status ≠ .ok
  | some .boolKey => ran = .error .panic
  | some .tooDeep => ran = .error .undefined

theorem answers_clear {depth : Nat} {ran : Except Crash (Status × Gen)} :
    Answers depth [] ran ↔ ∃ g, ran = .ok (.ok, g) ∧ g.depth = depth := Iff.rfl

theorem Answers.next {depth depth' : Nat} {first second : List Obstacle}
    {ran : Except Crash (Status × Gen)} {next : Gen → Except Crash (Status × Gen)}
    (answers : Answers depth first ran)
    (onward : ∀ g, g.depth = depth → Answers depth' second (next g)) :
    Answers depth' (first ++ second) (do
      let (status, g) ← ran
      if status = .ok then next g else .ok (status, g)) := by
  cases first with
  | nil =>
      obtain ⟨g, rfl, same⟩ := answers
      exact onward g same
  | cons obstacle rest =>
      cases obstacle with
      | formless =>
          obtain ⟨status, g, rfl, refused⟩ := answers
          exact ⟨status, g, by simp [bind, Except.bind, refused], refused⟩
      | notFinite =>
          obtain ⟨status, g, rfl, refused⟩ := answers
          exact ⟨status, g, by simp [bind, Except.bind, refused], refused⟩
      | boolKey =>
          obtain rfl : ran = .error .panic := answers
          rfl
      | tooDeep =>
          obtain rfl : ran = .error .undefined := answers
          rfl

theorem emit_answers (event : Event) (g : Gen) :
    Answers g.depth (depthObstacles g.depth) (emit event g) := by
  by_cases shallow : g.depth < yajlMaxDepth
  · simp only [depthObstacles, emit, shallow, if_true, answers_clear]
    exact ⟨_, rfl, rfl⟩
  · simp only [depthObstacles, emit, shallow, if_false]
    exact rfl

theorem generateKey_answers (mode : Mode) (key : Key) (g : Gen) :
    Answers g.depth (keyObstacles g.depth key) (generateKey floatLiteral mode key g) := by
  cases key with
  | anon _ => exact ⟨.keysMustBeStrings, g, rfl, nofun⟩
  | waif _ => exact ⟨.keysMustBeStrings, g, rfl, nofun⟩
  | bool _ => exact rfl
  | _ => exact emit_answers _ g

/-- A list or a map goes wrong where opening it does, where its content does or where closing it
does. The status of opening it is not looked at. -/
theorem enclosed_answers {opening closing : Event} {g : Gen} {content : List Obstacle}
    {fill : Gen → Except Crash (Status × Gen)}
    (filled : ∀ g', g'.depth = g.depth + 1 → Answers (g.depth + 1) content (fill g')) :
    Answers g.depth (depthObstacles g.depth ++ (content ++ depthObstacles (g.depth + 1))) (do
      let opened ← openContainer opening g
      let (status, g) ← fill opened.2
      if status = .ok then
        let closed ← closeContainer closing g
        .ok (.ok, closed.2)
      else .ok (status, g)) := by
  by_cases shallow : g.depth < yajlMaxDepth
  · have opens : ∃ status g', openContainer opening g = .ok (status, g') ∧
        g'.depth = g.depth + 1 := by
      simp only [openContainer, shallow, if_true]
      split
      · exact ⟨_, _, rfl, rfl⟩
      · exact ⟨_, _, rfl, rfl⟩
    have closes : ∀ g', g'.depth = g.depth + 1 →
        Answers g.depth (depthObstacles (g.depth + 1)) (do
          let closed ← closeContainer closing g'
          .ok (.ok, closed.2)) := by
      intro g' same
      by_cases last : g.depth + 1 < yajlMaxDepth
      · simp only [depthObstacles, closeContainer, same, last, if_true, answers_clear]
        exact ⟨_, rfl, rfl⟩
      · simp only [depthObstacles, closeContainer, same, last, if_false]
        exact rfl
    obtain ⟨status, g', opened, deeper⟩ := opens
    rw [opened, show depthObstacles g.depth = [] from if_pos shallow]
    exact (filled g' deeper).next closes
  · simp only [depthObstacles, openContainer, shallow, if_false]
    exact rfl

mutual

theorem generate_answers (mode : Mode) : ∀ (value : Value) (g : Gen),
    Answers g.depth (obstacles floatText g.depth value)
      (generate floatLiteral floatText padding mode value g)
  | .int num, g => by
      rw [generate, obstacles]
      · exact emit_answers _ g
      all_goals nofun
  | .obj obj, g => by
      rw [generate, obstacles]
      · exact emit_answers _ g
      all_goals nofun
  | .str str, g => by
      rw [generate, obstacles]
      · exact emit_answers _ g
      all_goals nofun
  | .err err, g => by
      rw [generate, obstacles]
      · exact emit_answers _ g
      all_goals nofun
  | .bool truth, g => by
      rw [generate, obstacles]
      · exact emit_answers _ g
      all_goals nofun
  | .float fnum, g => by
      rw [generate, obstacles]
      cases text : floatText fnum with
      | some _ => simpa [text] using emit_answers _ g
      | none =>
          by_cases shallow : g.depth < yajlMaxDepth
          · simp only [depthObstacles, shallow, if_true]
            exact ⟨.invalidNumber, g, rfl, nofun⟩
          · simp [depthObstacles, shallow, Answers]
  | .anon _, g => by
      rw [generate, obstacles]
      exact ⟨.unsupported, g, rfl, nofun⟩
  | .waif _, g => by
      rw [generate, obstacles]
      exact ⟨.unsupported, g, rfl, nofun⟩
  | .list items, g => by
      rw [generate, obstacles]
      exact enclosed_answers fun g' deeper => deeper ▸ generateItems_answers mode items g'
  | .map entries, g => by
      rw [generate, obstacles]
      exact enclosed_answers fun g' deeper => deeper ▸ generateEntries_answers mode entries g'

theorem generateItems_answers (mode : Mode) : ∀ (items : List Value) (g : Gen),
    Answers g.depth (itemObstacles floatText g.depth items)
      (generateItems floatLiteral floatText padding mode items g)
  | [], g => ⟨g, rfl, rfl⟩
  | value :: rest, g => by
      rw [generateItems, itemObstacles]
      exact (generate_answers mode value g).next fun g' same =>
        same ▸ generateItems_answers mode rest g'

theorem generateEntries_answers (mode : Mode) : ∀ (entries : List (Key × Value)) (g : Gen),
    Answers g.depth (entryObstacles floatText g.depth entries)
      (generateEntries floatLiteral floatText padding mode entries g)
  | [], g => ⟨g, rfl, rfl⟩
  | (key, value) :: rest, g => by
      rw [generateEntries, entryObstacles]
      have entry : ∀ g', g'.depth = g.depth →
          Answers g.depth (obstacles floatText g.depth value ++
            entryObstacles floatText g.depth rest) (do
              let (status, g) ← generate floatLiteral floatText padding mode value g'
              if status = .ok then generateEntries floatLiteral floatText padding mode rest g
              else .ok (status, g)) := by
        intro g' same
        have first := generate_answers mode value g'
        rw [same] at first
        exact first.next fun g'' same' => same' ▸ generateEntries_answers mode rest g''
      exact (generateKey_answers floatLiteral mode key g).next entry

end

/-! The obstacles against what the value contains. -/

theorem mem_depthObstacles {depth : Nat} : .formless ∉ depthObstacles depth := by
  rw [depthObstacles]
  split <;> simp

theorem mem_keyObstacles {depth : Nat} {key : Key} :
    .formless ∈ keyObstacles depth key ↔ Key.Formless key := by
  cases key <;> simp [keyObstacles, Key.Formless, mem_depthObstacles]

mutual

theorem mem_obstacles : ∀ (value : Value) (depth : Nat),
    .formless ∈ obstacles floatText depth value ↔ Formless value
  | .int _, _ | .obj _, _ | .str _, _ | .err _, _ | .bool _, _ => by
      simp [obstacles, Formless, mem_depthObstacles]
  | .anon _, _ | .waif _, _ => by simp [obstacles, Formless]
  | .float fnum, depth => by
      simp only [obstacles, Formless, List.mem_append, mem_depthObstacles, false_or, iff_false]
      split <;> simp
  | .list items, depth => by
      simp only [obstacles, Formless, List.mem_append, mem_depthObstacles, false_or, or_false,
        mem_itemObstacles items (depth + 1)]
  | .map entries, depth => by
      simp only [obstacles, Formless, List.mem_append, mem_depthObstacles, false_or, or_false,
        mem_entryObstacles entries (depth + 1)]

theorem mem_itemObstacles : ∀ (items : List Value) (depth : Nat),
    .formless ∈ itemObstacles floatText depth items ↔ FormlessItem items
  | [], _ => by simp [itemObstacles, FormlessItem]
  | value :: rest, depth => by
      simp only [itemObstacles, FormlessItem, List.mem_append, mem_obstacles value depth,
        mem_itemObstacles rest depth]

theorem mem_entryObstacles : ∀ (entries : List (Key × Value)) (depth : Nat),
    .formless ∈ entryObstacles floatText depth entries ↔ FormlessEntry entries
  | [], _ => by simp [entryObstacles, FormlessEntry]
  | (key, value) :: rest, depth => by
      simp only [entryObstacles, FormlessEntry, List.mem_append, mem_keyObstacles,
        mem_obstacles value depth, mem_entryObstacles rest depth]

end

/-- `generate_json` comes back with a string or with E_INVARG, and with E_INVARG exactly when an
anonymous object or a waif is in the value. -/
structure GeneratesTotally (mode : Mode) (value : Value) : Prop where
  returns : ∃ answer, bfGenerateJson floatLiteral floatText padding mode value = .ok answer
  refuses : bfGenerateJson floatLiteral floatText padding mode value = .ok none ↔ Formless value

/-- The first obstacle is an anonymous object or a waif, or a float that is not finite in a value
that has one of these as well. -/
def Passable (value : Value) : Prop :=
  match (obstacles floatText 0 value).head? with
  | none => True
  | some .formless => True
  | some .notFinite => Formless value
  | some .boolKey => False
  | some .tooDeep => False

theorem generate_total_iff (mode : Mode) (value : Value) :
    GeneratesTotally floatLiteral floatText padding mode value ↔ Passable floatText value := by
  have answers := generate_answers floatLiteral floatText padding mode value ⟨0, []⟩
  have listed := mem_obstacles floatText value 0
  have refused {status : Status} {g : Gen} (other : status ≠ .ok)
      (ran : generate floatLiteral floatText padding mode value ⟨0, []⟩ = .ok (status, g)) :
      bfGenerateJson floatLiteral floatText padding mode value = .ok none := by
    simp [bfGenerateJson, ran, other, bind, Except.bind]
  cases ahead : obstacles floatText 0 value with
  | nil =>
      simp only [ahead, Answers, List.head?_nil] at answers
      obtain ⟨g, ran, _⟩ := answers
      have answer : bfGenerateJson floatLiteral floatText padding mode value = .ok (some g.events) := by
        simp [bfGenerateJson, ran, bind, Except.bind]
      have without : ¬Formless value := by
        rw [← listed, ahead]
        exact List.not_mem_nil
      simp only [Passable, ahead, List.head?_nil, iff_true]
      refine ⟨⟨_, answer⟩, ?_⟩
      rw [answer]
      simp [without]
  | cons obstacle rest =>
      simp only [ahead, Answers, List.head?_cons] at answers
      simp only [Passable, ahead, List.head?_cons]
      cases obstacle with
      | formless =>
          obtain ⟨status, g, ran, other⟩ := answers
          have inside : Formless value := by
            rw [← listed, ahead]
            exact List.mem_cons_self
          exact iff_of_true ⟨⟨none, refused other ran⟩, iff_of_true (refused other ran) inside⟩
            trivial
      | notFinite =>
          obtain ⟨status, g, ran, other⟩ := answers
          constructor
          · intro total
            exact total.refuses.mp (refused other ran)
          · intro inside
            exact ⟨⟨none, refused other ran⟩, iff_of_true (refused other ran) inside⟩
      | boolKey =>
          refine iff_of_false (fun total => ?_) id
          obtain ⟨answer, returned⟩ := total.returns
          simp [bfGenerateJson, answers, bind, Except.bind] at returned
      | tooDeep =>
          refine iff_of_false (fun total => ?_) id
          obtain ⟨answer, returned⟩ := total.returns
          simp [bfGenerateJson, answers, bind, Except.bind] at returned

/-- A boolean as the key of a map is a panic. -/
theorem boolKey_panics : ¬∀ (floatLiteral : Double → CString) (floatText : Double → Option CString)
    (padding : Nat → BitVec 56) (mode : Mode) (value : Value),
    GeneratesTotally floatLiteral floatText padding mode value := by
  intro all
  obtain ⟨answer, returned⟩ :=
    (all (fun _ => []) (fun _ => none) (fun _ => 0) .commonSubset (.map [(.bool true, .err .none)])).returns
  have panics : bfGenerateJson (fun _ => []) (fun _ => none) (fun _ => 0) .commonSubset
      (.map [(.bool true, .err .none)]) = .error .panic := by
    simp [bfGenerateJson, generate, generateEntries, generateKey, openContainer, yajlMaxDepth, bind,
      Except.bind]
  rw [panics] at returned
  cases returned

end

end ToastStunt.Json
