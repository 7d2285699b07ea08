import ToastStunt.Code.Generated

/-!
The generator on statements: what it emits has the labels still open that belong to constructs
further out, and the loops it keeps know where these are.
-/

namespace ToastStunt.Code

variable {V : Type}

/-- Where the holes of a level are, the last one first, as `next` chains them. -/
def places (level : Nat) : Nat → List (Raw V) → List Nat
  | _, [] => []
  | pos, .cell _ :: rest => places level (pos + 1) rest
  | pos, .hole l :: rest => places level (pos + 1) rest ++ if l = level then [pos] else []

section Places

variable (level pos : Nat)

theorem places_append (a b : List (Raw V)) :
    places level pos (a ++ b) = places level (pos + a.length) b ++ places level pos a := by
  induction a generalizing pos with
  | nil => simp [places]
  | cons r rest ih =>
      have shift : pos + 1 + rest.length = pos + (rest.length + 1) := by omega
      cases r with
      | cell c => simp [places, ih, shift]
      | hole l => simp [places, ih, shift]

@[simp] theorem places_raw (code : List (Cell V)) : places level pos (raw code) = [] := by
  induction code generalizing pos with
  | nil => rfl
  | cons c rest ih =>
      rw [raw, List.map_cons, places]
      exact ih (pos + 1)

theorem places_snoc (a : List (Raw V)) (c : Cell V) :
    places level pos (a ++ [.cell c]) = places level pos a := by
  rw [places_append]
  rfl

theorem places_lift (a : List (Raw V)) :
    places (level + 1) pos (a.map Raw.lift) = places level pos a := by
  induction a generalizing pos with
  | nil => rfl
  | cons r rest ih => cases r <;> simp [places, Raw.lift, ih]

theorem places_lift_zero (a : List (Raw V)) : places 0 pos (a.map Raw.lift) = [] := by
  induction a generalizing pos with
  | nil => rfl
  | cons r rest ih => cases r <;> simp [places, Raw.lift, ih]

theorem places_leave (value : Nat) (a : List (Raw V)) :
    places level pos (a.map (Raw.leave value)) = places (level + 1) pos a := by
  induction a generalizing pos with
  | nil => rfl
  | cons r rest ih =>
      cases r with
      | cell c => simp [places, Raw.leave, ih]
      | hole l => cases l <;> simp [places, Raw.leave, ih]

end Places

theorem unresolved_lift (a : List (Raw V)) :
    (a.map Raw.lift).map Raw.unresolved = a.map Raw.unresolved := by
  rw [List.map_map]
  apply List.map_congr_left
  intro r _
  cases r <;> rfl

theorem unresolved_raw (code : List (Cell V)) : (raw code).map Raw.unresolved = code := by
  rw [raw, List.map_map]
  exact List.map_id code

theorem patch_append (value : Nat) (a b : List Nat) (cells : List (Cell V)) :
    patch value (a ++ b) cells = patch value b (patch value a cells) := List.foldl_append ..

theorem patch_places (value : Nat) (before : List (Cell V)) (code : List (Raw V)) :
    patch value (places 0 before.length code) (before ++ code.map Raw.unresolved) =
      before ++ (code.map (Raw.leave value)).map Raw.unresolved := by
  induction code generalizing before with
  | nil => rfl
  | cons r rest ih =>
      have later := ih (before ++ [r.unresolved])
      rw [List.length_append, List.length_singleton, List.append_assoc, List.append_assoc] at later
      cases r with
      | cell c => exact later
      | hole l =>
          rw [places, patch_append, List.map_cons]
          show patch value _ (patch value _ (before ++ ([(Raw.hole l).unresolved] ++ _))) = _
          rw [later]
          cases l with
          | zero =>
              show (before ++ _ :: _).set before.length (.label value) = _
              rw [Placing.set_placed]
              rfl
          | succ l => rfl

/-- The loops around, with the holes that have been left for their ends. -/
def fill (base pos : Nat) (code : List (Raw V)) (loops : List Loop) : List Loop :=
  loops.mapIdx fun level loop =>
    { loop with bottomLabel := places (base + level) pos code ++ loop.bottomLabel }

section Fill

variable (base pos : Nat) (a b : List (Raw V)) (loops : List Loop)

theorem fill_none (none : ∀ level, places (base + level) pos a = []) :
    fill base pos a loops = loops := by
  unfold fill
  simp only [none, List.nil_append]
  rw [List.mapIdx_eq_iff]
  intro level
  exact (congrFun Option.map_id _).symm

theorem fill_info : (fill base pos a loops).map Loop.toLoopInfo = loops.map Loop.toLoopInfo := by
  apply List.ext_getElem?
  intro level
  unfold fill
  rw [List.getElem?_map, List.getElem?_mapIdx, List.getElem?_map, Option.map_map]
  rfl

theorem fill_append : fill base (pos + a.length) b (fill base pos a loops) =
    fill base pos (a ++ b) loops := by
  unfold fill
  rw [List.mapIdx_mapIdx]
  congr 1
  funext level loop
  simp [places_append]

theorem fill_lift : fill 0 (pos + a.length) b (fill 1 pos a loops) =
    fill 1 pos (a ++ b.map Raw.lift) loops := by
  unfold fill
  rw [List.mapIdx_mapIdx]
  congr 1
  funext level loop
  simp [places_append, Nat.add_comm 1 level, places_lift]

theorem fill_leave (value : Nat) : fill 0 pos (a.map (Raw.leave value)) loops = fill 1 pos a loops := by
  unfold fill
  congr 1
  funext level loop
  rw [places_leave, Nat.zero_add, Nat.add_comm]

theorem fill_cons (loop : Loop) : fill 0 pos a (loop :: loops) =
    { loop with bottomLabel := places 0 pos a ++ loop.bottomLabel } :: fill 1 pos a loops := by
  unfold fill
  rw [List.mapIdx_cons]
  congr 2
  funext level loop
  rw [Nat.zero_add, Nat.add_comm]

end Fill

theorem places_cell (level pos : Nat) (before after : List (Raw V)) (c c' : Cell V) :
    places level pos (before ++ .cell c :: after) = places level pos (before ++ .cell c' :: after) := by
  rw [places_append, places_append, places, places]

theorem fill_cell (base pos : Nat) (before after : List (Raw V)) (c c' : Cell V) (loops : List Loop) :
    fill base pos (before ++ .cell c :: after) loops =
      fill base pos (before ++ .cell c' :: after) loops := by
  unfold fill
  congr 1
  funext level loop
  rw [places_cell]

/-- What statements have emitted since `start`: `base` is one inside a construct with an end that is
no loop's. -/
structure Fills (base : Nat) (start state : State V) (code : List (Raw V)) (height peak : Nat) :
    Prop where
  cells : state.cells = start.cells ++ code.map Raw.unresolved
  curStack : state.curStack = height
  maxStack : state.maxStack = max start.maxStack peak
  savedStack : state.savedStack = none
  loops : state.loops = fill base start.cells.length code start.loops

namespace Fills

variable {base height peak : Nat} {start state : State V} {code : List (Raw V)}

theorem nothing (base : Nat) (start : State V) (saved : start.savedStack = none) :
    Fills base start start [] start.curStack 0 where
  cells := (List.append_nil _).symm
  curStack := rfl
  maxStack := (Nat.max_zero _).symm
  savedStack := saved
  loops := (fill_none _ _ _ _ fun _ => rfl).symm

theorem place (fills : Fills base start state code height peak) :
    state.cells.length = start.cells.length + code.length := by
  rw [fills.cells, List.length_append, List.length_map]

theorem info (fills : Fills base start state code height peak) :
    state.loops.map Loop.toLoopInfo = start.loops.map Loop.toLoopInfo := by
  rw [fills.loops, fill_info]

theorem same {code' : List (Raw V)} {height' peak' : Nat}
    (fills : Fills base start state code height peak) (sameCode : code = code')
    (sameHeight : height = height') (samePeak : peak = peak') :
    Fills base start state code' height' peak' := by
  rw [← sameCode, ← sameHeight, ← samePeak]
  exact fills

theorem shape {code' : List (Raw V)} (fills : Fills base start state code height peak)
    (sameCode : code = code') : Fills base start state code' height peak :=
  fills.same sameCode rfl rfl

theorem emit (fills : Fills base start state code height peak) (cell : Cell V) :
    Fills base start (emit cell state) (code ++ [.cell cell]) height peak where
  cells := by
    rw [Code.emit, fills.cells, List.map_append, List.append_assoc]
    rfl
  curStack := fills.curStack
  maxStack := fills.maxStack
  savedStack := fills.savedStack
  loops := by
    show state.loops = _
    rw [fills.loops, ← fill_append]
    exact (fill_none _ _ _ _ fun _ => rfl).symm

theorem emits_extended (fills : Fills base start state code height peak) (op : ExtendedOpcode) :
    Fills base start (emitExtendedByte op state) (code ++ raw (extendedCode op)) height peak := by
  have both := (fills.emit (.op .extended)).emit (.eop op)
  rw [List.append_assoc] at both
  exact both

theorem push (fills : Fills base start state code height peak) (n : Nat) :
    Fills base start (pushStack n state) code (height + n) (max peak (height + n)) where
  cells := fills.cells
  curStack := by rw [pushStack, fills.curStack]
  maxStack := by rw [pushStack, fills.maxStack, fills.curStack, Nat.max_assoc]
  savedStack := fills.savedStack
  loops := fills.loops

theorem pop (fills : Fills base start state code height peak) (n : Nat) :
    Fills base start (popStack n state) code (height - n) peak where
  cells := fills.cells
  curStack := by rw [popStack, fills.curStack]
  maxStack := fills.maxStack
  savedStack := fills.savedStack
  loops := fills.loops

theorem embed {state' : State V} {height' peak' : Nat} {cells : List (Cell V)}
    (fills : Fills base start state code height peak)
    (emits : Emits state state' cells height' none peak') :
    Fills base start state' (code ++ raw cells) height' (max peak peak') where
  cells := by
    rw [emits.cells, fills.cells, List.map_append, unresolved_raw, List.append_assoc]
  curStack := emits.curStack
  maxStack := by rw [emits.maxStack, fills.maxStack, Nat.max_assoc]
  savedStack := emits.savedStack
  loops := by
    rw [emits.loops, fills.loops, ← fill_append]
    exact (fill_none _ _ _ _ fun level => places_raw ..).symm

theorem expr (fills : Fills base start state code height peak) {expr : Expr V}
    (ok : exprScoped false expr = true) : ∃ state', generateExpr expr state = some state' ∧
      Fills base start state'
        (code ++ raw (exprCode (start.cells.length + code.length) height none expr)) (height + 1)
        (max peak (exprPeak height expr)) := by
  have known := fills.savedStack
  obtain ⟨state', ran, emits⟩ := generates_expr expr state (by rwa [known])
  rw [fills.place, fills.curStack, known] at emits
  exact ⟨state', ran, fills.embed emits⟩

theorem andThen {state' : State V} {code' : List (Raw V)} {height' peak' : Nat}
    (fills : Fills base start state code height peak)
    (further : Fills base state state' code' height' peak') :
    Fills base start state' (code ++ code') height' (max peak peak') where
  cells := by rw [further.cells, fills.cells, List.map_append, List.append_assoc]
  curStack := further.curStack
  maxStack := by rw [further.maxStack, fills.maxStack, Nat.max_assoc]
  savedStack := further.savedStack
  loops := by rw [further.loops, fills.loops, fills.place, fill_append]

theorem inside {state' : State V} {code' : List (Raw V)} {height' peak' : Nat}
    (fills : Fills 1 start state code height peak)
    (further : Fills 0 state state' code' height' peak') :
    Fills 1 start state' (code ++ code'.map Raw.lift) height' (max peak peak') where
  cells := by
    rw [further.cells, fills.cells, List.map_append, unresolved_lift, List.append_assoc]
  curStack := further.curStack
  maxStack := by rw [further.maxStack, fills.maxStack, Nat.max_assoc]
  savedStack := further.savedStack
  loops := by rw [further.loops, fills.loops, fills.place, fill_lift]

theorem hole (fills : Fills 1 start state code height peak) :
    Fills 1 start (Code.emit (.label 0) state) (code ++ [.hole 0]) height peak where
  cells := by
    rw [Code.emit, fills.cells, List.map_append, List.append_assoc]
    rfl
  curStack := fills.curStack
  maxStack := fills.maxStack
  savedStack := fills.savedStack
  loops := by
    show state.loops = _
    rw [fills.loops, ← fill_append]
    refine (fill_none _ _ _ _ fun level => ?_).symm
    have apart : 0 ≠ 1 + level := by omega
    simp [places, apart]

theorem linked (fills : Fills 1 start state code height peak) :
    addLinkedLabel (places 0 start.cells.length code) state =
      (places 0 start.cells.length (code ++ [.hole 0]), Code.emit (.label 0) state) := by
  rw [addLinkedLabel, fills.place, places_append]
  rfl

theorem close (fills : Fills 1 start state code height peak) :
    Fills 0 start (defineLabel (places 0 start.cells.length code) state)
      (closed start.cells.length code) height peak where
  cells := by
    rw [defineLabel, fills.place, fills.cells]
    exact patch_places _ _ _
  curStack := fills.curStack
  maxStack := fills.maxStack
  savedStack := fills.savedStack
  loops := by
    show state.loops = _
    rw [fills.loops, closed, fill_leave]

theorem define {before after : List (Raw V)} {cell : Cell V}
    (fills : Fills base start state (before ++ .cell cell :: after) height peak) (label : Nat)
    (here : label = start.cells.length + before.length) :
    Fills base start (defineLabel [label] state)
      (before ++ .cell (.label (start.cells.length + before.length + 1 + after.length)) :: after)
      height peak where
  cells := by
    have value := fills.place
    rw [List.length_append, List.length_cons] at value
    have cells : state.cells = (start.cells ++ before.map Raw.unresolved) ++
        cell :: after.map Raw.unresolved := by
      rw [fills.cells, List.map_append, List.map_cons, List.append_assoc]
      rfl
    have length : label = (start.cells ++ before.map Raw.unresolved).length := by
      rw [here, List.length_append, List.length_map]
    have place : state.cells.length = start.cells.length + before.length + 1 + after.length := by
      omega
    rw [defineLabel, patch, List.foldl_cons, List.foldl_nil, place, cells, length,
      Placing.set_placed, List.append_assoc, List.map_append, List.map_cons]
    rfl
  curStack := fills.curStack
  maxStack := fills.maxStack
  savedStack := fills.savedStack
  loops := by
    show state.loops = _
    rw [fills.loops]
    exact fill_cell ..

theorem loop (fills : Fills 1 start state code height peak) (info : LoopInfo) {state' : State V}
    {code' : List (Raw V)} {height' peak' : Nat}
    (body : Fills 0 (enterLoop ⟨info, places 0 start.cells.length code⟩ state) state' code' height'
      peak') :
    ∃ left, exitLoop state' = some (places 0 start.cells.length (code ++ code'), left) ∧
      Fills 1 start left (code ++ code') height' (max peak peak') := by
  have loops := body.loops
  rw [enterLoop, fill_cons] at loops
  refine ⟨{ state' with loops := fill 1 state.cells.length code' state.loops }, ?_, ?_⟩
  · rw [exitLoop, loops, places_append, fills.place]
  · constructor
    · show state'.cells = _
      rw [body.cells, enterLoop, fills.cells, List.map_append, List.append_assoc]
    · exact body.curStack
    · show state'.maxStack = _
      rw [body.maxStack, enterLoop, fills.maxStack, Nat.max_assoc]
    · exact body.savedStack
    · show fill 1 state.cells.length code' state.loops = _
      rw [fills.loops, fills.place, fill_append]

end Fills

end ToastStunt.Code
