import ToastStunt.Code.Patching

/-!
The generator lays out a statement as Layout says, and `stmt_to_code` never panics on what the
parser lets through: each exit finds its loop, each label has been defined at the end and the
tracked height is back at nothing.
-/

namespace ToastStunt.Code

variable {V : Type}

def State.infos (state : State V) : List LoopInfo := state.loops.map Loop.toLoopInfo

def loopNames (infos : List LoopInfo) : LoopNames := infos.map fun info => (info.id, info.index)

theorem Fills.sameInfos {base height peak : Nat} {start state : State V} {code : List (Raw V)}
    (fills : Fills base start state code height peak) : state.infos = start.infos := fills.info

/-- A part of the generator of statements does not panic, emits the code for the place, the height
and the loops that it finds and leaves the height as it was. -/
def Builds (gen : State V → Option (State V)) (allowed : LoopNames → Bool)
    (code : Nat → Nat → List LoopInfo → List (Raw V)) (peak : Nat → Nat) : Prop :=
  ∀ state : State V, state.savedStack = none → allowed (loopNames state.infos) = true →
    ∃ state', gen state = some state' ∧
      Fills 0 state state' (code state.cells.length state.curStack state.infos) state.curStack
        (peak state.curStack)

abbrev BuildsStmt (stmt : Stmt V) : Prop :=
  Builds (generateStmt stmt) (stmtScoped · stmt)
    (fun pos height loops => stmtRaw pos height loops stmt) (stmtPeak · stmt)

abbrev BuildsStmts (stmts : Stmts V) : Prop :=
  Builds (generateStmts stmts) (stmtsScoped · stmts)
    (fun pos height loops => stmtsRaw pos height loops stmts) (stmtsPeak · stmts)

section Parts

variable {base height peak : Nat} {start state : State V} {code : List (Raw V)}
  {gen : State V → Option (State V)} {allowed : LoopNames → Bool}
  {layout : Nat → Nat → List LoopInfo → List (Raw V)} {peak' : Nat → Nat}

theorem Fills.part (fills : Fills base start state code height peak)
    (builds : Builds gen allowed layout peak') (ok : allowed (loopNames start.infos) = true) :
    ∃ state', gen state = some state' ∧ Fills 0 state state'
      (layout (start.cells.length + code.length) height start.infos) height (peak' height) := by
  obtain ⟨state', ran, further⟩ :=
    builds state fills.savedStack (by rwa [fills.sameInfos])
  rw [fills.place, fills.curStack, fills.sameInfos] at further
  exact ⟨state', ran, further⟩

theorem Fills.step (fills : Fills 0 start state code height peak)
    (builds : Builds gen allowed layout peak') (ok : allowed (loopNames start.infos) = true) :
    ∃ state', gen state = some state' ∧ Fills 0 start state'
      (code ++ layout (start.cells.length + code.length) height start.infos) height
      (max peak (peak' height)) := by
  obtain ⟨state', ran, further⟩ := fills.part builds ok
  exact ⟨state', ran, fills.andThen further⟩

theorem Fills.stepInside (fills : Fills 1 start state code height peak)
    (builds : Builds gen allowed layout peak') (ok : allowed (loopNames start.infos) = true) :
    ∃ state', gen state = some state' ∧ Fills 1 start state'
      (code ++ (layout (start.cells.length + code.length) height start.infos).map Raw.lift) height
      (max peak (peak' height)) := by
  obtain ⟨state', ran, further⟩ := fills.part builds ok
  exact ⟨state', ran, fills.inside further⟩

theorem Fills.stepLoop (fills : Fills 1 start state code height peak) (info : LoopInfo)
    (builds : Builds gen allowed layout peak')
    (ok : allowed (loopNames (info :: start.infos)) = true) :
    ∃ state' left, gen (enterLoop ⟨info, places 0 start.cells.length code⟩ state) = some state' ∧
      exitLoop state' = some (places 0 start.cells.length
        (code ++ layout (start.cells.length + code.length) height (info :: start.infos)), left) ∧
      Fills 1 start left (code ++ layout (start.cells.length + code.length) height
        (info :: start.infos)) height (max peak (peak' height)) := by
  have infos : (enterLoop ⟨info, places 0 start.cells.length code⟩ state).infos =
      info :: start.infos := by
    show info :: state.infos = _
    rw [fills.sameInfos]
  obtain ⟨state', ran, further⟩ :=
    builds (enterLoop ⟨info, places 0 start.cells.length code⟩ state) fills.savedStack
      (by rwa [infos])
  have place : (enterLoop ⟨info, places 0 start.cells.length code⟩ state).cells.length =
      start.cells.length + code.length := fills.place
  have curStack : (enterLoop ⟨info, places 0 start.cells.length code⟩ state).curStack = height :=
    fills.curStack
  rw [place, curStack, infos] at further
  obtain ⟨left, ended, filled⟩ := fills.loop info further
  exact ⟨state', left, ran, ended, filled⟩

end Parts

section Kinds

variable {expr : Expr V} {body handler otherwise : Stmts V}

@[simp] theorem raw_append (a b : List (Cell V)) : raw (a ++ b) = raw a ++ raw b := List.map_append ..

@[simp] theorem raw_nil : raw ([] : List (Cell V)) = [] := rfl

@[simp] theorem raw_cons (c : Cell V) (rest : List (Cell V)) : raw (c :: rest) = .cell c :: raw rest := rfl

@[simp] theorem raw_length (code : List (Cell V)) : (raw code).length = code.length := List.length_map _

@[simp] theorem closed_length (pos : Nat) (code : List (Raw V)) :
    (closed pos code).length = code.length := List.length_map _

section Emitting

variable {base height peak : Nat} {start state : State V} {code : List (Raw V)}

theorem Fills.emits_put (fills : Fills base start state code height peak) (slot : Nat) :
    Fills base start (emitPut slot state) (code ++ raw (putCode slot)) height peak := by
  unfold emitPut putCode
  split
  · exact ((fills.emit (.op .gPut)).emit (.varRef slot)).shape (by simp)
  · exact fills.emit (.op (.put slot))

theorem Fills.emits_caught (fills : Fills base start state code height peak) (id : Option Nat) :
    Fills base start (emitCaught id state) (code ++ raw (caughtCode id)) height peak := by
  cases id with
  | none => exact fills.emit _
  | some id => exact ((fills.emits_put id).emit (.op .pop)).shape (by simp [caughtCode])

theorem Fills.emits_while (fills : Fills base start state code height peak) (id : Option Nat) :
    Fills base start (emitWhile id state) (code ++ raw (whileCode id)) height peak := by
  cases id with
  | none => exact fills.emit _
  | some id => exact ((fills.emits_extended .whileId).emit (.varRef id)).shape (by simp [whileCode])

theorem Fills.emits_varRefs (fills : Fills base start state code height peak) (id : Nat)
    (index : Option Nat) :
    Fills base start (addVarRefs id index state) (code ++ raw (varRefsCode id index)) height peak := by
  cases index with
  | none => exact ((fills.emits_extended .forList1).emit (.varRef id)).shape (by simp [varRefsCode])
  | some index =>
      exact (((fills.emits_extended .forList2).emit (.varRef id)).emit (.varRef index)).shape
        (by simp [varRefsCode])

theorem Fills.emits_exit (fills : Fills base start state code height peak) (exit : Option Nat) :
    Fills base start (emitExit exit state) (code ++ raw (exitCode exit)) height peak := by
  cases exit with
  | none => exact fills.emits_extended .exit
  | some id => exact ((fills.emits_extended .exitId).emit (.varRef id)).shape (by simp [exitCode])

end Emitting

attribute [local simp] emitOp

theorem builds_expr : BuildsStmt (.expr expr) := by
  intro state saved allowed
  simp only [stmtScoped] at allowed
  obtain ⟨state1, ran, fills1⟩ := (Fills.nothing 0 state saved).expr allowed
  refine ⟨_, ?_, ((fills1.emit (.op .pop)).pop 1).same ?_ rfl ?_⟩
  · simp [generateStmt, ran]
  · simp [stmtRaw]
  · simp [stmtPeak]

theorem builds_return : BuildsStmt (.return expr) := by
  intro state saved allowed
  simp only [stmtScoped] at allowed
  obtain ⟨state1, ran, fills1⟩ := (Fills.nothing 0 state saved).expr allowed
  refine ⟨_, ?_, ((fills1.emit (.op .return)).pop 1).same ?_ rfl ?_⟩
  · simp [generateStmt, ran]
  · simp [stmtRaw]
  · simp [stmtPeak]

theorem builds_returnZero : BuildsStmt (V := V) .returnZero := by
  intro state saved allowed
  refine ⟨_, generateStmt_returnZero state, ?_⟩
  refine ((Fills.nothing 0 state saved).emit (.op .returnZero)).same ?_ rfl ?_
  · beta_reduce
    rw [stmtRaw_returnZero]
    rfl
  · beta_reduce
    rw [stmtPeak_returnZero]

theorem Fills.first {height peak : Nat} {start state : State V} {code : List (Raw V)}
    (fills : Fills 1 start state code height peak) (none : places 0 start.cells.length code = []) :
    addLabel state = (places 0 start.cells.length (code ++ [.hole 0]), Code.emit (.label 0) state) := by
  rw [addLabel, ← none]
  exact fills.linked

theorem builds_loop (id : Option Nat) (inside : BuildsStmts body) :
    BuildsStmt (.loop id expr body) := by
  intro state saved allowed
  simp only [stmtScoped, Bool.and_eq_true] at allowed
  obtain ⟨state1, ran1, fills1⟩ := (Fills.nothing 1 state saved).expr allowed.1
  have tested := fills1.emits_while id
  have label := tested.first (by simp [places_append])
  have entered := tested.hole.pop 1
  have height := entered.curStack
  obtain ⟨state2, left, ran2, ended, fills2⟩ := entered.stepLoop
    ⟨id, none, state.cells.length, state.curStack, state.curStack⟩ inside allowed.2
  have jumped := (fills2.emit (.op .jump)).emit (.label state.cells.length)
  refine ⟨_, ?_, jumped.close.same ?_ rfl ?_⟩
  · rw [Nat.add_sub_cancel] at height
    rw [generateStmt, ran1]
    simp only [Option.bind_eq_bind, Option.bind_some, captureLabel, label, height, ran2, ended]
    rw [places_snoc, places_snoc]
    rfl
  · simp +arith [stmtRaw]
  · simp [stmtPeak]

theorem builds_list (id : Nat) (index : Option Nat) (inside : BuildsStmts body) :
    BuildsStmt (.list id index expr body) := by
  intro state saved allowed
  simp only [stmtScoped, Bool.and_eq_true] at allowed
  let code := exprCode state.cells.length state.curStack none expr ++ [.op .imm, .noneLiteral]
  obtain ⟨state1, ran1, fills1⟩ := (Fills.nothing 1 state saved).expr allowed.1
  have header := ((fills1.emit (.op .imm)).emit .noneLiteral).push 1
  have top := (header.shape (show _ = raw code by simp [code])).place
  have tested := header.emits_varRefs id index
  have label := tested.first (by simp [places_append, places])
  have height := tested.hole.curStack
  obtain ⟨state2, left, ran2, ended, fills2⟩ := tested.hole.stepLoop
    ⟨some id, index, state.cells.length + (raw code).length, state.curStack + 1 + 1,
      state.curStack + 1 + 1 - 2⟩ inside allowed.2
  have jumped := (fills2.emit (.op .jump)).emit (.label (state.cells.length + (raw code).length))
  refine ⟨_, ?_, (jumped.close.pop 2).same ?_ rfl ?_⟩
  · rw [generateStmt, ran1]
    simp only [Option.bind_eq_bind, Option.bind_some, captureLabel, addNone, emitOp, top, label, height,
      ran2, ended]
    rw [places_snoc, places_snoc]
    rfl
  · simp +arith [stmtRaw, code]
  · simp [stmtPeak]

theorem builds_range (id : Nat) {start stop : Expr V} (inside : BuildsStmts body) :
    BuildsStmt (.range id start stop body) := by
  intro state saved allowed
  simp only [stmtScoped, Bool.and_eq_true] at allowed
  let first := exprCode state.cells.length state.curStack none start
  let code := first ++ exprCode (state.cells.length + first.length) (state.curStack + 1) none stop
  obtain ⟨state1, ran1, fills1⟩ := (Fills.nothing 1 state saved).expr allowed.1.1
  obtain ⟨state2, ran2, fills2⟩ := fills1.expr allowed.1.2
  have top := (fills2.shape (show _ = raw code by simp [code, first])).place
  have tested := (fills2.emit (.op .forRange)).emit (.varRef id)
  have label := tested.first (by simp [places_append, places])
  have height := tested.hole.curStack
  obtain ⟨state3, left, ran3, ended, fills3⟩ := tested.hole.stepLoop
    ⟨some id, none, state.cells.length + (raw code).length, state.curStack + 1 + 1,
      state.curStack + 1 + 1 - 2⟩ inside allowed.2
  have jumped := (fills3.emit (.op .jump)).emit (.label (state.cells.length + (raw code).length))
  refine ⟨_, ?_, (jumped.close.pop 2).same ?_ rfl ?_⟩
  · rw [generateStmt, ran1]
    simp only [Option.bind_eq_bind, Option.bind_some, ran2, captureLabel, addVarRef, emitOp, top, label,
      height, ran3, ended]
    rw [places_snoc, places_snoc]
    rfl
  · simp +arith [stmtRaw, code, first]
  · simp [stmtPeak, Nat.max_assoc]

theorem builds_tryFinally (attempt : BuildsStmts body) (rescue : BuildsStmts handler) :
    BuildsStmt (.tryFinally body handler) := by
  intro state saved allowed
  simp only [stmtScoped, Bool.and_eq_true] at allowed
  have named := (Fills.nothing 0 state saved).emits_extended .tryFinally
  obtain ⟨state1, ran1, fills1⟩ := ((named.emit (.label 0)).push 1).step attempt allowed.1
  have left := ((fills1.emits_extended .endFinally).pop 1).shape (label_at (append_behind rfl _))
  have defined := left.define _ named.place
  obtain ⟨state2, ran2, fills2⟩ := (defined.push 2).step rescue allowed.2
  refine ⟨_, ?_, ((fills2.emits_extended .continue).pop 2).same ?_ rfl ?_⟩
  · simp [generateStmt, addLabel, addLinkedLabel, ran1, ran2]
  · simp +arith [stmtRaw, extendedCode]
  · simp [stmtPeak, Nat.max_assoc]

theorem hasLoop_level {exit : Option Nat} {loops : List LoopInfo}
    (known : hasLoop (loopNames loops) exit = true) : findLevel exit loops < loops.length := by
  cases exit with
  | none =>
      cases loops with
      | nil => simp [hasLoop, loopNames] at known
      | cons loop rest => exact Nat.succ_pos _
  | some id =>
      rw [findLevel, List.findIdx_lt_length]
      simpa [hasLoop, loopNames] using known

theorem exit_loop {exit : Option Nat} {loops : List Loop}
    (known : hasLoop (loopNames (loops.map Loop.toLoopInfo)) exit = true) :
    ∃ loop, loops[findLevel exit (loops.map Loop.toLoopInfo)]? = some loop ∧
      (loops.map Loop.toLoopInfo)[findLevel exit (loops.map Loop.toLoopInfo)]? = some loop.toLoopInfo := by
  have inside := hasLoop_level known
  rw [List.length_map] at inside
  refine ⟨loops[findLevel exit (loops.map Loop.toLoopInfo)], List.getElem?_eq_getElem inside, ?_⟩
  rw [List.getElem?_map, List.getElem?_eq_getElem inside]
  rfl

theorem emitExit_loops (exit : Option Nat) (state : State V) : (emitExit exit state).loops = state.loops := by
  cases exit <;> rfl

theorem builds_continue (exit : Option Nat) : BuildsStmt (V := V) (.continue exit) := by
  intro state saved allowed
  simp only [stmtScoped] at allowed
  obtain ⟨loop, found, info⟩ := exit_loop allowed
  have left := (Fills.nothing 0 state saved).emits_exit exit
  refine ⟨_, ?_, ((left.emit (.stack loop.topStack)).emit (.label loop.topLabel)).same ?_ rfl ?_⟩
  · simp [generateStmt, emitExit_loops, found, addKnownLabel, addStackRef]
  · simp [stmtRaw, State.infos, info]
  · simp [stmtPeak]

theorem fill_hole {pos level : Nat} {loops : List Loop} {loop : Loop} (found : loops[level]? = some loop) :
    fill 0 pos [.hole (V := V) level] loops =
      loops.set level { loop with bottomLabel := pos :: loop.bottomLabel } := by
  apply List.ext_getElem?
  intro other
  rw [fill, List.getElem?_mapIdx, List.getElem?_set]
  by_cases same : level = other
  · subst same
    obtain ⟨inside, rfl⟩ := List.getElem?_eq_some_iff.mp found
    simp [places, inside]
  · cases loops[other]? <;> simp [places, same]

theorem Fills.link {height peak level : Nat} {start state : State V} {code : List (Raw V)} {loop : Loop}
    (fills : Fills 0 start state code height peak) (found : state.loops[level]? = some loop) :
    Fills 0 start
      { Code.emit (.label 0) state with
        loops := state.loops.set level
          { loop with bottomLabel := state.cells.length :: loop.bottomLabel } }
      (code ++ [.hole level]) height peak where
  cells := by
    rw [Code.emit, fills.cells, List.map_append, List.append_assoc]
    rfl
  curStack := fills.curStack
  maxStack := fills.maxStack
  savedStack := fills.savedStack
  loops := by rw [← fill_append, ← fills.loops, ← fills.place, fill_hole found]

theorem builds_break (exit : Option Nat) : BuildsStmt (V := V) (.break exit) := by
  intro state saved allowed
  simp only [stmtScoped] at allowed
  obtain ⟨loop, found, info⟩ := exit_loop allowed
  have left := ((Fills.nothing 0 state saved).emits_exit exit).emit (.stack loop.bottomStack)
  have known : (emit (.stack loop.bottomStack) (emitExit exit state)).loops[findLevel exit
      (state.loops.map Loop.toLoopInfo)]? = some loop := by rwa [emit, emitExit_loops]
  refine ⟨_, ?_, (left.link known).same ?_ rfl ?_⟩
  · simp only [generateStmt, emitExit_loops, Option.bind_eq_bind, found, Option.bind_some, addStackRef,
      addLinkedLabel]
    rfl
  · simp [stmtRaw, State.infos, info]
  · simp [stmtPeak]

theorem Fills.finish {height peak : Nat} {state : State V} {code : List (Raw V)}
    (fills : Fills 0 initState state code height peak) (empty : height = 0) :
    finish state = some ⟨code.map Raw.unresolved ++ [.op .done], peak⟩ := by
  have balanced : state.curStack = 0 ∧ state.savedStack = none :=
    ⟨fills.curStack.trans empty, fills.savedStack⟩
  rw [Code.finish, if_pos balanced, emitOp, Code.emit, fills.cells, fills.maxStack]
  simp [initState]

theorem Builds.finished {stmts : Stmts V} (builds : BuildsStmts stmts)
    (allowed : stmtsScoped [] stmts = true) :
    (generateStmts stmts initState).bind finish = some ⟨vectorCode stmts, stmtsPeak 0 stmts⟩ := by
  obtain ⟨state, ran, fills⟩ := builds initState rfl allowed
  rw [ran]
  exact fills.finish rfl

theorem Fills.emits_fork {base height peak : Nat} {start state : State V} {code : List (Raw V)}
    (fills : Fills base start state code height peak) (id : Option Nat) (vector : List (Cell V))
    (maxStack : Nat) :
    Fills base start (match id with
      | none => Code.emit (.fork vector maxStack) (Code.emit (.op .fork) state)
      | some id => addVarRef id (Code.emit (.fork vector maxStack) (Code.emit (.op .forkWithId) state)))
      (code ++ raw (forkCode id vector maxStack)) height peak := by
  cases id with
  | none => exact ((fills.emit (.op .fork)).emit (.fork vector maxStack)).shape (by simp [forkCode])
  | some id =>
      exact (((fills.emit (.op .forkWithId)).emit (.fork vector maxStack)).emit (.varRef id)).shape
        (by simp [forkCode])

theorem builds_fork (id : Option Nat) (inside : BuildsStmts body) : BuildsStmt (.fork id expr body) := by
  intro state saved allowed
  simp only [stmtScoped, Bool.and_eq_true] at allowed
  obtain ⟨state1, ran1, fills1⟩ := (Fills.nothing 0 state saved).expr allowed.1
  have forked := fills1.emits_fork id (vectorCode body) (stmtsPeak 0 body)
  refine ⟨_, ?_, (forked.pop 1).same ?_ rfl ?_⟩
  · rw [generateStmt, ran1]
    simp only [Option.bind_eq_bind, Option.bind_some, Builds.finished inside allowed.2]
    cases id <;> rfl
  · simp [stmtRaw, vectorCode]
  · simp [stmtPeak]

theorem builds_stmts_nil : BuildsStmts (V := V) .nil := by
  intro state saved allowed
  refine ⟨_, generateStmts_nil state, ?_⟩
  refine (Fills.nothing 0 state saved).same ?_ rfl ?_
  · exact (stmtsRaw_nil ..).symm
  · exact (stmtsPeak_nil ..).symm

theorem builds_stmts_cons {stmt : Stmt V} {next : Stmts V} (first : BuildsStmt stmt)
    (rest : BuildsStmts next) : BuildsStmts (.cons stmt next) := by
  intro state saved allowed
  simp only [stmtsScoped, Bool.and_eq_true] at allowed
  obtain ⟨state1, ran1, fills1⟩ := (Fills.nothing 0 state saved).step first allowed.1
  obtain ⟨state2, ran2, fills2⟩ := fills1.step rest allowed.2
  refine ⟨_, ?_, fills2.same ?_ rfl ?_⟩
  · simp [generateStmts, ran1, ran2]
  · simp [stmtsRaw]
  · simp [stmtsPeak]

/-- `ends` is the chain of the jumps to the end of a construct that is no loop. -/
structure Chained (start state : State V) (code : List (Raw V)) (ends : List Nat) (height peak : Nat) :
    Prop where
  fills : Fills 1 start state code height peak
  chain : ends = places 0 start.cells.length code

namespace Chained

variable {start state : State V} {code : List (Raw V)} {ends : List Nat} {height peak : Nat}

theorem nothing (start : State V) (saved : start.savedStack = none) :
    Chained start start [] [] start.curStack 0 := ⟨Fills.nothing 1 start saved, rfl⟩

theorem same {code' : List (Raw V)} {height' peak' : Nat}
    (chained : Chained start state code ends height peak) (sameCode : code = code')
    (sameHeight : height = height') (samePeak : peak = peak') :
    Chained start state code' ends height' peak' := by
  rw [← sameCode, ← sameHeight, ← samePeak]
  exact chained

theorem shape {code' : List (Raw V)} (chained : Chained start state code ends height peak)
    (sameCode : code = code') : Chained start state code' ends height peak :=
  chained.same sameCode rfl rfl

theorem emit (chained : Chained start state code ends height peak) (cell : Cell V) :
    Chained start (Code.emit cell state) (code ++ [.cell cell]) ends height peak :=
  ⟨chained.fills.emit cell, by rw [places_snoc, chained.chain]⟩

theorem emits_extended (chained : Chained start state code ends height peak) (op : ExtendedOpcode) :
    Chained start (emitExtendedByte op state) (code ++ raw (extendedCode op)) ends height peak := by
  have both := (chained.emit (.op .extended)).emit (.eop op)
  rw [List.append_assoc] at both
  exact both

theorem emits_caught (chained : Chained start state code ends height peak) (id : Option Nat) :
    Chained start (emitCaught id state) (code ++ raw (caughtCode id)) ends height peak :=
  ⟨chained.fills.emits_caught id, by rw [places_append, places_raw, chained.chain, List.nil_append]⟩

theorem push (chained : Chained start state code ends height peak) (n : Nat) :
    Chained start (pushStack n state) code ends (height + n) (max peak (height + n)) :=
  ⟨chained.fills.push n, chained.chain⟩

theorem pop (chained : Chained start state code ends height peak) (n : Nat) :
    Chained start (popStack n state) code ends (height - n) peak :=
  ⟨chained.fills.pop n, chained.chain⟩

theorem embed {state' : State V} {height' peak' : Nat} {cells : List (Cell V)}
    (chained : Chained start state code ends height peak)
    (emits : Emits state state' cells height' none peak') :
    Chained start state' (code ++ raw cells) ends height' (max peak peak') :=
  ⟨chained.fills.embed emits, by rw [places_append, places_raw, chained.chain, List.nil_append]⟩

theorem stepExpr (chained : Chained start state code ends height peak) {expr : Expr V}
    (ok : exprScoped false expr = true) : ∃ state', generateExpr expr state = some state' ∧
      Chained start state'
        (code ++ raw (exprCode (start.cells.length + code.length) height none expr)) ends (height + 1)
        (max peak (exprPeak height expr)) := by
  obtain ⟨state', ran, fills⟩ := chained.fills.expr ok
  exact ⟨state', ran, fills, by rw [places_append, places_raw, chained.chain, List.nil_append]⟩

theorem step (chained : Chained start state code ends height peak)
    {gen : State V → Option (State V)} {allowed : LoopNames → Bool}
    {layout : Nat → Nat → List LoopInfo → List (Raw V)} {peak' : Nat → Nat}
    (builds : Builds gen allowed layout peak') (ok : allowed (loopNames start.infos) = true) :
    ∃ state', gen state = some state' ∧ Chained start state'
      (code ++ (layout (start.cells.length + code.length) height start.infos).map Raw.lift) ends height
      (max peak (peak' height)) := by
  obtain ⟨state', ran, fills⟩ := chained.fills.stepInside builds ok
  exact ⟨state', ran, fills, by rw [places_append, places_lift_zero, chained.chain, List.nil_append]⟩

theorem link (chained : Chained start state code ends height peak) :
    Chained start (Code.emit (.label 0) state) (code ++ [.hole 0]) (state.cells.length :: ends) height
      peak := by
  refine ⟨chained.fills.hole, ?_⟩
  rw [chained.fills.place, places_append, chained.chain]
  rfl

theorem define {before after : List (Raw V)} {cell : Cell V}
    (chained : Chained start state (before ++ .cell cell :: after) ends height peak) (label : Nat)
    (here : label = start.cells.length + before.length) :
    Chained start (defineLabel [label] state)
      (before ++ .cell (.label (start.cells.length + before.length + 1 + after.length)) :: after) ends
      height peak :=
  ⟨chained.fills.define label here, chained.chain.trans (places_cell ..)⟩

theorem close (chained : Chained start state code ends height peak) :
    Fills 0 start (defineLabel ends state) (closed start.cells.length code) height peak := by
  rw [chained.chain]
  exact chained.fills.close

end Chained

def BuildsArms (arms : CondArms V) : Prop :=
  ∀ {start state : State V} {code : List (Raw V)} {ends : List Nat} {height peak : Nat} (ifOp : Opcode),
    Chained start state code ends height peak → armsScoped (loopNames start.infos) arms = true →
    ∃ ends' state', generateArms ifOp arms ends state = some (ends', state') ∧
      Chained start state'
        (code ++ armsRaw (start.cells.length + code.length) height start.infos ifOp arms) ends' height
        (max peak (armsPeak height arms))

theorem builds_arms_nil : BuildsArms (V := V) .nil := by
  intro start state code ends height peak ifOp chained allowed
  refine ⟨ends, state, generateArms_nil .., chained.same ?_ rfl ?_⟩
  · rw [armsRaw_nil, List.append_nil]
  · rw [armsPeak_nil, Nat.max_zero]

theorem builds_arms_cons {condition : Expr V} {stmt : Stmts V} {next : CondArms V}
    (inside : BuildsStmts stmt) (rest : BuildsArms next) : BuildsArms (.cons condition stmt next) := by
  intro start state code ends height peak ifOp chained allowed
  simp only [armsScoped, Bool.and_eq_true] at allowed
  obtain ⟨state1, ran1, chained1⟩ := chained.stepExpr allowed.1.1
  have tested := chained1.emit (.op ifOp)
  obtain ⟨state2, ran2, chained2⟩ := ((tested.emit (.label 0)).pop 1).step inside allowed.1.2
  have jumped := ((chained2.emit (.op .jump)).link).shape (label_at (append_behind (append_behind rfl _) _))
  obtain ⟨ends', state3, ran3, chained3⟩ :=
    rest .eif (jumped.define _ tested.fills.place) allowed.2
  refine ⟨ends', state3, ?_, chained3.same ?_ rfl ?_⟩
  · rw [generateArms, ran1]
    simp only [Option.bind_eq_bind, Option.bind_some, addLabel, addLinkedLabel, emitOp, ran2]
    exact ran3
  · simp +arith [armsRaw]
  · simp [armsPeak, Nat.max_assoc]

theorem builds_cond {arms : CondArms V} (first : BuildsArms arms) (second : BuildsStmts otherwise) :
    BuildsStmt (.cond arms otherwise) := by
  intro state saved allowed
  simp only [stmtScoped, Bool.and_eq_true] at allowed
  obtain ⟨ends, state1, ran1, chained1⟩ := first .if (Chained.nothing state saved) allowed.1
  obtain ⟨state2, ran2, chained2⟩ := chained1.step second allowed.2
  refine ⟨_, ?_, chained2.close.same ?_ rfl ?_⟩
  · simp [generateStmt, ran1, ran2]
  · simp [stmtRaw]
  · simp [stmtPeak]

end Kinds

section Handlers

def pendingHandlers (pos top : Nat) : ExceptArms V → List (Cell V)
  | .nil => []
  | .cons _ codes _ next =>
      let handled := codesCode codes (argListCode pos top none codes)
      handled ++ extendedCode .pushLabel ++ [.label 0] ++
        pendingHandlers (pos + handled.length + 3) (top + 2) next

def handlerPlaces (pos top : Nat) : ExceptArms V → List (List Nat)
  | .nil => []
  | .cons _ codes _ next =>
      let handled := codesCode codes (argListCode pos top none codes)
      [pos + handled.length + 2] :: handlerPlaces (pos + handled.length + 3) (top + 2) next

def jumpRaw : ExceptArms V → List (Raw V)
  | .nil => []
  | .cons _ _ _ _ => raw [.op .jump] ++ [.hole 0]

theorem exceptsRaw_cons (pos height : Nat) (loops : List LoopInfo) (id : Option Nat) (codes : ArgList V)
    (stmt : Stmts V) (next : ExceptArms V) :
    exceptsRaw pos height loops (.cons id codes stmt next) =
      let caught : List (Cell V) := caughtCode id
      let inside := stmtsRaw (pos + caught.length) height loops stmt
      raw caught ++ inside.map Raw.lift ++ jumpRaw next ++
        exceptsRaw (pos + caught.length + inside.length + (jumpRaw next).length) height loops next := by
  cases next <;> rw [exceptsRaw] <;> rfl

theorem handlersCode_cons (pos top rescue height : Nat) (loops : List LoopInfo) (id : Option Nat)
    (codes : ArgList V) (stmt : Stmts V) (next : ExceptArms V) :
    handlersCode pos top rescue height loops (.cons id codes stmt next) =
      let handled := codesCode codes (argListCode pos top none codes)
      let caught : List (Cell V) := caughtCode id
      let inside := stmtsRaw (rescue + caught.length) height loops stmt
      handled ++ extendedCode .pushLabel ++ [.label rescue] ++
        handlersCode (pos + handled.length + 3) (top + 2)
          (rescue + caught.length + inside.length + (jumpRaw next).length) height loops next := by
  cases next <;> rw [handlersCode] <;> rfl

theorem handlersCode_length (pos top rescue height : Nat) (loops : List LoopInfo)
    (excepts : ExceptArms V) : (handlersCode pos top rescue height loops excepts).length =
      (pendingHandlers pos top excepts).length := by
  cases excepts with
  | nil =>
      rw [handlersCode_nil]
      rfl
  | cons id codes stmt next =>
      have rest (rescue' : Nat) := handlersCode_length
        (pos + (codesCode codes (argListCode pos top none codes)).length + 3) (top + 2) rescue' height
        loops next
      rw [handlersCode_cons, pendingHandlers]
      simp only [List.length_append, rest, List.length_singleton]

theorem Emits.emits_handlers {start state : State V} {code : List (Cell V)} {height peak : Nat}
    (emits : Emits start state code height none peak) {loops : LoopNames} (excepts : ExceptArms V)
    (ok : exceptsScoped loops excepts = true) : ∃ state',
      generateHandlers excepts state =
        some (handlerPlaces (start.cells.length + code.length) height excepts, state') ∧
      Emits start state' (code ++ pendingHandlers (start.cells.length + code.length) height excepts)
        (height + 2 * excepts.length) none (max peak (handlersPeak height excepts)) := by
  cases excepts with
  | nil =>
      refine ⟨state, generateHandlers_nil state, emits.same ?_ rfl ?_⟩
      · rw [pendingHandlers, List.append_nil]
      · rw [handlersPeak_nil, Nat.max_zero]
  | cons id codes stmt next =>
      simp only [exceptsScoped, Bool.and_eq_true] at ok
      obtain ⟨state1, ran1, emits1⟩ := emits.step (generates_codes (generates_argList codes)) ok.1.1
      have named := emits1.emits_extended .pushLabel
      obtain ⟨state2, ran2, emits2⟩ := ((named.emit (.label 0)).push 1).emits_handlers next ok.2
      refine ⟨state2, ?_, emits2.same ?_ ?_ ?_⟩
      · rw [generateHandlers, ran1]
        simp only [Option.bind_eq_bind, Option.bind_some, addLabel, addLinkedLabel, ran2, named.place]
        simp +arith [handlerPlaces, extendedCode]
      · simp +arith [pendingHandlers, extendedCode]
      · simp +arith [ExceptArms.length]
      · simp [handlersPeak, Nat.max_assoc]

def jumpTo (next : ExceptArms V) (ends : List Nat) (state : State V) : List Nat × State V :=
  match next with
  | .nil => (ends, state)
  | .cons _ _ _ _ => addLinkedLabel ends (emitOp .jump state)

theorem Chained.jump {start state : State V} {code : List (Raw V)} {ends : List Nat} {height peak : Nat}
    (chained : Chained start state code ends height peak) (next : ExceptArms V) :
    Chained start (jumpTo next ends state).2 (code ++ jumpRaw next) (jumpTo next ends state).1 height
      peak := by
  cases next with
  | nil => exact chained.shape (List.append_nil _).symm
  | cons id codes stmt next => exact ((chained.emit (.op .jump)).link).shape (List.append_assoc ..)

/-- The second loop over the arms of a try places the handlers and patches the operands before the
body. -/
def BuildsExcepts (excepts : ExceptArms V) : Prop :=
  ∀ {start state : State V} {before between : List (Raw V)} {ends : List Nat} {height peak pos : Nat}
    (top : Nat), pos = start.cells.length + before.length →
    Chained start state (before ++ raw (pendingHandlers pos top excepts) ++ between) ends height peak →
    exceptsScoped (loopNames start.infos) excepts = true →
    ∃ ends' state', generateExcepts excepts (handlerPlaces pos top excepts) ends state =
        some (ends', state') ∧
      Chained start state'
        (before ++ raw (handlersCode pos top
            (pos + (pendingHandlers pos top excepts).length + between.length) height start.infos
            excepts) ++ between ++
          exceptsRaw (pos + (pendingHandlers pos top excepts).length + between.length) height start.infos
            excepts)
        ends' height (max peak (exceptsPeak height excepts))

theorem builds_excepts_nil : BuildsExcepts (V := V) .nil := by
  intro start state before between ends height peak pos top here chained allowed
  refine ⟨ends, state, generateExcepts_nil .., chained.same ?_ rfl ?_⟩
  · rw [handlersCode_nil, exceptsRaw_nil, List.append_nil]
    rfl
  · rw [exceptsPeak_nil, Nat.max_zero]

theorem builds_excepts_cons (id : Option Nat) (codes : ArgList V) {stmt : Stmts V} {next : ExceptArms V}
    (inside : BuildsStmts stmt) (rest : BuildsExcepts next) :
    BuildsExcepts (.cons id codes stmt next) := by
  intro start state before between ends height peak pos top here chained allowed
  simp only [exceptsScoped, Bool.and_eq_true] at allowed
  let handled := codesCode codes (argListCode pos top none codes)
  let later := pendingHandlers (pos + handled.length + 3) (top + 2) next
  have pending := chained.shape (show _ = (before ++ raw (handled ++ extendedCode .pushLabel)) ++
    .cell (.label 0) :: (raw later ++ between) by simp [pendingHandlers, handled, later])
  have defined := pending.define (pos + handled.length + 2) (by simp +arith [here, extendedCode])
  have caught := ((defined.push 1).emits_caught id).pop 1
  obtain ⟨state1, ran1, chained1⟩ := caught.step inside allowed.1.2
  have chained2 := chained1.jump next
  let rescue := pos + handled.length + 3 + later.length + between.length
  let placed := stmtsRaw (rescue + (caughtCode (V := V) id).length) height start.infos stmt
  have placed2 := chained2.shape (show _ =
    (before ++ raw (handled ++ extendedCode .pushLabel ++ [.label rescue])) ++ raw later ++
      (between ++ raw (caughtCode id) ++ placed.map Raw.lift ++ jumpRaw next) by
        simp +arith [rescue, placed, here, extendedCode])
  obtain ⟨ends3, state3, ran3, chained3⟩ :=
    rest (top + 2) (by simp +arith [here, extendedCode]) placed2 allowed.2
  refine ⟨ends3, state3, ?_, chained3.same ?_ rfl ?_⟩
  · rw [handlerPlaces, generateExcepts]
    simp only [Option.bind_eq_bind]
    rw [ran1]
    exact ran3
  · rw [handlersCode_cons, exceptsRaw_cons]
    simp +arith [pendingHandlers, handled, later, rescue, placed, extendedCode]
  · simp [exceptsPeak, Nat.max_assoc]

theorem builds_tryExcept {body : Stmts V} {excepts : ExceptArms V} (attempt : BuildsStmts body)
    (handlers : BuildsExcepts excepts) : BuildsStmt (.tryExcept body excepts) := by
  intro state saved allowed
  simp only [stmtScoped, Bool.and_eq_true] at allowed
  have base := Emits.nothing state
  rw [saved] at base
  obtain ⟨state1, ran1, emits1⟩ := base.emits_handlers excepts allowed.2
  have entered := ((((Chained.nothing state saved).embed emits1).emits_extended .tryExcept).emit
    (.byte excepts.length)).push 1
  obtain ⟨state2, ran2, chained2⟩ := entered.step attempt allowed.1
  have left := ((chained2.emits_extended .endExcept).link).pop (2 * excepts.length + 1)
  have shaped := left.same (show _ = [] ++ raw (pendingHandlers state.cells.length state.curStack excepts) ++
    (raw (extendedCode .tryExcept ++ [.byte excepts.length]) ++
      (stmtsRaw (state.cells.length + (pendingHandlers state.cells.length state.curStack excepts).length + 3)
        (state.curStack + 2 * excepts.length + 1) state.infos body).map Raw.lift ++
      raw (extendedCode .endExcept) ++ [.hole 0]) by simp +arith [extendedCode])
    (show _ = state.curStack by omega) rfl
  obtain ⟨ends, state3, ran3, chained3⟩ := handlers state.curStack rfl shaped allowed.2
  refine ⟨_, ?_, chained3.close.same ?_ rfl ?_⟩
  · rw [generateStmt, ran1]
    simp only [Option.bind_eq_bind, Option.bind_some, emitByte, ran2, addLabel, addLinkedLabel]
    exact congrArg (fun rest => rest.bind fun ended => some (defineLabel ended.1 ended.2)) ran3
  · simp +arith [stmtRaw, handlersCode_length, extendedCode]
  · simp [stmtPeak, Nat.max_assoc]

end Handlers

mutual

theorem builds_stmt (stmt : Stmt V) : BuildsStmt stmt := by
  cases stmt with
  | cond arms otherwise => exact builds_cond (builds_arms arms) (builds_stmts otherwise)
  | list id index expr body => exact builds_list id index (builds_stmts body)
  | range id start stop body => exact builds_range id (builds_stmts body)
  | loop id condition body => exact builds_loop id (builds_stmts body)
  | fork id time body => exact builds_fork id (builds_stmts body)
  | expr expr => exact builds_expr
  | «return» expr => exact builds_return
  | returnZero => exact builds_returnZero
  | tryExcept body excepts => exact builds_tryExcept (builds_stmts body) (builds_excepts excepts)
  | tryFinally body handler => exact builds_tryFinally (builds_stmts body) (builds_stmts handler)
  | «break» exit => exact builds_break exit
  | «continue» exit => exact builds_continue exit

theorem builds_stmts (stmts : Stmts V) : BuildsStmts stmts := by
  cases stmts with
  | nil => exact builds_stmts_nil
  | cons stmt next => exact builds_stmts_cons (builds_stmt stmt) (builds_stmts next)

theorem builds_arms (arms : CondArms V) : BuildsArms arms := by
  cases arms with
  | nil => exact builds_arms_nil
  | cons condition stmt next => exact builds_arms_cons (builds_stmts stmt) (builds_arms next)

theorem builds_excepts (excepts : ExceptArms V) : BuildsExcepts excepts := by
  cases excepts with
  | nil => exact builds_excepts_nil
  | cons id codes stmt next =>
      exact builds_excepts_cons id codes (builds_stmts stmt) (builds_excepts next)

end

/-- What the parser lets through is compiled without a panic, with the labels where their constructs
end and nothing left on the stack that is tracked. -/
theorem stmtToCode_laid (stmts : Stmts V) (allowed : stmtsScoped [] stmts = true) :
    stmtToCode stmts = some ⟨vectorCode stmts, stmtsPeak 0 stmts⟩ := by
  rw [stmtToCode]
  exact Builds.finished (builds_stmts stmts) allowed

theorem stmtToCode_laid_finally :
    stmtToCode (V := Nat) (.cons (.loop none (.id 3) (.cons (.tryFinally (.cons (.break none) .nil)
        (.cons (.expr (.id 5)) .nil)) .nil)) .nil) =
      some ⟨[.op (.push 3), .op .while, .label 18, .op .extended, .eop .tryFinally, .label 12,
        .op .extended, .eop .exit, .stack 0, .label 18, .op .extended, .eop .endFinally,
        .op (.push 5), .op .pop, .op .extended, .eop .continue, .op .jump, .label 0, .op .done], 3⟩ :=
  (stmtToCode_laid _ (by decide)).trans (by rfl)

end ToastStunt.Code
