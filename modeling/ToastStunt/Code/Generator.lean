import ToastStunt.Code.Syntax

/-!
The code generator of code_gen.cc. A byte that is an operand to be given its final width later is
one cell that holds the operand itself: a literal, a variable, a label, a stack index or the vector
of a fork. A cell for a byte holds the argument of `emit_byte`, which is cut to a byte where the
vector is written. The chain of fixups that `next` makes is the list of their positions. A panic of
the generator is `none`.
-/

namespace ToastStunt.Code

/-- `OP_PUT`, `OP_PUSH` and `OPTIM_NUM_START` are families of opcodes. -/
inductive Opcode
  | if | while | eif | fork | forkWithId | forRange
  | indexSet | pushGetProp | getProp | callVerb | putProp | biFuncCall | ifQues | ref | rangeRef
  | makeSingletonList | checkListForSplice
  | mult | div | mod | add | minus | eq | ne | lt | le | gt | ge | mem | and | or
  | unaryMinus | not
  | put (slot : Nat) | gPut | push (slot : Nat) | gPush
  | imm | makeEmptyList | listAddTail | listAppend | pushRef | putTemp | pushTemp
  | jump | return | returnZero | done | pop
  | extended | mapCreate | mapInsert
  | optimNum (n : Int)
  deriving DecidableEq

inductive ExtendedOpcode
  | rangeSet | first | last | pushLabel | endCatch | endExcept | endFinally | continue
  | catch | tryExcept | tryFinally | whileId | exit | exitId | scatter | exp | forList1 | forList2
  | bitor | bitand | bitxor | bitshl | bitshr | complement
  deriving DecidableEq

inductive Cell (V : Type)
  | op (op : Opcode)
  | eop (op : ExtendedOpcode)
  | byte (byte : Nat)
  | literal (v : Literal V)
  | noneLiteral
  | varRef (slot : Nat)
  | label (value : Nat)
  | stack (index : Nat)
  | fork (vector : List (Cell V)) (maxStack : Nat)

/-- A `struct loop` without its labels that are still to be defined. -/
structure LoopInfo where
  id : Option Nat
  index : Option Nat
  topLabel : Nat
  topStack : Nat
  bottomStack : Nat

structure Loop extends LoopInfo where
  bottomLabel : List Nat

/-- The innermost loop comes first. `UINT_MAX` in `saved_stack` is `none`. -/
structure State (V : Type) where
  cells : List (Cell V)
  curStack : Nat
  maxStack : Nat
  savedStack : Option Nat
  loops : List Loop

structure Bytecodes (V : Type) where
  vector : List (Cell V)
  maxStack : Nat

variable {V : Type}

def initState : State V := ⟨[], 0, 0, none, []⟩

def emit (cell : Cell V) (state : State V) : State V := { state with cells := state.cells ++ [cell] }

def emitOp (op : Opcode) (state : State V) : State V := emit (.op op) state

def emitByte (n : Nat) (state : State V) : State V := emit (.byte n) state

def emitExtendedByte (op : ExtendedOpcode) (state : State V) : State V :=
  emit (.eop op) (emitOp .extended state)

def addLiteral (v : Literal V) (state : State V) : State V := emit (.literal v) state

def addNone (state : State V) : State V := emit .noneLiteral state

def addVarRef (slot : Nat) (state : State V) : State V := emit (.varRef slot) state

def addLinkedLabel (next : List Nat) (state : State V) : List Nat × State V :=
  (state.cells.length :: next, emit (.label 0) state)

def addLabel (state : State V) : List Nat × State V := addLinkedLabel [] state

def addPseudoLabel (value : Nat) (state : State V) : State V := emit (.label value) state

def addKnownLabel (value : Nat) (state : State V) : State V := emit (.label value) state

def captureLabel (state : State V) : Nat := state.cells.length

def patch (value : Nat) (labels : List Nat) (cells : List (Cell V)) : List (Cell V) :=
  labels.foldl (fun cells label => cells.set label (.label value)) cells

def defineLabel (labels : List Nat) (state : State V) : State V :=
  { state with cells := patch state.cells.length labels state.cells }

def addStackRef (index : Nat) (state : State V) : State V := emit (.stack index) state

def pushStack (n : Nat) (state : State V) : State V :=
  { state with
    curStack := state.curStack + n
    maxStack := max state.maxStack (state.curStack + n) }

def popStack (n : Nat) (state : State V) : State V := { state with curStack := state.curStack - n }

def saveStackTop (state : State V) : State V :=
  { state with savedStack := some (state.curStack - 1) }

def restoreStackTop (old : Option Nat) (state : State V) : State V :=
  { state with savedStack := old }

def enterLoop (loop : Loop) (state : State V) : State V :=
  { state with loops := loop :: state.loops }

def exitLoop (state : State V) : Option (List Nat × State V) :=
  match state.loops with
  | [] => none
  | loop :: loops => some (loop.bottomLabel, { state with loops := loops })

def numReadyVars : Nat := 32

def emitPush (slot : Nat) (state : State V) : State V :=
  if slot ≥ numReadyVars then addVarRef slot (emitOp .gPush state) else emitOp (.push slot) state

def emitPut (slot : Nat) (state : State V) : State V :=
  if slot ≥ numReadyVars then addVarRef slot (emitOp .gPut state) else emitOp (.put slot) state

/-- `IN_OPTIM_NUM_RANGE`; the opcodes from 113 to 255 stand for the numbers. -/
def inOptimNumRange (n : Int) : Bool := -10 ≤ n && n ≤ 132

def unaryOp : UnaryKind → State V → State V
  | .negate => emitOp .unaryMinus
  | .not => emitOp .not
  | .complement => emitExtendedByte .complement

def binaryOp : BinaryKind → State V → State V
  | .eq => emitOp .eq
  | .ne => emitOp .ne
  | .ge => emitOp .ge
  | .gt => emitOp .gt
  | .le => emitOp .le
  | .lt => emitOp .lt
  | .mem => emitOp .mem
  | .plus => emitOp .add
  | .minus => emitOp .minus
  | .times => emitOp .mult
  | .divide => emitOp .div
  | .mod => emitOp .mod
  | .prop => emitOp .getProp
  | .exp => emitExtendedByte .exp
  | .bitor => emitExtendedByte .bitor
  | .bitand => emitExtendedByte .bitand
  | .bitxor => emitExtendedByte .bitxor
  | .bitshl => emitExtendedByte .bitshl
  | .bitshr => emitExtendedByte .bitshr

def restOperand (targets : Scatter V) : Nat :=
  (targets.restPosition 0 none).getD (targets.length + 1)

def addTargets : Scatter V → State V → List (List Nat) × State V
  | .nil, state => ([], state)
  | .cons kind id next, state =>
      addTargets next (addPseudoLabel (if kind = .optional then 1 else 0) (addVarRef id state))
  | .default id _ next, state =>
      let (label, state) := addLabel (addVarRef id state)
      let (labels, state) := addTargets next state
      (label :: labels, state)

def emitStore : Bool → Place V → State V → State V
  | isIndexed, .id id, state =>
      let state := emitPut id state
      if isIndexed then emitOp .pushTemp (emitOp .pop state) else state
  | isIndexed, .prop _ _, state =>
      let state := popStack 2 (emitOp .putProp state)
      if isIndexed then emitOp .pushTemp (emitOp .pop state) else state
  | _, .index base _, state => emitStore true base (popStack 2 (emitOp .indexSet state))

def isIndex : Place V → Bool
  | .index _ _ => true
  | _ => false

/-- `normal_op` and `splice_op` in the first turn of the loop over the arguments, and after it. -/
def firstArg : ArgKind → Opcode
  | .normal => .makeSingletonList
  | .splice => .checkListForSplice

def nextArg : ArgKind → Opcode
  | .normal => .listAddTail
  | .splice => .listAppend

def generateCodes (codes : ArgList V) (argList : State V → Option (State V)) (state : State V) :
    Option (State V) :=
  match codes with
  | .nil => some (pushStack 1 (emitOp (.optimNum 0) state))
  | .cons _ _ _ => argList state

mutual

def generateExpr : Expr V → State V → Option (State V)
  | .var v, state =>
      match v with
      | .int n =>
          if inOptimNumRange n then some (pushStack 1 (emitOp (.optimNum n) state))
          else some (pushStack 1 (addLiteral (.int n) (emitOp .imm state)))
      | .other v => some (pushStack 1 (addLiteral (.other v) (emitOp .imm state)))
  | .id id, state => some (pushStack 1 (emitPush id state))
  | .and lhs rhs, state => do
      let state ← generateExpr lhs state
      let (endLabel, state) := addLabel (emitOp .and state)
      let state ← generateExpr rhs (popStack 1 state)
      return defineLabel endLabel state
  | .or lhs rhs, state => do
      let state ← generateExpr lhs state
      let (endLabel, state) := addLabel (emitOp .or state)
      let state ← generateExpr rhs (popStack 1 state)
      return defineLabel endLabel state
  | .unary kind expr, state => do
      let state ← generateExpr expr state
      return unaryOp kind state
  | .binary kind lhs rhs, state => do
      let state ← generateExpr lhs state
      let state ← generateExpr rhs state
      return popStack 1 (binaryOp kind state)
  | .index lhs rhs, state => do
      let state ← generateExpr lhs state
      let old := state.savedStack
      let state ← generateExpr rhs (saveStackTop state)
      return popStack 1 (emitOp .ref (restoreStackTop old state))
  | .range base start stop, state => do
      let state ← generateExpr base state
      let old := state.savedStack
      let state ← generateExpr start (saveStackTop state)
      let state ← generateExpr stop state
      return popStack 2 (emitOp .rangeRef (restoreStackTop old state))
  | .first, state => do
      let saved ← state.savedStack
      return pushStack 1 (addStackRef saved (emitExtendedByte .first state))
  | .last, state => do
      let saved ← state.savedStack
      return pushStack 1 (addStackRef saved (emitExtendedByte .last state))
  | .map map, state => generateMapList map (pushStack 1 (emitOp .mapCreate state))
  | .list list, state => generateArgList list state
  | .call func args, state => do
      let state ← generateArgList args state
      return emitByte func (emitOp .biFuncCall state)
  | .verb obj verb args, state => do
      let state ← generateExpr obj state
      let state ← generateExpr verb state
      let state ← generateArgList args state
      return popStack 2 (emitOp .callVerb state)
  | .cond condition consequent alternate, state => do
      let state ← generateExpr condition state
      let (elseLabel, state) := addLabel (emitOp .ifQues state)
      let state ← generateExpr consequent (popStack 1 state)
      let (endLabel, state) := addLabel (emitOp .jump state)
      let state ← generateExpr alternate (defineLabel elseLabel (popStack 1 state))
      return defineLabel endLabel state
  | .asgn lhs rhs, state => do
      let state ← pushLvalue lhs false state
      let state ← generateExpr rhs state
      return emitStore false lhs (if isIndex lhs then emitOp .putTemp state else state)
  | .asgnRange base start stop rhs, state => do
      let state ← pushLvalue base true state
      let old := state.savedStack
      let state ← generateExpr start (saveStackTop state)
      let state ← generateExpr stop state
      let state ← generateExpr rhs (restoreStackTop old state)
      return emitStore true base
        (popStack 3 (emitExtendedByte .rangeSet (emitOp .putTemp state)))
  | .scatter targets rhs, state => do
      let state ← generateExpr rhs state
      let state := emitByte targets.length (emitExtendedByte .scatter state)
      let state := emitByte (restOperand targets) (emitByte targets.countRequired state)
      let (labels, state) := addTargets targets state
      let (done, state) := addLabel state
      let state ← generateDefaults targets labels state
      return defineLabel done state
  | .catch body codes, state => do
      let state ← generateCodes codes (generateArgList codes) state
      let (handlerLabel, state) := addLabel (emitExtendedByte .pushLabel state)
      let state := pushStack 1 (emitExtendedByte .catch (pushStack 1 state))
      let state ← generateExpr body state
      let (endLabel, state) := addLabel (emitExtendedByte .endCatch state)
      let state := defineLabel handlerLabel (popStack 3 state)
      return defineLabel endLabel (emitOp .ref (emitOp (.optimNum 1) state))
  | .catchElse body codes except, state => do
      let state ← generateCodes codes (generateArgList codes) state
      let (handlerLabel, state) := addLabel (emitExtendedByte .pushLabel state)
      let state := pushStack 1 (emitExtendedByte .catch (pushStack 1 state))
      let state ← generateExpr body state
      let (endLabel, state) := addLabel (emitExtendedByte .endCatch state)
      let state := defineLabel handlerLabel (popStack 3 state)
      let state ← generateExpr except (popStack 1 (emitOp .pop state))
      return defineLabel endLabel state

def pushLvalue : Place V → Bool → State V → Option (State V)
  | .id id, indexedAbove, state =>
      if indexedAbove then some (pushStack 1 (emitPush id state)) else some state
  | .prop obj name, indexedAbove, state => do
      let state ← generateExpr obj state
      let state ← generateExpr name state
      return if indexedAbove then pushStack 1 (emitOp .pushGetProp state) else state
  | .index base index, indexedAbove, state => do
      let state ← pushLvalue base true state
      let old := state.savedStack
      let state ← generateExpr index (saveStackTop state)
      let state := restoreStackTop old state
      return if indexedAbove then pushStack 1 (emitOp .pushRef state) else state

def generateArgList : ArgList V → State V → Option (State V)
  | .nil, state => some (pushStack 1 (emitOp .makeEmptyList state))
  | .cons kind expr next, state => do
      let state ← generateExpr expr state
      generateArgs next (emitOp (firstArg kind) state)

def generateArgs : ArgList V → State V → Option (State V)
  | .nil, state => some state
  | .cons kind expr next, state => do
      let state ← generateExpr expr state
      generateArgs next (popStack 1 (emitOp (nextArg kind) state))

def generateMapList : MapList V → State V → Option (State V)
  | .nil, state => some state
  | .cons key value next, state => do
      let state ← generateExpr value state
      let state ← generateExpr key state
      generateMapList next (popStack 2 (emitOp .mapInsert state))

/-- The second loop over the targets. -/
def generateDefaults : Scatter V → List (List Nat) → State V → Option (State V)
  | .nil, _, state => some state
  | .cons _ _ next, labels, state => generateDefaults next labels state
  | .default id expr next, labels, state =>
      match labels with
      | [] => none
      | label :: labels => do
          let state ← generateExpr expr (defineLabel label state)
          generateDefaults next labels (popStack 1 (emitOp .pop (emitPut id state)))

end

def findLevel (exit : Option Nat) (loops : List LoopInfo) : Nat :=
  match exit with
  | none => 0
  | some id => loops.findIdx fun loop => loop.id = some id || loop.index = some id

section Ends

variable (state : State V)

theorem generateExpr_list (args : ArgList V) :
    generateExpr (.list args) state = generateArgList args state := by rw [generateExpr]

theorem pushLvalue_id (id : Nat) : pushLvalue (.id id) false state = some state := by
  rw [pushLvalue, if_neg Bool.false_ne_true]

theorem generateArgList_nil :
    generateArgList .nil state = some (pushStack 1 (emitOp .makeEmptyList state)) := by
  rw [generateArgList]

theorem generateArgs_nil : generateArgs .nil state = some state := by rw [generateArgs]

theorem generateMapList_nil : generateMapList .nil state = some state := by rw [generateMapList]

theorem generateDefaults_nil (labels : List (List Nat)) :
    generateDefaults .nil labels state = some state := by rw [generateDefaults]

end Ends

def emitExit (exit : Option Nat) (state : State V) : State V :=
  match exit with
  | none => emitExtendedByte .exit state
  | some id => addVarRef id (emitExtendedByte .exitId state)

def addVarRefs (id : Nat) (index : Option Nat) (state : State V) : State V :=
  match index with
  | none => addVarRef id (emitExtendedByte .forList1 state)
  | some index => addVarRef index (addVarRef id (emitExtendedByte .forList2 state))

def emitWhile (id : Option Nat) (state : State V) : State V :=
  match id with
  | none => emitOp .while state
  | some id => addVarRef id (emitExtendedByte .whileId state)

def emitCaught (id : Option Nat) (state : State V) : State V :=
  emitOp .pop (match id with
    | none => state
    | some id => emitPut id state)

/-- The first loop over the arms of a try: the codes and the labels of the handlers. -/
def generateHandlers : ExceptArms V → State V → Option (List (List Nat) × State V)
  | .nil, state => some ([], state)
  | .cons _ codes _ next, state => do
      let state ← generateCodes codes (generateArgList codes) state
      let (label, state) := addLabel (emitExtendedByte .pushLabel state)
      let (labels, state) ← generateHandlers next (pushStack 1 state)
      return (label :: labels, state)

/-- `OP_DONE` and the two panics of `stmt_to_code` over what was left behind. -/
def finish (state : State V) : Option (Bytecodes V) :=
  if state.curStack = 0 ∧ state.savedStack = none then
    some ⟨(emitOp .done state).cells, state.maxStack⟩
  else none

mutual

def generateStmt : Stmt V → State V → Option (State V)
  | .cond arms otherwise, state => do
      let (endLabel, state) ← generateArms .if arms [] state
      let state ← generateStmts otherwise state
      return defineLabel endLabel state
  | .list id index expr body, state => do
      let state ← generateExpr expr state
      let state := pushStack 1 (addNone (emitOp .imm state))
      let loopTop := captureLabel state
      let (endLabel, state) := addLabel (addVarRefs id index state)
      let state ← generateStmts body (enterLoop
        ⟨⟨some id, index, loopTop, state.curStack, state.curStack - 2⟩, endLabel⟩ state)
      let (endLabel, state) ← exitLoop state
      let state := addKnownLabel loopTop (emitOp .jump state)
      return popStack 2 (defineLabel endLabel state)
  | .range id start stop body, state => do
      let state ← generateExpr start state
      let state ← generateExpr stop state
      let loopTop := captureLabel state
      let (endLabel, state) := addLabel (addVarRef id (emitOp .forRange state))
      let state ← generateStmts body (enterLoop
        ⟨⟨some id, none, loopTop, state.curStack, state.curStack - 2⟩, endLabel⟩ state)
      let (endLabel, state) ← exitLoop state
      let state := addKnownLabel loopTop (emitOp .jump state)
      return popStack 2 (defineLabel endLabel state)
  | .loop id condition body, state => do
      let loopTop := captureLabel state
      let state ← generateExpr condition state
      let (endLabel, state) := addLabel (emitWhile id state)
      let state := popStack 1 state
      let state ← generateStmts body (enterLoop
        ⟨⟨id, none, loopTop, state.curStack, state.curStack⟩, endLabel⟩ state)
      let (endLabel, state) ← exitLoop state
      let state := addKnownLabel loopTop (emitOp .jump state)
      return defineLabel endLabel state
  | .fork id time body, state => do
      let state ← generateExpr time state
      let state := emitOp (if id.isSome then .forkWithId else .fork) state
      let vector ← (generateStmts body initState).bind finish
      let state := emit (.fork vector.vector vector.maxStack) state
      return popStack 1 (match id with
        | none => state
        | some id => addVarRef id state)
  | .expr expr, state => do
      let state ← generateExpr expr state
      return popStack 1 (emitOp .pop state)
  | .return expr, state => do
      let state ← generateExpr expr state
      return popStack 1 (emitOp .return state)
  | .returnZero, state => some (emitOp .returnZero state)
  | .tryExcept body excepts, state => do
      let (labels, state) ← generateHandlers excepts state
      let state := emitByte excepts.length (emitExtendedByte .tryExcept state)
      let state ← generateStmts body (pushStack 1 state)
      let (endLabel, state) := addLabel (emitExtendedByte .endExcept state)
      let state := popStack (2 * excepts.length + 1) state
      let (endLabel, state) ← generateExcepts excepts labels endLabel state
      return defineLabel endLabel state
  | .tryFinally body handler, state => do
      let (handlerLabel, state) := addLabel (emitExtendedByte .tryFinally state)
      let state ← generateStmts body (pushStack 1 state)
      let state := popStack 1 (emitExtendedByte .endFinally state)
      let state := pushStack 2 (defineLabel handlerLabel state)
      let state ← generateStmts handler state
      return popStack 2 (emitExtendedByte .continue state)
  | .break exit, state => do
      let state := emitExit exit state
      let level := findLevel exit (state.loops.map Loop.toLoopInfo)
      let loop ← state.loops[level]?
      let (bottomLabel, state) := addLinkedLabel loop.bottomLabel (addStackRef loop.bottomStack state)
      return { state with loops := state.loops.set level { loop with bottomLabel := bottomLabel } }
  | .continue exit, state => do
      let state := emitExit exit state
      let loop ← state.loops[findLevel exit (state.loops.map Loop.toLoopInfo)]?
      return addKnownLabel loop.topLabel (addStackRef loop.topStack state)

def generateStmts : Stmts V → State V → Option (State V)
  | .nil, state => some state
  | .cons stmt next, state => do
      let state ← generateStmt stmt state
      generateStmts next state

/-- The loop over the arms of an if, with the chain of the jumps to its end. -/
def generateArms : Opcode → CondArms V → List Nat → State V → Option (List Nat × State V)
  | _, .nil, endLabel, state => some (endLabel, state)
  | ifOp, .cons condition stmt next, endLabel, state => do
      let state ← generateExpr condition state
      let (elseLabel, state) := addLabel (emitOp ifOp state)
      let state ← generateStmts stmt (popStack 1 state)
      let (endLabel, state) := addLinkedLabel endLabel (emitOp .jump state)
      generateArms .eif next endLabel (defineLabel elseLabel state)

def generateExcepts : ExceptArms V → List (List Nat) → List Nat → State V →
    Option (List Nat × State V)
  | .nil, _, endLabel, state => some (endLabel, state)
  | .cons id _ stmt next, labels, endLabel, state =>
      match labels with
      | [] => none
      | label :: labels => do
          let state := emitCaught id (pushStack 1 (defineLabel label state))
          let state ← generateStmts stmt (popStack 1 state)
          let (endLabel, state) := match next with
            | .nil => (endLabel, state)
            | .cons _ _ _ _ => addLinkedLabel endLabel (emitOp .jump state)
          generateExcepts next labels endLabel state

end

section StmtEnds

variable (state : State V)

theorem generateStmt_returnZero : generateStmt .returnZero state = some (emitOp .returnZero state) := by
  rw [generateStmt]

theorem generateStmts_nil : generateStmts .nil state = some state := by rw [generateStmts]

theorem generateArms_nil (ifOp : Opcode) (endLabel : List Nat) :
    generateArms ifOp .nil endLabel state = some (endLabel, state) := by rw [generateArms]

theorem generateHandlers_nil : generateHandlers .nil state = some ([], state) := by
  rw [generateHandlers]

theorem generateExcepts_nil (labels : List (List Nat)) (endLabel : List Nat) :
    generateExcepts .nil labels endLabel state = some (endLabel, state) := by rw [generateExcepts]

end StmtEnds

def stmtToCode (stmts : Stmts V) : Option (Bytecodes V) := (generateStmts stmts initState).bind finish

end ToastStunt.Code
