import ToastStunt.Code.Generator

/-!
The vectors that the generator makes, in one expression for each tree: `pos` is the place of the
first cell, `height` the tracked height of the stack there and `saved` the index that `$` and `^`
stand for. `peak` is the greatest height that is tracked on a push.
-/

namespace ToastStunt.Code

variable {V : Type}

def opCode (op : Opcode) : List (Cell V) := [.op op]

def extendedCode (op : ExtendedOpcode) : List (Cell V) := [.op .extended, .eop op]

def pushCode (slot : Nat) : List (Cell V) :=
  if slot ≥ numReadyVars then [.op .gPush, .varRef slot] else [.op (.push slot)]

def putCode (slot : Nat) : List (Cell V) :=
  if slot ≥ numReadyVars then [.op .gPut, .varRef slot] else [.op (.put slot)]

def literalCode : Literal V → List (Cell V)
  | .int n => if inOptimNumRange n then [.op (.optimNum n)] else [.op .imm, .literal (.int n)]
  | .other v => [.op .imm, .literal (.other v)]

def unaryCode : UnaryKind → List (Cell V)
  | .negate => opCode .unaryMinus
  | .not => opCode .not
  | .complement => extendedCode .complement

def binaryCode : BinaryKind → List (Cell V)
  | .eq => opCode .eq
  | .ne => opCode .ne
  | .ge => opCode .ge
  | .gt => opCode .gt
  | .le => opCode .le
  | .lt => opCode .lt
  | .mem => opCode .mem
  | .plus => opCode .add
  | .minus => opCode .minus
  | .times => opCode .mult
  | .divide => opCode .div
  | .mod => opCode .mod
  | .prop => opCode .getProp
  | .exp => extendedCode .exp
  | .bitor => extendedCode .bitor
  | .bitand => extendedCode .bitand
  | .bitxor => extendedCode .bitxor
  | .bitshl => extendedCode .bitshl
  | .bitshr => extendedCode .bitshr

def storeCode : Bool → Place V → List (Cell V)
  | isIndexed, .id id => putCode id ++ if isIndexed then [.op .pop, .op .pushTemp] else []
  | isIndexed, .prop _ _ => [.op .putProp] ++ if isIndexed then [.op .pop, .op .pushTemp] else []
  | _, .index base _ => [.op .indexSet] ++ storeCode true base

/-- How many values the code of a left side leaves on the stack. -/
def placeHeight : Place V → Bool → Nat
  | .id _, indexedAbove => indexedAbove.toNat
  | .prop _ _, indexedAbove => 2 + indexedAbove.toNat
  | .index base _, indexedAbove => placeHeight base true + 1 + indexedAbove.toNat

def codesCode (codes : ArgList V) (argList : List (Cell V)) : List (Cell V) :=
  match codes with
  | .nil => [.op (.optimNum 0)]
  | .cons _ _ _ => argList

mutual

def exprCode (pos height : Nat) (saved : Option Nat) : Expr V → List (Cell V)
  | .var v => literalCode v
  | .id id => pushCode id
  | .and lhs rhs =>
      let left := exprCode pos height saved lhs
      let right := exprCode (pos + left.length + 2) height saved rhs
      left ++ [.op .and, .label (pos + left.length + 2 + right.length)] ++ right
  | .or lhs rhs =>
      let left := exprCode pos height saved lhs
      let right := exprCode (pos + left.length + 2) height saved rhs
      left ++ [.op .or, .label (pos + left.length + 2 + right.length)] ++ right
  | .unary kind expr => exprCode pos height saved expr ++ unaryCode kind
  | .binary kind lhs rhs =>
      let left := exprCode pos height saved lhs
      left ++ exprCode (pos + left.length) (height + 1) saved rhs ++ binaryCode kind
  | .index lhs rhs =>
      let left := exprCode pos height saved lhs
      left ++ exprCode (pos + left.length) (height + 1) (some height) rhs ++ [.op .ref]
  | .range base start stop =>
      let first := exprCode pos height saved base
      let second := exprCode (pos + first.length) (height + 1) (some height) start
      let third := exprCode (pos + first.length + second.length) (height + 2) (some height) stop
      first ++ second ++ third ++ [.op .rangeRef]
  | .first => extendedCode .first ++ [.stack (saved.getD 0)]
  | .last => extendedCode .last ++ [.stack (saved.getD 0)]
  | .map map => [.op .mapCreate] ++ mapCode (pos + 1) (height + 1) saved map
  | .list list => argListCode pos height saved list
  | .call func args =>
      argListCode pos height saved args ++ [.op .biFuncCall, .byte func]
  | .verb obj verb args =>
      let first := exprCode pos height saved obj
      let second := exprCode (pos + first.length) (height + 1) saved verb
      let third := argListCode (pos + first.length + second.length) (height + 2) saved args
      first ++ second ++ third ++ [.op .callVerb]
  | .cond condition consequent alternate =>
      let test := exprCode pos height saved condition
      let yes := exprCode (pos + test.length + 2) height saved consequent
      let else_ := pos + test.length + 2 + yes.length + 2
      let no := exprCode else_ height saved alternate
      test ++ [.op .ifQues, .label else_] ++ yes ++ [.op .jump, .label (else_ + no.length)] ++ no
  | .asgn lhs rhs =>
      let place := placeCode pos height saved false lhs
      let value := exprCode (pos + place.length) (height + placeHeight lhs false) saved rhs
      place ++ value ++ (if isIndex lhs then [.op .putTemp] else []) ++ storeCode false lhs
  | .asgnRange base start stop rhs =>
      let place := placeCode pos height saved true base
      let top := height + placeHeight base true
      let first := exprCode (pos + place.length) top (some (top - 1)) start
      let second := exprCode (pos + place.length + first.length) (top + 1) (some (top - 1)) stop
      let value :=
        exprCode (pos + place.length + first.length + second.length) (top + 2) saved rhs
      place ++ first ++ second ++ value ++ [.op .putTemp] ++ extendedCode .rangeSet ++
        storeCode true base
  | .scatter targets rhs =>
      let value := exprCode pos height saved rhs
      let defaults := pos + value.length + 5 + 2 * targets.length + 1
      let code := defaultsCode defaults (height + 1) saved targets
      value ++ extendedCode .scatter ++ [.byte targets.length,
          .byte targets.countRequired, .byte (restOperand targets)] ++
        targetsCode defaults (height + 1) saved targets ++ [.label (defaults + code.length)] ++ code
  | .catch body codes =>
      let handled := codesCode codes (argListCode pos height saved codes)
      let attempt := exprCode (pos + handled.length + 5) (height + 3) saved body
      let handler := pos + handled.length + 5 + attempt.length + 3
      handled ++ extendedCode .pushLabel ++ [.label handler] ++ extendedCode .catch ++ attempt ++
        extendedCode .endCatch ++ [.label (handler + 2)] ++ [.op (.optimNum 1), .op .ref]
  | .catchElse body codes except =>
      let handled := codesCode codes (argListCode pos height saved codes)
      let attempt := exprCode (pos + handled.length + 5) (height + 3) saved body
      let handler := pos + handled.length + 5 + attempt.length + 3
      let rescue := exprCode (handler + 1) height saved except
      handled ++ extendedCode .pushLabel ++ [.label handler] ++ extendedCode .catch ++ attempt ++
        extendedCode .endCatch ++ [.label (handler + 1 + rescue.length)] ++ [.op .pop] ++ rescue

def placeCode (pos height : Nat) (saved : Option Nat) (indexedAbove : Bool) :
    Place V → List (Cell V)
  | .id id => if indexedAbove then pushCode id else []
  | .prop obj name =>
      let first := exprCode pos height saved obj
      first ++ exprCode (pos + first.length) (height + 1) saved name ++
        if indexedAbove then [.op .pushGetProp] else []
  | .index base index =>
      let first := placeCode pos height saved true base
      let top := height + placeHeight base true
      first ++ exprCode (pos + first.length) top (some (top - 1)) index ++
        if indexedAbove then [.op .pushRef] else []

def argListCode (pos height : Nat) (saved : Option Nat) : ArgList V → List (Cell V)
  | .nil => [.op .makeEmptyList]
  | .cons kind expr next =>
      let first := exprCode pos height saved expr
      first ++ [.op (firstArg kind)] ++ argsCode (pos + first.length + 1) (height + 1) saved next

def argsCode (pos height : Nat) (saved : Option Nat) : ArgList V → List (Cell V)
  | .nil => []
  | .cons kind expr next =>
      let first := exprCode pos height saved expr
      first ++ [.op (nextArg kind)] ++ argsCode (pos + first.length + 1) height saved next

def mapCode (pos height : Nat) (saved : Option Nat) : MapList V → List (Cell V)
  | .nil => []
  | .cons key value next =>
      let first := exprCode pos height saved value
      let second := exprCode (pos + first.length) (height + 1) saved key
      first ++ second ++ [.op .mapInsert] ++
        mapCode (pos + first.length + second.length + 1) height saved next

/-- `pos` is the place of the code of the first default. -/
def targetsCode (pos height : Nat) (saved : Option Nat) : Scatter V → List (Cell V)
  | .nil => []
  | .cons kind id next =>
      [.varRef id, .label (if kind = .optional then 1 else 0)] ++ targetsCode pos height saved next
  | .default id expr next =>
      let first := exprCode pos height saved expr ++ putCode id ++ [.op .pop]
      [.varRef id, .label pos] ++ targetsCode (pos + first.length) height saved next

def defaultsCode (pos height : Nat) (saved : Option Nat) : Scatter V → List (Cell V)
  | .nil => []
  | .cons _ _ next => defaultsCode pos height saved next
  | .default id expr next =>
      let first := exprCode pos height saved expr ++ putCode id ++ [.op .pop]
      first ++ defaultsCode (pos + first.length) height saved next

end

section Ends

variable (pos height : Nat) (saved : Option Nat)

theorem exprCode_list (args : ArgList V) :
    exprCode pos height saved (.list args) = argListCode pos height saved args := by rw [exprCode]

theorem placeCode_id (id : Nat) : placeCode pos height saved false (.id (V := V) id) = [] := by
  rw [placeCode, if_neg Bool.false_ne_true]

theorem argListCode_nil : argListCode (V := V) pos height saved .nil = [.op .makeEmptyList] := by
  rw [argListCode]

theorem argsCode_nil : argsCode (V := V) pos height saved .nil = [] := by rw [argsCode]

theorem mapCode_nil : mapCode (V := V) pos height saved .nil = [] := by rw [mapCode]

theorem targetsCode_nil : targetsCode (V := V) pos height saved .nil = [] := by rw [targetsCode]

theorem defaultsCode_nil : defaultsCode (V := V) pos height saved .nil = [] := by rw [defaultsCode]

end Ends

def codesPeak (height : Nat) (codes : ArgList V) (argList : Nat) : Nat :=
  match codes with
  | .nil => height + 1
  | .cons _ _ _ => argList

mutual

def exprPeak (height : Nat) : Expr V → Nat
  | .var _ | .id _ | .first | .last => height + 1
  | .and lhs rhs | .or lhs rhs => max (exprPeak height lhs) (exprPeak height rhs)
  | .unary _ expr => exprPeak height expr
  | .binary _ lhs rhs | .index lhs rhs => max (exprPeak height lhs) (exprPeak (height + 1) rhs)
  | .range base start stop =>
      max (exprPeak height base) (max (exprPeak (height + 1) start) (exprPeak (height + 2) stop))
  | .map map => max (height + 1) (mapPeak (height + 1) map)
  | .list list => argListPeak height list
  | .call _ args => argListPeak height args
  | .verb obj verb args =>
      max (exprPeak height obj) (max (exprPeak (height + 1) verb) (argListPeak (height + 2) args))
  | .cond condition consequent alternate =>
      max (exprPeak height condition) (max (exprPeak height consequent) (exprPeak height alternate))
  | .asgn lhs rhs =>
      max (placePeak height false lhs) (exprPeak (height + placeHeight lhs false) rhs)
  | .asgnRange base start stop rhs =>
      let top := height + placeHeight base true
      max (placePeak height true base)
        (max (exprPeak top start) (max (exprPeak (top + 1) stop) (exprPeak (top + 2) rhs)))
  | .scatter targets rhs => max (exprPeak height rhs) (defaultsPeak (height + 1) targets)
  | .catch body codes =>
      max (codesPeak height codes (argListPeak height codes))
        (max (height + 3) (exprPeak (height + 3) body))
  | .catchElse body codes except =>
      max (codesPeak height codes (argListPeak height codes))
        (max (height + 3) (max (exprPeak (height + 3) body) (exprPeak height except)))

def placePeak (height : Nat) (indexedAbove : Bool) : Place V → Nat
  | .id _ => if indexedAbove then height + 1 else 0
  | .prop obj name =>
      max (exprPeak height obj)
        (max (exprPeak (height + 1) name) (if indexedAbove then height + 3 else 0))
  | .index base index =>
      let top := height + placeHeight base true
      max (placePeak height true base)
        (max (exprPeak top index) (if indexedAbove then top + 2 else 0))

def argListPeak (height : Nat) : ArgList V → Nat
  | .nil => height + 1
  | .cons _ expr next => max (exprPeak height expr) (argsPeak (height + 1) next)

def argsPeak (height : Nat) : ArgList V → Nat
  | .nil => 0
  | .cons _ expr next => max (exprPeak height expr) (argsPeak height next)

def mapPeak (height : Nat) : MapList V → Nat
  | .nil => 0
  | .cons key value next =>
      max (exprPeak height value) (max (exprPeak (height + 1) key) (mapPeak height next))

def defaultsPeak (height : Nat) : Scatter V → Nat
  | .nil => 0
  | .cons _ _ next => defaultsPeak height next
  | .default _ expr next => max (exprPeak height expr) (defaultsPeak height next)

end

section PeakEnds

variable (height : Nat)

theorem exprPeak_list (args : ArgList V) : exprPeak height (.list args) = argListPeak height args := by
  rw [exprPeak]

theorem placePeak_id (id : Nat) : placePeak height false (.id (V := V) id) = 0 := by
  rw [placePeak, if_neg Bool.false_ne_true]

theorem argListPeak_nil : argListPeak (V := V) height .nil = height + 1 := by rw [argListPeak]

theorem argsPeak_nil : argsPeak (V := V) height .nil = 0 := by rw [argsPeak]

theorem mapPeak_nil : mapPeak (V := V) height .nil = 0 := by rw [mapPeak]

theorem defaultsPeak_nil : defaultsPeak (V := V) height .nil = 0 := by rw [defaultsPeak]

end PeakEnds

/-! The cells of statements, in which a label to be defined further out is a hole: `hole 0` for the
end of the innermost construct around, and so on outwards. -/

inductive Raw (V : Type)
  | cell (cell : Cell V)
  | hole (level : Nat)

def raw (code : List (Cell V)) : List (Raw V) := code.map .cell

def Raw.lift : Raw V → Raw V
  | cell c => cell c
  | hole level => hole (level + 1)

def Raw.leave (value : Nat) : Raw V → Raw V
  | cell c => cell c
  | hole 0 => cell (.label value)
  | hole (level + 1) => hole level

def Raw.unresolved : Raw V → Cell V
  | cell c => c
  | hole _ => .label 0

def closed (pos : Nat) (code : List (Raw V)) : List (Raw V) :=
  code.map (Raw.leave (pos + code.length))

def varRefsCode (id : Nat) : Option Nat → List (Cell V)
  | none => extendedCode .forList1 ++ [.varRef id]
  | some index => extendedCode .forList2 ++ [.varRef id, .varRef index]

def whileCode : Option Nat → List (Cell V)
  | none => [.op .while]
  | some id => extendedCode .whileId ++ [.varRef id]

def exitCode : Option Nat → List (Cell V)
  | none => extendedCode .exit
  | some id => extendedCode .exitId ++ [.varRef id]

def caughtCode : Option Nat → List (Cell V)
  | none => [.op .pop]
  | some id => putCode id ++ [.op .pop]

def forkCode (id : Option Nat) (vector : List (Cell V)) (maxStack : Nat) : List (Cell V) :=
  match id with
  | none => [.op .fork, .fork vector maxStack]
  | some id => [.op .forkWithId, .fork vector maxStack, .varRef id]

mutual

def stmtPeak (height : Nat) : Stmt V → Nat
  | .cond arms otherwise => max (armsPeak height arms) (stmtsPeak height otherwise)
  | .list _ _ expr body =>
      max (exprPeak height expr) (max (height + 2) (stmtsPeak (height + 2) body))
  | .range _ start stop body =>
      max (exprPeak height start) (max (exprPeak (height + 1) stop) (stmtsPeak (height + 2) body))
  | .loop _ condition body => max (exprPeak height condition) (stmtsPeak height body)
  | .fork _ time _ => exprPeak height time
  | .expr expr | .return expr => exprPeak height expr
  | .returnZero | .break _ | .continue _ => 0
  | .tryExcept body excepts =>
      let inside := height + 2 * excepts.length + 1
      max (handlersPeak height excepts)
        (max inside (max (stmtsPeak inside body) (exceptsPeak height excepts)))
  | .tryFinally body handler =>
      max (height + 1)
        (max (stmtsPeak (height + 1) body) (max (height + 2) (stmtsPeak (height + 2) handler)))

def stmtsPeak (height : Nat) : Stmts V → Nat
  | .nil => 0
  | .cons stmt next => max (stmtPeak height stmt) (stmtsPeak height next)

def armsPeak (height : Nat) : CondArms V → Nat
  | .nil => 0
  | .cons condition stmt next =>
      max (exprPeak height condition) (max (stmtsPeak height stmt) (armsPeak height next))

def handlersPeak (height : Nat) : ExceptArms V → Nat
  | .nil => 0
  | .cons _ codes _ next =>
      max (codesPeak height codes (argListPeak height codes))
        (max (height + 2) (handlersPeak (height + 2) next))

def exceptsPeak (height : Nat) : ExceptArms V → Nat
  | .nil => 0
  | .cons _ _ stmt next =>
      max (height + 1) (max (stmtsPeak height stmt) (exceptsPeak height next))

end

mutual

def stmtRaw (pos height : Nat) (loops : List LoopInfo) : Stmt V → List (Raw V)
  | .cond arms otherwise =>
      let first := armsRaw pos height loops .if arms
      let second := stmtsRaw (pos + first.length) height loops otherwise
      closed pos (first ++ second.map Raw.lift)
  | .list id index expr body =>
      let header := exprCode pos height none expr ++ [.op .imm, .noneLiteral]
      let top := pos + header.length
      let test := varRefsCode id index
      let inside := stmtsRaw (top + test.length + 1) (height + 2)
        (⟨some id, index, top, height + 2, height⟩ :: loops) body
      closed pos (raw (header ++ test) ++ [.hole 0] ++ inside ++ raw [.op .jump, .label top])
  | .range id start stop body =>
      let first := exprCode pos height none start
      let header := first ++ exprCode (pos + first.length) (height + 1) none stop
      let top := pos + header.length
      let inside := stmtsRaw (top + 3) (height + 2)
        (⟨some id, none, top, height + 2, height⟩ :: loops) body
      closed pos (raw (header ++ [.op .forRange, .varRef id]) ++ [.hole 0] ++ inside ++
        raw [.op .jump, .label top])
  | .loop id condition body =>
      let test := exprCode pos height none condition ++ whileCode id
      let inside := stmtsRaw (pos + test.length + 1) height
        (⟨id, none, pos, height, height⟩ :: loops) body
      closed pos (raw test ++ [.hole 0] ++ inside ++ raw [.op .jump, .label pos])
  | .fork id time body =>
      raw (exprCode pos height none time ++ forkCode id
        ((stmtsRaw 0 0 [] body).map Raw.unresolved ++ [.op .done]) (stmtsPeak 0 body))
  | .expr expr => raw (exprCode pos height none expr ++ [.op .pop])
  | .return expr => raw (exprCode pos height none expr ++ [.op .return])
  | .returnZero => raw [.op .returnZero]
  | .tryExcept body excepts =>
      let inside := height + 2 * excepts.length + 1
      let handlersLength := (handlersCode pos height 0 height loops excepts).length
      let attempt := stmtsRaw (pos + handlersLength + 3) inside loops body
      let rescue := pos + handlersLength + 3 + attempt.length + 3
      closed pos (raw (handlersCode pos height rescue height loops excepts ++ extendedCode .tryExcept ++
        [.byte excepts.length]) ++ attempt.map Raw.lift ++ raw (extendedCode .endExcept) ++
        [.hole 0] ++ exceptsRaw rescue height loops excepts)
  | .tryFinally body handler =>
      let attempt := stmtsRaw (pos + 3) (height + 1) loops body
      let finally_ := pos + 3 + attempt.length + 2
      raw (extendedCode .tryFinally ++ [.label finally_]) ++ attempt ++
        raw (extendedCode .endFinally) ++ stmtsRaw finally_ (height + 2) loops handler ++
        raw (extendedCode .continue)
  | .break exit =>
      let level := findLevel exit loops
      raw (exitCode exit ++ [.stack (loops[level]?.elim 0 LoopInfo.bottomStack)]) ++ [.hole level]
  | .continue exit =>
      let loop := loops[findLevel exit loops]?
      raw (exitCode exit ++ [.stack (loop.elim 0 LoopInfo.topStack),
        .label (loop.elim 0 LoopInfo.topLabel)])

def stmtsRaw (pos height : Nat) (loops : List LoopInfo) : Stmts V → List (Raw V)
  | .nil => []
  | .cons stmt next =>
      let first := stmtRaw pos height loops stmt
      first ++ stmtsRaw (pos + first.length) height loops next

/-- `hole 0` is the end of the whole `if`. -/
def armsRaw (pos height : Nat) (loops : List LoopInfo) (ifOp : Opcode) :
    CondArms V → List (Raw V)
  | .nil => []
  | .cons condition stmt next =>
      let test := exprCode pos height none condition
      let inside := stmtsRaw (pos + test.length + 2) height loops stmt
      let else_ := pos + test.length + 2 + inside.length + 2
      raw (test ++ [.op ifOp, .label else_]) ++ inside.map Raw.lift ++ raw [.op .jump] ++ [.hole 0] ++
        armsRaw else_ height loops .eif next

def handlersCode (pos top rescue height : Nat) (loops : List LoopInfo) :
    ExceptArms V → List (Cell V)
  | .nil => []
  | .cons id codes stmt next =>
      let handled := codesCode codes (argListCode pos top none codes)
      let caught : List (Cell V) := caughtCode id
      let inside := stmtsRaw (rescue + caught.length) height loops stmt
      let jump := match next with
        | .nil => 0
        | .cons _ _ _ _ => 2
      handled ++ extendedCode .pushLabel ++ [.label rescue] ++
        handlersCode (pos + handled.length + 3) (top + 2)
          (rescue + caught.length + inside.length + jump) height loops next

def exceptsRaw (pos height : Nat) (loops : List LoopInfo) : ExceptArms V → List (Raw V)
  | .nil => []
  | .cons id _ stmt next =>
      let caught : List (Cell V) := caughtCode id
      let inside := stmtsRaw (pos + caught.length) height loops stmt
      let jump := match next with
        | .nil => []
        | .cons _ _ _ _ => raw [.op .jump] ++ [.hole 0]
      raw caught ++ inside.map Raw.lift ++ jump ++
        exceptsRaw (pos + caught.length + inside.length + jump.length) height loops next

end

section RawEnds

variable (pos height : Nat) (loops : List LoopInfo)

theorem stmtRaw_returnZero : stmtRaw (V := V) pos height loops .returnZero = raw [.op .returnZero] := by
  rw [stmtRaw]

theorem stmtsRaw_nil : stmtsRaw (V := V) pos height loops .nil = [] := by rw [stmtsRaw]

theorem armsRaw_nil (ifOp : Opcode) : armsRaw (V := V) pos height loops ifOp .nil = [] := by
  rw [armsRaw]

theorem handlersCode_nil (rescue top : Nat) :
    handlersCode (V := V) pos top rescue height loops .nil = [] := by rw [handlersCode]

theorem exceptsRaw_nil : exceptsRaw (V := V) pos height loops .nil = [] := by rw [exceptsRaw]

theorem stmtPeak_returnZero : stmtPeak (V := V) height .returnZero = 0 := by rw [stmtPeak]

theorem stmtsPeak_nil : stmtsPeak (V := V) height .nil = 0 := by rw [stmtsPeak]

theorem armsPeak_nil : armsPeak (V := V) height .nil = 0 := by rw [armsPeak]

theorem handlersPeak_nil : handlersPeak (V := V) height .nil = 0 := by rw [handlersPeak]

theorem exceptsPeak_nil : exceptsPeak (V := V) height .nil = 0 := by rw [exceptsPeak]

end RawEnds

def vectorCode (body : Stmts V) : List (Cell V) :=
  (stmtsRaw 0 0 [] body).map Raw.unresolved ++ [.op .done]

end ToastStunt.Code
