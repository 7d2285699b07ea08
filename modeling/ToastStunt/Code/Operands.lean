import ToastStunt.Code.Statements

/-!
The operands of a program's code besides its literals and labels, read off the tree in the order in
which they are emitted. `height` and `saved` are as in the layout.
-/

namespace ToastStunt.Code

variable {V : Type}

inductive Operand
  | byte (n : Nat)
  | varRef (slot : Nat)
  | stack (index : Nat)
  | fork (inside : List Operand)

mutual

def Operand.refs : Operand → Nat
  | .varRef _ => 1
  | .fork inside => refs inside
  | _ => 0

def refs : List Operand → Nat
  | [] => 0
  | operand :: rest => operand.refs + refs rest

end

mutual

def Cell.operands : Cell V → List Operand
  | .byte n => [.byte n]
  | .varRef slot => [.varRef slot]
  | .stack index => [.stack index]
  | .fork vector _ => [.fork (operandsIn vector)]
  | _ => []

def operandsIn : List (Cell V) → List Operand
  | [] => []
  | cell :: rest => cell.operands ++ operandsIn rest

end

attribute [simp] refs Operand.refs operandsIn Cell.operands

theorem refs_append (operands more : List Operand) :
    refs (operands ++ more) = refs operands + refs more := by
  induction operands with
  | nil => simp
  | cons operand rest ih => simp [ih, Nat.add_assoc]

def slotOperands (slot : Nat) : List Operand := if slot ≥ numReadyVars then [.varRef slot] else []

def storeOperands : Place V → List Operand
  | .id id => slotOperands id
  | .prop _ _ => []
  | .index base _ => storeOperands base

mutual

def exprOperands (height : Nat) (saved : Option Nat) : Expr V → List Operand
  | .var _ => []
  | .id id => slotOperands id
  | .and lhs rhs | .or lhs rhs => exprOperands height saved lhs ++ exprOperands height saved rhs
  | .unary _ expr => exprOperands height saved expr
  | .binary _ lhs rhs => exprOperands height saved lhs ++ exprOperands (height + 1) saved rhs
  | .index lhs rhs => exprOperands height saved lhs ++ exprOperands (height + 1) (some height) rhs
  | .range base start stop =>
      exprOperands height saved base ++ exprOperands (height + 1) (some height) start ++
        exprOperands (height + 2) (some height) stop
  | .first | .last => [.stack (saved.getD 0)]
  | .map map => mapOperands (height + 1) saved map
  | .list list => argListOperands height saved list
  | .call func args => argListOperands height saved args ++ [.byte func]
  | .verb obj verb args =>
      exprOperands height saved obj ++ exprOperands (height + 1) saved verb ++
        argListOperands (height + 2) saved args
  | .cond condition consequent alternate =>
      exprOperands height saved condition ++ exprOperands height saved consequent ++
        exprOperands height saved alternate
  | .asgn lhs rhs =>
      placeOperands height saved false lhs ++
        exprOperands (height + placeHeight lhs false) saved rhs ++ storeOperands lhs
  | .asgnRange base start stop rhs =>
      let top := height + placeHeight base true
      placeOperands height saved true base ++ exprOperands top (some (top - 1)) start ++
        exprOperands (top + 1) (some (top - 1)) stop ++ exprOperands (top + 2) saved rhs ++
        storeOperands base
  | .scatter targets rhs =>
      exprOperands height saved rhs ++ [.byte targets.length, .byte targets.countRequired,
        .byte (restOperand targets)] ++ targetOperands targets ++
        defaultOperands (height + 1) saved targets
  | .catch body codes =>
      argListOperands height saved codes ++ exprOperands (height + 3) saved body
  | .catchElse body codes except =>
      argListOperands height saved codes ++ exprOperands (height + 3) saved body ++
        exprOperands height saved except

def placeOperands (height : Nat) (saved : Option Nat) (indexedAbove : Bool) : Place V → List Operand
  | .id id => if indexedAbove then slotOperands id else []
  | .prop obj name => exprOperands height saved obj ++ exprOperands (height + 1) saved name
  | .index base index =>
      let top := height + placeHeight base true
      placeOperands height saved true base ++ exprOperands top (some (top - 1)) index

def argListOperands (height : Nat) (saved : Option Nat) : ArgList V → List Operand
  | .nil => []
  | .cons _ expr next => exprOperands height saved expr ++ argsOperands (height + 1) saved next

def argsOperands (height : Nat) (saved : Option Nat) : ArgList V → List Operand
  | .nil => []
  | .cons _ expr next => exprOperands height saved expr ++ argsOperands height saved next

def mapOperands (height : Nat) (saved : Option Nat) : MapList V → List Operand
  | .nil => []
  | .cons key value next =>
      exprOperands height saved value ++ exprOperands (height + 1) saved key ++
        mapOperands height saved next

def targetOperands : Scatter V → List Operand
  | .nil => []
  | .cons _ id next => .varRef id :: targetOperands next
  | .default id _ next => .varRef id :: targetOperands next

def defaultOperands (height : Nat) (saved : Option Nat) : Scatter V → List Operand
  | .nil => []
  | .cons _ _ next => defaultOperands height saved next
  | .default id expr next =>
      exprOperands height saved expr ++ slotOperands id ++ defaultOperands height saved next

end

def exitOperands : Option Nat → List Operand
  | none => []
  | some id => [.varRef id]

def caughtOperands : Option Nat → List Operand
  | none => []
  | some id => slotOperands id

mutual

def stmtOperands (height : Nat) (loops : List LoopInfo) : Stmt V → List Operand
  | .cond arms otherwise => armsOperands height loops arms ++ stmtsOperands height loops otherwise
  | .list id index expr body =>
      exprOperands height none expr ++ .varRef id :: exitOperands index ++
        stmtsOperands (height + 2) (⟨some id, index, 0, height + 2, height⟩ :: loops) body
  | .range id start stop body =>
      exprOperands height none start ++ exprOperands (height + 1) none stop ++ .varRef id ::
        stmtsOperands (height + 2) (⟨some id, none, 0, height + 2, height⟩ :: loops) body
  | .loop id condition body =>
      exprOperands height none condition ++ exitOperands id ++
        stmtsOperands height (⟨id, none, 0, height, height⟩ :: loops) body
  | .fork id time body =>
      exprOperands height none time ++ .fork (stmtsOperands 0 [] body) :: exitOperands id
  | .expr expr | .return expr => exprOperands height none expr
  | .returnZero => []
  | .tryExcept body excepts =>
      handlerOperands height excepts ++ .byte excepts.length ::
        stmtsOperands (height + 2 * excepts.length + 1) loops body ++
        exceptsOperands height loops excepts
  | .tryFinally body handler =>
      stmtsOperands (height + 1) loops body ++ stmtsOperands (height + 2) loops handler
  | .break exit =>
      exitOperands exit ++ [.stack (loops[findLevel exit loops]?.elim 0 LoopInfo.bottomStack)]
  | .continue exit =>
      exitOperands exit ++ [.stack (loops[findLevel exit loops]?.elim 0 LoopInfo.topStack)]

def stmtsOperands (height : Nat) (loops : List LoopInfo) : Stmts V → List Operand
  | .nil => []
  | .cons stmt next => stmtOperands height loops stmt ++ stmtsOperands height loops next

def armsOperands (height : Nat) (loops : List LoopInfo) : CondArms V → List Operand
  | .nil => []
  | .cons condition stmt next =>
      exprOperands height none condition ++ stmtsOperands height loops stmt ++
        armsOperands height loops next

def handlerOperands (height : Nat) : ExceptArms V → List Operand
  | .nil => []
  | .cons _ codes _ next => argListOperands height none codes ++ handlerOperands (height + 2) next

def exceptsOperands (height : Nat) (loops : List LoopInfo) : ExceptArms V → List Operand
  | .nil => []
  | .cons id _ stmt next =>
      caughtOperands id ++ stmtsOperands height loops stmt ++ exceptsOperands height loops next

end

section Expressions

@[simp] theorem operandsIn_append (code rest : List (Cell V)) :
    operandsIn (code ++ rest) = operandsIn code ++ operandsIn rest := by
  induction code with
  | nil => rfl
  | cons cell code ih => simp [ih]

@[simp] theorem operandsIn_push (slot : Nat) :
    operandsIn (pushCode slot : List (Cell V)) = slotOperands slot := by
  unfold pushCode slotOperands
  split <;> rfl

@[simp] theorem operandsIn_put (slot : Nat) :
    operandsIn (putCode slot : List (Cell V)) = slotOperands slot := by
  unfold putCode slotOperands
  split <;> rfl

@[simp] theorem operandsIn_literal (v : Literal V) : operandsIn (literalCode v) = [] := by
  unfold literalCode
  split
  · split <;> rfl
  · rfl

@[simp] theorem operandsIn_extended (op : ExtendedOpcode) :
    operandsIn (extendedCode op : List (Cell V)) = [] := rfl

@[simp] theorem operandsIn_unary (kind : UnaryKind) :
    operandsIn (unaryCode kind : List (Cell V)) = [] := by cases kind <;> rfl

@[simp] theorem operandsIn_binary (kind : BinaryKind) :
    operandsIn (binaryCode kind : List (Cell V)) = [] := by cases kind <;> rfl

@[simp] theorem operandsIn_store (isIndexed : Bool) (place : Place V) :
    operandsIn (storeCode isIndexed place) = storeOperands place := by
  cases place with
  | id id => cases isIndexed <;> simp [storeCode, storeOperands]
  | prop obj name => cases isIndexed <;> rfl
  | index base index => simp [storeCode, storeOperands, operandsIn_store true base]

theorem operandsIn_codes {codes : ArgList V} {argList : List (Cell V)} {height : Nat}
    {saved : Option Nat} (list : operandsIn argList = argListOperands height saved codes) :
    operandsIn (codesCode codes argList) = argListOperands height saved codes := by
  cases codes with
  | nil => rfl
  | cons kind expr next => exact list

mutual

theorem expr_operands (expr : Expr V) (pos height : Nat) (saved : Option Nat) :
    operandsIn (exprCode pos height saved expr) = exprOperands height saved expr := by
  cases expr with
  | var v => simp [exprCode, exprOperands]
  | id id => simp [exprCode, exprOperands]
  | first | last => simp [exprCode, exprOperands]
  | and lhs rhs | or lhs rhs | binary kind lhs rhs | index lhs rhs =>
      simp [exprCode, exprOperands, expr_operands lhs, expr_operands rhs]
  | unary kind expr => simp [exprCode, exprOperands, expr_operands expr]
  | range base start stop =>
      simp [exprCode, exprOperands, expr_operands base, expr_operands start, expr_operands stop]
  | map map => simp [exprCode, exprOperands, map_operands map]
  | list list => simp [exprCode, exprOperands, argList_operands list]
  | call func args => simp [exprCode, exprOperands, argList_operands args]
  | verb obj verb args =>
      simp [exprCode, exprOperands, expr_operands obj, expr_operands verb, argList_operands args]
  | cond condition consequent alternate =>
      simp [exprCode, exprOperands, expr_operands condition, expr_operands consequent,
        expr_operands alternate]
  | asgn lhs rhs =>
      simp only [exprCode, exprOperands, operandsIn_append, operandsIn_store, place_operands lhs,
        expr_operands rhs]
      split <;> simp
  | asgnRange base start stop rhs =>
      simp [exprCode, exprOperands, place_operands base, expr_operands start, expr_operands stop,
        expr_operands rhs]
  | scatter targets rhs =>
      simp [exprCode, exprOperands, expr_operands rhs, targets_operands targets,
        defaults_operands targets]
  | «catch» body codes =>
      simp [exprCode, exprOperands, operandsIn_codes (argList_operands codes pos height saved),
        expr_operands body]
  | catchElse body codes except =>
      simp [exprCode, exprOperands, operandsIn_codes (argList_operands codes pos height saved),
        expr_operands body, expr_operands except]

theorem place_operands (place : Place V) (pos height : Nat) (saved : Option Nat) (indexedAbove : Bool) :
    operandsIn (placeCode pos height saved indexedAbove place) =
      placeOperands height saved indexedAbove place := by
  cases place with
  | id id => cases indexedAbove <;> simp [placeCode, placeOperands]
  | prop obj name =>
      simp only [placeCode, placeOperands, operandsIn_append, expr_operands obj, expr_operands name]
      split <;> simp
  | index base index =>
      simp only [placeCode, placeOperands, operandsIn_append, place_operands base, expr_operands index]
      split <;> simp

theorem argList_operands (args : ArgList V) (pos height : Nat) (saved : Option Nat) :
    operandsIn (argListCode pos height saved args) = argListOperands height saved args := by
  cases args with
  | nil => rfl
  | cons kind expr next => simp [argListCode, argListOperands, expr_operands expr, args_operands next]

theorem args_operands (args : ArgList V) (pos height : Nat) (saved : Option Nat) :
    operandsIn (argsCode pos height saved args) = argsOperands height saved args := by
  cases args with
  | nil => rfl
  | cons kind expr next => simp [argsCode, argsOperands, expr_operands expr, args_operands next]

theorem map_operands (map : MapList V) (pos height : Nat) (saved : Option Nat) :
    operandsIn (mapCode pos height saved map) = mapOperands height saved map := by
  cases map with
  | nil => rfl
  | cons key value next =>
      simp [mapCode, mapOperands, expr_operands value, expr_operands key, map_operands next]

theorem targets_operands (targets : Scatter V) (pos height : Nat) (saved : Option Nat) :
    operandsIn (targetsCode pos height saved targets) = targetOperands targets := by
  cases targets with
  | nil => rfl
  | cons kind id next => simp [targetsCode, targetOperands, targets_operands next]
  | default id expr next => simp [targetsCode, targetOperands, targets_operands next]

theorem defaults_operands (targets : Scatter V) (pos height : Nat) (saved : Option Nat) :
    operandsIn (defaultsCode pos height saved targets) = defaultOperands height saved targets := by
  cases targets with
  | nil => rfl
  | cons kind id next => simp [defaultsCode, defaultOperands, defaults_operands next]
  | default id expr next =>
      simp [defaultsCode, defaultOperands, expr_operands expr, defaults_operands next]

end

end Expressions

section Statements

/-- The operands of code whose labels are not all placed yet. -/
def rawOperands (code : List (Raw V)) : List Operand := operandsIn (code.map Raw.unresolved)

@[simp] theorem rawOperands_nil : rawOperands ([] : List (Raw V)) = [] := rfl

@[simp] theorem rawOperands_append (code rest : List (Raw V)) :
    rawOperands (code ++ rest) = rawOperands code ++ rawOperands rest := by simp [rawOperands]

@[simp] theorem rawOperands_hole (level : Nat) (rest : List (Raw V)) :
    rawOperands (.hole level :: rest) = rawOperands rest := rfl

@[simp] theorem rawOperands_cell (cell : Cell V) (rest : List (Raw V)) :
    rawOperands (.cell cell :: rest) = cell.operands ++ rawOperands rest := rfl

@[simp] theorem rawOperands_raw (code : List (Cell V)) : rawOperands (raw code) = operandsIn code := by
  induction code with
  | nil => rfl
  | cons cell code ih => exact congrArg (cell.operands ++ ·) ih

@[simp] theorem rawOperands_lift (code : List (Raw V)) :
    rawOperands (code.map Raw.lift) = rawOperands code := by
  induction code with
  | nil => rfl
  | cons r code ih =>
      cases r with
      | cell c => exact congrArg (c.operands ++ ·) ih
      | hole level => exact ih

@[simp] theorem rawOperands_closed (pos : Nat) (code : List (Raw V)) :
    rawOperands (closed pos code) = rawOperands code := by
  rw [closed]
  generalize pos + code.length = place
  induction code with
  | nil => rfl
  | cons r code ih =>
      cases r with
      | cell c => exact congrArg (c.operands ++ ·) ih
      | hole level => cases level <;> exact ih

@[simp] theorem operandsIn_exit (exit : Option Nat) :
    operandsIn (exitCode exit : List (Cell V)) = exitOperands exit := by cases exit <;> rfl

@[simp] theorem operandsIn_while (id : Option Nat) :
    operandsIn (whileCode id : List (Cell V)) = exitOperands id := by cases id <;> rfl

@[simp] theorem operandsIn_varRefs (id : Nat) (index : Option Nat) :
    operandsIn (varRefsCode id index : List (Cell V)) = .varRef id :: exitOperands index := by
  cases index <;> rfl

@[simp] theorem operandsIn_caught (id : Option Nat) :
    operandsIn (caughtCode id : List (Cell V)) = caughtOperands id := by
  cases id <;> simp [caughtCode, caughtOperands]

@[simp] theorem operandsIn_fork (id : Option Nat) (vector : List (Cell V)) (maxStack : Nat) :
    operandsIn (forkCode id vector maxStack) = .fork (operandsIn vector) :: exitOperands id := by
  cases id <;> rfl

def LoopInfo.unplaced (info : LoopInfo) : LoopInfo := { info with topLabel := 0 }

theorem findLevel_unplaced (exit : Option Nat) (loops : List LoopInfo) :
    findLevel exit (loops.map LoopInfo.unplaced) = findLevel exit loops := by
  cases exit with
  | none => rfl
  | some id => exact List.findIdx_map ..

mutual

theorem stmt_operands (stmt : Stmt V) (pos height : Nat) (loops : List LoopInfo) :
    rawOperands (stmtRaw pos height loops stmt) =
      stmtOperands height (loops.map LoopInfo.unplaced) stmt := by
  cases stmt with
  | cond arms otherwise =>
      simp [stmtRaw, stmtOperands, arms_operands arms, stmts_operands otherwise]
  | list id index expr body =>
      simp [stmtRaw, stmtOperands, expr_operands, stmts_operands body, LoopInfo.unplaced]
  | range id start stop body =>
      simp [stmtRaw, stmtOperands, expr_operands, stmts_operands body, LoopInfo.unplaced]
  | loop id condition body =>
      simp [stmtRaw, stmtOperands, expr_operands, stmts_operands body, LoopInfo.unplaced]
  | fork id time body =>
      have inside := stmts_operands body 0 0 []
      rw [rawOperands] at inside
      simp [stmtRaw, stmtOperands, expr_operands, inside]
  | expr expr | «return» expr => simp [stmtRaw, stmtOperands, expr_operands]
  | returnZero => rfl
  | tryExcept body excepts =>
      simp [stmtRaw, stmtOperands, handlers_operands excepts, stmts_operands body,
        excepts_operands excepts]
  | tryFinally body handler =>
      simp [stmtRaw, stmtOperands, stmts_operands body, stmts_operands handler]
  | «break» exit =>
      simp [stmtRaw, stmtOperands, findLevel_unplaced]
      rfl
  | «continue» exit =>
      simp [stmtRaw, stmtOperands, findLevel_unplaced]
      rfl

theorem stmts_operands (stmts : Stmts V) (pos height : Nat) (loops : List LoopInfo) :
    rawOperands (stmtsRaw pos height loops stmts) =
      stmtsOperands height (loops.map LoopInfo.unplaced) stmts := by
  cases stmts with
  | nil => rfl
  | cons stmt next => simp [stmtsRaw, stmtsOperands, stmt_operands stmt, stmts_operands next]

theorem arms_operands (arms : CondArms V) (pos height : Nat) (ifOp : Opcode) (loops : List LoopInfo) :
    rawOperands (armsRaw pos height loops ifOp arms) =
      armsOperands height (loops.map LoopInfo.unplaced) arms := by
  cases arms with
  | nil => rfl
  | cons condition stmt next =>
      simp [armsRaw, armsOperands, expr_operands, stmts_operands stmt, arms_operands next]

theorem handlers_operands (excepts : ExceptArms V) (pos top rescue height : Nat)
    (loops : List LoopInfo) :
    operandsIn (handlersCode pos top rescue height loops excepts) = handlerOperands top excepts := by
  cases excepts with
  | nil => rfl
  | cons id codes stmt next =>
      rw [handlersCode_cons]
      simp [handlerOperands, operandsIn_codes (argList_operands codes pos top none),
        handlers_operands next]

theorem excepts_operands (excepts : ExceptArms V) (pos height : Nat) (loops : List LoopInfo) :
    rawOperands (exceptsRaw pos height loops excepts) =
      exceptsOperands height (loops.map LoopInfo.unplaced) excepts := by
  cases excepts with
  | nil => rfl
  | cons id codes stmt next =>
      rw [exceptsRaw_cons]
      cases next <;>
        simp [exceptsOperands, stmts_operands stmt, excepts_operands _, jumpRaw]

end

theorem vectorCode_operands (stmts : Stmts V) :
    operandsIn (vectorCode stmts) = stmtsOperands 0 [] stmts := by
  have whole := stmts_operands stmts 0 0 []
  rw [rawOperands] at whole
  simpa [vectorCode] using whole

end Statements

end ToastStunt.Code
