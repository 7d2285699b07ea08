import ToastStunt.Code.Statements

/-!
Every label of a vector is a place in it: no jump, handler or default leads out of the code. The
vector of a fork is the code of a program of its own.
-/

namespace ToastStunt.Code

variable {V : Type}

def Cell.inside (limit : Nat) : Cell V → Prop
  | .label place => place ≤ limit
  | .fork vector maxStack =>
      ∃ body, stmtsScoped [] body = true ∧ vector = vectorCode body ∧ maxStack = stmtsPeak 0 body
  | _ => True

def Inside (limit : Nat) (code : List (Cell V)) : Prop := ∀ cell ∈ code, cell.inside limit

section Parts

variable {limit : Nat}

@[simp] theorem inside_nil : Inside limit ([] : List (Cell V)) := fun _ listed => nomatch listed

@[simp] theorem inside_append {a b : List (Cell V)} :
    Inside limit (a ++ b) ↔ Inside limit a ∧ Inside limit b := List.forall_mem_append

@[simp] theorem inside_cons {cell : Cell V} {rest : List (Cell V)} :
    Inside limit (cell :: rest) ↔ cell.inside limit ∧ Inside limit rest := List.forall_mem_cons

attribute [local simp] Cell.inside

@[simp] theorem extendedCode_length (op : ExtendedOpcode) :
    (extendedCode op : List (Cell V)).length = 2 := rfl

@[simp] theorem inside_extended (op : ExtendedOpcode) :
    Inside limit (extendedCode op : List (Cell V)) := by simp [extendedCode]

@[simp] theorem inside_push (slot : Nat) : Inside limit (pushCode slot : List (Cell V)) := by
  unfold pushCode
  split <;> simp

@[simp] theorem inside_put (slot : Nat) : Inside limit (putCode slot : List (Cell V)) := by
  unfold putCode
  split <;> simp

@[simp] theorem inside_literal (v : Literal V) : Inside limit (literalCode v) := by
  unfold literalCode
  split
  · split <;> simp
  · simp

@[simp] theorem inside_unary (kind : UnaryKind) : Inside limit (unaryCode kind : List (Cell V)) := by
  cases kind <;> simp [unaryCode, opCode]

@[simp] theorem inside_binary (kind : BinaryKind) : Inside limit (binaryCode kind : List (Cell V)) := by
  cases kind <;> simp [binaryCode, opCode]

@[simp] theorem inside_store (isIndexed : Bool) (place : Place V) :
    Inside limit (storeCode isIndexed place) := by
  cases place with
  | id id => cases isIndexed <;> simp [storeCode]
  | prop obj name => cases isIndexed <;> simp [storeCode]
  | index base index => simp [storeCode, inside_store true base]

theorem inside_codes {codes : ArgList V} {argList : List (Cell V)} {pos : Nat}
    (list : pos + argList.length ≤ limit → Inside limit argList)
    (fits : pos + (codesCode codes argList).length ≤ limit) : Inside limit (codesCode codes argList) := by
  cases codes with
  | nil => simp [codesCode]
  | cons kind expr next => exact list fits

end Parts

section Expressions

variable (limit : Nat)

attribute [local simp] Cell.inside

mutual

theorem expr_inside (expr : Expr V) (pos height : Nat) (saved : Option Nat)
    (fits : pos + (exprCode pos height saved expr).length ≤ limit) :
    Inside limit (exprCode pos height saved expr) := by
  cases expr with
  | var v => simp [exprCode]
  | id id => simp [exprCode]
  | and lhs rhs =>
      simp [exprCode] at fits ⊢
      exact ⟨expr_inside lhs _ _ _ (by omega), by omega, expr_inside rhs _ _ _ (by omega)⟩
  | or lhs rhs =>
      simp [exprCode] at fits ⊢
      exact ⟨expr_inside lhs _ _ _ (by omega), by omega, expr_inside rhs _ _ _ (by omega)⟩
  | unary kind expr =>
      simp [exprCode] at fits ⊢
      exact expr_inside expr _ _ _ (by omega)
  | binary kind lhs rhs =>
      simp [exprCode] at fits ⊢
      exact ⟨expr_inside lhs _ _ _ (by omega), expr_inside rhs _ _ _ (by omega)⟩
  | index lhs rhs =>
      simp [exprCode] at fits ⊢
      exact ⟨expr_inside lhs _ _ _ (by omega), expr_inside rhs _ _ _ (by omega)⟩
  | range base start stop =>
      simp [exprCode] at fits ⊢
      exact ⟨expr_inside base _ _ _ (by omega), expr_inside start _ _ _ (by omega),
        expr_inside stop _ _ _ (by omega)⟩
  | first => simp [exprCode]
  | last => simp [exprCode]
  | map map =>
      simp [exprCode] at fits ⊢
      exact map_inside map _ _ _ (by omega)
  | list list =>
      rw [exprCode_list] at fits ⊢
      exact argList_inside list _ _ _ fits
  | call func args =>
      simp [exprCode] at fits ⊢
      exact argList_inside args _ _ _ (by omega)
  | verb obj verb args =>
      simp [exprCode] at fits ⊢
      exact ⟨expr_inside obj _ _ _ (by omega), expr_inside verb _ _ _ (by omega),
        argList_inside args _ _ _ (by omega)⟩
  | cond condition consequent alternate =>
      simp [exprCode] at fits ⊢
      exact ⟨expr_inside condition _ _ _ (by omega), by omega,
        expr_inside consequent _ _ _ (by omega), by omega, expr_inside alternate _ _ _ (by omega)⟩
  | asgn lhs rhs =>
      simp [exprCode] at fits ⊢
      refine ⟨place_inside lhs _ _ _ _ (by omega), expr_inside rhs _ _ _ (by omega), ?_⟩
      split <;> simp
  | asgnRange base start stop rhs =>
      simp [exprCode] at fits ⊢
      exact ⟨place_inside base _ _ _ _ (by omega), expr_inside start _ _ _ (by omega),
        expr_inside stop _ _ _ (by omega), expr_inside rhs _ _ _ (by omega)⟩
  | scatter targets rhs =>
      simp [exprCode, targetsCode_length] at fits ⊢
      exact ⟨expr_inside rhs _ _ _ (by omega), targets_inside targets _ _ _ (by omega) (by omega),
        by omega, defaults_inside targets _ _ _ (by omega)⟩
  | «catch» body codes =>
      simp [exprCode] at fits ⊢
      exact ⟨inside_codes (argList_inside codes pos _ _) (by omega), by omega, expr_inside body _ _ _ (by omega), by omega⟩
  | catchElse body codes except =>
      simp [exprCode] at fits ⊢
      exact ⟨inside_codes (argList_inside codes pos _ _) (by omega), by omega, expr_inside body _ _ _ (by omega), by omega,
        expr_inside except _ _ _ (by omega)⟩

theorem place_inside (place : Place V) (pos height : Nat) (saved : Option Nat) (indexedAbove : Bool)
    (fits : pos + (placeCode pos height saved indexedAbove place).length ≤ limit) :
    Inside limit (placeCode pos height saved indexedAbove place) := by
  cases place with
  | id id => cases indexedAbove <;> simp [placeCode]
  | prop obj name =>
      simp [placeCode] at fits ⊢
      refine ⟨expr_inside obj _ _ _ (by omega), expr_inside name _ _ _ (by omega), ?_⟩
      split <;> simp
  | index base index =>
      simp [placeCode] at fits ⊢
      refine ⟨place_inside base _ _ _ _ (by omega), expr_inside index _ _ _ (by omega), ?_⟩
      split <;> simp

theorem argList_inside (args : ArgList V) (pos height : Nat) (saved : Option Nat)
    (fits : pos + (argListCode pos height saved args).length ≤ limit) :
    Inside limit (argListCode pos height saved args) := by
  cases args with
  | nil => simp [argListCode]
  | cons kind expr next =>
      simp [argListCode] at fits ⊢
      exact ⟨expr_inside expr _ _ _ (by omega), args_inside next _ _ _ (by omega)⟩

theorem args_inside (args : ArgList V) (pos height : Nat) (saved : Option Nat)
    (fits : pos + (argsCode pos height saved args).length ≤ limit) :
    Inside limit (argsCode pos height saved args) := by
  cases args with
  | nil => simp [argsCode]
  | cons kind expr next =>
      simp [argsCode] at fits ⊢
      exact ⟨expr_inside expr _ _ _ (by omega), args_inside next _ _ _ (by omega)⟩

theorem map_inside (map : MapList V) (pos height : Nat) (saved : Option Nat)
    (fits : pos + (mapCode pos height saved map).length ≤ limit) :
    Inside limit (mapCode pos height saved map) := by
  cases map with
  | nil => simp [mapCode]
  | cons key value next =>
      simp [mapCode] at fits ⊢
      exact ⟨expr_inside value _ _ _ (by omega), expr_inside key _ _ _ (by omega),
        map_inside next _ _ _ (by omega)⟩

theorem targets_inside (targets : Scatter V) (pos height : Nat) (saved : Option Nat)
    (flagged : 1 ≤ limit) (fits : pos + (defaultsCode pos height saved targets).length ≤ limit) :
    Inside limit (targetsCode pos height saved targets) := by
  cases targets with
  | nil => simp [targetsCode]
  | cons kind id next =>
      simp [targetsCode, defaultsCode] at fits ⊢
      refine ⟨?_, targets_inside next _ _ _ flagged (by omega)⟩
      split <;> omega
  | default id expr next =>
      simp [targetsCode, defaultsCode] at fits ⊢
      exact ⟨by omega, targets_inside next _ _ _ flagged (by omega)⟩

theorem defaults_inside (targets : Scatter V) (pos height : Nat) (saved : Option Nat)
    (fits : pos + (defaultsCode pos height saved targets).length ≤ limit) :
    Inside limit (defaultsCode pos height saved targets) := by
  cases targets with
  | nil => simp [defaultsCode]
  | cons kind id next =>
      simp [defaultsCode] at fits ⊢
      exact defaults_inside next _ _ _ (by omega)
  | default id expr next =>
      simp [defaultsCode] at fits ⊢
      exact ⟨expr_inside expr _ _ _ (by omega), defaults_inside next _ _ _ (by omega)⟩

end

end Expressions

section Statements

variable (limit : Nat)

def Raw.inside (limit : Nat) : Raw V → Prop
  | cell c => c.inside limit
  | hole _ => True

def RawInside (limit : Nat) (code : List (Raw V)) : Prop := ∀ r ∈ code, r.inside limit

variable {limit : Nat}

@[simp] theorem rawInside_nil : RawInside limit ([] : List (Raw V)) := fun _ listed => nomatch listed

@[simp] theorem rawInside_append {a b : List (Raw V)} :
    RawInside limit (a ++ b) ↔ RawInside limit a ∧ RawInside limit b := List.forall_mem_append

@[simp] theorem rawInside_cons {r : Raw V} {rest : List (Raw V)} :
    RawInside limit (r :: rest) ↔ r.inside limit ∧ RawInside limit rest := List.forall_mem_cons

@[simp] theorem rawInside_raw {code : List (Cell V)} : RawInside limit (raw code) ↔ Inside limit code := by
  induction code with
  | nil => simp
  | cons cell rest ih => simp [Raw.inside, ih]

@[simp] theorem rawInside_lift {code : List (Raw V)} :
    RawInside limit (code.map Raw.lift) ↔ RawInside limit code := by
  induction code with
  | nil => simp
  | cons r rest ih => cases r <;> simp [Raw.inside, Raw.lift, ih]

theorem rawInside_leave {code : List (Raw V)} {place : Nat} (fits : place ≤ limit)
    (inside : RawInside limit code) : RawInside limit (code.map (Raw.leave place)) := by
  intro r listed
  obtain ⟨r', known, rfl⟩ := List.mem_map.mp listed
  cases r' with
  | cell c => exact inside _ known
  | hole level =>
      cases level with
      | zero => exact fits
      | succ level => trivial

theorem rawInside_closed {code : List (Raw V)} {pos : Nat} (fits : pos + (closed pos code).length ≤ limit)
    (inside : RawInside limit code) : RawInside limit (closed pos code) := by
  rw [closed_length] at fits
  exact rawInside_leave fits inside

theorem inside_unresolved {code : List (Raw V)} (inside : RawInside limit code) :
    Inside limit (code.map Raw.unresolved) := by
  intro cell listed
  obtain ⟨r, known, rfl⟩ := List.mem_map.mp listed
  cases r with
  | cell c => exact inside _ known
  | hole level => exact Nat.zero_le _

attribute [local simp] Cell.inside Raw.inside

@[simp] theorem inside_varRefs (id : Nat) (index : Option Nat) :
    Inside limit (varRefsCode id index : List (Cell V)) := by
  cases index <;> simp [varRefsCode]

@[simp] theorem inside_while (id : Option Nat) : Inside limit (whileCode id : List (Cell V)) := by
  cases id <;> simp [whileCode]

@[simp] theorem inside_exit (exit : Option Nat) : Inside limit (exitCode exit : List (Cell V)) := by
  cases exit <;> simp [exitCode]

@[simp] theorem inside_caught (id : Option Nat) : Inside limit (caughtCode id : List (Cell V)) := by
  cases id <;> simp [caughtCode]

theorem inside_fork (id : Option Nat) {body : Stmts V} (allowed : stmtsScoped [] body = true) :
    Inside limit (forkCode id (vectorCode body) (stmtsPeak 0 body)) := by
  have own : (Cell.fork (vectorCode body) (stmtsPeak 0 body)).inside limit := ⟨body, allowed, rfl, rfl⟩
  cases id with
  | none => exact List.forall_mem_cons.mpr ⟨trivial, List.forall_mem_cons.mpr ⟨own, inside_nil⟩⟩
  | some id =>
      exact List.forall_mem_cons.mpr ⟨trivial, List.forall_mem_cons.mpr ⟨own, by simp⟩⟩

def Entered (limit : Nat) (loops : List LoopInfo) : Prop := ∀ info ∈ loops, info.topLabel ≤ limit

theorem Entered.into {loops : List LoopInfo} (entered : Entered limit loops) {info : LoopInfo}
    (top : info.topLabel ≤ limit) : Entered limit (info :: loops) := by
  intro other listed
  rcases List.mem_cons.mp listed with rfl | old
  · exact top
  · exact entered other old

theorem Entered.top {loops : List LoopInfo} (entered : Entered limit loops) (level : Nat) :
    loops[level]?.elim 0 LoopInfo.topLabel ≤ limit := by
  cases found : loops[level]? with
  | none => exact Nat.zero_le _
  | some info => exact entered info (List.mem_of_getElem? found)

mutual

theorem stmt_inside (stmt : Stmt V) (pos height : Nat) {loops : List LoopInfo}
    (entered : Entered limit loops) {names : LoopNames} (allowed : stmtScoped names stmt = true)
    (fits : pos + (stmtRaw pos height loops stmt).length ≤ limit) :
    RawInside limit (stmtRaw pos height loops stmt) := by
  cases stmt with
  | cond arms otherwise =>
      simp only [stmtScoped, Bool.and_eq_true] at allowed
      rw [stmtRaw] at fits ⊢
      refine rawInside_closed fits ?_
      simp at fits ⊢
      exact ⟨arms_inside arms _ _ _ entered allowed.1 (by omega),
        stmts_inside otherwise _ _ entered allowed.2 (by omega)⟩
  | list id index expr body =>
      simp only [stmtScoped, Bool.and_eq_true] at allowed
      rw [stmtRaw] at fits ⊢
      refine rawInside_closed fits ?_
      simp at fits ⊢
      refine ⟨expr_inside _ expr _ _ _ (by omega), ?_, by omega⟩
      exact stmts_inside body _ _ (entered.into (by simp; omega)) allowed.2 (by omega)
  | range id start stop body =>
      simp only [stmtScoped, Bool.and_eq_true] at allowed
      rw [stmtRaw] at fits ⊢
      refine rawInside_closed fits ?_
      simp at fits ⊢
      refine ⟨expr_inside _ start _ _ _ (by omega), expr_inside _ stop _ _ _ (by omega), ?_, by omega⟩
      exact stmts_inside body _ _ (entered.into (by simp; omega)) allowed.2 (by omega)
  | loop id condition body =>
      simp only [stmtScoped, Bool.and_eq_true] at allowed
      rw [stmtRaw] at fits ⊢
      refine rawInside_closed fits ?_
      simp at fits ⊢
      refine ⟨expr_inside _ condition _ _ _ (by omega), ?_, by omega⟩
      exact stmts_inside body _ _ (entered.into (by simp; omega)) allowed.2 (by omega)
  | fork id time body =>
      simp only [stmtScoped, Bool.and_eq_true] at allowed
      simp [stmtRaw] at fits ⊢
      exact ⟨expr_inside _ time _ _ _ (by omega), inside_fork id allowed.2⟩
  | expr expr =>
      simp [stmtRaw] at fits ⊢
      exact expr_inside _ expr _ _ _ (by omega)
  | «return» expr =>
      simp [stmtRaw] at fits ⊢
      exact expr_inside _ expr _ _ _ (by omega)
  | returnZero => simp [stmtRaw]
  | tryExcept body excepts =>
      simp only [stmtScoped, Bool.and_eq_true] at allowed
      rw [stmtRaw] at fits ⊢
      refine rawInside_closed fits ?_
      simp [handlersCode_length] at fits ⊢
      refine ⟨?_, stmts_inside body _ _ entered allowed.1 (by omega),
        excepts_inside excepts _ _ entered allowed.2 (by omega)⟩
      exact handlers_inside excepts _ _ _ _ _ (by rw [handlersCode_length]; omega) (by omega)
  | tryFinally body handler =>
      simp only [stmtScoped, Bool.and_eq_true] at allowed
      simp [stmtRaw] at fits ⊢
      exact ⟨by omega, stmts_inside body _ _ entered allowed.1 (by omega),
        stmts_inside handler _ _ entered allowed.2 (by omega)⟩
  | «break» exit => simp [stmtRaw]
  | «continue» exit =>
      simp [stmtRaw]
      exact entered.top _

theorem stmts_inside (stmts : Stmts V) (pos height : Nat) {loops : List LoopInfo}
    (entered : Entered limit loops) {names : LoopNames} (allowed : stmtsScoped names stmts = true)
    (fits : pos + (stmtsRaw pos height loops stmts).length ≤ limit) :
    RawInside limit (stmtsRaw pos height loops stmts) := by
  cases stmts with
  | nil => simp [stmtsRaw]
  | cons stmt next =>
      simp only [stmtsScoped, Bool.and_eq_true] at allowed
      simp [stmtsRaw] at fits ⊢
      exact ⟨stmt_inside stmt _ _ entered allowed.1 (by omega),
        stmts_inside next _ _ entered allowed.2 (by omega)⟩

theorem arms_inside (arms : CondArms V) (pos height : Nat) (ifOp : Opcode) {loops : List LoopInfo}
    (entered : Entered limit loops) {names : LoopNames} (allowed : armsScoped names arms = true)
    (fits : pos + (armsRaw pos height loops ifOp arms).length ≤ limit) :
    RawInside limit (armsRaw pos height loops ifOp arms) := by
  cases arms with
  | nil => simp [armsRaw]
  | cons condition stmt next =>
      simp only [armsScoped, Bool.and_eq_true] at allowed
      simp [armsRaw] at fits ⊢
      exact ⟨expr_inside _ condition _ _ _ (by omega), by omega,
        stmts_inside stmt _ _ entered allowed.1.2 (by omega),
        arms_inside next _ _ _ entered allowed.2 (by omega)⟩

theorem excepts_inside (excepts : ExceptArms V) (pos height : Nat) {loops : List LoopInfo}
    (entered : Entered limit loops) {names : LoopNames} (allowed : exceptsScoped names excepts = true)
    (fits : pos + (exceptsRaw pos height loops excepts).length ≤ limit) :
    RawInside limit (exceptsRaw pos height loops excepts) := by
  cases excepts with
  | nil => simp [exceptsRaw]
  | cons id codes stmt next =>
      simp only [exceptsScoped, Bool.and_eq_true] at allowed
      rw [exceptsRaw_cons] at fits ⊢
      simp at fits ⊢
      refine ⟨stmts_inside stmt _ _ entered allowed.1.2 (by omega), ?_,
        excepts_inside next _ _ entered allowed.2 (by omega)⟩
      cases next <;> simp [jumpRaw]

theorem handlers_inside (excepts : ExceptArms V) (pos top rescue height : Nat) (loops : List LoopInfo)
    (fits : pos + (handlersCode pos top rescue height loops excepts).length ≤ limit)
    (placed : rescue + (exceptsRaw rescue height loops excepts).length ≤ limit) :
    Inside limit (handlersCode pos top rescue height loops excepts) := by
  cases excepts with
  | nil => simp [handlersCode]
  | cons id codes stmt next =>
      rw [handlersCode_cons] at fits ⊢
      rw [exceptsRaw_cons] at placed
      simp at fits placed ⊢
      exact ⟨inside_codes (argList_inside _ codes pos _ _) (by omega), by omega,
        handlers_inside next _ _ _ _ _ (by omega) (by omega)⟩

end

theorem vectorCode_inside (stmts : Stmts V) (allowed : stmtsScoped [] stmts = true) :
    Inside (stmtsRaw 0 0 [] stmts).length (vectorCode stmts) := by
  have inside : RawInside (stmtsRaw 0 0 [] stmts).length (stmtsRaw 0 0 [] stmts) :=
    stmts_inside stmts 0 0 (fun _ none => nomatch none) allowed (by omega)
  exact inside_append.mpr ⟨inside_unresolved inside, by simp⟩

theorem vectorCode_length (stmts : Stmts V) :
    (vectorCode stmts).length = (stmtsRaw 0 0 [] stmts).length + 1 := by
  rw [vectorCode, List.length_append, List.length_map, List.length_singleton]

/-- Every label of a compiled program is the place of a cell of its vector, and the vector of a fork is
a compiled program. -/
theorem code_closed {stmts : Stmts V} {code : Bytecodes V} (allowed : stmtsScoped [] stmts = true)
    (compiled : stmtToCode stmts = some code) :
    (∀ place, .label place ∈ code.vector → place < code.vector.length) ∧
      ∀ vector maxStack, .fork vector maxStack ∈ code.vector →
        ∃ body, stmtsScoped [] body = true ∧ stmtToCode body = some ⟨vector, maxStack⟩ := by
  have made := Builds.finished (builds_stmts stmts) allowed
  obtain rfl := Option.some.inj (made.symm.trans compiled)
  have inside := vectorCode_inside stmts allowed
  constructor
  · intro place listed
    rw [vectorCode_length]
    exact Nat.lt_succ_of_le (inside _ listed)
  · intro vector maxStack listed
    obtain ⟨body, known, rfl, rfl⟩ := inside _ listed
    exact ⟨body, known, Builds.finished (builds_stmts body) known⟩

end Statements

end ToastStunt.Code
