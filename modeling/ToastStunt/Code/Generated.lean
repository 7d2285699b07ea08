import ToastStunt.Code.Layout
import ToastStunt.Code.Scoping
import ToastStunt.Library.Placing

/-!
The generator lays out what Layout says: each call appends the code of its tree, with every label
patched to the place where it was defined, moves the tracked height by what the tree leaves on the
stack and does not panic on what the parser lets through.
-/

namespace ToastStunt.Code

variable {V : Type}

/-- What has been emitted since `start`, and what is tracked now. -/
structure Emits (start state : State V) (code : List (Cell V)) (height : Nat) (saved : Option Nat)
    (peak : Nat) : Prop where
  cells : state.cells = start.cells ++ code
  curStack : state.curStack = height
  maxStack : state.maxStack = max start.maxStack peak
  savedStack : state.savedStack = saved
  loops : state.loops = start.loops

namespace Emits

variable {start state : State V} {code : List (Cell V)} {height peak : Nat} {saved : Option Nat}

theorem nothing (start : State V) : Emits start start [] start.curStack start.savedStack 0 where
  cells := (List.append_nil _).symm
  curStack := rfl
  maxStack := (Nat.max_zero _).symm
  savedStack := rfl
  loops := rfl

theorem place (emits : Emits start state code height saved peak) :
    state.cells.length = start.cells.length + code.length := by
  rw [emits.cells, List.length_append]

theorem emit (emits : Emits start state code height saved peak) (cell : Cell V) :
    Emits start (emit cell state) (code ++ [cell]) height saved peak where
  cells := by rw [Code.emit, emits.cells, List.append_assoc]
  curStack := emits.curStack
  maxStack := emits.maxStack
  savedStack := emits.savedStack
  loops := emits.loops

theorem emits_extended (emits : Emits start state code height saved peak) (op : ExtendedOpcode) :
    Emits start (emitExtendedByte op state) (code ++ extendedCode op) height saved peak := by
  have both := (emits.emit (.op .extended)).emit (.eop op)
  rw [List.append_assoc] at both
  exact both

theorem push (emits : Emits start state code height saved peak) (n : Nat) :
    Emits start (pushStack n state) code (height + n) saved (max peak (height + n)) where
  cells := emits.cells
  curStack := by rw [pushStack, emits.curStack]
  maxStack := by rw [pushStack, emits.maxStack, emits.curStack, Nat.max_assoc]
  savedStack := emits.savedStack
  loops := emits.loops

theorem pop (emits : Emits start state code height saved peak) (n : Nat) :
    Emits start (popStack n state) code (height - n) saved peak where
  cells := emits.cells
  curStack := by rw [popStack, emits.curStack]
  maxStack := emits.maxStack
  savedStack := emits.savedStack
  loops := emits.loops

theorem save (emits : Emits start state code height saved peak) :
    Emits start (saveStackTop state) code height (some (height - 1)) peak where
  cells := emits.cells
  curStack := emits.curStack
  maxStack := emits.maxStack
  savedStack := by rw [saveStackTop, emits.curStack]
  loops := emits.loops

theorem restore (emits : Emits start state code height saved peak) (old : Option Nat) :
    Emits start (restoreStackTop old state) code height old peak where
  cells := emits.cells
  curStack := emits.curStack
  maxStack := emits.maxStack
  savedStack := rfl
  loops := emits.loops

theorem emits_push (emits : Emits start state code height saved peak) (slot : Nat) :
    Emits start (emitPush slot state) (code ++ pushCode slot) height saved peak := by
  unfold emitPush pushCode
  split
  · have both := (emits.emit (.op .gPush)).emit (.varRef slot)
    rw [List.append_assoc] at both
    exact both
  · exact emits.emit (.op (.push slot))

theorem emits_put (emits : Emits start state code height saved peak) (slot : Nat) :
    Emits start (emitPut slot state) (code ++ putCode slot) height saved peak := by
  unfold emitPut putCode
  split
  · have both := (emits.emit (.op .gPut)).emit (.varRef slot)
    rw [List.append_assoc] at both
    exact both
  · exact emits.emit (.op (.put slot))

theorem emits_unary (emits : Emits start state code height saved peak) (kind : UnaryKind) :
    Emits start (unaryOp kind state) (code ++ unaryCode kind) height saved peak := by
  cases kind with
  | negate => exact emits.emit _
  | not => exact emits.emit _
  | complement => exact emits.emits_extended _

theorem emits_binary (emits : Emits start state code height saved peak) (kind : BinaryKind) :
    Emits start (binaryOp kind state) (code ++ binaryCode kind) height saved peak := by
  cases kind
  all_goals first | exact emits.emit _ | exact emits.emits_extended _

theorem define {before after : List (Cell V)} {cell : Cell V}
    (emits : Emits start state (before ++ cell :: after) height saved peak) (label : Nat)
    (here : label = start.cells.length + before.length) :
    Emits start (defineLabel [label] state)
      (before ++ .label (start.cells.length + before.length + 1 + after.length) :: after)
      height saved peak where
  cells := by
    have value := emits.place
    rw [List.length_append, List.length_cons] at value
    have cells : state.cells = (start.cells ++ before) ++ cell :: after := by
      rw [emits.cells, List.append_assoc]
    have length : label = (start.cells ++ before).length := by rw [here, List.length_append]
    have place : state.cells.length = start.cells.length + before.length + 1 + after.length := by
      omega
    rw [defineLabel, patch, List.foldl_cons, List.foldl_nil, place, cells, length,
      Placing.set_placed, List.append_assoc]
  curStack := emits.curStack
  maxStack := emits.maxStack
  savedStack := emits.savedStack
  loops := emits.loops

theorem same {code' : List (Cell V)} {height' peak' : Nat}
    (emits : Emits start state code height saved peak) (sameCode : code = code')
    (sameHeight : height = height') (samePeak : peak = peak') :
    Emits start state code' height' saved peak' := by
  rw [← sameCode, ← sameHeight, ← samePeak]
  exact emits

theorem shape {code' : List (Cell V)} (emits : Emits start state code height saved peak)
    (sameCode : code = code') : Emits start state code' height saved peak :=
  emits.same sameCode rfl rfl

end Emits

/-- A part of the generator does not panic and emits the code for the place, the height and the
saved index that it finds. -/
def Generates (gen : State V → Option (State V)) (allowed : Bool → Bool)
    (code : Nat → Nat → Option Nat → List (Cell V)) (up peak : Nat → Nat) : Prop :=
  ∀ state : State V, allowed state.savedStack.isSome = true → ∃ state', gen state = some state' ∧
    Emits state state' (code state.cells.length state.curStack state.savedStack)
      (up state.curStack) state.savedStack (peak state.curStack)

theorem Emits.step {start state : State V} {before : List (Cell V)} {height peak : Nat}
    {saved : Option Nat} (emits : Emits start state before height saved peak)
    {gen : State V → Option (State V)} {allowed : Bool → Bool}
    {code : Nat → Nat → Option Nat → List (Cell V)} {up peak' : Nat → Nat}
    (generates : Generates gen allowed code up peak') (ok : allowed saved.isSome = true) :
    ∃ state', gen state = some state' ∧ Emits start state'
      (before ++ code (start.cells.length + before.length) height saved) (up height) saved
      (max peak (peak' height)) := by
  have known := emits.savedStack
  obtain ⟨state', ran, further⟩ := generates state (known ▸ ok)
  refine ⟨state', ran, ?_⟩
  rw [emits.place, emits.curStack, known] at further
  constructor
  · rw [further.cells, emits.cells, List.append_assoc]
  · exact further.curStack
  · rw [further.maxStack, emits.maxStack, Nat.max_assoc]
  · exact further.savedStack
  · exact further.loops.trans emits.loops

abbrev GeneratesExpr (expr : Expr V) : Prop :=
  Generates (generateExpr expr) (exprScoped · expr)
    (fun pos height saved => exprCode pos height saved expr) (· + 1) (exprPeak · expr)

abbrev GeneratesPlace (place : Place V) : Prop :=
  ∀ indexedAbove, Generates (pushLvalue place indexedAbove) (placeScoped · place)
    (fun pos height saved => placeCode pos height saved indexedAbove place)
    (· + placeHeight place indexedAbove) (placePeak · indexedAbove place)

abbrev GeneratesArgList (args : ArgList V) : Prop :=
  Generates (generateArgList args) (argsScoped · args)
    (fun pos height saved => argListCode pos height saved args) (· + 1) (argListPeak · args)

abbrev GeneratesArgs (args : ArgList V) : Prop :=
  Generates (generateArgs args) (argsScoped · args)
    (fun pos height saved => argsCode pos height saved args) (fun height => height) (argsPeak · args)

abbrev GeneratesMap (map : MapList V) : Prop :=
  Generates (generateMapList map) (mapScoped · map)
    (fun pos height saved => mapCode pos height saved map) (fun height => height) (mapPeak · map)

/-! The cell of a label, found again behind the code that has come after it. -/

section Labels

variable {α : Type} {code before after : List α} {k : α}

theorem label_at (split : code = before ++ [k] ++ after) : code = before ++ k :: after := by
  rw [split, List.append_cons before k after]

theorem append_behind (split : code = before ++ after) (more : List α) :
    code ++ more = before ++ (after ++ more) := by
  rw [split, List.append_assoc]

theorem second_label_at (m : α) (more : List α) :
    before ++ k :: (after ++ [m]) ++ more = (before ++ k :: after) ++ m :: more := by simp

end Labels

section Kinds

attribute [local simp] emitOp addLabel addLinkedLabel

variable {lhs rhs expr : Expr V} {args : ArgList V}

theorem generates_literal (v : Literal V) : GeneratesExpr (.var v) := by
  intro state ok
  have base := Emits.nothing state
  cases v with
  | int n =>
      by_cases small : inOptimNumRange n = true
      · refine ⟨_, by rw [generateExpr, if_pos small], ?_⟩
        refine ((base.emit (.op (.optimNum n))).push 1).same ?_ rfl ?_
        · simp [exprCode, literalCode, small]
        · simp [exprPeak]
      · refine ⟨_, by rw [generateExpr, if_neg small], ?_⟩
        refine (((base.emit (.op .imm)).emit (.literal (.int n))).push 1).same ?_ rfl ?_
        · simp [exprCode, literalCode, small]
        · simp [exprPeak]
  | other v =>
      refine ⟨_, rfl, ?_⟩
      refine (((base.emit (.op .imm)).emit (.literal (.other v))).push 1).same ?_ rfl ?_
      · simp [exprCode, literalCode]
      · simp [exprPeak]

theorem generates_id (id : Nat) : GeneratesExpr (V := V) (.id id) := by
  intro state ok
  refine ⟨_, rfl, ?_⟩
  refine (((Emits.nothing state).emits_push id).push 1).same ?_ rfl ?_
  · simp [exprCode]
  · simp [exprPeak]

theorem generates_and (left : GeneratesExpr lhs) (right : GeneratesExpr rhs) :
    GeneratesExpr (.and lhs rhs) := by
  intro state ok
  simp only [exprScoped, Bool.and_eq_true] at ok
  obtain ⟨state1, ran1, emits1⟩ := left state ok.1
  have tested := emits1.emit (.op .and)
  obtain ⟨state2, ran2, emits2⟩ := ((tested.emit (.label 0)).pop 1).step right ok.2
  have labelled := emits2.shape (label_at rfl)
  refine ⟨_, ?_, (labelled.define _ tested.place).same ?_ rfl ?_⟩
  · simp [generateExpr, ran1, ran2]
  · simp [exprCode, Nat.add_assoc]
  · simp [exprPeak]

theorem generates_or (left : GeneratesExpr lhs) (right : GeneratesExpr rhs) :
    GeneratesExpr (.or lhs rhs) := by
  intro state ok
  simp only [exprScoped, Bool.and_eq_true] at ok
  obtain ⟨state1, ran1, emits1⟩ := left state ok.1
  have tested := emits1.emit (.op .or)
  obtain ⟨state2, ran2, emits2⟩ := ((tested.emit (.label 0)).pop 1).step right ok.2
  have labelled := emits2.shape (label_at rfl)
  refine ⟨_, ?_, (labelled.define _ tested.place).same ?_ rfl ?_⟩
  · simp [generateExpr, ran1, ran2]
  · simp [exprCode, Nat.add_assoc]
  · simp [exprPeak]

theorem generates_unary (kind : UnaryKind) (operand : GeneratesExpr expr) :
    GeneratesExpr (.unary kind expr) := by
  intro state ok
  obtain ⟨state1, ran1, emits1⟩ := operand state ok
  refine ⟨_, ?_, (emits1.emits_unary kind).same ?_ rfl ?_⟩
  · simp [generateExpr, ran1]
  · simp [exprCode]
  · simp [exprPeak]

theorem generates_binary (kind : BinaryKind) (left : GeneratesExpr lhs) (right : GeneratesExpr rhs) :
    GeneratesExpr (.binary kind lhs rhs) := by
  intro state ok
  simp only [exprScoped, Bool.and_eq_true] at ok
  obtain ⟨state1, ran1, emits1⟩ := left state ok.1
  obtain ⟨state2, ran2, emits2⟩ := emits1.step right ok.2
  refine ⟨_, ?_, ((emits2.emits_binary kind).pop 1).same ?_ rfl ?_⟩
  · simp [generateExpr, ran1, ran2]
  · simp [exprCode]
  · simp [exprPeak]

theorem generates_index (left : GeneratesExpr lhs) (right : GeneratesExpr rhs) :
    GeneratesExpr (.index lhs rhs) := by
  intro state ok
  simp only [exprScoped, Bool.and_eq_true] at ok
  obtain ⟨state1, ran1, emits1⟩ := left state ok.1
  obtain ⟨state2, ran2, emits2⟩ := emits1.save.step right ok.2
  have old := emits1.savedStack
  refine ⟨_, ?_, (((emits2.restore state.savedStack).emit (.op .ref)).pop 1).same ?_ rfl ?_⟩
  · simp [generateExpr, ran1, ran2, old]
  · simp [exprCode]
  · simp [exprPeak]

theorem generates_range {base start stop : Expr V} (first : GeneratesExpr base)
    (second : GeneratesExpr start) (third : GeneratesExpr stop) :
    GeneratesExpr (.range base start stop) := by
  intro state ok
  simp only [exprScoped, Bool.and_eq_true] at ok
  obtain ⟨state1, ran1, emits1⟩ := first state ok.1.1
  obtain ⟨state2, ran2, emits2⟩ := emits1.save.step second ok.1.2
  obtain ⟨state3, ran3, emits3⟩ := emits2.step third ok.2
  have old := emits1.savedStack
  refine ⟨_, ?_, (((emits3.restore state.savedStack).emit (.op .rangeRef)).pop 2).same ?_ rfl ?_⟩
  · simp [generateExpr, ran1, ran2, ran3, old]
  · simp [exprCode, Nat.add_assoc]
  · simp [exprPeak, Nat.max_assoc]

theorem generates_first : GeneratesExpr (V := V) .first := by
  intro state ok
  obtain ⟨saved, known⟩ := Option.isSome_iff_exists.mp ok
  have base := ((Emits.nothing state).emits_extended .first).emit (.stack saved)
  refine ⟨_, ?_, (base.push 1).same ?_ rfl ?_⟩
  · simp [generateExpr, known, addStackRef]
  · simp [exprCode, known]
  · simp [exprPeak]

theorem generates_last : GeneratesExpr (V := V) .last := by
  intro state ok
  obtain ⟨saved, known⟩ := Option.isSome_iff_exists.mp ok
  have base := ((Emits.nothing state).emits_extended .last).emit (.stack saved)
  refine ⟨_, ?_, (base.push 1).same ?_ rfl ?_⟩
  · simp [generateExpr, known, addStackRef]
  · simp [exprCode, known]
  · simp [exprPeak]

theorem generates_mapExpr {map : MapList V} (entries : GeneratesMap map) :
    GeneratesExpr (.map map) := by
  intro state ok
  have created := ((Emits.nothing state).emit (.op .mapCreate)).push 1
  obtain ⟨state1, ran1, emits1⟩ := created.step entries ok
  refine ⟨_, ?_, emits1.same ?_ rfl ?_⟩
  · simp [generateExpr, ran1]
  · simp [exprCode]
  · simp [exprPeak]

theorem generates_list (list : GeneratesArgList args) : GeneratesExpr (.list args) := by
  intro state ok
  obtain ⟨state1, ran1, emits1⟩ := list state ok
  refine ⟨_, ?_, emits1.same ?_ rfl ?_⟩
  · rw [generateExpr_list, ran1]
  · simp [exprCode_list]
  · simp [exprPeak_list]

theorem generates_call (func : Nat) (list : GeneratesArgList args) :
    GeneratesExpr (.call func args) := by
  intro state ok
  simp only [exprScoped] at ok
  obtain ⟨state1, ran1, emits1⟩ := list state ok
  refine ⟨_, ?_, ((emits1.emit (.op .biFuncCall)).emit (.byte func)).same ?_ rfl ?_⟩
  · simp [generateExpr, ran1, emitByte]
  · simp [exprCode]
  · simp [exprPeak]

theorem generates_verb {obj verb : Expr V} (first : GeneratesExpr obj) (second : GeneratesExpr verb)
    (list : GeneratesArgList args) : GeneratesExpr (.verb obj verb args) := by
  intro state ok
  simp only [exprScoped, Bool.and_eq_true] at ok
  obtain ⟨state1, ran1, emits1⟩ := first state ok.1.1
  obtain ⟨state2, ran2, emits2⟩ := emits1.step second ok.1.2
  obtain ⟨state3, ran3, emits3⟩ := emits2.step list ok.2
  refine ⟨_, ?_, ((emits3.emit (.op .callVerb)).pop 2).same ?_ rfl ?_⟩
  · simp [generateExpr, ran1, ran2, ran3]
  · simp [exprCode, Nat.add_assoc]
  · simp [exprPeak, Nat.max_assoc]

theorem generates_cond {condition consequent alternate : Expr V} (test : GeneratesExpr condition)
    (yes : GeneratesExpr consequent) (no : GeneratesExpr alternate) :
    GeneratesExpr (.cond condition consequent alternate) := by
  intro state ok
  simp only [exprScoped, Bool.and_eq_true] at ok
  obtain ⟨state1, ran1, emits1⟩ := test state ok.1.1
  have tested := emits1.emit (.op .ifQues)
  obtain ⟨state2, ran2, emits2⟩ := ((tested.emit (.label 0)).pop 1).step yes ok.1.2
  have jumped := emits2.emit (.op .jump)
  have elseDefined := (((jumped.emit (.label 0)).pop 1).shape (label_at (append_behind (append_behind rfl _) _))).define _ tested.place
  obtain ⟨state3, ran3, emits3⟩ := elseDefined.step no ok.2
  have endDefined := (emits3.shape (second_label_at ..)).define
    (emit (.op .jump) state2).cells.length (by rw [jumped.place]; simp)
  refine ⟨_, ?_, endDefined.same ?_ rfl ?_⟩
  · simp [generateExpr, ran1, ran2, ran3]
  · simp +arith [exprCode]
  · simp [exprPeak, Nat.max_assoc]

theorem generates_codes {codes : ArgList V} (list : GeneratesArgList codes) :
    Generates (generateCodes codes (generateArgList codes)) (argsScoped · codes)
      (fun pos height saved => codesCode codes (argListCode pos height saved codes)) (· + 1)
      (fun height => codesPeak height codes (argListPeak height codes)) := by
  cases codes with
  | nil =>
      intro state ok
      refine ⟨_, rfl, ?_⟩
      refine (((Emits.nothing state).emit (.op (.optimNum 0))).push 1).same ?_ rfl ?_
      · simp [codesCode]
      · simp [codesPeak]
  | cons kind expr next => exact list

theorem generates_catch {body : Expr V} {codes : ArgList V} (attempt : GeneratesExpr body)
    (list : GeneratesArgList codes) : GeneratesExpr (.catch body codes) := by
  intro state ok
  simp only [exprScoped, Bool.and_eq_true] at ok
  obtain ⟨state1, ran1, emits1⟩ := generates_codes list state ok.2
  have named := emits1.emits_extended .pushLabel
  have entered := (((named.emit (.label 0)).push 1).emits_extended .catch).push 1
  obtain ⟨state2, ran2, emits2⟩ := entered.step attempt ok.1
  have left := emits2.emits_extended .endCatch
  have handler := (((left.emit (.label 0)).pop 3).shape (label_at (append_behind (append_behind (append_behind rfl _) _) _))).define _ named.place
  have rescued := (handler.emit (.op (.optimNum 1))).emit (.op .ref)
  have finished := (rescued.shape ((List.append_assoc ..).trans (second_label_at ..))).define
    (emitExtendedByte .endCatch state2).cells.length (by rw [left.place]; simp)
  refine ⟨_, ?_, finished.same ?_ rfl ?_⟩
  · simp [generateExpr, ran1, ran2]
  · simp +arith [exprCode, extendedCode]
  · simp [exprPeak, Nat.max_assoc]

theorem generates_catchElse {body except : Expr V} {codes : ArgList V} (attempt : GeneratesExpr body)
    (list : GeneratesArgList codes) (rescue : GeneratesExpr except) :
    GeneratesExpr (.catchElse body codes except) := by
  intro state ok
  simp only [exprScoped, Bool.and_eq_true] at ok
  obtain ⟨state1, ran1, emits1⟩ := generates_codes list state ok.1.2
  have named := emits1.emits_extended .pushLabel
  have entered := (((named.emit (.label 0)).push 1).emits_extended .catch).push 1
  obtain ⟨state2, ran2, emits2⟩ := entered.step attempt ok.1.1
  have left := emits2.emits_extended .endCatch
  have handler := (((left.emit (.label 0)).pop 3).shape (label_at (append_behind (append_behind (append_behind rfl _) _) _))).define _ named.place
  obtain ⟨state3, ran3, emits3⟩ := ((handler.emit (.op .pop)).pop 1).step rescue ok.2
  have finished := (emits3.shape ((List.append_assoc ..).trans (second_label_at ..))).define
    (emitExtendedByte .endCatch state2).cells.length (by rw [left.place]; simp)
  refine ⟨_, ?_, finished.same ?_ rfl ?_⟩
  · simp [generateExpr, ran1, ran2, ran3]
  · simp +arith [exprCode, extendedCode]
  · simp [exprPeak, Nat.max_assoc]

end Kinds

section Lists

attribute [local simp] emitOp

variable {expr : Expr V}

theorem generates_argList_nil : GeneratesArgList (V := V) .nil := by
  intro state ok
  refine ⟨_, generateArgList_nil state, ?_⟩
  refine (((Emits.nothing state).emit (.op .makeEmptyList)).push 1).same ?_ rfl ?_
  · simp [argListCode_nil]
  · simp [argListPeak_nil]

theorem generates_argList_cons (kind : ArgKind) (first : GeneratesExpr expr) {next : ArgList V}
    (rest : GeneratesArgs next) : GeneratesArgList (.cons kind expr next) := by
  intro state ok
  simp only [argsScoped, Bool.and_eq_true] at ok
  obtain ⟨state1, ran1, emits1⟩ := first state ok.1
  obtain ⟨state2, ran2, emits2⟩ := (emits1.emit (.op (firstArg kind))).step rest ok.2
  refine ⟨_, ?_, emits2.same ?_ rfl ?_⟩
  · simp [generateArgList, ran1, ran2]
  · simp [argListCode, Nat.add_assoc]
  · simp [argListPeak]

theorem generates_args_nil : GeneratesArgs (V := V) .nil := by
  intro state ok
  refine ⟨_, generateArgs_nil state, (Emits.nothing state).same ?_ rfl ?_⟩
  · simp [argsCode_nil]
  · simp [argsPeak_nil]

theorem generates_args_cons (kind : ArgKind) (first : GeneratesExpr expr) {next : ArgList V}
    (rest : GeneratesArgs next) : GeneratesArgs (.cons kind expr next) := by
  intro state ok
  simp only [argsScoped, Bool.and_eq_true] at ok
  obtain ⟨state1, ran1, emits1⟩ := first state ok.1
  obtain ⟨state2, ran2, emits2⟩ := ((emits1.emit (.op (nextArg kind))).pop 1).step rest ok.2
  refine ⟨_, ?_, emits2.same ?_ rfl ?_⟩
  · simp [generateArgs, ran1, ran2]
  · simp [argsCode, Nat.add_assoc]
  · simp [argsPeak]

theorem generates_map_nil : GeneratesMap (V := V) .nil := by
  intro state ok
  refine ⟨_, generateMapList_nil state, (Emits.nothing state).same ?_ rfl ?_⟩
  · simp [mapCode_nil]
  · simp [mapPeak_nil]

theorem generates_map_cons {key value : Expr V} (second : GeneratesExpr key)
    (first : GeneratesExpr value) {next : MapList V} (rest : GeneratesMap next) :
    GeneratesMap (.cons key value next) := by
  intro state ok
  simp only [mapScoped, Bool.and_eq_true] at ok
  obtain ⟨state1, ran1, emits1⟩ := first state ok.1.2
  obtain ⟨state2, ran2, emits2⟩ := emits1.step second ok.1.1
  obtain ⟨state3, ran3, emits3⟩ := ((emits2.emit (.op .mapInsert)).pop 2).step rest ok.2
  refine ⟨_, ?_, emits3.same ?_ rfl ?_⟩
  · simp [generateMapList, ran1, ran2, ran3]
  · simp +arith [mapCode]
  · simp [mapPeak, Nat.max_assoc]

end Lists

section Places

attribute [local simp] emitOp

theorem placeHeight_true (place : Place V) : placeHeight place true = placeHeight place false + 1 := by
  cases place <;> simp [placeHeight]

theorem generates_place_id (id : Nat) : GeneratesPlace (V := V) (.id id) := by
  intro indexedAbove state ok
  cases indexedAbove with
  | false =>
      refine ⟨_, pushLvalue_id state id, (Emits.nothing state).same ?_ ?_ ?_⟩
      · simp [placeCode_id]
      · simp [placeHeight]
      · simp [placePeak_id]
  | true =>
      refine ⟨_, rfl, (((Emits.nothing state).emits_push id).push 1).same ?_ ?_ ?_⟩
      · simp [placeCode]
      · simp [placeHeight]
      · simp [placePeak]

theorem generates_place_prop {obj name : Expr V} (first : GeneratesExpr obj)
    (second : GeneratesExpr name) : GeneratesPlace (.prop obj name) := by
  intro indexedAbove state ok
  simp only [placeScoped, Bool.and_eq_true] at ok
  obtain ⟨state1, ran1, emits1⟩ := first state ok.1
  obtain ⟨state2, ran2, emits2⟩ := emits1.step second ok.2
  cases indexedAbove with
  | false =>
      refine ⟨_, ?_, emits2.same ?_ ?_ ?_⟩
      · simp [pushLvalue, ran1, ran2]
      · simp [placeCode]
      · simp [placeHeight]
      · simp [placePeak]
  | true =>
      refine ⟨_, ?_, ((emits2.emit (.op .pushGetProp)).push 1).same ?_ ?_ ?_⟩
      · simp [pushLvalue, ran1, ran2]
      · simp [placeCode]
      · simp [placeHeight]
      · simp [placePeak, Nat.max_assoc]

theorem generates_place_index {base : Place V} {index : Expr V} (first : GeneratesPlace base)
    (second : GeneratesExpr index) : GeneratesPlace (.index base index) := by
  intro indexedAbove state ok
  simp only [placeScoped, Bool.and_eq_true] at ok
  obtain ⟨state1, ran1, emits1⟩ := first true state ok.1
  obtain ⟨state2, ran2, emits2⟩ := emits1.save.step second ok.2
  have old := emits1.savedStack
  have restored := emits2.restore state.savedStack
  cases indexedAbove with
  | false =>
      refine ⟨_, ?_, restored.same ?_ ?_ ?_⟩
      · simp [pushLvalue, ran1, ran2, old]
      · simp [placeCode]
      · simp +arith [placeHeight]
      · simp [placePeak]
  | true =>
      refine ⟨_, ?_, ((restored.emit (.op .pushRef)).push 1).same ?_ ?_ ?_⟩
      · simp [pushLvalue, ran1, ran2, old]
      · simp [placeCode]
      · simp +arith [placeHeight]
      · simp [placePeak, Nat.max_assoc]

theorem Emits.emits_store {start state : State V} {code : List (Cell V)} {height peak : Nat}
    {saved : Option Nat} (emits : Emits start state code height saved peak) (isIndexed : Bool)
    (place : Place V) : Emits start (emitStore isIndexed place state)
      (code ++ storeCode isIndexed place) (height - placeHeight place false) saved peak := by
  cases place with
  | id id =>
      have stored := emits.emits_put id
      cases isIndexed with
      | false =>
          rw [emitStore, storeCode]
          exact stored.same (by simp) rfl rfl
      | true =>
          rw [emitStore, storeCode]
          exact ((stored.emit (.op .pop)).emit (.op .pushTemp)).same (by simp) rfl rfl
  | prop obj name =>
      have stored := (emits.emit (.op .putProp)).pop 2
      cases isIndexed with
      | false =>
          rw [emitStore, storeCode]
          exact stored.same (by simp) rfl rfl
      | true =>
          rw [emitStore, storeCode]
          exact ((stored.emit (.op .pop)).emit (.op .pushTemp)).same (by simp) rfl rfl
  | index base index =>
      have stored := ((emits.emit (.op .indexSet)).pop 2).emits_store true base
      have known := placeHeight_true base
      rw [emitStore, storeCode]
      refine stored.same (by simp) ?_ rfl
      rw [placeHeight, known, Bool.toNat_false]
      omega

theorem generates_asgn {lhs : Place V} {rhs : Expr V} (place : GeneratesPlace lhs)
    (value : GeneratesExpr rhs) : GeneratesExpr (.asgn lhs rhs) := by
  intro state ok
  simp only [exprScoped, Bool.and_eq_true] at ok
  obtain ⟨state1, ran1, emits1⟩ := place false state ok.1
  obtain ⟨state2, ran2, emits2⟩ := emits1.step value ok.2
  cases indexed : isIndex lhs with
  | false =>
      refine ⟨_, ?_, (emits2.emits_store false lhs).same ?_ ?_ ?_⟩
      · simp [generateExpr, ran1, ran2, indexed]
      · simp [exprCode, indexed]
      · beta_reduce
        omega
      · simp [exprPeak]
  | true =>
      refine ⟨_, ?_, ((emits2.emit (.op .putTemp)).emits_store false lhs).same ?_ ?_ ?_⟩
      · simp [generateExpr, ran1, ran2, indexed]
      · simp [exprCode, indexed]
      · beta_reduce
        omega
      · simp [exprPeak]

theorem generates_asgnRange {base : Place V} {start stop rhs : Expr V} (place : GeneratesPlace base)
    (first : GeneratesExpr start) (second : GeneratesExpr stop) (value : GeneratesExpr rhs) :
    GeneratesExpr (.asgnRange base start stop rhs) := by
  intro state ok
  simp only [exprScoped, Bool.and_eq_true] at ok
  obtain ⟨state1, ran1, emits1⟩ := place true state ok.1.1.1
  obtain ⟨state2, ran2, emits2⟩ := emits1.save.step first ok.1.1.2
  obtain ⟨state3, ran3, emits3⟩ := emits2.step second ok.1.2
  have old := emits1.savedStack
  obtain ⟨state4, ran4, emits4⟩ := (emits3.restore state.savedStack).step value ok.2
  have ranged := ((emits4.emit (.op .putTemp)).emits_extended .rangeSet).pop 3
  have known := placeHeight_true base
  refine ⟨_, ?_, (ranged.emits_store true base).same ?_ ?_ ?_⟩
  · simp [generateExpr, ran1, ran2, ran3, ran4, old]
  · simp +arith [exprCode]
  · beta_reduce
    omega
  · simp [exprPeak, Nat.max_assoc]

end Places

section Scattering

attribute [local simp] emitOp

def pendingCode : Scatter V → List (Cell V)
  | .nil => []
  | .cons kind id next =>
      [.varRef id, .label (if kind = .optional then 1 else 0)] ++ pendingCode next
  | .default id _ next => [.varRef id, .label 0] ++ pendingCode next

def labelPlaces (pos : Nat) : Scatter V → List (List Nat)
  | .nil => []
  | .cons _ _ next => labelPlaces (pos + 2) next
  | .default _ _ next => [pos + 1] :: labelPlaces (pos + 2) next

theorem pendingCode_length (targets : Scatter V) : (pendingCode targets).length = 2 * targets.length := by
  cases targets with
  | nil => rfl
  | cons kind id next =>
      have rest := pendingCode_length next
      simp only [pendingCode, Scatter.length, List.length_append, List.length_cons, List.length_nil]
      omega
  | default id expr next =>
      have rest := pendingCode_length next
      simp only [pendingCode, Scatter.length, List.length_append, List.length_cons, List.length_nil]
      omega

theorem targetsCode_length (pos height : Nat) (saved : Option Nat) (targets : Scatter V) :
    (targetsCode pos height saved targets).length = 2 * targets.length := by
  cases targets with
  | nil => rfl
  | cons kind id next =>
      have rest := targetsCode_length pos height saved next
      simp only [targetsCode, Scatter.length, List.length_append, List.length_cons, List.length_nil]
      omega
  | default id expr next =>
      have rest (pos' : Nat) := targetsCode_length pos' height saved next
      simp only [targetsCode, Scatter.length, List.length_append, List.length_cons, List.length_nil,
        rest]
      omega

theorem Emits.emits_targets {start state : State V} {code : List (Cell V)} {height peak : Nat}
    {saved : Option Nat} (emits : Emits start state code height saved peak) (targets : Scatter V) :
    ∃ state', addTargets targets state = (labelPlaces state.cells.length targets, state') ∧
      Emits start state' (code ++ pendingCode targets) height saved peak := by
  cases targets with
  | nil => exact ⟨state, rfl, emits.shape (by simp [pendingCode])⟩
  | cons kind id next =>
      have known := (emits.emit (.varRef id)).emit (.label (if kind = .optional then 1 else 0))
      obtain ⟨state', ran, further⟩ := known.emits_targets next
      refine ⟨state', ?_, further.shape (by simp [pendingCode])⟩
      have place : (Code.emit (.label (if kind = .optional then 1 else 0))
          (Code.emit (.varRef id) state)).cells.length = state.cells.length + 2 := by simp [Code.emit]
      rw [place] at ran
      rw [addTargets, labelPlaces]
      exact ran
  | default id expr next =>
      have known := (emits.emit (.varRef id)).emit (.label 0)
      obtain ⟨state', ran, further⟩ := known.emits_targets next
      refine ⟨state', ?_, further.shape (by simp [pendingCode])⟩
      have place : (Code.emit (.label 0) (Code.emit (.varRef id) state)).cells.length =
          state.cells.length + 2 := by simp [Code.emit]
      rw [place] at ran
      simp only [addTargets, labelPlaces, addLabel, addLinkedLabel, addVarRef, ran]
      simp [Code.emit]

/-- The second loop over the targets patches the labels of the operands that are still to come
(`before` the targets, `between` them and the code of the defaults). -/
def GeneratesDefaults (targets : Scatter V) : Prop :=
  ∀ {start state : State V} {before between : List (Cell V)} {height peak : Nat} {saved : Option Nat},
    Emits start state (before ++ pendingCode targets ++ between) height saved peak →
    scatterScoped saved.isSome targets = true →
    ∃ state', generateDefaults targets (labelPlaces (start.cells.length + before.length) targets) state =
        some state' ∧
      Emits start state'
        (before ++ targetsCode (start.cells.length + before.length + 2 * targets.length + between.length)
            height saved targets ++ between ++
          defaultsCode (start.cells.length + before.length + 2 * targets.length + between.length)
            height saved targets)
        height saved (max peak (defaultsPeak height targets))

theorem generates_defaults_nil : GeneratesDefaults (V := V) .nil := by
  intro start state before between height peak saved emits ok
  refine ⟨state, generateDefaults_nil state _, emits.same ?_ rfl ?_⟩
  · simp [pendingCode, targetsCode_nil, defaultsCode_nil]
  · simp [defaultsPeak_nil]

theorem generates_defaults_cons (kind : ScatterKind) (id : Nat) {next : Scatter V}
    (rest : GeneratesDefaults next) : GeneratesDefaults (.cons kind id next) := by
  intro start state before between height peak saved emits ok
  have shifted : Emits start state ((before ++ [.varRef id,
      .label (if kind = .optional then 1 else 0)]) ++ pendingCode next ++ between) height saved peak :=
    emits.shape (by simp [pendingCode])
  obtain ⟨state', ran, further⟩ := rest shifted ok
  refine ⟨state', ?_, further.same ?_ rfl rfl⟩
  · rw [generateDefaults, labelPlaces]
    simpa [Nat.add_assoc] using ran
  · simp +arith [targetsCode, defaultsCode, Scatter.length]

theorem generates_defaults_default (id : Nat) {expr : Expr V} (value : GeneratesExpr expr)
    {next : Scatter V} (rest : GeneratesDefaults next) : GeneratesDefaults (.default id expr next) := by
  intro start state before between height peak saved emits ok
  simp only [scatterScoped, Bool.and_eq_true] at ok
  have pending : Emits start state ((before ++ [.varRef id]) ++ .label 0 ::
      (pendingCode next ++ between)) height saved peak := emits.shape (by simp [pendingCode])
  have defined := pending.define (start.cells.length + before.length + 1) (by simp [Nat.add_assoc])
  obtain ⟨state1, ran1, emits1⟩ := defined.step value ok.1
  have stored := ((emits1.emits_put id).emit (.op .pop)).pop 1
  have shifted : Emits start (popStack 1 (emit (.op .pop) (emitPut id state1))) ((before ++ [.varRef id,
      .label (start.cells.length + before.length + 2 * (next.length + 1) + between.length)]) ++
      pendingCode next ++ (between ++ (exprCode (start.cells.length + before.length +
        2 * (next.length + 1) + between.length) height saved expr ++ putCode id ++ [.op .pop])))
      height saved (max peak (exprPeak height expr)) := by
    refine stored.same ?_ rfl rfl
    simp +arith [pendingCode_length]
  obtain ⟨state2, ran2, emits2⟩ := rest shifted ok.2
  refine ⟨state2, ?_, emits2.same ?_ rfl ?_⟩
  · rw [labelPlaces, generateDefaults]
    simp only [Option.bind_eq_bind]
    rw [ran1]
    simpa [Nat.add_assoc] using ran2
  · simp +arith [targetsCode, defaultsCode, Scatter.length]
  · simp [defaultsPeak, Nat.max_assoc]

theorem generates_scatter {targets : Scatter V} {rhs : Expr V} (value : GeneratesExpr rhs)
    (defaults : GeneratesDefaults targets) : GeneratesExpr (.scatter targets rhs) := by
  intro state ok
  simp only [exprScoped, Bool.and_eq_true] at ok
  obtain ⟨state1, ran1, emits1⟩ := value state ok.2
  have counted := (((emits1.emits_extended .scatter).emit (.byte targets.length)).emit
    (.byte targets.countRequired)).emit (.byte (restOperand targets))
  obtain ⟨state2, ran2, emits2⟩ := counted.emits_targets targets
  rw [counted.place] at ran2
  have labelled := emits2.emit (.label 0)
  obtain ⟨state3, ran3, emits3⟩ := defaults labelled ok.1
  have finished := (emits3.shape (label_at rfl)).define state2.cells.length (by
    rw [emits2.place]
    simp +arith [pendingCode_length, targetsCode_length])
  refine ⟨_, ?_, finished.same ?_ rfl ?_⟩
  · rw [generateExpr, ran1]
    simp only [Option.bind_eq_bind, Option.bind_some, emitByte, ran2, addLabel, addLinkedLabel]
    rw [ran3]
    rfl
  · simp +arith [exprCode, extendedCode, targetsCode_length]
  · simp [exprPeak]

end Scattering

mutual

theorem generates_expr (expr : Expr V) : GeneratesExpr expr := by
  cases expr with
  | var v => exact generates_literal v
  | id id => exact generates_id id
  | and lhs rhs => exact generates_and (generates_expr lhs) (generates_expr rhs)
  | or lhs rhs => exact generates_or (generates_expr lhs) (generates_expr rhs)
  | unary kind expr => exact generates_unary kind (generates_expr expr)
  | binary kind lhs rhs => exact generates_binary kind (generates_expr lhs) (generates_expr rhs)
  | index lhs rhs => exact generates_index (generates_expr lhs) (generates_expr rhs)
  | range base start stop =>
      exact generates_range (generates_expr base) (generates_expr start) (generates_expr stop)
  | first => exact generates_first
  | last => exact generates_last
  | map map => exact generates_mapExpr (generates_map map)
  | list list => exact generates_list (generates_argList list)
  | call func args => exact generates_call func (generates_argList args)
  | verb obj verb args =>
      exact generates_verb (generates_expr obj) (generates_expr verb) (generates_argList args)
  | cond condition consequent alternate =>
      exact generates_cond (generates_expr condition) (generates_expr consequent)
        (generates_expr alternate)
  | asgn lhs rhs => exact generates_asgn (generates_place lhs) (generates_expr rhs)
  | asgnRange base start stop rhs =>
      exact generates_asgnRange (generates_place base) (generates_expr start) (generates_expr stop)
        (generates_expr rhs)
  | scatter targets rhs => exact generates_scatter (generates_expr rhs) (generates_defaults targets)
  | «catch» body codes => exact generates_catch (generates_expr body) (generates_argList codes)
  | catchElse body codes except =>
      exact generates_catchElse (generates_expr body) (generates_argList codes)
        (generates_expr except)

theorem generates_place (place : Place V) : GeneratesPlace place := by
  cases place with
  | id id => exact generates_place_id id
  | prop obj name => exact generates_place_prop (generates_expr obj) (generates_expr name)
  | index base index => exact generates_place_index (generates_place base) (generates_expr index)

theorem generates_argList (args : ArgList V) : GeneratesArgList args := by
  cases args with
  | nil => exact generates_argList_nil
  | cons kind expr next =>
      exact generates_argList_cons kind (generates_expr expr) (generates_args next)

theorem generates_args (args : ArgList V) : GeneratesArgs args := by
  cases args with
  | nil => exact generates_args_nil
  | cons kind expr next => exact generates_args_cons kind (generates_expr expr) (generates_args next)

theorem generates_map (map : MapList V) : GeneratesMap map := by
  cases map with
  | nil => exact generates_map_nil
  | cons key value next =>
      exact generates_map_cons (generates_expr key) (generates_expr value) (generates_map next)

theorem generates_defaults (targets : Scatter V) : GeneratesDefaults targets := by
  cases targets with
  | nil => exact generates_defaults_nil
  | cons kind id next => exact generates_defaults_cons kind id (generates_defaults next)
  | default id expr next =>
      exact generates_defaults_default id (generates_expr expr) (generates_defaults next)

end

end ToastStunt.Code
