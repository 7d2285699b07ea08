import ToastStunt.Code.Syntax

/-!
What parser.y checks of a tree besides the grammar: `$` and `^` stand inside an index only, and exits
name a loop around them. The counts that it bounds are another matter: what becomes of an operand
that is more than a byte is said where vectors are written.
-/

namespace ToastStunt.Code

variable {V : Type}

mutual

/-- `dollarsOk` is `dollars_ok` of the parser. -/
def exprScoped (dollarsOk : Bool) : Expr V → Bool
  | .var _ | .id _ => true
  | .first | .last => dollarsOk
  | .and lhs rhs | .or lhs rhs | .binary _ lhs rhs =>
      exprScoped dollarsOk lhs && exprScoped dollarsOk rhs
  | .unary _ expr => exprScoped dollarsOk expr
  | .index lhs rhs => exprScoped dollarsOk lhs && exprScoped true rhs
  | .range base start stop =>
      exprScoped dollarsOk base && exprScoped true start && exprScoped true stop
  | .map map => mapScoped dollarsOk map
  | .list list => argsScoped dollarsOk list
  | .call func args => argsScoped dollarsOk args
  | .verb obj verb args =>
      exprScoped dollarsOk obj && exprScoped dollarsOk verb && argsScoped dollarsOk args
  | .cond condition consequent alternate =>
      exprScoped dollarsOk condition && exprScoped dollarsOk consequent &&
        exprScoped dollarsOk alternate
  | .asgn lhs rhs => placeScoped dollarsOk lhs && exprScoped dollarsOk rhs
  | .asgnRange base start stop rhs =>
      placeScoped dollarsOk base && exprScoped true start && exprScoped true stop &&
        exprScoped dollarsOk rhs
  | .scatter targets rhs =>
      scatterScoped dollarsOk targets && exprScoped dollarsOk rhs
  | .catch body codes => exprScoped dollarsOk body && argsScoped dollarsOk codes
  | .catchElse body codes except =>
      exprScoped dollarsOk body && argsScoped dollarsOk codes && exprScoped dollarsOk except

def placeScoped (dollarsOk : Bool) : Place V → Bool
  | .id _ => true
  | .prop obj name => exprScoped dollarsOk obj && exprScoped dollarsOk name
  | .index base index => placeScoped dollarsOk base && exprScoped true index

def argsScoped (dollarsOk : Bool) : ArgList V → Bool
  | .nil => true
  | .cons _ expr next => exprScoped dollarsOk expr && argsScoped dollarsOk next

def mapScoped (dollarsOk : Bool) : MapList V → Bool
  | .nil => true
  | .cons key value next =>
      exprScoped dollarsOk key && exprScoped dollarsOk value && mapScoped dollarsOk next

def scatterScoped (dollarsOk : Bool) : Scatter V → Bool
  | .nil => true
  | .cons _ _ next => scatterScoped dollarsOk next
  | .default _ expr next => exprScoped dollarsOk expr && scatterScoped dollarsOk next

end

attribute [simp] exprScoped placeScoped argsScoped mapScoped scatterScoped

abbrev LoopNames := List (Option Nat × Option Nat)

def hasLoop (loops : LoopNames) : Option Nat → Bool
  | none => !loops.isEmpty
  | some id => loops.any fun loop => loop.1 = some id || loop.2 = some id

mutual

def stmtScoped (loops : LoopNames) : Stmt V → Bool
  | .cond arms otherwise => armsScoped loops arms && stmtsScoped loops otherwise
  | .list id index expr body =>
      exprScoped false expr && stmtsScoped ((some id, index) :: loops) body
  | .range id start stop body =>
      exprScoped false start && exprScoped false stop && stmtsScoped ((some id, none) :: loops) body
  | .loop id condition body => exprScoped false condition && stmtsScoped ((id, none) :: loops) body
  | .fork _ time body => exprScoped false time && stmtsScoped [] body
  | .expr expr | .return expr => exprScoped false expr
  | .returnZero => true
  | .tryExcept body excepts =>
      stmtsScoped loops body && exceptsScoped loops excepts
  | .tryFinally body handler => stmtsScoped loops body && stmtsScoped loops handler
  | .break exit | .continue exit => hasLoop loops exit

def stmtsScoped (loops : LoopNames) : Stmts V → Bool
  | .nil => true
  | .cons stmt next => stmtScoped loops stmt && stmtsScoped loops next

def armsScoped (loops : LoopNames) : CondArms V → Bool
  | .nil => true
  | .cons condition stmt next =>
      exprScoped false condition && stmtsScoped loops stmt && armsScoped loops next

def exceptsScoped (loops : LoopNames) : ExceptArms V → Bool
  | .nil => true
  | .cons _ codes stmt next =>
      argsScoped false codes && stmtsScoped loops stmt && exceptsScoped loops next

end

attribute [simp] stmtScoped stmtsScoped armsScoped exceptsScoped

end ToastStunt.Code
