import Mathlib.Data.List.Basic

/-!
The syntax trees of ast.h as the grammar of parser.y builds them, over an arbitrary type of the
literals that are not small integers. Assignments are split by what stands on their left, so that
a tree holds no left side that the parser refuses.
-/

namespace ToastStunt.Code

inductive Literal (V : Type)
  | int (n : Int)
  | other (v : V)

inductive UnaryKind
  | negate | not | complement
  deriving DecidableEq

inductive BinaryKind
  | eq | ne | ge | gt | le | lt | mem | plus | minus | times | divide | mod | prop
  | exp | bitor | bitand | bitxor | bitshl | bitshr
  deriving DecidableEq

inductive ArgKind
  | normal | splice
  deriving DecidableEq

/-- An optional target with a default expression is a constructor of its own. -/
inductive ScatterKind
  | required | optional | rest
  deriving DecidableEq

/-! A null `codes` of a handler stands for `ANY` and is the empty argument list. A variable is told
by its slot. `Place` is a left side without its last range: an index into an index into a variable
or a property. -/

mutual

inductive Expr (V : Type)
  | var (v : Literal V)
  | id (id : Nat)
  | and (lhs rhs : Expr V)
  | or (lhs rhs : Expr V)
  | unary (kind : UnaryKind) (expr : Expr V)
  | binary (kind : BinaryKind) (lhs rhs : Expr V)
  | index (lhs rhs : Expr V)
  | range (base start stop : Expr V)
  | first
  | last
  | map (map : MapList V)
  | list (list : ArgList V)
  | call (func : Nat) (args : ArgList V)
  | verb (obj verb : Expr V) (args : ArgList V)
  | cond (condition consequent alternate : Expr V)
  | asgn (lhs : Place V) (rhs : Expr V)
  | asgnRange (base : Place V) (start stop rhs : Expr V)
  | scatter (targets : Scatter V) (rhs : Expr V)
  | catch (body : Expr V) (codes : ArgList V)
  | catchElse (body : Expr V) (codes : ArgList V) (except : Expr V)

inductive Place (V : Type)
  | id (id : Nat)
  | prop (obj name : Expr V)
  | index (base : Place V) (index : Expr V)

inductive ArgList (V : Type)
  | nil
  | cons (kind : ArgKind) (expr : Expr V) (next : ArgList V)

inductive MapList (V : Type)
  | nil
  | cons (key value : Expr V) (next : MapList V)

inductive Scatter (V : Type)
  | nil
  | cons (kind : ScatterKind) (id : Nat) (next : Scatter V)
  | default (id : Nat) (expr : Expr V) (next : Scatter V)

end

/-! `next` of a statement makes lists of statements. A null `otherwise` is the empty list, which
gives the same code. -/

mutual

inductive Stmt (V : Type)
  | cond (arms : CondArms V) (otherwise : Stmts V)
  | list (id : Nat) (index : Option Nat) (expr : Expr V) (body : Stmts V)
  | range (id : Nat) (start stop : Expr V) (body : Stmts V)
  | loop (id : Option Nat) (condition : Expr V) (body : Stmts V)
  | fork (id : Option Nat) (time : Expr V) (body : Stmts V)
  | expr (expr : Expr V)
  | return (expr : Expr V)
  | returnZero
  | tryExcept (body : Stmts V) (excepts : ExceptArms V)
  | tryFinally (body handler : Stmts V)
  | break (exit : Option Nat)
  | continue (exit : Option Nat)

inductive Stmts (V : Type)
  | nil
  | cons (stmt : Stmt V) (next : Stmts V)

inductive CondArms (V : Type)
  | nil
  | cons (condition : Expr V) (stmt : Stmts V) (next : CondArms V)

inductive ExceptArms (V : Type)
  | nil
  | cons (id : Option Nat) (codes : ArgList V) (stmt : Stmts V) (next : ExceptArms V)

end

def ExceptArms.length {V : Type} : ExceptArms V → Nat
  | .nil => 0
  | .cons _ _ _ next => next.length + 1

namespace Scatter

variable {V : Type}

def length : Scatter V → Nat
  | .nil => 0
  | .cons _ _ next => next.length + 1
  | .default _ _ next => next.length + 1

def countRequired : Scatter V → Nat
  | .nil => 0
  | .cons kind _ next => next.countRequired + if kind = .required then 1 else 0
  | .default _ _ next => next.countRequired

def restPosition : Nat → Option Nat → Scatter V → Option Nat
  | _, found, .nil => found
  | nargs, found, .cons kind _ next =>
      next.restPosition (nargs + 1) (if kind = .rest then some (nargs + 1) else found)
  | nargs, found, .default _ _ next => next.restPosition (nargs + 1) found

end Scatter

end ToastStunt.Code
