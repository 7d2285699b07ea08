import Mathlib.Logic.Function.Basic
import ToastStunt.Execute.ScatterCode
import ToastStunt.Lists.Ranges
import ToastStunt.Maps.Keys

/-!
`EOP_SCATTER` and the run of the code of a scattering assignment.
-/

namespace ToastStunt.Execute

open ToastStunt.Lists Maps Placing

inductive Value (α : Type)
  | none
  | list (items : List (Value α))
  | err (err : Error)
  | other (type : Int) (content : α)

variable {α E Exit : Type}

def Value.typeCode : Value α → Int
  | none => 6
  | list _ => 4 + complexFlag
  | err _ => 3
  | other type _ => type

/-- The variables of the running verb by their slots. -/
abbrev Env (α : Type) := Nat → Value α

structure Activ (α : Type) where
  env : Env α
  stack : List (Value α)

inductive Raised
  | mismatch (got : Int) (expected : List Int)
  | args
  deriving DecidableEq

def Raised.error : Raised → Error
  | mismatch _ _ => .type
  | args => .args

inductive Outcome (α Exit : Type)
  | done (activ : Activ α)
  | raised (raised : Raised) (env : Env α)
  | left (exit : Exit)

inductive Next (α Exit : Type)
  | jump (pc : Nat) (activ : Activ α)
  | stop (outcome : Outcome α Exit)

def readByte (code : List (Cell E)) (pc : Nat) : Option Nat :=
  match code[pc]? with
  | some (.byte byte) => some byte.toNat
  | _ => none

def readVarName (code : List (Cell E)) (pc : Nat) : Option Nat :=
  match code[pc]? with
  | some (.varRef id) => some id
  | _ => none

def readLabel (code : List (Cell E)) (pc : Nat) : Option Nat :=
  match code[pc]? with
  | some (.label value) => some value
  | _ => none

structure Scattering (α : Type) where
  env : Env α
  offset : Int
  noptAvail : Int
  target : Nat

def element (items : List (Value α)) (i : Int) : Option (Value α) :=
  if 1 ≤ i then items[(i - 1).toNat]? else none

/-- One turn of the loop; `target` is where to jump to. -/
def scatterTarget (items : List (Value α)) (rest : Nat) (nrest : Int) (i id label : Nat)
    (s : Scattering α) : Option (Scattering α) :=
  if i = rest then
    (sublist items i (i + nrest - 1)).map fun sub =>
      { s with env := Function.update s.env id (.list sub), offset := s.offset + (nrest - 1) }
  else if label = 0 then
    (element items (i + s.offset)).map fun value =>
      { s with env := Function.update s.env id value }
  else if s.noptAvail > 0 then
    (element items (i + s.offset)).map fun value =>
      { s with env := Function.update s.env id value, noptAvail := s.noptAvail - 1 }
  else
    some { s with
      offset := s.offset - 1
      target := if s.target = 0 ∧ label ≠ 1 then label else s.target }

/-- The last `n` of the targets, the first of which is number `i`. -/
def scatterLoop (code : List (Cell E)) (items : List (Value α)) (rest : Nat) (nrest : Int) :
    Nat → Nat → Nat → Scattering α → Option (Scattering α)
  | 0, _, _, s => some s
  | n + 1, i, pc, s =>
      (readVarName code pc).bind fun id =>
        (readLabel code (pc + 1)).bind fun label =>
          (scatterTarget items rest nrest i id label s).bind
            (scatterLoop code items rest nrest n (i + 1) (pc + 2))

/-- Without the `d` flag the error is the value of the expression. -/
def refuse (debug : Bool) (code : List (Cell E)) (pc nargs : Nat) (error : Raised) (env : Env α)
    (below : List (Value α)) : Option (Next α Exit) :=
  if debug then some (.stop (.raised error env))
  else (readLabel code (pc + 2 * nargs)).map fun done => .jump done ⟨env, .err error.error :: below⟩

def scatterList (debug : Bool) (code : List (Cell E)) (pc nargs nreq rest : Nat)
    (items : List (Value α)) (env : Env α) (below : List (Value α)) : Option (Next α Exit) :=
  let len := toInt items.length
  if len < nreq ∨ rest > nargs ∧ len > nargs then refuse debug code pc nargs .args env below
  else
    let nrest := if rest ≤ nargs ∧ len ≥ nargs then len - nargs + 1 else 0
    (scatterLoop code items rest nrest nargs 1 pc ⟨env, 0, len - nreq, 0⟩).bind fun s =>
      (readLabel code (pc + 2 * nargs)).map fun done =>
        .jump (if s.target = 0 then done else s.target) ⟨s.env, .list items :: below⟩

def scatter (debug : Bool) (code : List (Cell E)) (pc : Nat) (activ : Activ α) :
    Option (Next α Exit) :=
  (readByte code pc).bind fun nargs =>
    (readByte code (pc + 1)).bind fun nreq =>
      (readByte code (pc + 2)).bind fun rest =>
        match activ.stack with
        | [] => none
        | .list items :: below =>
            scatterList debug code (pc + 3) nargs nreq rest items activ.env below
        | value :: below =>
            refuse debug code (pc + 3) nargs (.mismatch value.typeCode [4 + complexFlag]) activ.env
              below

section

-- What the code of an expression does: it ends with a value, or is left.
variable (eval : E → Env α → Except Exit (Value α × Env α)) (debug : Bool) (code : List (Cell E))

def step (pc : Nat) (activ : Activ α) : Option (Next α Exit) :=
  match code[pc]? with
  | some (.expr expr) =>
      match eval expr activ.env with
      | .error exit => some (.stop (.left exit))
      | .ok (value, env) => some (.jump (pc + 1) ⟨env, value :: activ.stack⟩)
  | some (.op (.put slot)) =>
      activ.stack.head?.map fun value =>
        if code[pc + 1]? matches some (.op .pop) then
          .jump (pc + 2) ⟨Function.update activ.env slot value, activ.stack.tail⟩
        else .jump (pc + 1) ⟨Function.update activ.env slot value, activ.stack⟩
  | some (.op .gPut) =>
      (readVarName code (pc + 1)).bind fun slot =>
        activ.stack.head?.map fun value =>
          .jump (pc + 2) ⟨Function.update activ.env slot value, activ.stack⟩
  | some (.op .pop) => if activ.stack = [] then none else some (.jump (pc + 1) ⟨activ.env, activ.stack.tail⟩)
  | some (.op .extended) =>
      match code[pc + 1]? with
      | some (.op .eopScatter) => scatter debug code (pc + 2) activ
      | _ => none
  | _ => none

def run (stop : Nat) : Nat → Nat → Activ α → Option (Outcome α Exit)
  | 0, _, _ => none
  | fuel + 1, pc, activ =>
      if pc = stop then some (.done activ)
      else
        match step eval debug code pc activ with
        | none => none
        | some (.stop outcome) => some outcome
        | some (.jump pc activ) => run stop fuel pc activ

end

/-! What should come of it. -/

def sizes (left : Nat) : Nat → List (Target E) → List Nat
  | _, [] => []
  | spare, .required _ :: next => 1 :: sizes left spare next
  | spare, .optional _ _ :: next => min spare 1 :: sizes left (spare - 1) next
  | spare, .rest _ :: next => left :: sizes left spare next

/-- The parts of a list that its targets get: every element is used once, the optional targets
that come first are served first, and the rest target gets what remains. -/
structure Shares (scatter : List (Target E)) (items : List (Value α))
    (parts : List (List (Value α))) : Prop where
  flatten : parts.flatten = items
  sizes : parts.map List.length =
    sizes (items.length + 1 - scatter.length) (items.length - nreq scatter) scatter

def assign : List (Target E) → List (List (Value α)) → Env α → Env α
  | .required id :: next, [value] :: parts, env => assign next parts (Function.update env id value)
  | .optional id _ :: next, [value] :: parts, env => assign next parts (Function.update env id value)
  | .rest id :: next, part :: parts, env => assign next parts (Function.update env id (.list part))
  | _ :: next, _ :: parts, env => assign next parts env
  | _, _, env => env

def missing : List (Target E) → List (List (Value α)) → List (Nat × E)
  | .optional id (some expr) :: next, [] :: parts => (id, expr) :: missing next parts
  | _ :: next, _ :: parts => missing next parts
  | _, _ => []

def assignDefaults (eval : E → Env α → Except Exit (Value α × Env α)) :
    List (Nat × E) → Env α → Except Exit (Env α)
  | [], env => .ok env
  | (id, expr) :: next, env =>
      match eval expr env with
      | .error exit => .error exit
      | .ok (value, env) => assignDefaults eval next (Function.update env id value)

def finish (value : Value α) (below : List (Value α)) : Except Exit (Env α) → Outcome α Exit
  | .error exit => .left exit
  | .ok env => .done ⟨env, value :: below⟩

def refused (debug : Bool) (error : Raised) (env : Env α) (below : List (Value α)) :
    Outcome α Exit :=
  if debug then .raised error env else .done ⟨env, .err error.error :: below⟩

/-- The list is too short for the required targets, or too long for all. -/
def Misfits (scatter : List (Target E)) (items : List (Value α)) : Prop :=
  items.length < nreq scatter ∨ scatter.any Target.isRest = false ∧ scatter.length < items.length

structure ScattersExact (eval : E → Env α → Except Exit (Value α × Env α)) (debug : Bool)
    (scatter : List (Target E)) (value : Value α) (env : Env α) (below : List (Value α))
    (ends : Outcome α Exit → Prop) : Prop where
  type : (∀ items, value ≠ .list items) →
    ends (refused debug (.mismatch value.typeCode [4 + complexFlag]) env below)
  args : ∀ items, value = .list items → Misfits scatter items →
    ends (refused debug .args env below)
  assigned : ∀ items, value = .list items → ¬Misfits scatter items → ∃ parts,
    Shares scatter items parts ∧
      ends (finish value below
        (assignDefaults eval (missing scatter parts) (assign scatter parts env)))

end ToastStunt.Execute
