import ToastStunt.Library.Placing

/-!
Scattering assignments `{a, ?b = e, @c} = rhs`: the patterns that the parser takes and the code
that `generate_expr` lays out for them.
-/

namespace ToastStunt.Execute

open Placing

variable {E : Type}

inductive Target (E : Type)
  | required (id : Nat)
  | optional (id : Nat) (default : Option E)
  | rest (id : Nat)

def Target.id : Target E → Nat
  | required id => id
  | optional id _ => id
  | rest id => id

def Target.isRequired : Target E → Bool
  | required _ => true
  | _ => false

def Target.isOptional : Target E → Bool
  | optional _ _ => true
  | _ => false

def Target.isRest : Target E → Bool
  | rest _ => true
  | _ => false

inductive VetError
  | manyRest
  | manyTargets
  deriving DecidableEq

def vetRest : Bool → List (Target E) → List VetError
  | _, [] => []
  | seenRest, sc :: rest =>
      if sc.isRest then (if seenRest then [.manyRest] else []) ++ vetRest true rest
      else vetRest seenRest rest

def vetScatter (scatter : List (Target E)) : List VetError :=
  vetRest false scatter ++ if scatter.length > 255 then [.manyTargets] else []

theorem vetRest_nil {seenRest : Bool} {scatter : List (Target E)} :
    vetRest seenRest scatter = [] ↔ seenRest.toNat + scatter.countP Target.isRest ≤ 1 := by
  induction scatter generalizing seenRest with
  | nil => cases seenRest <;> simp [vetRest]
  | cons sc rest ih =>
      cases isRest : sc.isRest with
      | false => simp [vetRest, isRest, ih]
      | true =>
          rw [vetRest, if_pos isRest, List.append_eq_nil_iff, ih, List.countP_cons_of_pos isRest]
          cases seenRest
          · simp only [Bool.toNat_true, Bool.toNat_false, Bool.false_eq_true, if_false, true_and]
            omega
          · simp

theorem vetScatter_nil {scatter : List (Target E)} :
    vetScatter scatter = [] ↔ scatter.countP Target.isRest ≤ 1 ∧ scatter.length ≤ 255 := by
  rw [vetScatter, List.append_eq_nil_iff, vetRest_nil]
  refine and_congr (by simp) ?_
  split <;> simp <;> omega

theorem count_targets (scatter : List (Target E)) :
    scatter.countP Target.isRequired + scatter.countP Target.isOptional +
      scatter.countP Target.isRest = scatter.length := by
  induction scatter with
  | nil => rfl
  | cons sc next ih =>
      rw [List.length_cons, ← ih, List.countP_cons, List.countP_cons, List.countP_cons]
      cases sc <;> simp [Target.isRequired, Target.isOptional, Target.isRest] <;> omega

inductive Opcode
  | extended
  | eopScatter
  | put (slot : Nat)
  | gPut
  | pop
  deriving DecidableEq

/-- The code before its operands get their final widths: a reference to a variable or a label is
one cell, and so is the code of an expression whose value is pushed. -/
inductive Cell (E : Type)
  | op (op : Opcode)
  | byte (byte : UInt8)
  | varRef (slot : Nat)
  | label (value : Nat)
  | expr (expr : E)

structure State (E : Type) where
  cells : List (Cell E)

def State.emit (state : State E) (cell : Cell E) : State E := ⟨state.cells ++ [cell]⟩

def emitByte (n : Nat) (state : State E) : State E := state.emit (.byte (UInt8.ofNat n))

def emitExtendedByte (op : Opcode) (state : State E) : State E :=
  (state.emit (.op .extended)).emit (.op op)

def generateExpr (expr : E) (state : State E) : State E := state.emit (.expr expr)

def addVarRef (slot : Nat) (state : State E) : State E := state.emit (.varRef slot)

/-- A label that is not defined yet is told by its cell. -/
def addLabel (state : State E) : Nat × State E := (state.cells.length, state.emit (.label 0))

def addPseudoLabel (value : Nat) (state : State E) : State E := state.emit (.label value)

def defineLabel (label : Nat) (state : State E) : State E :=
  ⟨state.cells.set label (.label state.cells.length)⟩

def numReadyVars : Nat := 32

def emitPut (slot : Nat) (state : State E) : State E :=
  if slot ≥ numReadyVars then addVarRef slot (state.emit (.op .gPut))
  else state.emit (.op (.put slot))

def restPosition : Nat → Option Nat → List (Target E) → Option Nat
  | _, rest, [] => rest
  | nargs, rest, sc :: next =>
      restPosition (nargs + 1) (if sc.isRest then some (nargs + 1) else rest) next

def nreq (scatter : List (Target E)) : Nat := scatter.countP Target.isRequired

def restOperand (scatter : List (Target E)) : Nat :=
  (restPosition 0 none scatter).getD (scatter.length + 1)

theorem restPosition_none {scatter : List (Target E)} (nargs : Nat) (rest : Option Nat)
    (none : scatter.countP Target.isRest = 0) : restPosition nargs rest scatter = rest := by
  induction scatter generalizing nargs with
  | nil => rfl
  | cons sc next ih =>
      cases isRest : sc.isRest with
      | false => simpa [restPosition, isRest] using ih (nargs + 1) (by simpa [isRest] using none)
      | true => simp [isRest] at none

theorem restPosition_last {front back : List (Target E)} {sc : Target E} (nargs : Nat)
    (rest : Option Nat) (isRest : sc.isRest = true) (none : back.countP Target.isRest = 0) :
    restPosition nargs rest (front ++ sc :: back) = some (nargs + front.length + 1) := by
  induction front generalizing nargs rest with
  | nil =>
      rw [List.nil_append, restPosition, if_pos isRest, restPosition_none _ _ none]
      rfl
  | cons first front ih =>
      rw [List.cons_append, restPosition, ih, List.length_cons]
      congr 1
      omega

def addTargets : List (Target E) → State E → List (Option Nat) × State E
  | [], state => ([], state)
  | .optional id (some _) :: next, state =>
      let (label, state) := addLabel (addVarRef id state)
      let (labels, state) := addTargets next state
      (some label :: labels, state)
  | sc :: next, state =>
      let (labels, state) :=
        addTargets next (addPseudoLabel (if sc.isOptional then 1 else 0) (addVarRef sc.id state))
      (none :: labels, state)

def addDefaults : List (Target E) → List (Option Nat) → State E → State E
  | .optional id (some expr) :: next, some label :: labels, state =>
      addDefaults next labels
        ((emitPut id (generateExpr expr (defineLabel label state))).emit (.op .pop))
  | _ :: next, _ :: labels, state => addDefaults next labels state
  | _, _, state => state

def generateScatter (scatter : List (Target E)) (rhs : E) (state : State E) : State E :=
  let state := emitExtendedByte .eopScatter (generateExpr rhs state)
  let state := emitByte (restOperand scatter)
    (emitByte (nreq scatter) (emitByte scatter.length state))
  let (labels, state) := addTargets scatter state
  let (done, state) := addLabel state
  defineLabel done (addDefaults scatter labels state)

/-! The code all at once. -/

def defaults : List (Target E) → List (Nat × E)
  | [] => []
  | .optional id (some expr) :: next => (id, expr) :: defaults next
  | _ :: next => defaults next

def putCells (id : Nat) : List (Cell E) :=
  if id ≥ numReadyVars then [.op .gPut, .varRef id] else [.op (.put id)]

def defaultCells (entry : Nat × E) : List (Cell E) :=
  .expr entry.2 :: (putCells entry.1 ++ [.op .pop])

def chainCells (entries : List (Nat × E)) : List (Cell E) := entries.flatMap defaultCells

/-- Where the default of a target is in the chain that starts at `pos`. -/
def targetCells : Nat → List (Target E) → List (Cell E)
  | _, [] => []
  | pos, .optional id (some expr) :: next =>
      .varRef id :: .label pos :: targetCells (pos + (defaultCells (id, expr)).length) next
  | pos, sc :: next =>
      .varRef sc.id :: .label (if sc.isOptional then 1 else 0) :: targetCells pos next

def headerCells (scatter : List (Target E)) : List (Cell E) :=
  [.op .extended, .op .eopScatter, .byte (UInt8.ofNat scatter.length),
    .byte (UInt8.ofNat (nreq scatter)), .byte (UInt8.ofNat (restOperand scatter))]

def chainStart (base : Nat) (scatter : List (Target E)) : Nat := base + 7 + 2 * scatter.length

def scatterCells (base : Nat) (scatter : List (Target E)) (rhs : E) : List (Cell E) :=
  .expr rhs :: (headerCells scatter ++ (targetCells (chainStart base scatter) scatter ++
    .label (chainStart base scatter + (chainCells (defaults scatter)).length) ::
      chainCells (defaults scatter)))

def blankCells : List (Target E) → List (Cell E)
  | [] => []
  | .optional id (some _) :: next => .varRef id :: .label 0 :: blankCells next
  | sc :: next => .varRef sc.id :: .label (if sc.isOptional then 1 else 0) :: blankCells next

def labelsFrom : Nat → List (Target E) → List (Option Nat)
  | _, [] => []
  | pos, .optional _ (some _) :: next => some (pos + 1) :: labelsFrom (pos + 2) next
  | pos, _ :: next => none :: labelsFrom (pos + 2) next

theorem blankCells_length (scatter : List (Target E)) :
    (blankCells scatter).length = 2 * scatter.length := by
  induction scatter with
  | nil => rfl
  | cons sc next ih =>
      rcases sc with id | ⟨id, _ | expr⟩ | id <;> simp only [blankCells, List.length_cons, ih] <;> omega

theorem targetCells_length (pos : Nat) (scatter : List (Target E)) :
    (targetCells pos scatter).length = 2 * scatter.length := by
  induction scatter generalizing pos with
  | nil => rfl
  | cons sc next ih =>
      rcases sc with id | ⟨id, _ | expr⟩ | id <;> simp only [targetCells, List.length_cons, ih] <;>
        omega

theorem addTargets_cells (scatter : List (Target E)) (state : State E) :
    addTargets scatter state =
      (labelsFrom state.cells.length scatter, ⟨state.cells ++ blankCells scatter⟩) := by
  induction scatter generalizing state with
  | nil => simp [addTargets, labelsFrom, blankCells]
  | cons sc next ih =>
      rcases sc with id | ⟨id, _ | expr⟩ | id <;>
        simp [addTargets, labelsFrom, blankCells, ih, addLabel, addVarRef, addPseudoLabel,
          State.emit]

theorem emitPut_cells (id : Nat) (state : State E) :
    emitPut id state = ⟨state.cells ++ putCells id⟩ := by
  rw [emitPut, putCells]
  split <;> simp [addVarRef, State.emit]

theorem addDefaults_cells (scatter : List (Target E)) (before tail : List (Cell E)) :
    addDefaults scatter (labelsFrom before.length scatter)
        ⟨before ++ (blankCells scatter ++ tail)⟩ =
      ⟨before ++ (targetCells (before.length + 2 * scatter.length + tail.length) scatter ++
        (tail ++ chainCells (defaults scatter)))⟩ := by
  induction scatter generalizing before tail with
  | nil => simp [addDefaults, blankCells, targetCells, defaults, chainCells]
  | cons sc next ih =>
      have skipped (front : List (Cell E)) (two : front.length = 2) :
          addDefaults next (labelsFrom (before.length + 2) next)
            ⟨before ++ (front ++ (blankCells next ++ tail))⟩ =
          ⟨before ++ (front ++
            (targetCells (before.length + 2 + 2 * next.length + tail.length) next ++
              (tail ++ chainCells (defaults next))))⟩ := by
        simpa [two] using ih (before ++ front) tail
      have two : before.length + 2 * (next.length + 1) = before.length + 2 + 2 * next.length := by
        omega
      rcases sc with id | ⟨id, _ | expr⟩ | id
      · simpa [addDefaults, labelsFrom, blankCells, targetCells, defaults, two, Target.id,
          Target.isOptional] using skipped [.varRef id, .label 0] rfl
      · simpa [addDefaults, labelsFrom, blankCells, targetCells, defaults, two, Target.id,
          Target.isOptional] using skipped [.varRef id, .label 1] rfl
      · have position : before.length + 2 + 2 * next.length + tail.length =
            (before ++ .varRef id :: .label 0 :: (blankCells next ++ tail)).length := by
          simp [blankCells_length]
          omega
        have defined := set_placed (before ++ [.varRef id]) (blankCells next ++ tail) (.label 0)
          (.label (before.length + 2 + 2 * next.length + tail.length))
        have later := ih (before ++ [.varRef id,
            .label (before.length + 2 + 2 * next.length + tail.length)])
          (tail ++ defaultCells (id, expr))
        have onward : before.length + 2 + 2 * next.length + (tail.length +
              (defaultCells (id, expr)).length) =
            before.length + 2 + 2 * next.length + tail.length +
              (defaultCells (id, expr)).length := by omega
        simp only [List.append_assoc, List.cons_append, List.nil_append, List.length_append,
          List.length_cons, List.length_nil, Nat.zero_add, Nat.reduceAdd] at defined later
        simp only [addDefaults, labelsFrom, blankCells, targetCells, defaults, chainCells,
          List.flatMap_cons, List.cons_append, List.length_cons, two]
        rw [defineLabel, ← position, defined, generateExpr, State.emit, emitPut_cells, State.emit,
          ← onward]
        simpa [defaultCells, chainCells] using later
      · simpa [addDefaults, labelsFrom, blankCells, targetCells, defaults, two, Target.id,
          Target.isOptional] using skipped [.varRef id, .label 0] rfl

theorem ending_cells (scatter : List (Target E)) (front : List (Cell E)) {pos : Nat}
    (start : front.length + 2 * scatter.length + 1 = pos) :
    defineLabel (front ++ blankCells scatter).length
        (addDefaults scatter (labelsFrom front.length scatter)
          ⟨front ++ (blankCells scatter ++ [.label 0])⟩) =
      ⟨front ++ (targetCells pos scatter ++
        .label (pos + (chainCells (defaults scatter)).length) :: chainCells (defaults scatter))⟩ := by
  have laid := addDefaults_cells scatter front [.label 0]
  rw [List.length_singleton, start] at laid
  have last : (front ++ blankCells scatter).length =
      (front ++ targetCells pos scatter).length := by
    simp [blankCells_length, targetCells_length]
  have ending : (front ++ (targetCells pos scatter ++
      ([Cell.label 0] ++ chainCells (defaults scatter)))).length =
      pos + (chainCells (defaults scatter)).length := by
    simp only [List.length_append, targetCells_length, List.length_singleton]
    omega
  rw [laid, defineLabel, ending, last]
  simp

theorem generateScatter_cells (scatter : List (Target E)) (rhs : E) (state : State E) :
    generateScatter scatter rhs state =
      ⟨state.cells ++ scatterCells state.cells.length scatter rhs⟩ := by
  have header : emitByte (restOperand scatter) (emitByte (nreq scatter)
      (emitByte scatter.length (emitExtendedByte .eopScatter (generateExpr rhs state)))) =
      ⟨state.cells ++ .expr rhs :: headerCells scatter⟩ := by
    simp [emitByte, emitExtendedByte, generateExpr, State.emit, headerCells]
  have laid := ending_cells scatter (state.cells ++ .expr rhs :: headerCells scatter)
    (show _ = chainStart state.cells.length scatter by simp [headerCells, chainStart]; omega)
  rw [generateScatter, header]
  simp only [addTargets_cells, addLabel, State.emit]
  rw [List.append_assoc _ (blankCells scatter), laid]
  simp [scatterCells]

end ToastStunt.Execute
