import ToastStunt.Code.Operands
import ToastStunt.Code.Vector

/-!
The tables that the vectors of a program share, `GState`. A vector is laid out when its code is
complete, and that of a fork before what comes after it in the code around.
-/

namespace ToastStunt.Code

variable {V : Type}

/-- The `Bytecodes` of program.h; `numbytes` are its five widths. -/
structure ByteVector where
  vector : List Nat
  size : Nat
  numbytes : FixupKind → RefSize
  maxStack : Nat

/-- A literal `none` is the one of type `TYPE_NONE`. -/
structure GState (V : Type) where
  literals : List (Option (Literal V))
  forkVectors : List ByteVector
  totalVarRefs : Nat

def initGstate : GState V := ⟨[], [], 0⟩

section

variable (same : Option (Literal V) → Option (Literal V) → Bool)
  (opcode : List (Cell V) → Nat → Nat)

def internLiteral (v : Option (Literal V)) (gstate : GState V) : Nat × GState V :=
  let i := gstate.literals.findIdx (same v)
  (i, if i = gstate.literals.length then { gstate with literals := gstate.literals ++ [v] } else gstate)

def addFork (b : ByteVector) (gstate : GState V) : Nat × GState V :=
  (gstate.forkVectors.length, { gstate with forkVectors := gstate.forkVectors ++ [b] })

/-- `values` are the operands of the cells, and `opcode` gives the byte of an opcode at a place,
which may be that of `OP_PUSH_CLEAR` for a push. -/
def tablesOf (cells : List (Cell V)) (values : List Nat) (gstate : GState V) : Tables V where
  numLiterals := gstate.literals.length
  numForkVectors := gstate.forkVectors.length
  totalVarRefs := gstate.totalVarRefs
  encode place cell := match cell.kind with
    | none => opcode cells place
    | some _ => values.getD place 0

/-- `bc.size` is unsigned. -/
def layOut (code : Bytecodes V) (values : List Nat) (gstate : GState V) : ByteVector :=
  let tables := tablesOf opcode code.vector values gstate
  ⟨tables.vector code, tables.size code % 2 ^ 32, tables.numbytes code, code.maxStack⟩

mutual

def resolve : List (Cell V) → GState V → List Nat × GState V
  | [], gstate => ([], gstate)
  | cell :: rest, gstate =>
      let (value, gstate) := resolveCell cell gstate
      let (values, gstate) := resolve rest gstate
      (value :: values, gstate)

def resolveCell : Cell V → GState V → Nat × GState V
  | .op _, gstate | .eop _, gstate => (0, gstate)
  | .byte n, gstate => (n, gstate)
  | .literal v, gstate => internLiteral same (some v) gstate
  | .noneLiteral, gstate => internLiteral same none gstate
  | .varRef slot, gstate => (slot, { gstate with totalVarRefs := gstate.totalVarRefs + 1 })
  | .label value, gstate => (value, gstate)
  | .stack index, gstate => (index, gstate)
  | .fork vector maxStack, gstate =>
      let (values, gstate) := resolve vector gstate
      addFork (layOut opcode ⟨vector, maxStack⟩ values gstate) gstate

end

def assemble (code : Bytecodes V) (gstate : GState V) : ByteVector × GState V :=
  let (values, gstate) := resolve same opcode code.vector gstate
  (layOut opcode code values gstate, gstate)

theorem resolveCell_fork (code : Bytecodes V) (gstate : GState V) :
    resolveCell same opcode (.fork code.vector code.maxStack) gstate =
      addFork (assemble same opcode code gstate).1 (assemble same opcode code gstate).2 := by
  rw [resolveCell]
  rfl

end

section Resolved

variable {same : Option (Literal V) → Option (Literal V) → Bool}
  {opcode : List (Cell V) → Nat → Nat}

theorem internLiteral_lt (v : Option (Literal V)) (gstate : GState V) :
    (internLiteral same v gstate).1 < (internLiteral same v gstate).2.literals.length := by
  have bound : gstate.literals.findIdx (same v) ≤ gstate.literals.length := List.findIdx_le_length
  simp only [internLiteral]
  split
  · rw [List.length_append, List.length_singleton]
    omega
  · omega

structure GState.Within (gstate later : GState V) : Prop where
  literals : gstate.literals.length ≤ later.literals.length
  forkVectors : gstate.forkVectors.length ≤ later.forkVectors.length

theorem GState.Within.trans {gstate later latest : GState V} (first : gstate.Within later)
    (second : later.Within latest) : gstate.Within latest :=
  ⟨first.literals.trans second.literals, first.forkVectors.trans second.forkVectors⟩

theorem GState.within_refl (gstate : GState V) : gstate.Within gstate := ⟨le_rfl, le_rfl⟩

theorem internLiteral_within (v : Option (Literal V)) (gstate : GState V) :
    gstate.Within (internLiteral same v gstate).2 := by
  simp only [internLiteral]
  split
  · exact ⟨by simp, le_rfl⟩
  · exact gstate.within_refl

mutual

theorem resolve_within : ∀ (cells : List (Cell V)) (gstate : GState V),
    gstate.Within (resolve same opcode cells gstate).2
  | [], gstate => gstate.within_refl
  | cell :: rest, gstate => (resolveCell_within cell gstate).trans (resolve_within rest _)

theorem resolveCell_within : ∀ (cell : Cell V) (gstate : GState V),
    gstate.Within (resolveCell same opcode cell gstate).2
  | .op _, gstate | .eop _, gstate | .byte _, gstate | .label _, gstate | .stack _, gstate =>
      gstate.within_refl
  | .literal v, gstate => internLiteral_within (some v) gstate
  | .noneLiteral, gstate => internLiteral_within none gstate
  | .varRef _, _ => ⟨le_rfl, le_rfl⟩
  | .fork vector _, gstate => by
      rw [resolveCell]
      exact (resolve_within vector gstate).trans ⟨le_rfl, by simp [addFork]⟩

end

mutual

theorem resolve_total : ∀ (cells : List (Cell V)) (gstate : GState V),
    (resolve same opcode cells gstate).2.totalVarRefs = gstate.totalVarRefs + refs (operandsIn cells)
  | [], gstate => rfl
  | cell :: rest, gstate => by
      rw [resolve, operandsIn, refs_append, ← Nat.add_assoc, ← resolveCell_total cell gstate]
      exact resolve_total rest _

theorem resolveCell_total : ∀ (cell : Cell V) (gstate : GState V),
    (resolveCell same opcode cell gstate).2.totalVarRefs = gstate.totalVarRefs + refs cell.operands
  | .op _, gstate | .eop _, gstate | .byte _, gstate | .label _, gstate | .stack _, gstate => rfl
  | .literal v, gstate => by
      simp only [resolveCell, internLiteral, Cell.operands, refs]
      split <;> rfl
  | .noneLiteral, gstate => by
      simp only [resolveCell, internLiteral, Cell.operands, refs]
      split <;> rfl
  | .varRef _, _ => rfl
  | .fork vector _, gstate => by
      rw [resolveCell, Cell.operands]
      exact resolve_total vector gstate

end

/-- The operand of a cell is resolved with the tables of that moment, which only grow after it. -/
theorem resolve_cell {cells : List (Cell V)} {gstate : GState V} {place : Nat} {cell : Cell V}
    (known : cells[place]? = some cell) : ∃ before : GState V,
      (resolve same opcode cells gstate).1[place]? = some (resolveCell same opcode cell before).1 ∧
      (resolveCell same opcode cell before).2.Within (resolve same opcode cells gstate).2 := by
  induction cells generalizing gstate place with
  | nil => cases known
  | cons first rest ih =>
      cases place with
      | zero =>
          obtain rfl := Option.some.inj known
          exact ⟨gstate, rfl, resolve_within rest _⟩
      | succ place => exact ih known

end Resolved

end ToastStunt.Code
