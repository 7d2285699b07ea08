import Mathlib.Data.List.MinMax
import ToastStunt.Code.Targets

/-!
The bytes of a vector, the end of `stmt_to_code`: the operands get their widths, the labels move on
by what the operands before their places have grown, and `bc.size` is what is allocated for both.
-/

namespace ToastStunt.Code

variable {V : Type}

inductive RefSize
  | one | two | four
  deriving DecidableEq

def refSize (max : Nat) : RefSize :=
  if max ≤ 256 then .one else if max ≤ 256 * 256 then .two else .four

namespace RefSize

@[simp] def bytes : RefSize → Nat
  | one => 1
  | two => 2
  | four => 4

/-- The switch over `size` in the loop that fills `bc.vector`. -/
def write : RefSize → Nat → List Nat
  | one, value => [value % 256]
  | two, value => [value / 2 ^ 8 % 256, value % 256]
  | four, value => [value / 2 ^ 24 % 256, value / 2 ^ 16 % 256, value / 2 ^ 8 % 256, value % 256]

/-- `READ_BYTES`. -/
def read : RefSize → List Nat → Option Nat
  | one, a :: _ => some a
  | two, a :: b :: _ => some (a * 2 ^ 8 + b)
  | four, a :: b :: c :: d :: _ => some (a * 2 ^ 24 + b * 2 ^ 16 + c * 2 ^ 8 + d)
  | _, _ => none

theorem bytes_pos (size : RefSize) : 0 < size.bytes := by cases size <;> decide

@[simp] theorem write_length (size : RefSize) (value : Nat) : (size.write value).length = size.bytes := by
  cases size <;> rfl

theorem read_write (size : RefSize) (value : Nat) (rest : List Nat) :
    size.read (size.write value ++ rest) = some (value % 256 ^ size.bytes) := by
  cases size with
  | one => simp [write, read]
  | two => simp [write, read]; omega
  | four => simp [write, read]; omega

end RefSize

inductive FixupKind
  | literal | fork | varRef | label | stack
  deriving DecidableEq

def Cell.kind : Cell V → Option FixupKind
  | .op _ | .eop _ | .byte _ => none
  | .literal _ | .noneLiteral => some .literal
  | .fork _ _ => some .fork
  | .varRef _ => some .varRef
  | .label _ => some .label
  | .stack _ => some .stack

/-- What the rest of the program decides: the counts of its tables so far, and for each cell at its
place the byte of an opcode (where it is the last push of a variable, that of `OP_PUSH_CLEAR`) or the
index of a literal or of the vector of a fork in its table. -/
structure Tables (V : Type) where
  numLiterals : Nat
  numForkVectors : Nat
  totalVarRefs : Nat
  encode : Nat → Cell V → Nat

def Tables.value (tables : Tables V) (place : Nat) : Cell V → Nat
  | .byte n => n
  | .varRef slot => slot
  | .stack index => index
  | .label value => value
  | cell => tables.encode place cell

def Tables.greatest (tables : Tables V) (cells : List (Cell V)) (kind : FixupKind) : Nat :=
  ((cells.zipIdx.filter fun entry => entry.1.kind = some kind).map
    fun entry => tables.value entry.2 entry.1).foldr max 0

def count (cells : List (Cell V)) (kind : FixupKind) : Nat :=
  cells.countP fun cell => cell.kind = some kind

/-- `num_literals` and so on at a place; `add_stack_ref` does not add to `num_stacks`. -/
def num (cells : List (Cell V)) : FixupKind → Nat
  | .stack => 0
  | kind => count cells kind

def labelSize (size numLabels : Nat) : RefSize :=
  if size ≤ 256 then .one else if size + numLabels ≤ 256 * 256 then .two else .four

namespace Tables

variable (tables : Tables V) (code : Bytecodes V)

def numbytesLiteral : RefSize :=
  refSize (max (tables.greatest code.vector .literal) tables.numLiterals)

def numbytesFork : RefSize :=
  refSize (max (tables.greatest code.vector .fork) tables.numForkVectors)

def numbytesVarName : RefSize :=
  refSize (max (tables.greatest code.vector .varRef) tables.totalVarRefs)

def unlabelled : Nat :=
  code.vector.length + ((tables.numbytesLiteral code).bytes - 1) * num code.vector .literal +
    ((tables.numbytesFork code).bytes - 1) * num code.vector .fork +
    ((tables.numbytesVarName code).bytes - 1) * num code.vector .varRef

def numbytes : FixupKind → RefSize
  | .literal => tables.numbytesLiteral code
  | .fork => tables.numbytesFork code
  | .varRef => tables.numbytesVarName code
  | .label => labelSize (tables.unlabelled code) (num code.vector .label)
  | .stack => refSize code.maxStack

def size : Nat :=
  tables.unlabelled code + ((tables.numbytes code .label).bytes - 1) * num code.vector .label

end Tables

/-- The counts at the time a label is captured or defined are those of the cells before its place.
-/
def moved (numbytes : FixupKind → RefSize) (cells : List (Cell V)) (value : Nat) : Nat :=
  let before := cells.take value
  value + num before .literal * ((numbytes .literal).bytes - 1) +
    num before .fork * ((numbytes .fork).bytes - 1) +
    num before .varRef * ((numbytes .varRef).bytes - 1) +
    num before .label * ((numbytes .label).bytes - 1) +
    num before .stack * ((numbytes .stack).bytes - 1)

def Tables.writeCell (tables : Tables V) (numbytes : FixupKind → RefSize) (cells : List (Cell V))
    (cell : Cell V) (place : Nat) : List Nat :=
  match cell.kind with
  | none => [tables.value place cell % 256]
  | some .label => (numbytes .label).write (moved numbytes cells (tables.value place cell))
  | some kind => (numbytes kind).write (tables.value place cell)

def Tables.vector (tables : Tables V) (code : Bytecodes V) : List Nat :=
  code.vector.zipIdx.flatMap fun entry =>
    tables.writeCell (tables.numbytes code) code.vector entry.1 entry.2

section Widths

variable (numbytes : FixupKind → RefSize)

def width (cell : Cell V) : Nat := cell.kind.elim 1 fun kind => (numbytes kind).bytes

theorem count_cons (cell : Cell V) (rest : List (Cell V)) (kind : FixupKind) :
    count (cell :: rest) kind = count rest kind + if cell.kind = some kind then 1 else 0 := by
  simp [count, List.countP_cons]

def offset (cells : List (Cell V)) (place : Nat) : Nat := ((cells.take place).map (width numbytes)).sum

theorem widths_sum (cells : List (Cell V)) :
    (cells.map (width numbytes)).sum = moved numbytes cells cells.length +
      count cells .stack * ((numbytes .stack).bytes - 1) := by
  have literal := (numbytes .literal).bytes_pos
  have fork := (numbytes .fork).bytes_pos
  have varRef := (numbytes .varRef).bytes_pos
  have label := (numbytes .label).bytes_pos
  have stack := (numbytes .stack).bytes_pos
  simp only [moved, List.take_length]
  induction cells with
  | nil => simp [num, count]
  | cons cell rest ih =>
      rw [List.map_cons, List.sum_cons, ih]
      simp only [num, count_cons, List.length_cons, width]
      cases cell <;>
        simp only [Cell.kind, Option.elim, Option.some.injEq, reduceCtorEq, if_false, if_true, Nat.add_zero,
          Nat.add_mul, Nat.one_mul] <;> omega

theorem offset_eq (cells : List (Cell V)) {place : Nat} (known : place ≤ cells.length) :
    offset numbytes cells place = moved numbytes cells place +
      count (cells.take place) .stack * ((numbytes .stack).bytes - 1) := by
  have length : (cells.take place).length = place := by simpa using known
  rw [offset, widths_sum, length]
  simp only [moved, List.take_take, Nat.min_self]

theorem moved_mono (cells : List (Cell V)) {place later : Nat} (before : place < later) :
    moved numbytes cells place < moved numbytes cells later := by
  have counted (kind : FixupKind) : num (cells.take place) kind ≤ num (cells.take later) kind := by
    have prefixed := (List.take_prefix_take_left before.le : cells.take place <+: cells.take later)
    have fewer := prefixed.sublist.countP_le (p := fun cell => cell.kind = some kind)
    cases kind <;> first | exact fewer | exact le_rfl
  have grown (kind : FixupKind) := Nat.mul_le_mul_right ((numbytes kind).bytes - 1) (counted kind)
  have literal := grown .literal
  have fork := grown .fork
  have varRef := grown .varRef
  have label := grown .label
  have stack := grown .stack
  simp only [moved]
  omega

end Widths

section Written

variable (tables : Tables V) (code : Bytecodes V)

theorem size_eq : tables.size code = moved (tables.numbytes code) code.vector code.vector.length := by
  simp only [moved, List.take_length]
  simp only [Tables.size, Tables.unlabelled, Tables.numbytes, num, Nat.mul_comm]
  omega

/-- A size that an unsigned number holds gives labels a width that holds every place. -/
theorem size_fits (small : tables.size code ≤ 2 ^ 32) :
    tables.size code ≤ 256 ^ (tables.numbytes code .label).bytes := by
  revert small
  simp only [Tables.size, Tables.numbytes, labelSize]
  split
  · intro small
    simpa
  · split <;> intro small
    · simp only [RefSize.bytes]
      omega
    · exact small

theorem writeCell_length (numbytes : FixupKind → RefSize) (cells : List (Cell V)) (cell : Cell V)
    (place : Nat) : (tables.writeCell numbytes cells cell place).length = width numbytes cell := by
  cases cell <;> simp [Tables.writeCell, width, Cell.kind]

theorem widths_indexed (numbytes : FixupKind → RefSize) (cells : List (Cell V)) (place : Nat) :
    ((cells.zipIdx.take place).map fun entry => width numbytes entry.1) =
      (cells.take place).map (width numbytes) := by
  have firsts : cells.zipIdx.map Prod.fst = cells := List.zipIdx_map_fst 0 cells
  conv_rhs => rw [← firsts, ← List.map_take, List.map_map]
  rfl

theorem flatMap_length (code : Bytecodes V) (place : Nat) :
    ((code.vector.zipIdx.take place).flatMap fun entry =>
      tables.writeCell (tables.numbytes code) code.vector entry.1 entry.2).length =
        offset (tables.numbytes code) code.vector place := by
  rw [List.length_flatMap, offset, ← widths_indexed]
  simp only [writeCell_length]

theorem vector_length : (tables.vector code).length = tables.size code +
    count code.vector .stack * ((refSize code.maxStack).bytes - 1) := by
  have whole := flatMap_length tables code code.vector.length
  rw [List.take_of_length_le (by simp), offset_eq _ _ le_rfl, List.take_length] at whole
  rw [size_eq]
  exact whole

theorem vector_drop {place : Nat} {cell : Cell V} (known : code.vector[place]? = some cell) :
    ∃ rest, (tables.vector code).drop (offset (tables.numbytes code) code.vector place) =
      tables.writeCell (tables.numbytes code) code.vector cell place ++ rest := by
  have entry : code.vector.zipIdx[place]? = some (cell, place) := by simp [known]
  rw [Tables.vector, ← List.take_append_drop place code.vector.zipIdx, List.flatMap_append,
    List.drop_left' (flatMap_length tables code place), List.drop_eq_getElem?_toList_append, entry]
  exact ⟨_, List.flatMap_cons⟩

end Written

/-! A pseudo label keeps its value 1, since what comes first in a vector is an opcode. -/

section Openings

def Leads (code : List (Cell V)) : Prop := ∃ op rest, code = .op op :: rest

theorem Leads.append {code : List (Cell V)} (leads : Leads code) (rest : List (Cell V)) :
    Leads (code ++ rest) := by
  obtain ⟨op, tail, rfl⟩ := leads
  exact ⟨op, tail ++ rest, rfl⟩

theorem push_leads (slot : Nat) : Leads (pushCode slot : List (Cell V)) := by
  unfold pushCode
  split <;> exact ⟨_, _, rfl⟩

theorem codes_leads {codes : ArgList V} {argList : List (Cell V)} (leads : Leads argList) :
    Leads (codesCode codes argList) := by
  cases codes with
  | nil => exact ⟨_, _, rfl⟩
  | cons kind expr next => exact leads

mutual

theorem expr_leads (expr : Expr V) (pos height : Nat) (saved : Option Nat) :
    Leads (exprCode pos height saved expr) := by
  cases expr with
  | var v =>
      rw [exprCode]
      unfold literalCode
      split
      · split <;> exact ⟨_, _, rfl⟩
      · exact ⟨_, _, rfl⟩
  | id id => simpa only [exprCode] using push_leads id
  | first | last | map map =>
      rw [exprCode]
      exact ⟨_, _, rfl⟩
  | and lhs rhs | or lhs rhs | binary kind lhs rhs | index lhs rhs =>
      simp only [exprCode, List.append_assoc]
      exact (expr_leads lhs _ _ _).append _
  | unary kind expr =>
      rw [exprCode]
      exact (expr_leads expr _ _ _).append _
  | range base start stop =>
      simp only [exprCode, List.append_assoc]
      exact (expr_leads base _ _ _).append _
  | list list =>
      rw [exprCode_list]
      exact argList_leads list _ _ _
  | call func args =>
      rw [exprCode]
      exact (argList_leads args _ _ _).append _
  | verb obj verb args =>
      simp only [exprCode, List.append_assoc]
      exact (expr_leads obj _ _ _).append _
  | cond condition consequent alternate =>
      simp only [exprCode, List.append_assoc]
      exact (expr_leads condition _ _ _).append _
  | asgn lhs rhs =>
      simp only [exprCode, List.append_assoc]
      rcases place_leads lhs pos height saved false with none | leads
      · rw [none]
        exact (expr_leads rhs _ _ _).append _
      · exact leads.append _
  | asgnRange base start stop rhs =>
      simp only [exprCode, List.append_assoc]
      rcases place_leads base pos height saved true with none | leads
      · rw [none]
        exact (expr_leads start _ _ _).append _
      · exact leads.append _
  | scatter targets rhs =>
      simp only [exprCode, List.append_assoc]
      exact (expr_leads rhs _ _ _).append _
  | «catch» body codes | catchElse body codes except =>
      simp only [exprCode, List.append_assoc]
      exact (codes_leads (argList_leads codes _ _ _)).append _

theorem place_leads (place : Place V) (pos height : Nat) (saved : Option Nat) (indexedAbove : Bool) :
    placeCode pos height saved indexedAbove place = [] ∨
      Leads (placeCode pos height saved indexedAbove place) := by
  cases place with
  | id id =>
      cases indexedAbove with
      | false => exact .inl (placeCode_id _ _ _ id)
      | true => exact .inr (by simpa only [placeCode, if_true] using push_leads id)
  | prop obj name =>
      simp only [placeCode, List.append_assoc]
      exact .inr ((expr_leads obj _ _ _).append _)
  | index base index =>
      simp only [placeCode, List.append_assoc]
      rcases place_leads base pos height saved true with none | leads
      · rw [none]
        exact .inr ((expr_leads index _ _ _).append _)
      · exact .inr (leads.append _)

theorem argList_leads (args : ArgList V) (pos height : Nat) (saved : Option Nat) :
    Leads (argListCode pos height saved args) := by
  cases args with
  | nil =>
      rw [argListCode_nil]
      exact ⟨_, _, rfl⟩
  | cons kind expr next =>
      simp only [argListCode, List.append_assoc]
      exact (expr_leads expr _ _ _).append _

end

def Opens (code : List (Raw V)) : Prop := code = [] ∨ ∃ op rest, code = .cell (.op op) :: rest

theorem Leads.opens {code : List (Cell V)} (leads : Leads code) (rest : List (Raw V)) :
    Opens (raw code ++ rest) := by
  obtain ⟨op, tail, rfl⟩ := leads
  exact .inr ⟨op, raw tail ++ rest, rfl⟩

theorem Leads.opens_raw {code : List (Cell V)} (leads : Leads code) : Opens (raw code) := by
  simpa using leads.opens []

theorem Opens.append {code rest : List (Raw V)} (opens : Opens code) (later : Opens rest) :
    Opens (code ++ rest) := by
  rcases opens with rfl | ⟨op, tail, rfl⟩
  · exact later
  · exact .inr ⟨op, tail ++ rest, rfl⟩

theorem Opens.lift {code : List (Raw V)} (opens : Opens code) : Opens (code.map Raw.lift) := by
  rcases opens with rfl | ⟨op, tail, rfl⟩
  · exact .inl rfl
  · exact .inr ⟨op, tail.map Raw.lift, rfl⟩

theorem Opens.closed {code : List (Raw V)} (opens : Opens code) (pos : Nat) : Opens (closed pos code) := by
  rcases opens with rfl | ⟨op, tail, rfl⟩
  · exact .inl rfl
  · exact .inr ⟨op, _, rfl⟩

theorem handlers_leads (excepts : ExceptArms V) (pos top rescue height : Nat) (loops : List LoopInfo) :
    handlersCode pos top rescue height loops excepts = [] ∨
      Leads (handlersCode pos top rescue height loops excepts) := by
  cases excepts with
  | nil => exact .inl (handlersCode_nil _ _ _ _ _)
  | cons id codes stmt next =>
      rw [handlersCode_cons]
      simp only [List.append_assoc]
      exact .inr ((codes_leads (argList_leads codes _ _ _)).append _)

mutual

theorem stmt_opens (stmt : Stmt V) (pos height : Nat) (loops : List LoopInfo) :
    Opens (stmtRaw pos height loops stmt) := by
  cases stmt with
  | cond arms otherwise =>
      simp only [stmtRaw]
      exact ((arms_opens arms _ _ _ _).append (stmts_opens otherwise _ _ _).lift).closed pos
  | list id index expr body =>
      simp only [stmtRaw, List.append_assoc]
      exact (((expr_leads expr _ _ _).append _).opens _).closed pos
  | range id start stop body =>
      simp only [stmtRaw, List.append_assoc]
      exact (((expr_leads start _ _ _).append _).opens _).closed pos
  | loop id condition body =>
      simp only [stmtRaw, List.append_assoc]
      exact (((expr_leads condition _ _ _).append _).opens _).closed pos
  | fork id time body =>
      simp only [stmtRaw]
      exact ((expr_leads time _ _ _).append _).opens_raw
  | expr expr | «return» expr =>
      simp only [stmtRaw]
      exact ((expr_leads expr _ _ _).append _).opens_raw
  | returnZero => exact .inr ⟨_, _, stmtRaw_returnZero _ _ _⟩
  | tryExcept body excepts =>
      simp only [stmtRaw, List.append_assoc]
      refine (Leads.opens ?_ _).closed pos
      rcases handlers_leads excepts pos height _ height loops with none | leads
      · rw [none]
        exact ⟨_, _, rfl⟩
      · exact leads.append _
  | tryFinally body handler =>
      simp only [stmtRaw, List.append_assoc]
      exact Leads.opens ⟨_, _, rfl⟩ _
  | «break» exit =>
      simp only [stmtRaw]
      refine Leads.opens ?_ _
      cases exit <;> exact ⟨_, _, rfl⟩
  | «continue» exit =>
      simp only [stmtRaw]
      refine Leads.opens_raw ?_
      cases exit <;> exact ⟨_, _, rfl⟩

theorem stmts_opens (stmts : Stmts V) (pos height : Nat) (loops : List LoopInfo) :
    Opens (stmtsRaw pos height loops stmts) := by
  cases stmts with
  | nil => exact .inl (stmtsRaw_nil _ _ _)
  | cons stmt next =>
      simp only [stmtsRaw]
      exact (stmt_opens stmt _ _ _).append (stmts_opens next _ _ _)

theorem arms_opens (arms : CondArms V) (pos height : Nat) (loops : List LoopInfo) (ifOp : Opcode) :
    Opens (armsRaw pos height loops ifOp arms) := by
  cases arms with
  | nil => exact .inl (armsRaw_nil _ _ _ _)
  | cons condition stmt next =>
      simp only [armsRaw, List.append_assoc]
      exact ((expr_leads condition _ _ _).append _).opens _

end

theorem vectorCode_leads (stmts : Stmts V) : Leads (vectorCode stmts) := by
  rw [vectorCode]
  rcases stmts_opens stmts 0 0 [] with none | ⟨op, tail, first⟩
  · rw [none]
    exact ⟨_, _, rfl⟩
  · rw [first]
    exact ⟨_, _, rfl⟩

end Openings

theorem moved_flag (numbytes : FixupKind → RefSize) {cells : List (Cell V)} (leads : Leads cells)
    {value : Nat} (small : value ≤ 1) : moved numbytes cells value = value := by
  obtain ⟨op, rest, rfl⟩ := leads
  obtain rfl | rfl : value = 0 ∨ value = 1 := by omega
  · simp [moved, num, count]
  · simp [moved, num, count, Cell.kind]

section Results

variable {stmts : Stmts V} {code : Bytecodes V} (tables : Tables V)

theorem read_operand {place : Nat} {cell : Cell V} {kind : FixupKind}
    (known : code.vector[place]? = some cell) (is : cell.kind = some kind) (other : kind ≠ .label) :
    (tables.numbytes code kind).read
        ((tables.vector code).drop (offset (tables.numbytes code) code.vector place)) =
      some (tables.value place cell % 256 ^ (tables.numbytes code kind).bytes) := by
  obtain ⟨rest, written⟩ := vector_drop tables code known
  rw [written, Tables.writeCell, is]
  cases kind with
  | label => exact absurd rfl other
  | literal | fork | varRef | stack => exact RefSize.read_write _ _ _

theorem read_label (small : tables.size code ≤ 2 ^ 32) {place value : Nat}
    (known : code.vector[place]? = some (.label value)) (inside : value < code.vector.length) :
    (tables.numbytes code .label).read
        ((tables.vector code).drop (offset (tables.numbytes code) code.vector place)) =
      some (moved (tables.numbytes code) code.vector value) := by
  obtain ⟨rest, written⟩ := vector_drop tables code known
  have fits : moved (tables.numbytes code) code.vector value < 256 ^ (tables.numbytes code .label).bytes :=
    calc moved (tables.numbytes code) code.vector value
      _ < tables.size code := (moved_mono _ _ inside).trans_eq (size_eq tables code).symm
      _ ≤ _ := size_fits tables code small
  rw [written]
  exact (RefSize.read_write _ _ _).trans (congrArg some (Nat.mod_eq_of_lt fits))

theorem stack_wide (maxStack n : Nat) :
    n * ((refSize maxStack).bytes - 1) = 0 ↔ maxStack ≤ 256 ∨ n = 0 := by
  unfold refSize
  split
  · simp_all
  · split <;> simp_all

theorem label_read_iff (small : tables.size code ≤ 2 ^ 32) {place target : Nat}
    (known : code.vector[place]? = some (.label target)) (inside : target < code.vector.length) :
    (tables.numbytes code .label).read
        ((tables.vector code).drop (offset (tables.numbytes code) code.vector place)) =
      some (offset (tables.numbytes code) code.vector target) ↔
        code.maxStack ≤ 256 ∨ count (code.vector.take target) .stack = 0 := by
  rw [read_label tables small known inside, offset_eq _ _ inside.le, Option.some_inj, eq_comm,
    Nat.add_eq_left]
  exact stack_wide _ _

theorem greatest_le {place : Nat} {cell : Cell V} {kind : FixupKind}
    (known : code.vector[place]? = some cell) (is : cell.kind = some kind) :
    tables.value place cell ≤ tables.greatest code.vector kind := by
  have entry : (cell, place) ∈ code.vector.zipIdx.filter fun entry => entry.1.kind = some kind :=
    List.mem_filter.mpr ⟨List.mem_of_getElem? (i := place) (by simp [known]), by simpa using is⟩
  exact List.le_max_of_le' 0 (List.mem_map_of_mem entry) le_rfl

/-- A value up to the maximum fits the width, but for a maximum at its bound. -/
theorem refSize_holds {value most : Nat} (below : value ≤ most) : value < 256 ^ (refSize most).bytes ↔
    value < 2 ^ 32 ∧ ¬((value = 256 ∨ value = 256 * 256) ∧ most = value) := by
  unfold refSize
  split
  · simp only [RefSize.bytes]
    omega
  · split <;> simp only [RefSize.bytes] <;> omega

theorem variables_written (place slot : Nat) (known : code.vector[place]? = some (.varRef slot))
    (small : slot < 2 ^ 32) :
    (tables.numbytes code .varRef).read
        ((tables.vector code).drop (offset (tables.numbytes code) code.vector place)) = some slot ↔
      ¬ ((slot = 256 ∨ slot = 256 * 256) ∧
        max (tables.greatest code.vector .varRef) tables.totalVarRefs = slot) := by
  have bounded : slot ≤ tables.greatest code.vector .varRef := greatest_le tables known rfl
  have below : slot ≤ max (tables.greatest code.vector .varRef) tables.totalVarRefs :=
    bounded.trans (Nat.le_max_left _ _)
  rw [read_operand tables known rfl (by decide), Option.some_inj]
  simp only [Tables.numbytes, Tables.numbytesVarName, Tables.value]
  rw [Nat.mod_eq_iff_lt (Nat.pow_pos (by decide)).ne', refSize_holds below, and_iff_right small]

theorem variables_written_last : ∃ (tables : Tables Nat) (code : Bytecodes Nat),
    code.vector[1]? = some (.varRef 256) ∧ ¬ (tables.numbytes code .varRef).read
      ((tables.vector code).drop (offset (tables.numbytes code) code.vector 1)) = some 256 := by
  refine ⟨⟨0, 0, 1, fun _ _ => 0⟩, ⟨[.op .gPush, .varRef 256, .op .return, .op .done], 1⟩, rfl, ?_⟩
  rw [variables_written _ 1 256 rfl (by decide)]
  decide

end Results

end ToastStunt.Code
