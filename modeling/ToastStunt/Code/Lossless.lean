import Mathlib.Order.Nat
import ToastStunt.Code.Program

/-!
When the operands and the labels of a vector can be read back: what does not fit where it is written.
-/

namespace ToastStunt.Code

variable {V : Type}

/-- `values` are the operands that were emitted for the cells of the code. -/
structure Lossless (code : Bytecodes V) (values : List Nat) (b : ByteVector) : Prop where
  written : b.vector.length = b.size
  operands : ∀ place cell kind value, code.vector[place]? = some cell → cell.kind = some kind →
    kind ≠ .label → values[place]? = some value →
      (b.numbytes kind).read (b.vector.drop (offset b.numbytes code.vector place)) = some value
  bytes : ∀ place n, code.vector[place]? = some (.byte n) →
    b.vector[offset b.numbytes code.vector place]? = some n
  /-- The flags 0 and 1 of scattering targets are the first two places, and their offsets. -/
  labels : ∀ place target, code.vector[place]? = some (.label target) →
    (b.numbytes .label).read (b.vector.drop (offset b.numbytes code.vector place)) =
      some (offset b.numbytes code.vector target)

/-- What the operands of a tree, the height of its stack and the references before it must be. -/
structure Encodable (operands : List Operand) (maxStack refsBefore : Nat) : Prop where
  bytes : ∀ n, .byte n ∈ operands → n < 256
  stack : ∀ index, .stack index ∈ operands → maxStack ≤ 256 ∧ index < 256
  slots : ∀ slot, .varRef slot ∈ operands → slot < 2 ^ 32 ∧
    (slot = 256 ∨ slot = 256 * 256 →
      slot < refsBefore + refs operands ∨ ∃ other, slot < other ∧ .varRef other ∈ operands)

structure GState.Counted (gstate : GState V) : Prop where
  literals : gstate.literals.length ≤ 2 ^ 32
  forkVectors : gstate.forkVectors.length ≤ 2 ^ 32

section Cells

theorem mem_operandsIn {cells : List (Cell V)} {operand : Operand} :
    operand ∈ operandsIn cells ↔ ∃ cell ∈ cells, operand ∈ cell.operands := by
  induction cells with
  | nil => simp
  | cons cell rest ih => simp [ih]

theorem operand_mem {cells : List (Cell V)} {operand : Operand} {cell : Cell V}
    (own : ∀ c : Cell V, operand ∈ c.operands ↔ c = cell) :
    operand ∈ operandsIn cells ↔ ∃ place : Nat, cells[place]? = some cell := by
  rw [mem_operandsIn, ← List.mem_iff_getElem?]
  simp only [own]
  exact ⟨fun ⟨_, listed, same⟩ => same ▸ listed, fun listed => ⟨cell, listed, rfl⟩⟩

theorem byte_own (n : Nat) (c : Cell V) : .byte n ∈ c.operands ↔ c = .byte n := by
  cases c <;> simp [eq_comm]

theorem varRef_own (slot : Nat) (c : Cell V) : .varRef slot ∈ c.operands ↔ c = .varRef slot := by
  cases c <;> simp [eq_comm]

theorem stack_own (index : Nat) (c : Cell V) : .stack index ∈ c.operands ↔ c = .stack index := by
  cases c <;> simp [eq_comm]

theorem count_stack {cells : List (Cell V)} :
    count cells .stack = 0 ↔ ∀ index, .stack index ∉ operandsIn cells := by
  rw [count, List.countP_eq_zero]
  simp only [mem_operandsIn, stack_own]
  constructor
  · rintro none index ⟨cell, listed, rfl⟩
    exact none _ listed (by simp [Cell.kind])
  · intro none cell listed is
    cases cell <;> simp [Cell.kind] at is
    exact none _ ⟨_, listed, rfl⟩

theorem greatest_le_iff (tables : Tables V) (code : Bytecodes V) (limit : Nat) :
    tables.greatest code.vector .varRef ≤ limit ↔
      ∀ slot, .varRef slot ∈ operandsIn code.vector → slot ≤ limit := by
  constructor
  · intro bounded slot listed
    obtain ⟨place, known⟩ := (operand_mem (varRef_own slot)).mp listed
    exact (greatest_le tables known rfl).trans bounded
  · intro all
    refine List.max_le_of_forall_le _ limit fun value listed => ?_
    obtain ⟨⟨cell, place⟩, entry, rfl⟩ := List.mem_map.mp listed
    obtain ⟨listed, is⟩ := List.mem_filter.mp entry
    have known : code.vector[place]? = some cell := List.mk_mem_zipIdx_iff_getElem?.mp listed
    cases cell <;> simp [Cell.kind] at is
    exact all _ ((operand_mem (varRef_own _)).mpr ⟨place, known⟩)

end Cells

theorem refSize_fits {value entries most : Nat} (below : value < entries) (within : entries ≤ most)
    (unsigned : entries ≤ 2 ^ 32) : value < 256 ^ (refSize most).bytes :=
  (refSize_holds (below.le.trans within)).mpr
    ⟨below.trans_le unsigned, fun topped => Nat.ne_of_gt (below.trans_le within) topped.2⟩

section Assembled

variable {same : Option (Literal V) → Option (Literal V) → Bool}
  {opcode : List (Cell V) → Nat → Nat} {code : Bytecodes V} {gstate : GState V}

/-- What is written for an operand is what was emitted for it. -/
theorem value_resolved {place value : Nat} {cell : Cell V} {kind : FixupKind} (later : GState V)
    (known : code.vector[place]? = some cell) (is : cell.kind = some kind) (other : kind ≠ .label)
    (emitted : (resolve same opcode code.vector gstate).1[place]? = some value) :
    (tablesOf opcode code.vector (resolve same opcode code.vector gstate).1 later).value place cell =
      value := by
  obtain ⟨before, resolved, _⟩ := @resolve_cell _ same opcode _ gstate _ _ known
  have found : (resolve same opcode code.vector gstate).1.getD place 0 = value := by
    rw [List.getD_eq_getElem?_getD, emitted]
    rfl
  have own := Option.some.inj (resolved.symm.trans emitted)
  cases cell with
  | op | eop | byte => cases is
  | label => exact absurd (Option.some.inj is).symm other
  | literal | noneLiteral | fork => exact found
  | varRef | stack => exact own

theorem index_lt {place value : Nat} {cell : Cell V} {kind : FixupKind}
    (known : code.vector[place]? = some cell) (is : cell.kind = some kind)
    (emitted : (resolve same opcode code.vector gstate).1[place]? = some value) :
    (kind = .literal → value < (resolve same opcode code.vector gstate).2.literals.length) ∧
      (kind = .fork → value < (resolve same opcode code.vector gstate).2.forkVectors.length) := by
  obtain ⟨before, resolved, within⟩ := @resolve_cell _ same opcode _ gstate _ _ known
  obtain rfl := Option.some.inj (resolved.symm.trans emitted)
  cases cell with
  | op | eop | byte => cases is
  | varRef | label | stack =>
      obtain rfl := Option.some.inj is
      exact ⟨nofun, nofun⟩
  | literal v =>
      obtain rfl := Option.some.inj is
      exact ⟨fun _ => (internLiteral_lt (some v) before).trans_le within.literals, nofun⟩
  | noneLiteral =>
      obtain rfl := Option.some.inj is
      exact ⟨fun _ => (internLiteral_lt none before).trans_le within.literals, nofun⟩
  | fork vector maxStack =>
      obtain rfl := Option.some.inj is
      refine ⟨nofun, fun _ => Nat.lt_of_lt_of_le ?_ within.forkVectors⟩
      simp [resolveCell, addFork]

theorem resolved_varRef {place slot : Nat} (known : code.vector[place]? = some (.varRef slot)) :
    (resolve same opcode code.vector gstate).1[place]? = some slot := by
  obtain ⟨_, resolved, _⟩ := @resolve_cell _ same opcode _ gstate _ _ known
  exact resolved

theorem resolved_stack {place index : Nat} (known : code.vector[place]? = some (.stack index)) :
    (resolve same opcode code.vector gstate).1[place]? = some index := by
  obtain ⟨_, resolved, _⟩ := @resolve_cell _ same opcode _ gstate _ _ known
  exact resolved

variable (same opcode code gstate) in
abbrev tablesAfter : Tables V :=
  tablesOf opcode code.vector (resolve same opcode code.vector gstate).1
    (resolve same opcode code.vector gstate).2

theorem operand_read_iff {place value : Nat} {cell : Cell V} {kind : FixupKind}
    (known : code.vector[place]? = some cell) (is : cell.kind = some kind) (other : kind ≠ .label)
    (emitted : (resolve same opcode code.vector gstate).1[place]? = some value) :
    (((tablesAfter same opcode code gstate).numbytes code kind).read
      (((tablesAfter same opcode code gstate).vector code).drop
        (offset ((tablesAfter same opcode code gstate).numbytes code) code.vector place)) = some value ↔
      value < 256 ^ ((tablesAfter same opcode code gstate).numbytes code kind).bytes) := by
  rw [read_operand _ known is other, value_resolved _ known is other emitted, Option.some_inj,
    Nat.mod_eq_iff_lt (Nat.pow_pos (by decide)).ne']

theorem byte_read_iff (tables : Tables V) {place n : Nat} (known : code.vector[place]? = some (.byte n)) :
    (tables.vector code)[offset (tables.numbytes code) code.vector place]? = some n ↔ n < 256 := by
  obtain ⟨rest, here⟩ := vector_drop tables code known
  have first : (tables.vector code)[offset (tables.numbytes code) code.vector place]? = some (n % 256) := by
    have shifted := congrArg (·[0]?) here
    simpa only [List.getElem?_drop, Nat.add_zero, Tables.writeCell, Cell.kind, Tables.value,
      List.singleton_append, List.getElem?_cons_zero] using shifted
  rw [first, Option.some_inj, Nat.mod_eq_iff_lt (by decide)]

end Assembled

section Whole

variable {same : Option (Literal V) → Option (Literal V) → Bool}
  {opcode : List (Cell V) → Nat → Nat} {stmts : Stmts V} {code : Bytecodes V} {gstate : GState V}

theorem stmtToCode_eq (allowed : stmtsScoped [] stmts = true) (compiled : stmtToCode stmts = some code) :
    code.vector = vectorCode stmts ∧ code.maxStack = stmtsPeak 0 stmts := by
  obtain rfl := Option.some.inj ((Builds.finished (builds_stmts stmts) allowed).symm.trans compiled)
  exact ⟨rfl, rfl⟩

/-- The size is what is written, unless the indices into the stack are wide or the count wraps. -/
theorem written_iff (tables : Tables V) : (tables.vector code).length = tables.size code % 2 ^ 32 ↔
    (∀ index, .stack index ∈ operandsIn code.vector → code.maxStack ≤ 256) ∧
      (tables.vector code).length < 2 ^ 32 := by
  have length := vector_length tables code
  have wide := stack_wide code.maxStack (count code.vector .stack)
  have none := @count_stack _ code.vector
  have smaller := Nat.mod_le (tables.size code) (2 ^ 32)
  have wrapped := Nat.mod_lt (tables.size code) (y := 2 ^ 32) (by decide)
  constructor
  · intro whole
    have narrow := wide.mp (by omega)
    refine ⟨fun index listed => narrow.resolve_right fun zero => none.mp zero index listed, by omega⟩
  · rintro ⟨narrow, small⟩
    have zero : count code.vector .stack * ((refSize code.maxStack).bytes - 1) = 0 := by
      refine wide.mpr (Classical.or_iff_not_imp_left.mpr fun high => none.mpr fun index listed => ?_)
      exact high (narrow index listed)
    rw [Nat.mod_eq_of_lt (by omega)]
    omega

theorem topped_iff {tables : Tables V} {slot : Nat} (listed : .varRef slot ∈ operandsIn code.vector) :
    max (tables.greatest code.vector .varRef) tables.totalVarRefs ≠ slot ↔
      slot < tables.totalVarRefs ∨ ∃ other, slot < other ∧ .varRef other ∈ operandsIn code.vector := by
  have bounded := greatest_le_iff tables code slot
  have reached := (greatest_le_iff tables code _).mp le_rfl
  have own := reached slot listed
  constructor
  · intro differs
    by_cases counted : slot < tables.totalVarRefs
    · exact .inl counted
    · have high : ¬tables.greatest code.vector .varRef ≤ slot := by omega
      rw [bounded] at high
      simp only [Classical.not_forall, Nat.not_le] at high
      obtain ⟨other, inside, above⟩ := high
      exact .inr ⟨other, above, inside⟩
  · rintro (counted | ⟨other, above, inside⟩)
    · omega
    · have := reached other inside
      omega

theorem slot_fits_iff {tables : Tables V} {slot : Nat} (listed : .varRef slot ∈ operandsIn code.vector) :
    slot < 256 ^ (tables.numbytes code .varRef).bytes ↔ slot < 2 ^ 32 ∧
      (slot = 256 ∨ slot = 256 * 256 → slot < tables.totalVarRefs ∨
        ∃ other, slot < other ∧ .varRef other ∈ operandsIn code.vector) := by
  have own := (greatest_le_iff tables code _).mp le_rfl slot listed
  rw [← topped_iff listed]
  have below : slot ≤ max (tables.greatest code.vector .varRef) tables.totalVarRefs :=
    own.trans (Nat.le_max_left _ _)
  simp only [Tables.numbytes, Tables.numbytesVarName, refSize_holds below, not_and, ne_eq]

theorem tablesAfter_refs (compiled : code.vector = vectorCode stmts) :
    (tablesAfter same opcode code gstate).totalVarRefs =
      gstate.totalVarRefs + refs (stmtsOperands 0 [] stmts) := by
  rw [← vectorCode_operands, ← compiled]
  exact resolve_total code.vector gstate

theorem lossless_encodable (compiled : code.vector = vectorCode stmts)
    (lossless : Lossless code (resolve same opcode code.vector gstate).1
      (assemble same opcode code gstate).1) :
    Encodable (stmtsOperands 0 [] stmts) code.maxStack gstate.totalVarRefs ∧
      (assemble same opcode code gstate).1.vector.length < 2 ^ 32 := by
  obtain ⟨narrow, small⟩ := (written_iff (tablesAfter same opcode code gstate)).mp lossless.written
  have refs := @tablesAfter_refs _ same opcode _ _ gstate compiled
  rw [← vectorCode_operands, ← compiled] at refs ⊢
  refine ⟨⟨fun n listed => ?_, fun index listed => ?_, fun slot listed => ?_⟩, small⟩
  · obtain ⟨place, known⟩ := (operand_mem (byte_own n)).mp listed
    exact (byte_read_iff _ known).mp (lossless.bytes place n known)
  · obtain ⟨place, known⟩ := (operand_mem (stack_own index)).mp listed
    have short := narrow index listed
    have fits := (operand_read_iff known rfl (by decide) (resolved_stack known)).mp
      (lossless.operands place _ .stack index known rfl (by decide) (resolved_stack known))
    simp only [Tables.numbytes, refSize, if_pos short, RefSize.bytes] at fits
    exact ⟨short, fits⟩
  · obtain ⟨place, known⟩ := (operand_mem (varRef_own slot)).mp listed
    have fits := (operand_read_iff known rfl (by decide) (resolved_varRef known)).mp
      (lossless.operands place _ .varRef slot known rfl (by decide) (resolved_varRef known))
    rwa [slot_fits_iff listed, refs] at fits

theorem encodable_lossless (allowed : stmtsScoped [] stmts = true)
    (compiled : stmtToCode stmts = some code)
    (counted : (assemble same opcode code gstate).2.Counted)
    (encodable : Encodable (stmtsOperands 0 [] stmts) code.maxStack gstate.totalVarRefs)
    (small : (assemble same opcode code gstate).1.vector.length < 2 ^ 32) :
    Lossless code (resolve same opcode code.vector gstate).1 (assemble same opcode code gstate).1 := by
  have vector := (stmtToCode_eq allowed compiled).1
  have refs := @tablesAfter_refs _ same opcode _ _ gstate vector
  obtain ⟨bytes, stack, slots⟩ := encodable
  rw [← vectorCode_operands, ← vector] at refs bytes stack slots
  refine ⟨(written_iff _).mpr ⟨fun index listed => (stack index listed).1, small⟩, ?_, ?_, ?_⟩
  · intro place cell kind value known is other emitted
    refine (operand_read_iff known is other emitted).mpr ?_
    have inTable := index_lt known is emitted
    cases kind with
    | literal =>
        exact refSize_fits (inTable.1 rfl) (Nat.le_max_right _ _) counted.literals
    | fork => exact refSize_fits (inTable.2 rfl) (Nat.le_max_right _ _) counted.forkVectors
    | label => exact absurd rfl other
    | varRef =>
        cases cell with
        | varRef slot =>
            obtain rfl := Option.some.inj ((resolved_varRef known).symm.trans emitted)
            have listed := (operand_mem (varRef_own slot)).mpr ⟨place, known⟩
            rw [slot_fits_iff listed, refs]
            exact slots slot listed
        | _ => cases is
    | stack =>
        cases cell with
        | stack index =>
            obtain rfl := Option.some.inj ((resolved_stack known).symm.trans emitted)
            obtain ⟨short, fits⟩ := stack index ((operand_mem (stack_own index)).mpr ⟨place, known⟩)
            simp only [Tables.numbytes, refSize, if_pos short, RefSize.bytes]
            exact fits
        | _ => cases is
  · intro place n known
    exact (byte_read_iff _ known).mpr (bytes n ((operand_mem (byte_own n)).mpr ⟨place, known⟩))
  · intro place target known
    have narrow : code.maxStack ≤ 256 ∨ count (code.vector.take target) .stack = 0 := by
      refine Classical.or_iff_not_imp_left.mpr fun high => count_stack.mpr fun index listed => ?_
      obtain ⟨cell, inside, own⟩ := mem_operandsIn.mp listed
      exact high (stack index (mem_operandsIn.mpr ⟨cell, List.mem_of_mem_take inside, own⟩)).1
    have inside := (code_closed allowed compiled).1 target (List.mem_of_getElem? known)
    have length := vector_length (tablesAfter same opcode code gstate) code
    have below : ((tablesAfter same opcode code gstate).vector code).length < 2 ^ 32 := small
    exact (label_read_iff (tablesAfter same opcode code gstate) (by omega) known inside).mpr narrow

end Whole

def nestedSum : Nat → Expr Nat
  | 0 => .var (.int 1)
  | n + 1 => .binary .plus (.var (.int 1)) (nestedSum n)

theorem nestedSum_scoped (n : Nat) (dollarsOk : Bool) : exprScoped dollarsOk (nestedSum n) = true := by
  induction n with
  | zero => rfl
  | succ n ih => simp [nestedSum, ih]

theorem nestedSum_peak (n height : Nat) : exprPeak height (nestedSum n) = height + n + 1 := by
  induction n generalizing height with
  | zero => simp [nestedSum, exprPeak]
  | succ n ih =>
      rw [nestedSum, exprPeak, ih, exprPeak]
      omega

/-- A loop with a `break`, and after it a sum of 257 nested numbers. -/
def deepProgram : Stmts Nat :=
  .cons (.loop none (.var (.int 1)) (.cons (.break none) .nil)) (.cons (.return (nestedSum 256)) .nil)

end ToastStunt.Code
