import ToastStunt.Tasks.Background
import ToastStunt.Tasks.TaskQueue

/-!
What is in the waiting list after the task queues have been written and read again.
-/

namespace ToastStunt.TaskQueues

open Json Dbio

variable {F V M : Type}

theorem intOf_intNum (n : Int) : intOf (intNum n) = Machine.int32 n :=
  Int.bmod_bmod

theorem idOf_intNum (id : BitVec 32) : idOf (intNum id.toInt) = id := by
  have low := BitVec.le_toInt id
  have high := BitVec.toInt_lt (x := id)
  show BitVec.ofInt 32 (Machine.int32 id.toInt) = id
  rw [Machine.int32_eq (by omega) (by omega), BitVec.ofInt_toInt]

theorem int32_bounds (n : Int) : -2 ^ 31 ≤ Machine.int32 n ∧ Machine.int32 n < 2 ^ 31 := by
  have low := Int.le_bmod (x := n) (m := 2 ^ 32) (by decide)
  have high := Int.bmod_lt (x := n) (m := 2 ^ 32) (by decide)
  rw [Machine.int32]
  omega

theorem scanNumber_spaced (input : CString) : scanNumber (32 :: input) = scanNumber input := by
  simp [scanNumber, isSpace]

section Reading

variable {lineno : F → Int} {zero intrpt : V}

section

variable {α β : Type} {read : QueueReading F V M α} {next : α → QueueReading F V M β}
  {file left : List (Piece F V M)}

theorem bind_some {result : α} (ran : read file = some (result, left)) :
    (read >>= next) file = next result left := by
  simp [bind, StateT.bind, ran]

theorem bind_none (ran : read file = none) : (read >>= next) file = none := by
  simp [bind, StateT.bind, ran]

end

theorem readCount_written {count : Nat} (few : count < 2 ^ 31) {text : CString}
    (blank : text.head? = some 32)
    (plainly : dbioScanf (plain text) text = ([], [])) (printed : dbioPrintf (plain text) [] = text)
    (file : List (Piece F V M)) :
    readCount text (writeCount count text :: file) = some (count, file) := by
  have number := @scanNumber_intLiteral (intNum count) text (by simp [blank, Decimal.isDigit])
  have scanned : scanf (F := F) (V := V) (M := M) (countFormat text)
      (writeCount count text :: file) = some ([intNum count], file) := by
    simp [scanf, onText, writeCount, countFormat, dbioPrintf, printed, dbioScanf, number, plainly]
  have back : Machine.int32 (intNum count).val = count := by
    show intOf (intNum count) = count
    rw [intOf_intNum, Machine.int32_eq (by omega) (by omega)]
  rw [readCount, bind_some scanned]
  simp only [back, Int.toNat_natCast]
  rfl

theorem scan_spaced (num : Num) (format : List Directive) {tail : CString}
    (ends : ∀ first ∈ tail.head?, Decimal.isDigit first = false) :
    dbioScanf (.number :: format) (32 :: (intLiteral num ++ tail)) =
      (num :: (dbioScanf format tail).1, (dbioScanf format tail).2) := by
  rw [dbioScanf, scanNumber_spaced, scanNumber_intLiteral num ends]

theorem scan_literal (num : Num) (format : List Directive) {tail : CString}
    (ends : ∀ first ∈ tail.head?, Decimal.isDigit first = false) :
    dbioScanf (.number :: format) (intLiteral num ++ tail) =
      (num :: (dbioScanf format tail).1, (dbioScanf format tail).2) := by
  rw [dbioScanf, scanNumber_intLiteral num ends]

def BgTask.reloaded : BgTask F V M → BgTask F V M
  | .forked id start payload => .forked id ⟨Machine.int32 start.round, 0⟩ payload
  | .suspended start value vm => .suspended ⟨Machine.int32 start.round, 0⟩ value vm

theorem scanned_text {format : List Directive} {text left : CString} {nums : List Num}
    (scanned : dbioScanf format text = (nums, left)) (more : left ≠ [])
    (file : List (Piece F V M)) :
    scanf format (.text text :: file) = some (nums, .text left :: file) := by
  simp [scanf, onText, scanned, more]

theorem zero_literal : intLiteral (intNum 0) = [48] := by decide +kernel

theorem readForkedTask_written (id : BitVec 32) (start : Timeval) (payload : F)
    (file : List (Piece F V M)) :
    readForkedTask (writeForkedTask lineno id start payload ++ file) =
      some ((BgTask.forked id start payload).reloaded, file) := by
  let numbers := [intNum 0, intNum (lineno payload), intNum start.round, intNum id.toInt]
  let header : CString := dbioPrintf forkedFormat
    [intNum (lineno payload), intNum start.round, intNum id.toInt]
  have text : header = intLiteral (intNum 0) ++ 32 :: (intLiteral (intNum (lineno payload)) ++
      32 :: (intLiteral (intNum start.round) ++
        32 :: (intLiteral (intNum id.toInt) ++ [newline]))) := by
    rw [zero_literal]
    rfl
  have scanned : dbioScanf (List.replicate 4 .number) header = (numbers, [newline]) := by
    rw [text]
    simp only [List.replicate]
    rw [scan_literal _ _ (by simp [Decimal.isDigit]), scan_spaced _ _ (by simp [Decimal.isDigit]),
      scan_spaced _ _ (by simp [Decimal.isDigit]),
      scan_spaced _ _ (by simp [newline, Decimal.isDigit])]
    rfl
  have ended : scanChar (F := F) (V := V) (M := M) (.text [newline] :: .forked payload :: file) =
      some (10, .forked payload :: file) := rfl
  show readForkedTask (.text header :: .forked payload :: file) = _
  rw [readForkedTask, bind_some (scanned_text scanned (by simp) _), bind_some ended]
  simp only [numbers, idOf_intNum, intOf_intNum]
  rfl

theorem readSuspendedTask_written (start : Timeval) (value : V) (vm : Vm M)
    (file : List (Piece F V M)) :
    readSuspendedTask zero (writeSuspendedTask start value vm ++ file) =
      some ((BgTask.suspended start value vm).reloaded, file) := by
  let header : CString :=
    dbioPrintf suspendedFormat [intNum start.round, intNum vm.taskId.toInt]
  have text : header = intLiteral (intNum start.round) ++
      32 :: (intLiteral (intNum vm.taskId.toInt) ++ [32]) := rfl
  have scanned : dbioScanf (List.replicate 2 .number) header =
      ([intNum start.round, intNum vm.taskId.toInt], [32]) := by
    rw [text]
    simp only [List.replicate]
    rw [scan_literal _ _ (by simp [Decimal.isDigit]), scan_spaced _ _ (by simp [Decimal.isDigit])]
    rfl
  have ended : scanChar (F := F) (.text [32] :: .value value :: .vm vm.stack :: file) =
      some (32, .value value :: .vm vm.stack :: file) := rfl
  show readSuspendedTask zero (.text header :: .value value :: .vm vm.stack :: file) = _
  rw [readSuspendedTask, bind_some (scanned_text scanned (by simp) _), bind_some ended]
  simp only [idOf_intNum, intOf_intNum]
  rfl

def Readable (status : CString) : Prop :=
  status.dropWhile isSpace ≠ [] ∧ NewlineFree (status.dropWhile isSpace)

theorem scan_status (vm : Vm M) (status : CString) :
    dbioScanf [.number, .text 32]
        (intLiteral (intNum vm.taskId.toInt) ++ 32 :: status ++ [newline]) =
      ([intNum vm.taskId.toInt], (status ++ [newline]).dropWhile isSpace) := by
  rw [List.append_assoc, scan_literal _ _ (by simp [Decimal.isDigit])]
  simp [dbioScanf, isSpace]

theorem spaced_status (status : CString) : (status ++ [newline]).dropWhile isSpace =
    if status.dropWhile isSpace = [] then [] else status.dropWhile isSpace ++ [newline] := by
  rw [List.dropWhile_append]
  simp [newline, isSpace]

theorem readInterruptedTask_written (vm : Vm M) {status : CString} (readable : Readable status)
    (string : 0 ∉ status) (file : List (Piece F V M)) :
    readInterruptedTask intrpt (writeInterrupted vm status ++ file) =
      some (.suspended ⟨0, 0⟩ intrpt vm, file) := by
  have scanned := scan_status vm status
  rw [spaced_status, if_neg readable.1] at scanned
  have line : dbioReadString (status.dropWhile isSpace ++ [newline]) =
      some (status.dropWhile isSpace, []) :=
    readPieces_written [] [] readable.2 (fun member => string (List.dropWhile_subset _ member))
      (by simp only [List.length_append]; omega)
  have ended : onText (F := F) (V := V) (M := M) dbioReadString
      (.text (status.dropWhile isSpace ++ [newline]) :: .vm vm.stack :: file) =
        some (status.dropWhile isSpace, .vm vm.stack :: file) := by
    simp [onText, line]
  show readInterruptedTask intrpt (.text _ :: .vm vm.stack :: file) = _
  rw [readInterruptedTask, bind_some (scanned_text scanned (by simp) _)]
  dsimp only
  rw [bind_some ended, idOf_intNum]
  rfl

/-- The rest of the line, or the first line of the stack, is taken for what it is not. -/
theorem readInterruptedTask_unreadable (vm : Vm M) {status : CString}
    (unreadable : ¬Readable status) (string : 0 ∉ status) (file : List (Piece F V M)) :
    readInterruptedTask intrpt (writeInterrupted vm status ++ file) = none := by
  have scanned := scan_status vm status
  rw [spaced_status] at scanned
  show readInterruptedTask intrpt (.text _ :: .vm vm.stack :: file) = _
  by_cases blank : status.dropWhile isSpace = []
  · have read : scanf (F := F) (V := V) (M := M) [.number, .text 32]
        (.text (intLiteral (intNum vm.taskId.toInt) ++ 32 :: status ++ [newline]) ::
          .vm vm.stack :: file) = some ([intNum vm.taskId.toInt], .vm vm.stack :: file) := by
      simp only [scanf, onText, scanned, if_pos blank, Option.map_some, if_true]
    rw [readInterruptedTask, bind_some read]
    rfl
  · rw [if_neg blank] at scanned
    have broken : newline ∈ status.dropWhile isSpace := by
      by_contra free
      exact unreadable ⟨blank, free⟩
    obtain ⟨line, later, whole, free⟩ := List.eq_append_cons_of_mem broken
    have read : dbioReadString (status.dropWhile isSpace ++ [newline]) =
        some (line, later ++ [newline]) := by
      rw [whole, List.append_assoc, List.cons_append]
      refine readPieces_written [] _ free (fun member => string ?_)
        (by simp only [List.length_append]; omega)
      exact List.dropWhile_subset _ (whole ▸ List.mem_append_left _ member)
    have ended : onText (F := F) (V := V) (M := M) dbioReadString
        (.text (status.dropWhile isSpace ++ [newline]) :: .vm vm.stack :: file) =
          some (line, .text (later ++ [newline]) :: .vm vm.stack :: file) := by
      simp [onText, read]
    rw [readInterruptedTask, bind_some (scanned_text scanned (by simp) _)]
    dsimp only
    rw [bind_some ended]
    rfl

def enqueueAll (ts waiting : List (BgTask F V M)) : List (BgTask F V M) :=
  ts.foldl (fun waiting t => enqueueWaiting t waiting) waiting

theorem enqueueWaiting_perm (t : BgTask F V M) (waiting : List (BgTask F V M)) :
    (enqueueWaiting t waiting).Perm (t :: waiting) := by
  induction waiting with
  | nil => rfl
  | cons tt rest ih =>
      rw [enqueueWaiting]
      split
      · rfl
      · exact (ih.cons tt).trans (List.Perm.swap t tt rest)

theorem enqueueAll_perm (ts waiting : List (BgTask F V M)) :
    (enqueueAll ts waiting).Perm (ts ++ waiting) := by
  induction ts generalizing waiting with
  | nil => rfl
  | cons t ts ih =>
      have later := ih (enqueueWaiting t waiting)
      exact later.trans (((enqueueWaiting_perm t waiting).append_left ts).trans List.perm_middle)

section

variable {T : Type} {read : QueueReading F V M (BgTask F V M)} {write : T → List (Piece F V M)}
  {result : T → BgTask F V M}

theorem readTasks_written {ts : List T}
    (each : ∀ t ∈ ts, ∀ file, read (write t ++ file) = some (result t, file))
    (waiting : List (BgTask F V M)) (file : List (Piece F V M)) :
    readTasks read ts.length waiting (ts.flatMap write ++ file) =
      some (enqueueAll (ts.map result) waiting, file) := by
  induction ts generalizing waiting with
  | nil => rfl
  | cons t ts ih =>
      have first := each t List.mem_cons_self (ts.flatMap write ++ file)
      rw [List.length_cons, readTasks, List.flatMap_cons, List.append_assoc, bind_some first]
      exact ih (fun t member => each t (List.mem_cons_of_mem _ member)) _

theorem readTasks_stuck {before after : List T} {t : T}
    (each : ∀ t ∈ before, ∀ file, read (write t ++ file) = some (result t, file))
    (stuck : ∀ file, read (write t ++ file) = none)
    (waiting : List (BgTask F V M)) (file : List (Piece F V M)) :
    readTasks read (before ++ t :: after).length waiting
      ((before ++ t :: after).flatMap write ++ file) = none := by
  induction before generalizing waiting with
  | nil =>
      rw [List.nil_append, List.length_cons, readTasks, List.flatMap_cons, List.append_assoc]
      exact bind_none (stuck _)
  | cons first before ih =>
      have read := each first List.mem_cons_self ((before ++ t :: after).flatMap write ++ file)
      rw [List.cons_append, List.length_cons, readTasks, List.flatMap_cons, List.append_assoc,
        bind_some read]
      exact ih (fun t member => each t (List.mem_cons_of_mem _ member)) _

end

theorem bgTasks_kind {s : Queues F V M} {forked : Bool} {t : BgTask F V M}
    (member : t ∈ s.bgTasks forked) : t.isForked = forked := by
  simp only [Queues.bgTasks, List.mem_append, List.mem_filter, List.mem_flatMap] at member
  rcases member with ⟨_, kind⟩ | ⟨tq, _, _, kind⟩ <;> exact of_decide_eq_true kind

theorem readForkedTask_queued {s : Queues F V M} {t : BgTask F V M} (member : t ∈ s.bgTasks true)
    (file : List (Piece F V M)) :
    readForkedTask (writeTask lineno t ++ file) = some (t.reloaded, file) := by
  cases t with
  | forked id start payload => exact readForkedTask_written id start payload file
  | suspended start value vm => cases bgTasks_kind member

theorem readSuspendedTask_queued {s : Queues F V M} {t : BgTask F V M}
    (member : t ∈ s.bgTasks false) (file : List (Piece F V M)) :
    readSuspendedTask zero (writeTask lineno t ++ file) = some (t.reloaded, file) := by
  cases t with
  | forked id start payload => cases bgTasks_kind member
  | suspended start value vm => exact readSuspendedTask_written start value vm file

structure Fits (s : Queues F V M) : Prop where
  forked : (s.bgTasks true).length < 2 ^ 31
  suspended : (s.bgTasks false).length < 2 ^ 31
  interrupted : s.interruptedTasks.length < 2 ^ 31
  strings : ∀ task ∈ s.external, 0 ∉ task.2

variable {s : Queues F V M}

def writtenBg (s : Queues F V M) : List (BgTask F V M) :=
  enqueueAll ((s.bgTasks false).map BgTask.reloaded)
    (enqueueAll ((s.bgTasks true).map BgTask.reloaded) [])

theorem readTaskQueue_bg (fits : Fits s) (rest : List (Piece F V M)) :
    readTaskQueue zero intrpt (writeTaskQueue lineno s ++ rest) =
      readTasks (readInterruptedTask intrpt) s.interruptedTasks.length (writtenBg s)
        ((s.interruptedTasks.flatMap fun task => writeInterrupted task.1 task.2) ++ rest) := by
  let interrupted := (s.interruptedTasks.flatMap fun task => writeInterrupted task.1 task.2) ++ rest
  let suspended : List (Piece F V M) := (s.bgTasks false).flatMap (writeTask lineno) ++
    writeCount s.interruptedTasks.length interruptedText :: interrupted
  let queued : List (Piece F V M) := (s.bgTasks true).flatMap (writeTask lineno) ++
    writeCount (s.bgTasks false).length suspendedText :: suspended
  have whole : writeTaskQueue lineno s ++ rest = writeCount 0 clocksText ::
      writeCount (s.bgTasks true).length queuedText :: queued := by
    simp [writeTaskQueue, queued, suspended, interrupted]
  have forks : readTasks readForkedTask (s.bgTasks true).length [] queued =
      some (enqueueAll ((s.bgTasks true).map BgTask.reloaded) [], _) :=
    readTasks_written (fun _ member => readForkedTask_queued member) [] _
  have suspensions : readTasks (readSuspendedTask zero) (s.bgTasks false).length
      (enqueueAll ((s.bgTasks true).map BgTask.reloaded) []) suspended = some (writtenBg s, _) :=
    readTasks_written (fun _ member => readSuspendedTask_queued member) _ _
  have noClocks (file : List (Piece F V M)) : skipClocks 0 file = some ((), file) := rfl
  rw [whole, readTaskQueue,
    bind_some (readCount_written (by decide) rfl (by decide) (by decide) _)]
  show (skipClocks 0 >>= _) _ = _
  rw [bind_some (noClocks _),
    bind_some (readCount_written fits.forked rfl (by decide) (by decide) _),
    bind_some forks,
    bind_some (readCount_written fits.suspended rfl (by decide) (by decide) _),
    bind_some suspensions,
    bind_some (readCount_written fits.interrupted rfl (by decide) (by decide) _)]

def resumed (intrpt : V) (vm : Vm M) : BgTask F V M := .suspended ⟨0, 0⟩ intrpt vm

theorem readable_reading : Readable readingStatus := by
  rw [Readable, NewlineFree]
  decide

theorem readingStatus_string : 0 ∉ readingStatus := by decide

theorem interrupted_readable (statuses : ∀ task ∈ s.external, Readable task.2) :
    ∀ task ∈ s.interruptedTasks, Readable task.2 := by
  intro task member
  rcases List.mem_append.mp member with held | reading
  · exact statuses task held
  · obtain ⟨vm, _, rfl⟩ := List.mem_map.mp reading
    exact readable_reading

theorem interrupted_strings (fits : Fits s) : ∀ task ∈ s.interruptedTasks, 0 ∉ task.2 := by
  intro task member
  rcases List.mem_append.mp member with held | reading
  · exact fits.strings task held
  · obtain ⟨vm, _, rfl⟩ := List.mem_map.mp reading
    exact readingStatus_string

theorem readTaskQueue_written (fits : Fits s) (statuses : ∀ task ∈ s.external, Readable task.2)
    (rest : List (Piece F V M)) :
    readTaskQueue zero intrpt (writeTaskQueue lineno s ++ rest) =
      some (enqueueAll (s.interruptedTasks.map fun task => resumed intrpt task.1) (writtenBg s),
        rest) := by
  rw [readTaskQueue_bg fits]
  exact readTasks_written (fun task member file => readInterruptedTask_written task.1
    (interrupted_readable statuses task member) (interrupted_strings fits task member) file) _ _

theorem readTaskQueue_stuck (fits : Fits s) {task : Vm M × CString} (member : task ∈ s.external)
    (unreadable : ¬Readable task.2) (rest : List (Piece F V M)) :
    readTaskQueue zero intrpt (writeTaskQueue lineno s ++ rest) = none := by
  classical
  have found : (s.interruptedTasks.find? fun task => !decide (Readable task.2)).isSome := by
    rw [List.find?_isSome]
    exact ⟨task, List.mem_append_left _ member, by simpa using unreadable⟩
  obtain ⟨first, found⟩ := Option.isSome_iff_exists.mp found
  obtain ⟨bad, before, after, split, good⟩ := List.find?_eq_some_iff_append.mp found
  have strings := interrupted_strings fits
  rw [readTaskQueue_bg fits]
  rw [split] at strings ⊢
  have readBefore : ∀ task ∈ before, ∀ file : List (Piece F V M), readInterruptedTask intrpt
      (writeInterrupted task.1 task.2 ++ file) = some (resumed intrpt task.1, file) :=
    fun task member => readInterruptedTask_written task.1 (by simpa using good task member)
      (strings task (List.mem_append_left _ member))
  exact readTasks_stuck readBefore (readInterruptedTask_unreadable first.1 (by simpa using bad)
    (strings first (by simp))) _ _

theorem bgTasks_perm (s : Queues F V M) : (s.bgTasks true ++ s.bgTasks false).Perm
    (s.waitingTasks ++ s.activeTqueues.flatMap Tqueue.firstBg) := by
  have whole (forked : Bool) : s.bgTasks forked =
      (s.waitingTasks ++ s.activeTqueues.flatMap Tqueue.firstBg).filter (·.isForked = forked) := by
    rw [List.filter_append, List.filter_flatMap]
    rfl
  rw [whole, whole]
  have parts := List.filter_append_perm (fun t : BgTask F V M => decide (t.isForked = true))
    (s.waitingTasks ++ s.activeTqueues.flatMap Tqueue.firstBg)
  simpa using parts

end Reading

/-! What a task is after loading. -/

def BgTask.rounded : BgTask F V M → BgTask F V M
  | .forked id start payload => .forked id ⟨start.round, 0⟩ payload
  | .suspended start value vm => .suspended ⟨start.round, 0⟩ value vm

namespace Queues

variable (s : Queues F V M)

def background : List (BgTask F V M) :=
  s.waitingTasks ++ (s.activeTqueues ++ s.idleTqueues).flatMap Tqueue.firstBg

def readers : List (Vm M) := (s.activeTqueues ++ s.idleTqueues).filterMap Tqueue.reading

/-- What is in the waiting list when no task is lost, duplicated or rescheduled. -/
def kept (intrpt : V) : List (BgTask F V M) :=
  s.background.map BgTask.rounded ++ (s.external.map Prod.fst ++ s.readers).map (resumed intrpt)

structure Reloadable : Prop where
  starts : ∀ t ∈ s.background, -2 ^ 31 ≤ t.start.round ∧ t.start.round < 2 ^ 31
  idle : ∀ tq ∈ s.idleTqueues, tq.firstBg = []
  active : ∀ tq ∈ s.activeTqueues, tq.reading = none
  statuses : ∀ task ∈ s.external, Readable task.2

end Queues

section

variable (lineno : F → Int) (zero intrpt : V) (s : Queues F V M)

def KeepsTasks : Prop :=
  ∀ rest, ∃ waiting,
    readTaskQueue zero intrpt (writeTaskQueue lineno s ++ rest) = some (waiting, rest) ∧
      waiting.Perm (s.kept intrpt)

end

variable {lineno : F → Int} {zero intrpt : V} {s : Queues F V M}

theorem BgTask.reloaded_eq {t : BgTask F V M}
    (start : -2 ^ 31 ≤ t.start.round ∧ t.start.round < 2 ^ 31) : t.reloaded = t.rounded := by
  have time := Machine.int32_eq start.1 start.2
  cases t with
  | forked id start payload => exact congrArg (fun sec => forked id ⟨sec, 0⟩ payload) time
  | suspended start value vm => exact congrArg (fun sec => suspended ⟨sec, 0⟩ value vm) time

theorem reloaded_bounds (t : BgTask F V M) :
    -2 ^ 31 ≤ t.reloaded.start.sec ∧ t.reloaded.start.sec < 2 ^ 31 := by
  cases t with
  | forked id start payload => exact int32_bounds start.round
  | suspended start value vm => exact int32_bounds start.round

def Queues.reloaded (s : Queues F V M) (intrpt : V) : List (BgTask F V M) :=
  (s.waitingTasks ++ s.activeTqueues.flatMap Tqueue.firstBg).map BgTask.reloaded ++
    (s.external.map Prod.fst ++ s.idleTqueues.filterMap Tqueue.reading).map (resumed intrpt)

theorem enqueued_perm (s : Queues F V M) (intrpt : V) :
    (enqueueAll (s.interruptedTasks.map fun task => resumed intrpt task.1) (writtenBg s)).Perm
      (s.reloaded intrpt) := by
  have background : (writtenBg s).Perm
      ((s.waitingTasks ++ s.activeTqueues.flatMap Tqueue.firstBg).map BgTask.reloaded) := by
    have forks := enqueueAll_perm ((s.bgTasks true).map BgTask.reloaded) []
    rw [List.append_nil] at forks
    have all := (enqueueAll_perm ((s.bgTasks false).map BgTask.reloaded) _).trans
      (forks.append_left _)
    have kinds := (bgTasks_perm s).map BgTask.reloaded
    rw [List.map_append] at kinds
    exact all.trans (List.perm_append_comm.trans kinds)
  have interrupted : (s.interruptedTasks.map fun task => resumed (F := F) intrpt task.1) =
      (s.external.map Prod.fst ++ s.idleTqueues.filterMap Tqueue.reading).map (resumed intrpt) := by
    simp [Queues.interruptedTasks, Function.comp_def]
  rw [interrupted]
  exact (enqueueAll_perm _ _).trans ((background.append_left _).trans List.perm_append_comm)

theorem keepsTasks_perm (fits : Fits s) (keeps : KeepsTasks lineno zero intrpt s) :
    (∀ task ∈ s.external, Readable task.2) ∧ (s.reloaded intrpt).Perm (s.kept intrpt) := by
  obtain ⟨waiting, ran, same⟩ := keeps []
  have statuses : ∀ task ∈ s.external, Readable task.2 := by
    intro task member
    by_contra unreadable
    rw [readTaskQueue_stuck fits member unreadable] at ran
    cases ran
  rw [readTaskQueue_written fits statuses] at ran
  obtain ⟨rfl, _⟩ := Prod.mk.inj (Option.some.inj ran)
  exact ⟨statuses, (enqueued_perm s intrpt).symm.trans same⟩

theorem starts_of_perm (same : (s.reloaded intrpt).Perm (s.kept intrpt)) {t : BgTask F V M}
    (member : t ∈ s.background) : -2 ^ 31 ≤ t.start.round ∧ t.start.round < 2 ^ 31 := by
  have found : t.rounded ∈ s.reloaded intrpt :=
    same.mem_iff.mpr (List.mem_append_left _ (List.mem_map_of_mem member))
  have time : t.rounded.start.sec = t.start.round := by cases t <;> rfl
  rw [← time]
  rcases List.mem_append.mp found with background | interrupted
  · obtain ⟨t', _, same⟩ := List.mem_map.mp background
    rw [← same]
    exact reloaded_bounds t'
  · obtain ⟨vm, _, same⟩ := List.mem_map.mp interrupted
    rw [← same]
    exact (by decide : -2 ^ 31 ≤ (0 : Int) ∧ (0 : Int) < 2 ^ 31)

theorem places_of_length (same : (s.reloaded intrpt).length = (s.kept intrpt).length) :
    s.idleTqueues.flatMap Tqueue.firstBg = [] ∧ s.activeTqueues.filterMap Tqueue.reading = [] := by
  simp only [Queues.reloaded, Queues.kept, Queues.background, Queues.readers, List.length_append,
    List.length_map, List.flatMap_append, List.filterMap_append] at same
  rw [← List.length_eq_zero_iff, ← List.length_eq_zero_iff]
  omega

def BgTask.taskId : BgTask F V M → BitVec 32
  | .forked id _ _ => id
  | .suspended _ _ vm => vm.taskId

def waitingText : CString :=
  [119, 97, 105, 116, 105, 110, 103, 32, 111, 110, 32, 116, 104, 114, 101, 97, 100, 32]

def threadName (handle : BitVec 16) : CString := waitingText ++ intLiteral (intNum handle.toNat)

def waitingOnThreads (s : Tasks.Server V) : List (Vm Unit × CString) :=
  s.processTable.filterMap fun entry =>
    (s.waiter entry.2).bind fun x =>
      if x.active then some (⟨BitVec.ofNat 32 x.theVm, ()⟩, threadName entry.1) else none

def serverQueues (s : Tasks.Server V) : Queues Empty (Option V) Unit where
  waitingTasks := s.queue.map fun task => .suspended ⟨0, 0⟩ task.2 ⟨BitVec.ofNat 32 task.1, ()⟩
  activeTqueues := []
  idleTqueues := []
  external := waitingOnThreads s

theorem readable_threadName (handle : BitVec 16) : Readable (threadName handle) := by
  have start : (threadName handle).dropWhile Json.isSpace = threadName handle := rfl
  rw [Readable, start]
  exact ⟨by simp [threadName, waitingText],
    NewlineFree.append (by rw [NewlineFree]; decide) (newlineFree_intLiteral _)⟩

theorem waitingOnThreads_ids (s : Tasks.Server V) :
    (waitingOnThreads s).map (·.1.taskId) =
      (Tasks.interruptedTasks s).map (BitVec.ofNat 32) := by
  rw [waitingOnThreads, Tasks.interruptedTasks, List.map_filterMap, List.map_filterMap]
  congr 1
  funext entry
  cases s.waiter entry.2 with
  | none => rfl
  | some x => cases active : x.active <;> simp [active]

theorem serverTasks_reloaded {s : Tasks.Server V} (fits : Fits (serverQueues s))
    (lineno : Empty → Int) (zero intrpt : Option V) (rest : List (Piece Empty (Option V) Unit)) :
    ∃ waiting, readTaskQueue zero intrpt (writeTaskQueue lineno (serverQueues s) ++ rest) =
        some (waiting, rest) ∧
      (waiting.map BgTask.taskId).Perm ((Tasks.writeTaskQueue s).map (BitVec.ofNat 32)) := by
  have statuses : ∀ task ∈ (serverQueues s).external, Readable task.2 := by
    intro task member
    obtain ⟨entry, _, found⟩ := List.mem_filterMap.mp member
    obtain ⟨x, _, named⟩ := Option.bind_eq_some_iff.mp found
    split at named
    · obtain rfl := Option.some.inj named
      exact readable_threadName entry.1
    · cases named
  refine ⟨_, readTaskQueue_written fits statuses rest,
    ((enqueued_perm (serverQueues s) intrpt).map BgTask.taskId).trans (.of_eq ?_)⟩
  have interrupted := waitingOnThreads_ids s
  simp [Queues.reloaded, serverQueues, Tasks.writeTaskQueue, ← interrupted, Function.comp_def,
    BgTask.taskId, BgTask.reloaded, resumed]

/-! A task that is suspended without a time limit. -/

def suspendedForEver : Queues Unit Nat Unit := ⟨[.suspended forEver 0 ⟨7, ()⟩], [], [], []⟩

theorem suspendedForEver_fits : Fits suspendedForEver :=
  ⟨by decide, by decide, by decide, by simp [suspendedForEver]⟩

def mixedQueues : Queues Unit Nat Unit where
  waitingTasks := [.forked 5 ⟨100, 600000⟩ (), .suspended ⟨200, 0⟩ 3 ⟨6, ()⟩]
  activeTqueues := [⟨[.suspended ⟨50, 0⟩ 0 ⟨8, ()⟩], none⟩]
  idleTqueues := [⟨[], some ⟨9, ()⟩⟩]
  external := [(⟨10, ()⟩, [108, 115])]

theorem mixedQueues_fits : Fits mixedQueues :=
  ⟨by decide, by decide, by decide, by simp [mixedQueues]⟩

end ToastStunt.TaskQueues
