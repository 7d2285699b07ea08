import Mathlib.Algebra.Order.Ring.Int
import Mathlib.Data.List.TakeWhile
import ToastStunt.Tasks.InputRefinement

/-!
An input queue behaves as one list of lines, over every run of calls.
-/

namespace ToastStunt.Tasks

open Chains InputQueue Machine

structure PlainQueue where
  lines : List Line
  disableOob : Bool
  deriving DecidableEq

def emptyPlain : PlainQueue := ⟨[], false⟩

/-- Where out-of-band lines are not told apart, every line is an in-band one. -/
def wanted (disableOob : Bool) (how : DequeueHow) (line : Line) : Bool :=
  if disableOob then how ≠ .oob
  else
    match how with
    | .first => true
    | .oob => line.isOob
    | .inband => !line.isOob

section

variable (oobPrefix oobQuotePrefix : CString) (maxQueuedInput : Int)

def inputLine (input : CString) (binary isTelnet : Bool) : Line :=
  ⟨taskKind oobPrefix oobQuotePrefix input binary isTelnet, input, int32 input.length⟩

def PlainQueue.run (plain : PlainQueue) : Call → PlainQueue × Option Line
  | .enqueue _ input true binary isTelnet =>
      ({ plain with
        lines := inputLine oobPrefix oobQuotePrefix input binary isTelnet :: plain.lines }, none)
  | .enqueue _ input false binary isTelnet =>
      ({ plain with
        lines := plain.lines ++ [inputLine oobPrefix oobQuotePrefix input binary isTelnet] }, none)
  | .dequeue how =>
      ({ plain with lines := plain.lines.eraseP (wanted plain.disableOob how) },
        (plain.lines.find? (wanted plain.disableOob how)).map
          (delivered oobQuotePrefix plain.disableOob))
  | .configure _ _ disableOob _ _ => ({ plain with disableOob }, none)

def PlainQueue.runCalls : List Call → PlainQueue → PlainQueue × List (Option Line)
  | [], plain => (plain, [])
  | call :: calls, plain =>
      let (plain, answer) := plain.run oobPrefix oobQuotePrefix call
      let (plain, answers) := runCalls calls plain
      (plain, answer :: answers)

def Call.fresh (q : InputQueue) : Call → Prop
  | .enqueue t _ _ _ _ => q.heap t = none
  | _ => True

def FreshCalls : List Call → InputQueue → Prop
  | [], _ => True
  | call :: calls, q => call.fresh q ∧
      match call.run oobPrefix oobQuotePrefix maxQueuedInput q with
      | none => True
      | some (next, _) => FreshCalls calls next

end

def totalLength (lines : List Line) : Int := (lines.map Line.length).sum

/-- The pointers make a list of the lines, and there is no task besides. -/
structure Represents (q : InputQueue) (plain : PlainQueue) : Prop where
  linked : ∃ items, Linked q items ∧ items.map Prod.snd = plain.lines ∧
    ∀ t, q.live (.of t) = true → t ∈ addrs items
  total : q.totalInputLength = int32 (totalLength plain.lines)
  disableOob : q.disableOob = plain.disableOob

theorem represents_empty : Represents emptyQueue emptyPlain :=
  ⟨⟨[], ⟨by simp, List.nodup_nil, rfl, rfl, rfl, rfl⟩, rfl, by simp [live, emptyQueue]⟩, rfl, rfl⟩

theorem totalLength_append (left right : List Line) :
    totalLength (left ++ right) = totalLength left + totalLength right := by
  simp [totalLength]

theorem totalLength_concat (lines : List Line) (line : Line) :
    totalLength (lines ++ [line]) = totalLength lines + line.length := by
  simp [totalLength]

theorem totalLength_cons (line : Line) (lines : List Line) :
    totalLength (line :: lines) = totalLength lines + line.length := by
  simp [totalLength, Int.add_comm]

section

variable {oobPrefix oobQuotePrefix : CString} {maxQueuedInput : Int}

structure SameLinks (q q' : InputQueue) : Prop where
  heap : q'.heap = q.heap
  firstInput : q'.firstInput = q.firstInput
  lastInput : q'.lastInput = q.lastInput
  firstItail : q'.firstItail = q.firstItail
  lastItail : q'.lastItail = q.lastItail

theorem Linked.sameLinks {q q' : InputQueue} {items : Items} (linked : Linked q items)
    (same : SameLinks q q') : Linked q' items := by
  obtain ⟨heap, firstInput, lastInput, firstItail, lastItail⟩ := same
  have inputs : q'.inputs = q.inputs := by rw [InputQueue.inputs, heap, firstInput]; rfl
  have itails : q'.itails = q.itails := by rw [InputQueue.itails, heap, firstItail]; rfl
  refine ⟨?_, linked.apart, ?_, ?_, ?_, ?_⟩
  · simpa only [lineAt, heap] using linked.held
  · rw [inputs, firstInput]
    exact linked.inputs
  · rw [lastInput, linked.lastInput]
  · rw [itails, firstItail]
    exact linked.itails
  · rw [lastItail, linked.lastItail]

structure SameQueue (q q' : InputQueue) : Prop extends SameLinks q q' where
  total : q'.totalInputLength = q.totalInputLength
  disableOob : q'.disableOob = q.disableOob

theorem sameQueue_wakeUp (line : Line) (q : InputQueue) : SameQueue q (wakeUp line q) := by
  unfold wakeUp
  split <;> exact ⟨⟨rfl, rfl, rfl, rfl, rfl⟩, rfl, rfl⟩

theorem sameQueue_suspendInput (maxQueuedInput : Int) (q : InputQueue) :
    SameQueue q (suspendInput maxQueuedInput q) := by
  unfold suspendInput
  split <;> exact ⟨⟨rfl, rfl, rfl, rfl, rfl⟩, rfl, rfl⟩

theorem sameQueue_resumeInput (maxQueuedInput : Int) (q : InputQueue) :
    SameQueue q (resumeInput maxQueuedInput q) := by
  unfold resumeInput
  split <;> exact ⟨⟨rfl, rfl, rfl, rfl, rfl⟩, rfl, rfl⟩

theorem Represents.sameQueue {q q' : InputQueue} {plain : PlainQueue}
    (represents : Represents q plain) (same : SameQueue q q') : Represents q' plain := by
  obtain ⟨⟨items, linked, lines, only⟩, total, disableOob⟩ := represents
  refine ⟨⟨items, linked.sameLinks same.toSameLinks, lines, ?_⟩, same.total.trans total,
    same.disableOob.trans disableOob⟩
  intro t live
  refine only t ?_
  simpa only [InputQueue.live, same.heap] using live

theorem link_links {q : InputQueue} {items : Items} (linked : Linked q items) {t : Nat}
    {line : Line} (held : q.lineAt t = some line) (fresh : t ∉ addrs items)
    (unlinked : q.itails.next t = none) (atFront : Bool) :
    ∃ q', link atFront t line q = some q' ∧
      Linked q' (if atFront then (t, line) :: items else items ++ [(t, line)]) ∧
      SameElsewhere q q' := by
  cases atFront with
  | false => exact linkAtRear_links linked held fresh unlinked
  | true =>
      cases items with
      | nil =>
          have empty : q.firstInput = none := linked.inputs
          simp only [link, empty]
          exact linkAtRear_links linked held fresh unlinked
      | cons head rest =>
          have first : q.firstInput = some head.1 := linked.inputs.1
          simp only [link, first]
          exact linkAtFront_links linked held fresh

theorem enqueue_represents {q : InputQueue} {plain : PlainQueue} (represents : Represents q plain)
    {t : Nat} (fresh : q.heap t = none) (input : CString) (atFront binary isTelnet : Bool) :
    ∃ q', enqueueInputTask oobPrefix oobQuotePrefix maxQueuedInput t input atFront binary isTelnet q =
        some q' ∧
      Represents q'
        (plain.run oobPrefix oobQuotePrefix (.enqueue t input atFront binary isTelnet)).1 := by
  obtain ⟨⟨items, linked, lines, only⟩, total, disableOob⟩ := represents
  let line := inputLine oobPrefix oobQuotePrefix input binary isTelnet
  let q₁ : InputQueue :=
    { q.allocate t line with totalInputLength := int32 (q.totalInputLength + line.length) }
  have apart : t ∉ addrs items := by
    intro member
    have live : q.live (.of t) = true := linked.live fun _ same => Slot.of.inj same ▸ member
    simp [InputQueue.live, fresh] at live
  have linked₁ : Linked q₁ items :=
    (linked.update apart (some ⟨line, none, none⟩)).sameLinks ⟨rfl, rfl, rfl, rfl, rfl⟩
  have held : q₁.lineAt t = some line := by simp [lineAt, q₁, allocate]
  have unlinked : q₁.itails.next t = none := by simp [itails, q₁, allocate]
  obtain ⟨q₂, code, linked₂, elsewhere⟩ := link_links linked₁ held apart unlinked atFront
  have isLive : ∀ a, q₂.live (.of a) = true → a = t ∨ q.live (.of a) = true := by
    intro a live
    rw [live_of, elsewhere.lineAt] at live
    by_cases same : a = t
    · exact .inl same
    · right
      simpa [lineAt, InputQueue.live, q₁, allocate, same] using live
  have total₂ : q₂.totalInputLength = int32 (totalLength plain.lines + line.length) := by
    rw [elsewhere.total, ← int32_add_left, ← total]
  have disableOob₂ : q₂.disableOob = plain.disableOob := elsewhere.disableOob.trans disableOob
  refine ⟨suspendInput maxQueuedInput (wakeUp line q₂), ?_, ?_⟩
  · unfold enqueueInputTask
    exact congrArg (Option.bind · (some ∘ suspendInput maxQueuedInput ∘ wakeUp line)) code
  · refine Represents.sameQueue ?_ (sameQueue_suspendInput _ _)
    refine Represents.sameQueue ?_ (sameQueue_wakeUp line q₂)
    cases atFront with
    | true =>
        refine ⟨⟨_, linked₂, ?_, ?_⟩, ?_, disableOob₂⟩
        · simp [PlainQueue.run, lines, line]
        · intro a live
          rcases isLive a live with rfl | old
          · simp [addrs]
          · simpa [addrs] using Or.inr (only a old)
        · exact total₂.trans (congrArg int32 (totalLength_cons line plain.lines).symm)
    | false =>
        refine ⟨⟨_, linked₂, ?_, ?_⟩, ?_, disableOob₂⟩
        · simp [PlainQueue.run, lines, line]
        · intro a live
          rcases isLive a live with rfl | old
          · simp [addrs]
          · simpa [addrs] using Or.inl (only a old)
        · exact total₂.trans (congrArg int32 (totalLength_concat plain.lines line).symm)

theorem dequeue_takes {q : InputQueue} {how : DequeueHow} {run rest : Items} {t first : Nat}
    {line : Line} (linked : Linked q (run ++ (t, line) :: rest))
    (differ : ∀ item ∈ run, item.2.isOob = !line.isOob)
    (asked : ¬(q.disableOob && how = .oob) = true) (isFirst : q.firstInput = some first)
    (found : findInput (if q.disableOob then .first else how) q first =
      some (lastSlot (addrs run), lastSlot (ends run))) :
    ∃ q', dequeueInputTask oobQuotePrefix maxQueuedInput how q =
        some (q', some (delivered oobQuotePrefix q.disableOob line)) ∧
      Linked q' (run ++ rest) ∧ q'.totalInputLength = int32 (q.totalInputLength - line.length) ∧
      q'.disableOob = q.disableOob ∧ ∀ a, q'.live (.of a) = true → a ≠ t ∧ q.live (.of a) = true := by
  obtain ⟨q₁, q₂, code₁, code₂, linked₂, elsewhere, gone⟩ := unlink_links linked differ
  have tHeld := linked.held (t, line) (by simp)
  obtain ⟨task, inHeap, isLine⟩ := Option.map_eq_some_iff.mp tHeld
  have next : task.next = q.inputs.next t := by simp [inputs, inHeap]
  have loaded : q.loadNext (lastSlot (addrs run)) = some (some t) := by
    have inputs := linked.inputs
    rw [addrs_append] at inputs
    obtain ⟨_, before, rfl, _⟩ := leads_append.mp inputs
    rw [loadNext, if_pos]
    · exact congrArg some (load_lastSlot before)
    · refine linked.live fun a same => ?_
      rw [addrs_append]
      exact List.mem_append_left _ (lastSlot_mem same)
  let q₃ : InputQueue := { q₂ with totalInputLength := int32 (q₂.totalInputLength - line.length) }
  have same := sameQueue_resumeInput maxQueuedInput q₃
  refine ⟨(resumeInput maxQueuedInput q₃).free t, ?_, ?_, ?_, ?_, ?_⟩
  · rw [dequeueInputTask, if_neg asked, isFirst]
    simp only [found, Option.bind_eq_bind, Option.bind_some, loaded]
    rw [inHeap, Option.bind_some, next, code₁, Option.bind_some, code₂, Option.bind_some, isLine]
    change some (_, some (delivered _ (resumeInput maxQueuedInput q₃).disableOob line)) = _
    rw [same.disableOob.trans elsewhere.disableOob]
  · refine Linked.update (Linked.sameLinks linked₂ ?_) gone none
    exact ⟨same.heap, same.firstInput, same.lastInput, same.firstItail, same.lastItail⟩
  · exact same.total.trans (congrArg (fun length => int32 (length - line.length)) elsewhere.total)
  · exact same.disableOob.trans elsewhere.disableOob
  · intro a live
    by_cases isT : a = t
    · simp [InputQueue.live, free, isT] at live
    · refine ⟨isT, ?_⟩
      rw [live_of, ← elsewhere.lineAt, ← live_of]
      simpa [InputQueue.live, free, isT, same.heap, q₃] using live

theorem wanted_eq (disableOob : Bool) (how : DequeueHow) (line : Line) :
    wanted disableOob how line = if disableOob && how = .oob then false else
      !skipsRun (if disableOob then .first else how) line := by
  cases disableOob <;> cases how <;> simp [wanted, skipsRun]

theorem skipsRun_congr (how : DequeueHow) {line other : Line} (same : line.isOob = other.isOob) :
    skipsRun how line = skipsRun how other := by
  cases how <;> simp [skipsRun, same]

theorem skipsRun_other {how : DequeueHow} {line other : Line} (skips : skipsRun how other = true)
    (differ : line.isOob ≠ other.isOob) : skipsRun how line = false := by
  cases how <;> cases isOob : line.isOob <;> simp_all [skipsRun]

theorem take_wanted {p : Line → Bool} {run rest : List Line} {line : Line}
    (before : ∀ other ∈ run, p other = false) (here : p line = true) :
    (run ++ line :: rest).find? p = some line ∧
      (run ++ line :: rest).eraseP p = run ++ rest := by
  constructor
  · have unwanted : run.find? p = none := by simpa using before
    rw [List.find?_append, unwanted, List.find?_cons_of_pos here]
    rfl
  · rw [List.eraseP_append_right _ (by simpa using before), List.eraseP_cons_of_pos here]

theorem take_none {p : Line → Bool} {lines : List Line} (unwanted : ∀ line ∈ lines, p line = false) :
    lines.find? p = none ∧ lines.eraseP p = lines := by
  refine ⟨by simpa using unwanted, List.eraseP_of_forall_not fun line member isWanted => ?_⟩
  rw [unwanted line member] at isWanted
  cases isWanted

theorem first_run (head : Nat × Line) (rest : Items) : ∃ front last more,
    head :: rest = front ++ last :: more ∧
    (∀ item ∈ front ++ [last], item.2.isOob = head.2.isOob) ∧
    ∀ next ∈ more.head?, next.2.isOob ≠ head.2.isOob := by
  let inRun : Nat × Line → Bool := fun item => item.2.isOob = head.2.isOob
  have nonempty : (head :: rest).takeWhile inRun ≠ [] := by
    rw [List.takeWhile_cons_of_pos (by simp [inRun])]
    nofun
  obtain ⟨front, last, isRun⟩ : ∃ front last, (head :: rest).takeWhile inRun = front ++ [last] :=
    ⟨_, _, (List.dropLast_append_getLast nonempty).symm⟩
  refine ⟨front, last, (head :: rest).dropWhile inRun, ?_, ?_, ?_⟩
  · rw [List.append_cons, ← isRun, List.takeWhile_append_dropWhile]
  · intro item member
    rw [← isRun] at member
    simpa [inRun] using (List.mem_takeWhile_imp member : inRun item = true)
  · intro next isHead
    have stops := List.head?_dropWhile_not inRun (head :: rest)
    rw [Option.mem_def.mp isHead] at stops
    simpa [inRun] using stops

theorem dequeue_finds {q : InputQueue} {items : Items} (linked : Linked q items)
    (how : DequeueHow) :
    (dequeueInputTask oobQuotePrefix maxQueuedInput how q = some (q, none) ∧
      ∀ item ∈ items, wanted q.disableOob how item.2 = false) ∨
    ∃ run t line rest first, items = run ++ (t, line) :: rest ∧
      (∀ item ∈ run, item.2.isOob = !line.isOob) ∧
      (∀ item ∈ run, wanted q.disableOob how item.2 = false) ∧
      wanted q.disableOob how line = true ∧
      ¬(q.disableOob && how = .oob) = true ∧ q.firstInput = some first ∧
      findInput (if q.disableOob then .first else how) q first =
        some (lastSlot (addrs run), lastSlot (ends run)) := by
  by_cases asked : (q.disableOob && how = .oob) = true
  · left
    refine ⟨by rw [dequeueInputTask, if_pos asked], fun item _ => ?_⟩
    rw [wanted_eq, if_pos asked]
  cases items with
  | nil =>
      left
      have empty : q.firstInput = none := linked.inputs
      refine ⟨?_, nofun⟩
      rw [dequeueInputTask, if_neg asked, empty]
  | cons head rest =>
      have first : q.firstInput = some head.1 := linked.inputs.1
      have headLine := linked.held head (by simp)
      cases skips : skipsRun (if q.disableOob then .first else how) head.2 with
      | false =>
          right
          refine ⟨[], head.1, head.2, rest, head.1, rfl, nofun, nofun, ?_, asked, first, ?_⟩
          · rw [wanted_eq, if_neg asked, skips]
            rfl
          · rw [findInput, headLine]
            simp [skips, addrs, ends, runEnds, lastSlot]
      | true =>
          obtain ⟨front, last, more, split, inRun, otherRun⟩ := first_run head rest
          have unwanted : ∀ item ∈ front ++ [last], wanted q.disableOob how item.2 = false := by
            intro item member
            rw [wanted_eq, if_neg asked, skipsRun_congr _ (inRun item member), skips]
            rfl
          have ending : ¬GoesOn inOob head.2.isOob more := by
            rintro ⟨next, isHead, same⟩
            exact otherRun next isHead same
          have isEnd : ends (head :: rest) = last.1 :: ends more := by
            rw [split]
            exact congrArg (List.map Prod.fst) (runEnds_run front last inRun ending)
          have itail : q.firstItail = some last.1 := by
            have itails := linked.itails
            rw [isEnd] at itails
            exact itails.1
          have slots : findInput (if q.disableOob then .first else how) q head.1 =
              some (.of last.1, .of last.1) := by
            rw [findInput, headLine]
            simp [skips, itail]
          have runEnd : ends (front ++ [last]) = [last.1] :=
            congrArg (List.map Prod.fst) (runEnds_run front last inRun (not_goesOn_nil _))
          have runSlots : lastSlot (addrs (front ++ [last])) = .of last.1 ∧
              lastSlot (ends (front ++ [last])) = .of last.1 := by
            rw [runEnd, addrs_append]
            exact ⟨lastSlot_concat _ _, rfl⟩
          have split' : head :: rest = (front ++ [last]) ++ more := by rw [split, List.append_cons]
          rw [split'] at linked ⊢
          cases more with
          | nil =>
              left
              rw [List.append_nil] at linked ⊢
              refine ⟨?_, unwanted⟩
              have loaded : q.loadNext (.of last.1) = some none := by
                rw [← runSlots.1, loadNext, if_pos (linked.live fun _ same => lastSlot_mem same)]
                exact congrArg some (load_lastSlot linked.inputs)
              rw [dequeueInputTask, if_neg asked, first]
              simp only [slots, Option.bind_eq_bind, Option.bind_some, loaded]
          | cons task more =>
              right
              have other := otherRun task rfl
              refine ⟨front ++ [last], task.1, task.2, more, head.1, rfl, fun item member => ?_,
                unwanted, ?_, asked, first, ?_⟩
              · rw [inRun item member]
                exact Bool.eq_not.mpr (Ne.symm other)
              · rw [wanted_eq, if_neg asked, skipsRun_other skips other]
                rfl
              · rw [runSlots.1, runSlots.2]
                exact slots

theorem dequeue_represents {q : InputQueue} {plain : PlainQueue} (represents : Represents q plain)
    (how : DequeueHow) :
    ∃ q', dequeueInputTask oobQuotePrefix maxQueuedInput how q =
        some (q', (plain.run oobPrefix oobQuotePrefix (.dequeue how)).2) ∧
      Represents q' (plain.run oobPrefix oobQuotePrefix (.dequeue how)).1 := by
  obtain ⟨⟨items, linked, lines, only⟩, total, disableOob⟩ := represents
  rw [PlainQueue.run, ← lines, ← disableOob]
  rcases dequeue_finds linked how with ⟨ran, unwanted⟩ |
      ⟨run, t, line, rest, first, rfl, differ, before, here, asked, isFirst, found⟩
  · have unwanted' : ∀ line ∈ items.map Prod.snd, wanted q.disableOob how line = false := by
      simpa using fun line t member => unwanted (t, line) member
    obtain ⟨finds, erases⟩ := take_none unwanted'
    rw [finds, erases]
    exact ⟨q, ran, ⟨items, linked, rfl, only⟩, total.trans (congrArg (int32 ∘ totalLength) lines.symm), rfl⟩
  · obtain ⟨q', ran, linked', total', disableOob', live'⟩ :=
      dequeue_takes linked differ asked isFirst found
    have before' : ∀ line ∈ run.map Prod.snd, wanted q.disableOob how line = false := by
      simpa using fun line a member => before (a, line) member
    have taken := @take_wanted _ _ (rest.map Prod.snd) _ before' here
    rw [List.map_append, List.map_cons, taken.1, taken.2]
    refine ⟨q', ran, ⟨_, linked', List.map_append, fun a live => ?_⟩, ?_, disableOob'⟩
    · obtain ⟨notT, live⟩ := live' a live
      have member := only a live
      simp only [addrs_append, List.mem_append] at member ⊢
      simpa [addrs, notT] using member
    · have sum : totalLength (run.map Prod.snd ++ rest.map Prod.snd) =
          totalLength ((run ++ (t, line) :: rest).map Prod.snd) - line.length := by
        rw [List.map_append, totalLength_append, totalLength_append]
        simp only [totalLength, List.map_cons, List.sum_cons]
        omega
      rw [total', sum, lines, total, int32_sub_left]

/-- In every run every call succeeds, with the answer of the plain list. -/
theorem run_represents {q : InputQueue} {plain : PlainQueue} (represents : Represents q plain)
    {call : Call} (fresh : call.fresh q) :
    ∃ q', call.run oobPrefix oobQuotePrefix maxQueuedInput q =
        some (q', (plain.run oobPrefix oobQuotePrefix call).2) ∧
      Represents q' (plain.run oobPrefix oobQuotePrefix call).1 := by
  cases call with
  | enqueue t input atFront binary isTelnet =>
      obtain ⟨q', ran, represents'⟩ := enqueue_represents represents fresh input atFront binary isTelnet
      refine ⟨q', ?_, represents'⟩
      rw [Call.run, ran]
      cases atFront <;> rfl
  | dequeue how => exact dequeue_represents represents how
  | configure connected holdInput disableOob reading active =>
      obtain ⟨⟨items, linked, lines, only⟩, total, _⟩ := represents
      exact ⟨_, rfl, ⟨items, linked.sameLinks ⟨rfl, rfl, rfl, rfl, rfl⟩, lines, only⟩, total, rfl⟩

theorem runCalls_represents {calls : List Call} {q : InputQueue} {plain : PlainQueue}
    (represents : Represents q plain)
    (fresh : FreshCalls oobPrefix oobQuotePrefix maxQueuedInput calls q) :
    ∃ q', runCalls oobPrefix oobQuotePrefix maxQueuedInput calls q =
        some (q', (plain.runCalls oobPrefix oobQuotePrefix calls).2) ∧
      Represents q' (plain.runCalls oobPrefix oobQuotePrefix calls).1 := by
  induction calls generalizing q plain with
  | nil => exact ⟨q, rfl, represents⟩
  | cons call calls ih =>
      obtain ⟨freshNow, freshLater⟩ := fresh
      obtain ⟨q₁, ran, represents₁⟩ := run_represents represents freshNow
      rw [ran] at freshLater
      obtain ⟨q₂, ranLater, represents₂⟩ := ih represents₁ freshLater
      refine ⟨q₂, ?_, represents₂⟩
      rw [runCalls, ran]
      simp only [Option.bind_eq_bind, Option.bind_some, ranLater]
      rfl

/-- The queue refines the plain list. -/
theorem inputQueue_refines {calls : List Call}
    (fresh : FreshCalls oobPrefix oobQuotePrefix maxQueuedInput calls emptyQueue) :
    ∃ q plain, runCalls oobPrefix oobQuotePrefix maxQueuedInput calls emptyQueue =
        some (q, (emptyPlain.runCalls oobPrefix oobQuotePrefix calls).2) ∧
      plain = (emptyPlain.runCalls oobPrefix oobQuotePrefix calls).1 ∧ Represents q plain ∧
      q.totalInputLength = int32 (totalLength plain.lines) ∧
      q.live q.lastInput = true ∧ q.live q.lastItail = true := by
  obtain ⟨q, ran, represents⟩ := runCalls_represents represents_empty fresh
  obtain ⟨items, linked, _, _⟩ := represents.linked
  exact ⟨q, _, ran, rfl, represents, represents.total, linked.live_lastInput,
    linked.live_lastItail⟩

end

def mixedCalls : List Call :=
  [.enqueue 0 [35, 36, 35, 97] false false false, .enqueue 1 [35, 36, 35, 98] false false false,
    .enqueue 2 [104, 105] false false false, .enqueue 3 [35, 36, 35, 99] false false false,
    .dequeue .inband, .enqueue 2 [35, 36, 35, 100] true false false, .dequeue .oob]

theorem mixedCalls_refine : ∃ q plain,
    runCalls [35, 36, 35] [35, 36, 34] 65536 mixedCalls emptyQueue =
      some (q, (emptyPlain.runCalls [35, 36, 35] [35, 36, 34] mixedCalls).2) ∧
    plain = (emptyPlain.runCalls [35, 36, 35] [35, 36, 34] mixedCalls).1 ∧ Represents q plain ∧
    q.totalInputLength = int32 (totalLength plain.lines) ∧
    q.live q.lastInput = true ∧ q.live q.lastItail = true :=
  inputQueue_refines ⟨rfl, rfl, rfl, rfl, trivial, rfl, trivial, trivial⟩

/-- Where out-of-band lines are not told apart, one is returned as an in-band line. -/
theorem inband_returns_oob :
    (runCalls [35, 36, 35] [35, 36, 34] 65536
      [.enqueue 0 [35, 36, 35, 97] false false false, .enqueue 1 [104, 105] false false false,
        .configure true false true false false, .dequeue .inband] emptyQueue).map Prod.snd =
      some [none, none, none, some ⟨.inband, [35, 36, 35, 97], 4⟩] ∧
    [inputLine [35, 36, 35] [35, 36, 34] [35, 36, 35, 97] false false,
      inputLine [35, 36, 35] [35, 36, 34] [104, 105] false false].find? (!·.isOob) =
      some ⟨.inband, [104, 105], 2⟩ := by
  decide

end ToastStunt.Tasks
