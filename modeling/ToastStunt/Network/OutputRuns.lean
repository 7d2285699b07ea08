import ToastStunt.Library.Runs
import ToastStunt.Network.OutputChain
import ToastStunt.Network.OutputHistory

/-!
Output buffers over every run of calls: where no call comes to a pending write with nothing behind
it that could be flushed, the lines are delivered in order and every loss is accounted for.
-/

namespace ToastStunt.Network

open Chains Machine

/-! The property, and what the loops keep of it. -/

/-- The queue is a chain whose length and tail the connection knows, the peer has got the accepted
lines as far as they were written, and the notices report the losses. -/
def Accounted (eol : CString) (lines : List CString) (h : Output) : Prop :=
  ∃ blocks history, ∃ pending : Nat, Chain h blocks ∧ h.outputTail = lastSlot (addrs blocks) ∧
    h.outputLinesFlushed = pending ∧ Told eol lines h.wire pending (blocks.map Prod.snd) history

/-- How much may be queued, and how many lines may be queued or flushed: no more than an `int`
holds. -/
structure Bounds where
  bytes : Int
  lines : Int
  bytesInt : bytes < 2 ^ 31
  linesInt : lines < 2 ^ 31

structure Sound (eol : CString) (lines : List CString) (tls : Bool) (bounds : Bounds) (h : Output)
    (blocks : Blocks) : Prop where
  chain : Chain h blocks
  told : ∃ history, ∃ pending : Nat, h.outputLinesFlushed = pending ∧
    (pending + blocks.length : Int) ≤ bounds.lines ∧
    Told eol lines h.wire pending (blocks.map Prod.snd) history
  short : totalLength blocks ≤ bounds.bytes
  isTls : h.tls = tls
  waits : h.wantWrite = true → tls = true

def Tailed (h : Output) (blocks : Blocks) : Prop :=
  blocks ≠ [] → h.outputTail = lastSlot (addrs blocks)

variable {useTls : Bool} {eol : CString} {maxQueuedOutput : Int} {lines : List CString} {tls : Bool}
  {bounds : Bounds} {h : Output} {blocks : Blocks}

theorem Tailed.drop {block : Nat × CString} {rest : Blocks} (tailed : Tailed h (block :: rest)) :
    Tailed h rest := by
  intro nonempty
  have whole : addrs rest ≠ [] := fun none => nonempty (List.map_eq_nil_iff.mp none)
  rw [tailed (List.cons_ne_nil _ _)]
  exact lastSlot_cons block.1 whole

theorem Tailed.same {h' : Output} {other : Blocks} (tailed : Tailed h blocks)
    (tail : h'.outputTail = h.outputTail) (same : addrs other = addrs blocks) :
    Tailed h' other := by
  intro nonempty
  rw [tail, same]
  refine tailed fun none => nonempty ?_
  rw [none] at same
  exact List.map_eq_nil_iff.mp same

theorem notice_sound (r : WriteResult) (sound : Sound eol lines tls bounds h blocks) :
    Sound eol lines tls bounds (pushNetworkBufferOverflow eol r h).1 blocks ∧
      (pushNetworkBufferOverflow eol r h).1.outputTail = h.outputTail := by
  obtain ⟨chain, ⟨history, pending, lost, few, told⟩, short, isTls, waits⟩ := sound
  have noticed := told.notice
    ((overflowNotice eol pending).take (taken r (overflowNotice eol pending).length))
  simp only [pushNetworkBufferOverflow, lost, Int.toNat_natCast]
  split
  · rename_i complete
    rw [complete, List.take_length, if_pos rfl] at noticed
    rw [complete, List.take_length]
    exact ⟨⟨chain.of_fields rfl rfl rfl rfl, ⟨history, 0, rfl, by omega, noticed⟩, short, isTls,
      waits⟩, rfl⟩
  · rename_i partly
    have differs : (overflowNotice eol pending).take
        (taken r (overflowNotice eol pending).length) ≠ overflowNotice eol pending := by
      intro same
      have lengths := congrArg List.length same
      rw [List.length_take, taken] at lengths
      rw [taken] at partly
      omega
    rw [if_neg differs] at noticed
    split
    · rename_i withTls
      split
      · exact ⟨⟨chain.of_fields rfl rfl rfl rfl, ⟨history, pending, rfl, few, noticed⟩, short,
          isTls, fun _ => isTls.symm.trans withTls⟩, rfl⟩
      · exact ⟨⟨chain.of_fields rfl rfl rfl rfl, ⟨history, pending, rfl, few, noticed⟩, short,
          isTls, waits⟩, rfl⟩
    · exact ⟨⟨chain.of_fields rfl rfl rfl rfl, ⟨history, pending, rfl, few, noticed⟩, short,
        isTls, waits⟩, rfl⟩

theorem advance_sound {b : Nat} {text : CString} {rest : Blocks} {next : Option Nat} {count : Nat}
    (sound : Sound eol lines tls bounds h ((b, text) :: rest)) (tailed : Tailed h ((b, text) :: rest))
    (found : h.heap b = some ⟨text, next⟩) (fits : count ≤ text.length) :
    ∃ blocks', Sound eol lines tls bounds (h.advance b ⟨text, next⟩ count) blocks' ∧
      Tailed (h.advance b ⟨text, next⟩ count) blocks' := by
  obtain ⟨chain, ⟨history, pending, lost, few, told⟩, short, isTls, waits⟩ := sound
  obtain ⟨history', advanced⟩ := told.advance fits
  have inInt := Int.lt_of_le_of_lt short bounds.bytesInt
  rw [totalLength_cons] at short
  rw [List.length_cons] at few
  by_cases full : count = text.length
  · rw [if_pos full] at advanced
    simp only [Output.advance, if_pos full]
    refine ⟨rest, ⟨chain.drop_first found rfl rfl rfl (by rw [full]; rfl) inInt,
      ⟨history', pending, lost, by omega, advanced⟩, by omega, isTls, waits⟩, ?_⟩
    exact fun nonempty => tailed.drop nonempty
  · rw [if_neg full] at advanced
    simp only [Output.advance, if_neg full]
    have parts : text.length = count + (text.drop count).length := by
      rw [List.length_drop]
      omega
    refine ⟨(b, text.drop count) :: rest, ⟨chain.shorten_first found rfl rfl rfl rfl parts inInt,
      ⟨history', pending, lost, few, advanced⟩, ?_, isTls, waits⟩, ?_⟩
    · rw [totalLength_cons]
      omega
    exact tailed.same rfl rfl

/-! Pushing. -/

structure Good (eol : CString) (lines : List CString) (tls : Bool) (bounds : Bounds) (h : Output)
    (blocks : Blocks) : Prop extends Sound eol lines tls bounds h blocks where
  tail : h.outputTail = lastSlot (addrs blocks)

theorem Good.tailed (good : Good eol lines tls bounds h blocks) : Tailed h blocks := fun _ => good.tail

theorem Good.accounted (good : Good eol lines tls bounds h blocks) : Accounted eol lines h := by
  obtain ⟨history, pending, lost, _, told⟩ := good.told
  exact ⟨blocks, history, pending, good.chain, good.tail, lost, told⟩

theorem resetTail_good (sound : Sound eol lines tls bounds h blocks) (tailed : Tailed h blocks) :
    Good eol lines tls bounds h.resetTail blocks := by
  obtain ⟨chain, told, short, isTls, waits⟩ := sound
  rw [Output.resetTail]
  split
  · rename_i empty
    obtain rfl := chain.empty_iff.mp empty
    exact ⟨⟨chain.of_fields rfl rfl rfl rfl, told, short, isTls, waits⟩, rfl⟩
  · rename_i nonempty
    exact ⟨⟨chain, told, short, isTls, waits⟩, tailed (mt chain.empty_iff.mpr nonempty)⟩

theorem stopped_sound (again : Bool) (sound : Sound eol lines tls bounds h blocks) :
    Sound eol lines tls bounds (stopped again h).1 blocks ∧ (stopped again h).1.outputTail = h.outputTail := by
  obtain ⟨chain, told, short, isTls, waits⟩ := sound
  simp only [stopped]
  split
  · rename_i both
    obtain ⟨withTls, _⟩ := Bool.and_eq_true_iff.mp both
    exact ⟨⟨chain.of_fields rfl rfl rfl rfl, told, short, isTls,
      fun _ => isTls.symm.trans withTls⟩, rfl⟩
  · exact ⟨⟨chain, told, short, isTls, waits⟩, rfl⟩

theorem taken_le (r : WriteResult) (length : Nat) : taken r length ≤ length := Nat.min_le_right _ _

theorem pushLoop_good {fuel : Nat} (results : List WriteResult) (enough : results.length < fuel)
    (sound : Sound eol lines tls bounds h blocks) (tailed : Tailed h blocks) :
    ∃ h' pushed blocks', pushLoop useTls eol fuel results h = some (h', pushed) ∧
      Good eol lines tls bounds h' blocks' := by
  induction fuel generalizing results h blocks with
  | zero => omega
  | succ fuel ih =>
      rw [pushLoop]
      cases blocks with
      | nil =>
          rw [sound.chain.empty_iff.mpr rfl]
          exact ⟨_, _, [], rfl, resetTail_good sound tailed⟩
      | cons block rest =>
          obtain ⟨b, text⟩ := block
          obtain ⟨head, next, found, _⟩ := sound.chain.first
          rw [head]
          simp only [found, Option.bind_eq_bind, Option.bind_some]
          split
          · obtain ⟨kept, tail⟩ := stopped_sound (results.headD wouldBlock).again sound
            exact ⟨_, _, _, rfl, kept, tail.trans (tailed (List.cons_ne_nil _ _))⟩
          · rename_i goesOn
            have more : results.tail.length < fuel := by
              cases results with
              | nil => cases useTls <;> exact absurd (by simp [stops, wouldBlock, taken]) goesOn
              | cons r results => exact Nat.lt_of_succ_lt_succ enough
            obtain ⟨blocks', sound, tailed⟩ := advance_sound sound tailed found (taken_le _ _)
            split
            · rename_i waits
              have sound' : Sound eol lines tls bounds { h.advance b ⟨text, next⟩
                  (taken (results.headD wouldBlock) text.length) with wantWrite := false } blocks' :=
                ⟨sound.chain.of_fields rfl rfl rfl rfl, sound.told, sound.short, sound.isTls, nofun⟩
              split
              · obtain ⟨noticed, tail⟩ := notice_sound (results.tail.headD wouldBlock) sound'
                have tailed' := tailed.same tail rfl
                split
                · refine ih results.tail.tail ?_ noticed tailed'
                  rw [List.length_tail]
                  omega
                · exact ⟨_, _, _, rfl, resetTail_good noticed tailed'⟩
              · exact ih results.tail more sound' (tailed.same rfl rfl)
            · exact ih results.tail more sound tailed

theorem pushOutput_good (useTls : Bool) (results : List WriteResult) (good : Good eol lines tls bounds h blocks) :
    ∃ h' pushed blocks', pushOutput useTls eol results h = some (h', pushed) ∧
      Good eol lines tls bounds h' blocks' := by
  rw [pushOutput]
  split
  · exact ⟨h, true, blocks, rfl, good⟩
  · split
    · obtain ⟨noticed, tail⟩ := notice_sound (results.headD wouldBlock) good.toSound
      simp only
      split
      · refine pushLoop_good results.tail ?_ noticed (good.tailed.same tail rfl)
        rw [List.length_tail]
        omega
      · exact ⟨_, _, _, rfl, noticed, tail.trans good.tail⟩
    · exact pushLoop_good results (Nat.lt_succ_self _) good.toSound good.tailed

/-! Making room. -/

theorem flushLoop_enough {moveOutputHead : Bool} {fuel : Nat} {next : Option Nat} {toFlush : Int}
    (enough : ¬0 < toFlush) : flushLoop moveOutputHead fuel next toFlush h = some h := by
  cases fuel <;> simp [flushLoop, enough]

theorem flushLoop_none {moveOutputHead : Bool} {fuel : Nat} {toFlush : Int} :
    flushLoop moveOutputHead fuel none toFlush h = some h := by
  cases fuel <;> simp [flushLoop]

theorem flushLoop_first {fuel : Nat} (toFlush : Int) (fits : blocks.length ≤ fuel)
    (sound : Sound eol lines tls bounds h blocks) (tailed : Tailed h blocks) :
    ∃ h' blocks', flushLoop true fuel h.outputHead toFlush h = some h' ∧
      Sound eol lines tls bounds h' blocks' ∧ Tailed h' blocks' := by
  induction blocks generalizing fuel toFlush h with
  | nil =>
      rw [sound.chain.empty_iff.mpr rfl]
      exact ⟨h, [], flushLoop_none, sound, tailed⟩
  | cons block rest ih =>
      obtain ⟨b, text⟩ := block
      by_cases more : 0 < toFlush
      · obtain ⟨fuel, rfl⟩ := Nat.exists_eq_add_of_lt (Nat.lt_of_lt_of_le (Nat.succ_pos _) fits)
        obtain ⟨head, next, found, _⟩ := sound.chain.first
        obtain ⟨history, pending, lost, few, told⟩ := sound.told
        obtain ⟨history', flushed⟩ := Told.flush [] told
        have short := sound.short
        have inInt := Int.lt_of_le_of_lt short bounds.bytesInt
        rw [totalLength_cons] at short
        rw [List.length_cons] at few
        have lost' : int32 (h.outputLinesFlushed + 1) = (pending + 1 : Nat) := by
          have := bounds.linesInt
          rw [lost]
          exact int32_eq (by omega) (by omega)
        rw [Nat.zero_add, head, flushLoop, if_pos more]
        simp only [found, Option.bind_eq_bind, Option.bind_some, if_true]
        have kept : Sound eol lines tls bounds (Output.freeTextBlock { h with
            outputLength := int32 (h.outputLength - text.length)
            outputLinesFlushed := int32 (h.outputLinesFlushed + 1)
            outputHead := next } b) rest :=
          ⟨sound.chain.drop_first found rfl rfl rfl rfl inInt,
            ⟨history', pending + 1, lost', by omega, flushed⟩, by omega, sound.isTls, sound.waits⟩
        exact ih _ (Nat.le_of_succ_le_succ (by simpa using fits)) kept
          tailed.drop
      · exact ⟨h, (b, text) :: rest, flushLoop_enough more, sound, tailed⟩

def TailedBehind (h : Output) (rest : Blocks) : Prop :=
  rest ≠ [] → h.outputTail = lastSlot (addrs rest)

theorem flushLoop_second {a : Nat} {front : CString} {rest : Blocks} {fuel : Nat}
    {next : Option Nat} (toFlush : Int) (fits : rest.length ≤ fuel)
    (sound : Sound eol lines tls bounds h ((a, front) :: rest)) (found : h.heap a = some ⟨front, next⟩)
    (tailed : TailedBehind h rest) :
    ∃ h' rest', flushLoop false fuel next toFlush h = some h' ∧
      Sound eol lines tls bounds h' ((a, front) :: rest') ∧ TailedBehind h' rest' := by
  induction rest generalizing fuel toFlush next h with
  | nil =>
      obtain ⟨_, next', found', leads⟩ := sound.chain.first
      obtain rfl : next' = next := by
        rw [found] at found'
        exact (TextBlock.mk.inj (Option.some.inj found')).2.symm
      obtain rfl : next' = none := leads
      exact ⟨h, [], flushLoop_none, sound, tailed⟩
  | cons block rest ih =>
      obtain ⟨b, text⟩ := block
      by_cases more : 0 < toFlush
      · obtain ⟨fuel, rfl⟩ := Nat.exists_eq_add_of_lt (Nat.lt_of_lt_of_le (Nat.succ_pos _) fits)
        obtain ⟨head, next', found', leads⟩ := sound.chain.first
        obtain rfl : next' = next := by
          rw [found] at found'
          exact (TextBlock.mk.inj (Option.some.inj found')).2.symm
        obtain rfl : next' = some b := leads.1
        obtain ⟨second, foundB, sameText⟩ := Option.map_eq_some_iff.mp
          (sound.chain.held (b, text) (by simp))
        obtain ⟨_, onward⟩ := second
        obtain rfl := sameText
        obtain ⟨history, pending, lost, few, told⟩ := sound.told
        obtain ⟨history', flushed⟩ := Told.flush [front] told
        have short := sound.short
        have inInt := Int.lt_of_le_of_lt short bounds.bytesInt
        rw [totalLength_cons, totalLength_cons] at short
        rw [List.length_cons, List.length_cons] at few
        have lost' : int32 (h.outputLinesFlushed + 1) = (pending + 1 : Nat) := by
          have := bounds.linesInt
          rw [lost]
          exact int32_eq (by omega) (by omega)
        rw [Nat.zero_add, flushLoop, if_pos more]
        simp only [foundB, Option.bind_eq_bind, Option.bind_some, Bool.false_eq_true, if_false,
          head, Output.storeNext, found, Option.map_some]
        refine ih _ (Nat.le_of_succ_le_succ (by simpa using fits))
          ⟨sound.chain.drop_second foundB rfl head.symm rfl rfl inInt,
            ⟨history', pending + 1, lost', by rw [List.length_cons]; omega, flushed⟩,
            by rw [totalLength_cons]; omega, sound.isTls, sound.waits⟩ ?_ ?_
        · have differ : a ≠ b := fun same => sound.chain.tail.2 (same ▸ List.mem_cons_self)
          exact (Function.update_of_ne differ _ _).trans (Function.update_self _ _ _)
        · exact fun nonempty => (tailed (List.cons_ne_nil _ _)).trans
            (lastSlot_cons b fun none => nonempty (List.map_eq_nil_iff.mp none))
      · exact ⟨h, (b, text) :: rest, flushLoop_enough more, sound, tailed⟩

theorem fixTail_good (sound : Sound eol lines tls bounds h blocks)
    (tailed : ∀ block rest, blocks = block :: rest → TailedBehind h rest) :
    ∃ h', fixTail h = some h' ∧ Good eol lines tls bounds h' blocks := by
  obtain ⟨chain, told, short, isTls, waits⟩ := sound
  rw [fixTail]
  cases blocks with
  | nil =>
      rw [chain.empty_iff.mpr rfl]
      exact ⟨_, rfl, ⟨chain.of_fields rfl (chain.empty_iff.mpr rfl).symm rfl rfl, told, short, isTls, waits⟩,
        rfl⟩
  | cons block rest =>
      obtain ⟨b, text⟩ := block
      obtain ⟨head, next, found, leads⟩ := chain.first
      simp only [head, found, Option.map_some]
      cases rest with
      | nil =>
          obtain rfl : next = none := leads
          exact ⟨_, rfl, ⟨chain.of_fields rfl head.symm rfl rfl, told, short, isTls, waits⟩, rfl⟩
      | cons second rest =>
          obtain rfl : next = some second.1 := leads.1
          exact ⟨h, rfl, ⟨chain, told, short, isTls, waits⟩,
            (tailed _ _ rfl (List.cons_ne_nil _ _)).trans
              (lastSlot_cons b (List.cons_ne_nil _ _)).symm⟩

/-- A write is pending, and there are fewer than two blocks. -/
def Cornered (h : Output) : Prop :=
  h.wantWrite = true ∧
    ∀ b block, h.outputHead = some b → h.heap b = some block → block.next = none

def OutputCall.Short (eol : CString) (h : Output) : OutputCall → Prop
  | .enqueue _ line addEol _ _ =>
      h.outputLength + (if addEol then line ++ eol else line).length < 2 ^ 31 ∧
        h.outputLinesFlushed + h.allocated + 1 < 2 ^ 31
  | _ => True

/-- The call is short, and does not go on to make room with a write pending and nothing behind it to
flush. -/
def OutputCall.Roomy (useTls : Bool) (eol : CString) (maxQueuedOutput : Int) (h : Output)
    (call : OutputCall) : Prop :=
  call.Short eol h ∧
    match call with
    | .enqueue _ line addEol flushOk results =>
        let length := int32 (if addEol then line ++ eol else line).length
        h.outputLength ≠ 0 → maxQueuedOutput < int32 (h.outputLength + length) →
          ∀ h' pushed, pushOutput useTls eol results h = some (h', pushed) →
            flushOk = true ∨ int32 (h'.outputLength + length - maxQueuedOutput) ≤ 0 → ¬Cornered h'
    | _ => True

theorem makeRoom_good {length : Int} {flushOk : Bool} {results : List WriteResult}
    (good : Good eol lines tls bounds h blocks)
    (roomy : h.outputLength ≠ 0 → maxQueuedOutput < int32 (h.outputLength + length) →
      ∀ h' pushed, pushOutput useTls eol results h = some (h', pushed) →
        flushOk = true ∨ int32 (h'.outputLength + length - maxQueuedOutput) ≤ 0 → ¬Cornered h') :
    ∃ h' result blocks', makeRoom useTls eol maxQueuedOutput length flushOk results h =
        some (h', result) ∧ Good eol lines tls bounds h' blocks' ∧ result ≠ some true := by
  rw [makeRoom]
  split
  · rename_i full
    obtain ⟨h₁, pushed, blocks₁, ran, good₁⟩ :=
      pushOutput_good useTls results good
    have notCornered := roomy full.1 full.2 h₁ pushed ran
    have fits : blocks₁.length ≤ h₁.allocated := Nat.le_of_eq good₁.chain.allocated.symm
    simp only [ran, Option.bind_eq_bind, Option.bind_some]
    split
    · exact ⟨_, _, blocks₁, rfl, good₁, nofun⟩
    · rename_i goesOn
      have roomy₁ : ¬Cornered h₁ := notCornered (by
        cases flushOk with
        | true => exact .inl rfl
        | false => exact .inr (by simp only [and_true] at goesOn; omega))
      split
      · rename_i waits
        cases blocks₁ with
        | nil =>
            have empty := good₁.chain.empty_iff.mpr rfl
            exact absurd ⟨waits, fun b _ head _ => by simp [empty] at head⟩ roomy₁
        | cons block rest =>
            obtain ⟨b, text⟩ := block
            obtain ⟨head, next, found, leads⟩ := good₁.chain.first
            have behind : next ≠ none := by
              rintro rfl
              refine roomy₁ ⟨waits, fun a block headA foundA => ?_⟩
              obtain rfl := Option.some.inj (head.symm.trans headA)
              rw [found] at foundA
              rw [← Option.some.inj foundA]
            simp only [head, found, Option.bind_some, if_neg behind]
            obtain ⟨h₂, rest', flushed, sound, tailed⟩ := flushLoop_second
              (int32 (h₁.outputLength + length - maxQueuedOutput))
              (Nat.le_of_succ_le fits) good₁.toSound found fun nonempty =>
                good₁.tail.trans (lastSlot_cons b fun none => nonempty (List.map_eq_nil_iff.mp none))
            obtain ⟨h₃, fixed, good₃⟩ := fixTail_good sound fun block rest same => by
              obtain ⟨_, rfl⟩ := List.cons.inj same
              exact tailed
            simp only [flushed, Option.bind_some, fixed]
            exact ⟨_, _, _, rfl, good₃, nofun⟩
      · obtain ⟨h₂, blocks₂, flushed, sound, tailed⟩ := flushLoop_first
          (int32 (h₁.outputLength + length - maxQueuedOutput)) fits good₁.toSound good₁.tailed
        obtain ⟨h₃, fixed, good₃⟩ := fixTail_good sound fun block rest same => by
          subst same
          exact tailed.drop
        simp only [flushed, Option.bind_some, fixed]
        exact ⟨_, _, _, rfl, good₃, nofun⟩
  · exact ⟨_, _, blocks, rfl, good, nofun⟩

/-! Calls. -/

theorem Good.tight (good : Good eol lines tls bounds h blocks) :
    ∃ bounds' : Bounds, bounds'.bytes = h.outputLength ∧
      bounds'.lines = h.outputLinesFlushed + h.allocated ∧
      Good eol lines tls bounds' h blocks := by
  obtain ⟨⟨chain, ⟨history, pending, lost, few, told⟩, short, isTls, waits⟩, tail⟩ := good
  have bytesInt := bounds.bytesInt
  have linesInt := bounds.linesInt
  refine ⟨⟨h.outputLength, h.outputLinesFlushed + h.allocated, ?_, ?_⟩, rfl, rfl,
    ⟨chain, ⟨history, pending, lost, ?_, told⟩, Int.le_of_eq chain.length.symm, isTls, waits⟩, tail⟩
  · rw [chain.length]
    omega
  · rw [lost, chain.allocated]
    omega
  · change _ ≤ h.outputLinesFlushed + h.allocated
    rw [lost, chain.allocated]

theorem Good.append (good : Good eol lines tls bounds h blocks) {b : Nat} (fresh : h.heap b = none)
    {text : CString} (bytes : bounds.bytes + text.length < 2 ^ 31)
    (count : bounds.lines + 1 < 2 ^ 31) :
    ∃ h', (h.allocate b ⟨text, none⟩).storeNext h.outputTail (some b) = some h' ∧
      Good eol (lines ++ [text]) tls ⟨_, _, bytes, count⟩
        { h' with outputTail := .of b, outputLength := int32 (h'.outputLength + text.length) }
        (blocks ++ [(b, text)]) := by
  have short := good.short
  obtain ⟨history, pending, lost, few, told⟩ := good.told
  obtain ⟨h', stored, same, chain⟩ := @Chain.append h b blocks good.chain good.tail fresh text
    (by omega)
  have told' : Told eol (lines ++ [text]) h'.wire pending ((blocks ++ [(b, text)]).map Prod.snd)
      (history ++ [⟨text, 0, .queued⟩]) := by
    rw [same.wire, List.map_append]
    exact told.append text
  refine ⟨h', stored, ⟨chain, ⟨_, pending, same.flushed.trans lost, ?_, told'⟩, ?_,
    same.tls.trans good.isTls, fun waits => good.waits (same.wantWrite.symm.trans waits)⟩, ?_⟩
  · rw [List.length_append, List.length_singleton]
    change _ ≤ bounds.lines + 1
    omega
  · rw [totalLength_append]
    change _ ≤ bounds.bytes + text.length
    omega
  · rw [addrs, List.map_append]
    exact (lastSlot_concat _ _).symm

theorem run_good {call : OutputCall} (good : Good eol lines tls bounds h blocks)
    (fresh : call.Fresh useTls eol maxQueuedOutput h)
    (roomy : call.Roomy useTls eol maxQueuedOutput h) :
    ∃ h' new blocks' bounds', call.run useTls eol maxQueuedOutput h = some (h', new) ∧
      Good eol (lines ++ new) tls bounds' h' blocks' := by
  cases call with
  | enqueue b line addEol flushOk results =>
      obtain ⟨⟨bytes, count⟩, roomy⟩ := roomy
      obtain ⟨bounds', sameBytes, sameLines, tight⟩ := good.tight
      obtain ⟨h₁, result, blocks₁, made, good₁, notYet⟩ := makeRoom_good tight roomy
      cases result with
      | some result =>
          obtain rfl : result = false := by
            cases result with
            | true => exact absurd rfl notYet
            | false => rfl
          refine ⟨h₁, [], blocks₁, bounds', ?_, by simpa using good₁⟩
          simp [OutputCall.run, enqueueOutput, made]
      | none =>
          generalize isText : (if addEol then line ++ eol else line) = text at made bytes
          have noneQueued := totalLength_nonneg blocks
          have isInt : int32 text.length = text.length := by
            have queued := tight.chain.length
            exact int32_eq (by omega) (by omega)
          obtain ⟨h₂, stored, good₂⟩ := good₁.append (fresh h₁ (isText ▸ made))
            (by rw [sameBytes]; exact bytes) (by rw [sameLines]; exact count)
          rw [isInt] at made
          refine ⟨_, [text], blocks₁ ++ [(b, text)], _, ?_, good₂⟩
          simp [OutputCall.run, enqueueOutput, isText, made, stored, isInt]
  | push results =>
      obtain ⟨h', pushed, blocks', ran, good'⟩ := pushOutput_good useTls results good
      exact ⟨h', [], blocks', bounds, by simp [OutputCall.run, ran], by simpa using good'⟩
  | handshake =>
      refine ⟨_, [], blocks, bounds, rfl, ?_⟩
      rw [List.append_nil]
      exact ⟨⟨good.chain.of_fields rfl rfl rfl rfl, good.told, good.short, good.isTls, good.waits⟩,
        good.tail⟩

abbrev Sofar := Output × List CString

def Calls (useTls : Bool) (eol : CString) (maxQueuedOutput : Int)
    (Allowed : Output → OutputCall → Prop) (before after : Sofar) : Prop :=
  ∃ call : OutputCall, call.Fresh useTls eol maxQueuedOutput before.1 ∧ Allowed before.1 call ∧
    ∃ new, call.run useTls eol maxQueuedOutput before.1 = some (after.1, new) ∧
      after.2 = before.2 ++ new

def IsSafe (useTls : Bool) (eol : CString) (maxQueuedOutput : Int)
    (Allowed : Output → OutputCall → Prop) (state : Sofar) : Prop :=
  Accounted eol state.2 state.1 ∧
    ∀ call : OutputCall, call.Fresh useTls eol maxQueuedOutput state.1 → Allowed state.1 call →
      (call.run useTls eol maxQueuedOutput state.1).isSome

theorem good_new (connected : Bool) :
    Good eol [] tls ⟨0, 0, by decide, by decide⟩ (newOutput tls connected) [] :=
  ⟨⟨chain_new tls connected, ⟨[], 0, rfl, Int.le_refl _, told_new⟩, Int.le_refl _, rfl, nofun⟩, rfl⟩

theorem calls_good {Allowed : Output → OutputCall → Prop} {connected : Bool} {state : Sofar}
    (roomy : ∀ lines bounds h blocks call, Good eol lines tls bounds h blocks → Allowed h call →
      call.Roomy useTls eol maxQueuedOutput h)
    (reachable : Runs.Reachable (newOutput tls connected, [])
      (Calls useTls eol maxQueuedOutput Allowed) state) :
    IsSafe useTls eol maxQueuedOutput Allowed state := by
  have kept : ∃ bounds blocks, Good eol state.2 tls bounds state.1 blocks := by
    refine reachable.invariant
      (fun state => ∃ bounds blocks, Good eol state.2 tls bounds state.1 blocks)
      ⟨_, [], good_new connected⟩ ?_
    rintro before after ⟨bounds, blocks, good⟩ ⟨call, fresh, allowed, new, ran, grown⟩
    obtain ⟨h', new', blocks', bounds', ran', good'⟩ :=
      run_good good fresh (roomy _ _ _ _ _ good allowed)
    obtain ⟨sameOutput, rfl⟩ := Prod.mk.inj (Option.some.inj (ran.symm.trans ran'))
    rw [sameOutput, grown]
    exact ⟨bounds', blocks', good'⟩
  obtain ⟨bounds, blocks, good⟩ := kept
  refine ⟨good.accounted, fun call fresh allowed => ?_⟩
  obtain ⟨_, _, _, _, ran, _⟩ := run_good good fresh (roomy _ _ _ _ _ good allowed)
  rw [ran]
  rfl

theorem reachable_call {Allowed : Output → OutputCall → Prop} {start before : Sofar} {h' : Output}
    {new : List CString}
    (reachable : Runs.Reachable start (Calls useTls eol maxQueuedOutput Allowed) before)
    (call : OutputCall) (fresh : call.Fresh useTls eol maxQueuedOutput before.1)
    (allowed : Allowed before.1 call)
    (ran : call.run useTls eol maxQueuedOutput before.1 = some (h', new)) :
    Runs.Reachable start (Calls useTls eol maxQueuedOutput Allowed) (h', before.2 ++ new) :=
  .step reachable ⟨call, fresh, allowed, new, ran, rfl⟩

/-- In every run whose calls are roomy the output is delivered in order with every loss
reported. -/
theorem output_delivers {connected : Bool} {state : Sofar}
    (reachable : Runs.Reachable (newOutput tls connected, []) (Calls useTls eol maxQueuedOutput
      fun h call => call.Roomy useTls eol maxQueuedOutput h) state) :
    IsSafe useTls eol maxQueuedOutput (fun h call => call.Roomy useTls eol maxQueuedOutput h) state :=
  calls_good (fun _ _ _ _ _ _ allowed => allowed) reachable

theorem output_delivers_line : ∃ state : Sofar, state.2 = [[97, 98]] ∧
    state.1.wire = [.block [97], .block [98]] ∧
    IsSafe true [13, 10] 65536 (fun h call => call.Roomy true [13, 10] 65536 h) state := by
  have queued := @reachable_call true [13, 10] 65536
    (fun h call => call.Roomy true [13, 10] 65536 h) (newOutput true true, []) _ _ _ .start
    (.enqueue 0 [97, 98] false true []) (fun _ made => by cases made; rfl)
    ⟨⟨by decide, by decide⟩, fun nonempty => absurd rfl nonempty⟩ rfl
  have pushed := reachable_call queued (.push [⟨1, false⟩, ⟨1, false⟩]) trivial ⟨trivial, trivial⟩ rfl
  exact ⟨_, rfl, rfl, output_delivers pushed⟩

theorem output_delivers_plain {connected : Bool} {state : Sofar}
    (reachable : Runs.Reachable (newOutput false connected, [])
      (Calls useTls eol maxQueuedOutput fun h call => call.Short eol h) state) :
    IsSafe useTls eol maxQueuedOutput (fun h call => call.Short eol h) state := by
  refine calls_good (fun lines bounds h blocks call good short => ⟨short, ?_⟩) reachable
  cases call with
  | enqueue b line addEol flushOk results =>
      intro _ _ h' pushed ran _ cornered
      obtain ⟨_, _, _, ran', good'⟩ := pushOutput_good useTls results good
      obtain ⟨rfl, _⟩ := Prod.mk.inj (Option.some.inj (ran.symm.trans ran'))
      cases good'.waits cornered.1
  | push results => trivial
  | handshake => trivial

/-- With a limit of 0 a notice that would block leaves a pending write and no block. -/
theorem output_null : ¬∀ (useTls : Bool) (eol : CString) (maxQueuedOutput : Int)
    (tls connected : Bool) (state : Sofar),
    Runs.Reachable (newOutput tls connected, []) (Calls useTls eol maxQueuedOutput fun _ _ => True)
      state → IsSafe useTls eol maxQueuedOutput (fun _ _ => True) state := by
  intro claimed
  have first := @reachable_call true [13, 10] 0 (fun _ _ => True) (newOutput true false, []) _ _ _ .start
    (.enqueue 0 [97] false true []) (fun _ made => by cases made; rfl) trivial rfl
  have second := reachable_call first (.enqueue 1 [98] false true [])
    (fun _ made => by cases made; rfl) trivial rfl
  have shaken := reachable_call second .handshake trivial trivial rfl
  have waiting := reachable_call shaken (.push []) trivial trivial rfl
  have safe := (claimed _ _ _ _ _ _ waiting).2
    (.enqueue 2 [99] false true [⟨1, false⟩, ⟨-1, true⟩]) nofun trivial
  exact absurd safe (by decide)

end ToastStunt.Network
