import ToastStunt.Network.OutputBlocks

/-!
What has become of the lines that were put into an output buffer, and what the peer has got.
-/

namespace ToastStunt.Network

inductive Fate
  | sent
  | flushed
  | queued
  deriving DecidableEq

/-- A line that was accepted: how much of it was written, and what has become of it. -/
structure Entry where
  line : CString
  written : Nat
  fate : Fate

namespace Entry

def isQueued (e : Entry) : Bool := e.fate = .queued

def isFlushed (e : Entry) : Bool := e.fate = .flushed

def left (e : Entry) : CString := e.line.drop e.written

def done (e : Entry) : CString := e.line.take e.written

end Entry

namespace Written

def blockBytes : Written → CString
  | block bytes => bytes
  | notice _ _ => []

def reports (eol : CString) : Written → Nat
  | block _ => 0
  | notice lost bytes => if bytes = overflowNotice eol lost then lost else 0

end Written

/-- The peer has got of each accepted line in turn what was written of it, all of what was sent;
`texts` is what is left of the queued ones; nothing of a line was written while one before it is
queued; and the complete notices and the one that is due report the lines that were flushed. -/
structure Told (eol : CString) (lines : List CString) (wire : List Written) (pending : Nat)
    (texts : List CString) (history : List Entry) : Prop where
  lines : history.map Entry.line = lines
  bytes : wire.flatMap Written.blockBytes = history.flatMap Entry.done
  within : ∀ e ∈ history, e.written ≤ e.line.length
  sent : ∀ e ∈ history, e.fate = .sent → e.written = e.line.length
  queued : (history.filter Entry.isQueued).map Entry.left = texts
  inTurn : history.Pairwise fun a b => a.fate = .queued → b.written = 0
  reported : (wire.map (Written.reports eol)).sum + pending = history.countP Entry.isFlushed

variable {eol : CString} {lines texts : List CString} {wire : List Written} {pending : Nat}
  {history : List Entry}

theorem told_new : Told eol [] [] 0 [] [] :=
  ⟨rfl, rfl, fun _ none => absurd none List.not_mem_nil,
    fun _ none => absurd none List.not_mem_nil, rfl, .nil, rfl⟩

theorem Told.notice (told : Told eol lines wire pending texts history) (bytes : CString) :
    Told eol lines (wire ++ [.notice pending bytes])
      (if bytes = overflowNotice eol pending then 0 else pending) texts history := by
  refine ⟨told.lines, ?_, told.within, told.sent, told.queued, told.inTurn, ?_⟩
  · rw [List.flatMap_append, told.bytes]
    simp [Written.blockBytes]
  · rw [← told.reported, List.map_append, List.sum_append]
    simp only [List.map_cons, List.map_nil, List.sum_singleton, Written.reports]
    split <;> omega

theorem Told.append (told : Told eol lines wire pending texts history) (line : CString) :
    Told eol (lines ++ [line]) wire pending (texts ++ [line]) (history ++ [⟨line, 0, .queued⟩]) := by
  refine ⟨?_, ?_, ?_, ?_, ?_, ?_, ?_⟩
  · rw [List.map_append, told.lines]
    rfl
  · rw [List.flatMap_append, ← told.bytes]
    simp [Entry.done]
  · intro e member
    rcases List.mem_append.mp member with old | new
    · exact told.within e old
    · obtain rfl := List.mem_singleton.mp new
      exact Nat.zero_le _
  · intro e member
    rcases List.mem_append.mp member with old | new
    · exact told.sent e old
    · obtain rfl := List.mem_singleton.mp new
      exact nofun
  · rw [List.filter_append, List.map_append, told.queued]
    rfl
  · refine List.pairwise_append.mpr ⟨told.inTurn, List.pairwise_singleton _ _, ?_⟩
    intro _ _ e new _
    obtain rfl := List.mem_singleton.mp new
    rfl
  · rw [told.reported, List.countP_append]
    rfl

theorem queued_split (front : List CString) {rest : List CString} {text : CString}
    (queued : (history.filter Entry.isQueued).map Entry.left = front ++ text :: rest) :
    ∃ past e later, history = past ++ e :: later ∧ e.fate = .queued ∧ e.left = text ∧
      (past.filter Entry.isQueued).map Entry.left = front ∧
      (later.filter Entry.isQueued).map Entry.left = rest := by
  obtain ⟨before, after, filtered, rfl, split⟩ := List.map_eq_append_iff.mp queued
  obtain ⟨e, others, rfl, rfl, rfl⟩ := List.map_eq_cons_iff.mp split
  obtain ⟨past, rest, rfl, rfl, filteredRest⟩ := List.filter_eq_append_iff.mp filtered
  obtain ⟨skipped, later, rfl, none_, isQueued, rfl⟩ := List.filter_eq_cons_iff.mp filteredRest
  have nothing : skipped.filter Entry.isQueued = [] := List.filter_eq_nil_iff.mpr none_
  exact ⟨past ++ skipped, e, later, by simp, by simpa [Entry.isQueued] using isQueued, rfl,
    by rw [List.filter_append, nothing, List.append_nil], rfl⟩

theorem Told.inTurn_change {past later : List Entry} {e e' : Entry}
    (told : Told eol lines wire pending texts (past ++ e :: later)) (was : e.fate = .queued)
    (before : e'.written = e.written ∨ ∀ other ∈ past, other.fate ≠ .queued) :
    (past ++ e' :: later).Pairwise fun a b => a.fate = .queued → b.written = 0 := by
  obtain ⟨inPast, inRest, across⟩ := List.pairwise_append.mp told.inTurn
  obtain ⟨fromEntry, inLater⟩ := List.pairwise_cons.mp inRest
  refine List.pairwise_append.mpr ⟨inPast, List.pairwise_cons.mpr
    ⟨fun other member _ => fromEntry other member was, inLater⟩, fun other inside next member => ?_⟩
  rcases List.mem_cons.mp member with rfl | member
  · intro isQueued
    rcases before with same | none_
    · rw [same]
      exact across other inside e List.mem_cons_self isQueued
    · exact absurd isQueued (none_ other inside)
  · exact across other inside next (List.mem_cons_of_mem _ member)

theorem Told.flush (front : List CString) {rest : List CString} {text : CString}
    (told : Told eol lines wire pending (front ++ text :: rest) history) :
    ∃ history', Told eol lines wire (pending + 1) (front ++ rest) history' := by
  obtain ⟨past, e, later, rfl, was, rfl, rfl, rfl⟩ := queued_split front told.queued
  refine ⟨past ++ { e with fate := .flushed } :: later, ?_, ?_, ?_, ?_, ?_,
    told.inTurn_change was (.inl rfl), ?_⟩
  · simpa using told.lines
  · rw [told.bytes, List.flatMap_append, List.flatMap_append, List.flatMap_cons, List.flatMap_cons]
    rfl
  · intro other member
    rcases List.mem_append.mp member with inside | member
    · exact told.within other (by simp [inside])
    · rcases List.mem_cons.mp member with rfl | inside
      · exact told.within e (by simp)
      · exact told.within other (by simp [inside])
  · intro other member
    rcases List.mem_append.mp member with inside | member
    · exact told.sent other (by simp [inside])
    · rcases List.mem_cons.mp member with rfl | inside
      · exact nofun
      · exact told.sent other (by simp [inside])
  · simp [Entry.isQueued]
  · have before := told.reported
    rw [List.countP_append, List.countP_cons] at before ⊢
    simp only [Entry.isFlushed, was, reduceCtorEq, decide_false, Bool.false_eq_true, if_false,
      decide_true, if_true] at before ⊢
    omega

theorem Told.advance {text : CString} {rest : List CString} {count : Nat}
    (told : Told eol lines wire pending (text :: rest) history) (fits : count ≤ text.length) :
    ∃ history', Told eol lines (wire ++ [.block (text.take count)]) pending
      (if count = text.length then rest else text.drop count :: rest) history' := by
  obtain ⟨past, e, later, rfl, was, rfl, noneBefore, rfl⟩ :=
    queued_split [] told.queued
  have none_ : ∀ other ∈ past, other.fate ≠ .queued := by
    intro other inside isQueued
    have found : other ∈ past.filter Entry.isQueued :=
      List.mem_filter.mpr ⟨inside, by simp [Entry.isQueued, isQueued]⟩
    rw [List.map_eq_nil_iff.mp noneBefore] at found
    exact List.not_mem_nil found
  have whole : e.written ≤ e.line.length := told.within e (by simp)
  have room : count ≤ e.line.length - e.written := by simpa [Entry.left] using fits
  have untouched : later.flatMap Entry.done = [] := by
    obtain ⟨_, inRest, _⟩ := List.pairwise_append.mp told.inTurn
    have fromEntry := (List.pairwise_cons.mp inRest).1
    refine List.flatMap_eq_nil_iff.mpr fun other inside => ?_
    rw [Entry.done, fromEntry other inside was, List.take_zero]
  refine ⟨past ++ ⟨e.line, e.written + count,
    if count = e.left.length then .sent else .queued⟩ :: later, ?_, ?_, ?_, ?_, ?_,
    told.inTurn_change was (.inr none_), ?_⟩
  · simpa using told.lines
  · have taken : Entry.done ⟨e.line, e.written + count,
        if count = e.left.length then .sent else .queued⟩ = e.done ++ e.left.take count :=
      List.take_add
    simp only [List.flatMap_append, List.flatMap_cons, told.bytes, untouched, taken,
      List.flatMap_nil, List.append_nil, Written.blockBytes, List.append_assoc]
  · intro other member
    rcases List.mem_append.mp member with inside | member
    · exact told.within other (by simp [inside])
    · rcases List.mem_cons.mp member with rfl | inside
      · change e.written + count ≤ e.line.length
        omega
      · exact told.within other (by simp [inside])
  · intro other member
    rcases List.mem_append.mp member with inside | member
    · exact told.sent other (by simp [inside])
    · rcases List.mem_cons.mp member with rfl | inside
      · intro isSent
        change e.written + count = e.line.length
        by_cases full : count = e.left.length
        · rw [full, Entry.left, List.length_drop]
          omega
        · simp [full] at isSent
      · exact told.sent other (by simp [inside])
  · rw [List.filter_append, List.map_append, noneBefore, List.nil_append]
    by_cases full : count = e.left.length
    · rw [if_pos full, if_pos full]
      rfl
    · rw [if_neg full, if_neg full]
      simp [Entry.isQueued, Entry.left, List.drop_drop]
  · have before := told.reported
    rw [List.countP_append, List.countP_cons] at before ⊢
    rw [List.map_append, List.sum_append]
    have notFlushed : (if count = e.left.length then Fate.sent else Fate.queued) ≠ Fate.flushed := by
      split <;> exact nofun
    simp only [Entry.isFlushed, was, reduceCtorEq, decide_false, Bool.false_eq_true, if_false,
      notFlushed, List.map_cons, List.map_nil, List.sum_singleton, Written.reports] at before ⊢
    omega

end ToastStunt.Network
