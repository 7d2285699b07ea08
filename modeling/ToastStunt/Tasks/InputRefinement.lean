import ToastStunt.Tasks.InputQueue

/-!
The two lists of an input queue hold one list of lines, over every run of calls.
-/

namespace ToastStunt.Tasks

open Chains InputQueue

/-! Stores and what they leave alone. -/

section

variable (q : InputQueue) (slot : Slot Nat) (link : Option Nat)

@[simp] theorem itails_setNext : (q.setNext slot link).itails = q.itails := by
  cases slot with
  | head => rfl
  | of t =>
      simp only [itails, setNext, Links.mk.injEq, true_and]
      funext other
      by_cases same : other = t
      · subst same
        cases q.heap other <;> simp
      · simp [same]

@[simp] theorem inputs_setNextItail : (q.setNextItail slot link).inputs = q.inputs := by
  cases slot with
  | head => rfl
  | of t =>
      simp only [inputs, setNextItail, Links.mk.injEq, true_and]
      funext other
      by_cases same : other = t
      · subst same
        cases q.heap other <;> simp
      · simp [same]

@[simp] theorem lineAt_setNext (t : Nat) : (q.setNext slot link).lineAt t = q.lineAt t := by
  cases slot with
  | head => rfl
  | of other =>
      by_cases same : t = other
      · subst same
        cases found : q.heap t <;> simp [lineAt, setNext, found]
      · simp [lineAt, setNext, same]

@[simp] theorem lineAt_setNextItail (t : Nat) :
    (q.setNextItail slot link).lineAt t = q.lineAt t := by
  cases slot with
  | head => rfl
  | of other =>
      by_cases same : t = other
      · subst same
        cases found : q.heap t <;> simp [lineAt, setNextItail, found]
      · simp [lineAt, setNextItail, same]

theorem live_of (t : Nat) : q.live (.of t) = (q.lineAt t).isSome := by
  simp [live, lineAt]

@[simp] theorem live_setNext (other : Slot Nat) :
    (q.setNext slot link).live other = q.live other := by
  cases other with
  | head => rfl
  | of t => rw [live_of, live_of, lineAt_setNext]

@[simp] theorem live_setNextItail (other : Slot Nat) :
    (q.setNextItail slot link).live other = q.live other := by
  cases other with
  | head => rfl
  | of t => rw [live_of, live_of, lineAt_setNextItail]

variable {q slot link}

theorem inputs_setNext (live : q.live slot = true) :
    (q.setNext slot link).inputs = q.inputs.store slot link := by
  cases slot with
  | head => rfl
  | of t =>
      obtain ⟨task, found⟩ := Option.isSome_iff_exists.mp live
      simp only [inputs, setNext, Links.store, Links.mk.injEq, true_and]
      funext other
      by_cases same : other = t
      · subst same
        simp [found]
      · simp [same]

theorem itails_setNextItail (live : q.live slot = true) :
    (q.setNextItail slot link).itails = q.itails.store slot link := by
  cases slot with
  | head => rfl
  | of t =>
      obtain ⟨task, found⟩ := Option.isSome_iff_exists.mp live
      simp only [itails, setNextItail, Links.store, Links.mk.injEq, true_and]
      funext other
      by_cases same : other = t
      · subst same
        simp [found]
      · simp [same]

end

structure SameElsewhere (q q' : InputQueue) : Prop where
  lineAt : ∀ t, q'.lineAt t = q.lineAt t
  total : q'.totalInputLength = q.totalInputLength
  disableOob : q'.disableOob = q.disableOob

theorem SameElsewhere.refl (q : InputQueue) : SameElsewhere q q := ⟨fun _ => rfl, rfl, rfl⟩

theorem SameElsewhere.trans {q r s : InputQueue} (first : SameElsewhere q r)
    (second : SameElsewhere r s) : SameElsewhere q s :=
  ⟨fun t => (second.lineAt t).trans (first.lineAt t), second.total.trans first.total,
    second.disableOob.trans first.disableOob⟩

theorem sameElsewhere_setNext (q : InputQueue) (slot : Slot Nat) (link : Option Nat) :
    SameElsewhere q (q.setNext slot link) :=
  ⟨fun t => lineAt_setNext q slot link t, by cases slot <;> rfl, by cases slot <;> rfl⟩

theorem sameElsewhere_setNextItail (q : InputQueue) (slot : Slot Nat) (link : Option Nat) :
    SameElsewhere q (q.setNextItail slot link) :=
  ⟨fun t => lineAt_setNextItail q slot link t, by cases slot <;> rfl, by cases slot <;> rfl⟩

@[simp] theorem lastInput_setNext (q : InputQueue) (slot : Slot Nat) (link : Option Nat) :
    (q.setNext slot link).lastInput = q.lastInput := by cases slot <;> rfl

@[simp] theorem lastItail_setNext (q : InputQueue) (slot : Slot Nat) (link : Option Nat) :
    (q.setNext slot link).lastItail = q.lastItail := by cases slot <;> rfl

@[simp] theorem lastInput_setNextItail (q : InputQueue) (slot : Slot Nat) (link : Option Nat) :
    (q.setNextItail slot link).lastInput = q.lastInput := by cases slot <;> rfl

@[simp] theorem lastItail_setNextItail (q : InputQueue) (slot : Slot Nat) (link : Option Nat) :
    (q.setNextItail slot link).lastItail = q.lastItail := by cases slot <;> rfl

/-! The list that the pointers make. -/

abbrev Items := List (Nat × Line)

def addrs (items : Items) : List Nat := items.map Prod.fst

def inOob : Nat × Line → Bool := fun item => item.2.isOob

def ends (items : Items) : List Nat := (runEnds inOob items).map Prod.fst

structure Linked (q : InputQueue) (items : Items) : Prop where
  held : ∀ item ∈ items, q.lineAt item.1 = some item.2
  apart : (addrs items).Nodup
  inputs : Leads q.inputs.next q.firstInput (addrs items) none
  lastInput : q.lastInput = lastSlot (addrs items)
  itails : Leads q.itails.next q.firstItail (ends items) none
  lastItail : q.lastItail = lastSlot (ends items).dropLast

theorem ends_sublist (items : Items) : (ends items).Sublist (addrs items) :=
  (runEnds_sublist items).map _

theorem Linked.live {q : InputQueue} {items : Items} (linked : Linked q items) {slot : Slot Nat}
    (inside : ∀ t, slot = .of t → t ∈ addrs items) : q.live slot = true := by
  cases slot with
  | head => rfl
  | of t =>
      obtain ⟨item, member, rfl⟩ := List.mem_map.mp (inside t rfl)
      rw [live_of, linked.held item member]
      rfl

theorem Linked.live_lastInput {q : InputQueue} {items : Items} (linked : Linked q items) :
    q.live q.lastInput = true :=
  linked.live fun _ same => lastSlot_mem (linked.lastInput ▸ same)

theorem Linked.live_lastItail {q : InputQueue} {items : Items} (linked : Linked q items) :
    q.live q.lastItail = true :=
  linked.live fun _ same => (ends_sublist items).subset
    ((List.dropLast_sublist _).subset (lastSlot_mem (linked.lastItail ▸ same)))

theorem Linked.update {q : InputQueue} {items : Items} (linked : Linked q items) {t : Nat}
    (fresh : t ∉ addrs items) (task : Option Task) :
    Linked { q with heap := Function.update q.heap t task } items := by
  have other : ∀ a ∈ addrs items, a ≠ t := fun a member same => fresh (same ▸ member)
  refine ⟨fun item member => ?_, linked.apart, leads_congr (fun a member => ?_) linked.inputs,
    linked.lastInput, leads_congr (fun a member => ?_) linked.itails, linked.lastItail⟩
  · have := linked.held item member
    simpa [lineAt, other item.1 (List.mem_map_of_mem member)] using this
  · simp [InputQueue.inputs, other a member]
  · simp [InputQueue.itails, other a ((ends_sublist items).subset member)]

theorem addrs_append (left right : Items) : addrs (left ++ right) = addrs left ++ addrs right :=
  List.map_append

theorem ends_front {t : Nat} {line : Line} {head : Nat × Line} {rest : Items} :
    ends ((t, line) :: head :: rest) =
      if head.2.isOob ≠ line.isOob then t :: ends (head :: rest) else ends (head :: rest) := by
  by_cases same : head.2.isOob = line.isOob
  · rw [if_neg (not_not.mpr same), ends, runEnds_inside ⟨head, rfl, same⟩, ends]
  · rw [if_pos same, ends, runEnds_end (by rintro ⟨_, ⟨⟩, goesOn⟩; exact same goesOn), ends]
    rfl

theorem Linked.front {q : InputQueue} {items : Items} {t : Nat} {line : Line}
    (nonempty : items ≠ []) (held : ∀ item ∈ (t, line) :: items, q.lineAt item.1 = some item.2)
    (apart : (addrs ((t, line) :: items)).Nodup)
    (inputs : Leads q.inputs.next q.firstInput (addrs items) none)
    (lastInput : q.lastInput = lastSlot (addrs items))
    (itails : Leads q.itails.next q.firstItail (ends ((t, line) :: items)) none)
    (lastItail : q.lastItail = lastSlot (ends ((t, line) :: items)).dropLast) :
    Linked ((q.setNext (.of t) q.firstInput).setNext .head (some t)) ((t, line) :: items) := by
  have live : q.live (.of t) = true := by
    rw [live_of, held (t, line) (by simp)]
    rfl
  have stored : ((q.setNext (.of t) q.firstInput).setNext .head (some t)).inputs =
      (q.inputs.store (.of t) q.firstInput).store .head (some t) := by
    rw [inputs_setNext rfl, inputs_setNext live]
  refine ⟨fun item member => by simpa using held item member, apart, ?_, ?_, ?_, ?_⟩
  · rw [stored]
    exact leads_push inputs (List.nodup_cons.mp apart).1
  · rw [lastInput_setNext, lastInput_setNext, lastInput]
    exact (lastSlot_cons t (by simpa [addrs] using nonempty)).symm
  · rw [itails_setNext, itails_setNext]
    exact itails
  · rw [lastItail_setNext, lastItail_setNext, lastItail]

theorem Linked.newRun {q : InputQueue} {items : Items} (linked : Linked q items)
    (nonempty : items ≠ []) {t : Nat} {line : Line} (held : q.lineAt t = some line)
    (fresh : t ∉ addrs items) (isEnd : ends ((t, line) :: items) = t :: ends items)
    {slot : Slot Nat} (lastItail : slot = lastSlot (ends ((t, line) :: items)).dropLast) :
    let r : InputQueue := { (q.setNextItail (.of t) q.firstItail).setNextItail .head (some t) with
      lastItail := slot }
    Linked ((r.setNext (.of t) q.firstInput).setNext .head (some t)) ((t, line) :: items) := by
  intro r
  have live : q.live (.of t) = true := by rw [live_of, held]; rfl
  have lines : ∀ a, r.lineAt a = q.lineAt a := by
    intro a
    change ((q.setNextItail (.of t) q.firstItail).setNextItail .head (some t)).lineAt a = _
    simp
  have inputs : r.inputs = q.inputs := by
    change ((q.setNextItail (.of t) q.firstItail).setNextItail .head (some t)).inputs = _
    simp
  have itails : r.itails = (q.itails.store (.of t) q.firstItail).store .head (some t) := by
    change ((q.setNextItail (.of t) q.firstItail).setNextItail .head (some t)).itails = _
    rw [itails_setNextItail rfl, itails_setNextItail live]
  refine Linked.front (q := r) nonempty ?_ ?_ (inputs ▸ linked.inputs) linked.lastInput ?_ lastItail
  · intro item member
    rw [lines]
    rcases List.mem_cons.mp member with rfl | old
    · exact held
    · exact linked.held item old
  · exact List.nodup_cons.mpr ⟨fresh, linked.apart⟩
  · rw [isEnd, itails]
    exact leads_push linked.itails fun member => fresh ((ends_sublist _).subset member)

theorem linkAtFront_links {q : InputQueue} {head : Nat × Line} {rest : Items}
    (linked : Linked q (head :: rest)) {t : Nat} {line : Line} (held : q.lineAt t = some line)
    (fresh : t ∉ addrs (head :: rest)) :
    ∃ q', linkAtFront t head.1 line q = some q' ∧ Linked q' ((t, line) :: head :: rest) ∧
      SameElsewhere q q' := by
  have live : q.live (.of t) = true := by rw [live_of, held]; rfl
  have headLine := linked.held head (by simp)
  by_cases differ : head.2.isOob ≠ line.isOob
  · have isEnd : ends ((t, line) :: head :: rest) = t :: ends (head :: rest) := by
      rw [ends_front, if_pos differ]
    have someEnd : ends (head :: rest) ≠ [] := by simp [ends, runEnds_eq_nil]
    have shifted : (ends ((t, line) :: head :: rest)).dropLast = t :: (ends (head :: rest)).dropLast := by
      rw [isEnd, List.dropLast_cons_of_ne_nil someEnd]
    obtain ⟨slot, chosen, lastItail⟩ : ∃ slot, (if q.lastItail = .head then .of t else q.lastItail) =
        slot ∧ slot = lastSlot (ends ((t, line) :: head :: rest)).dropLast := by
      refine ⟨_, rfl, ?_⟩
      rw [shifted, linked.lastItail]
      split
      · rename_i none
        rw [lastSlot_head.mp none]
        rfl
      · rename_i some
        exact (lastSlot_cons t (mt lastSlot_head.mpr some)).symm
    have result := linked.newRun (by simp) held fresh isEnd lastItail
    refine ⟨_, ?_, result, ?_⟩
    · have liveNow : ∀ first last, ({ q.setNextItail (.of t) q.firstItail with
          firstItail := first, lastItail := last } : InputQueue).live (.of t) = true :=
        fun _ _ => (live_setNextItail q (.of t) q.firstItail (.of t)).trans live
      simp only [linkAtFront, headLine, Option.bind_eq_bind, Option.bind_some, if_pos differ,
        storeNextItail, live, if_true, lastItail_setNextItail]
      split at chosen
      · rename_i single
        subst chosen
        simp only [if_pos single, Option.bind_some, storeNext, liveNow, if_true]
        rfl
      · rename_i more
        subst chosen
        simp only [if_neg more, Option.bind_some, storeNext, liveNow, if_true]
        rfl
    · exact ⟨fun a => by
        simp only [lineAt_setNext]
        change ((q.setNextItail (.of t) q.firstItail).setNextItail .head (some t)).lineAt a = _
        simp, rfl, rfl⟩
  · have inside : ends ((t, line) :: head :: rest) = ends (head :: rest) := by
      rw [ends_front, if_neg differ]
    have result := @Linked.front q (head :: rest) t line (by simp) ?_
      (List.nodup_cons.mpr ⟨fresh, linked.apart⟩) linked.inputs linked.lastInput
      (inside ▸ linked.itails) (inside ▸ linked.lastItail)
    · refine ⟨_, ?_, result, ?_⟩
      · simp only [linkAtFront, headLine, Option.bind_eq_bind, Option.bind_some, if_neg differ, storeNext,
          live, if_true]
        rfl
      · exact (sameElsewhere_setNext q _ _).trans (sameElsewhere_setNext _ _ _)
    · intro item member
      rcases List.mem_cons.mp member with rfl | old
      · exact held
      · exact linked.held item old

theorem rear_itail {q : InputQueue} {items : Items} (linked : Linked q items) (t : Nat)
    (line : Line) : ∃ stem stop, ends (items ++ [(t, line)]) = stem ++ [t] ∧
      Leads q.itails.next q.firstItail stem stop ∧ stem.Sublist (addrs items) ∧
      moveLastItail line q = some { q with lastItail := lastSlot stem } := by
  rcases List.eq_nil_or_concat items with rfl | ⟨front, last, rfl⟩
  · have empty : q.firstInput = none := linked.inputs
    have slot : q.lastItail = lastSlot [] := linked.lastItail
    refine ⟨[], none, rfl, linked.itails, List.Sublist.slnil, ?_⟩
    rw [moveLastItail, if_neg (by simp [empty]), ← slot]
  · rw [List.concat_eq_append] at linked ⊢
    obtain ⟨stem, now, later⟩ :=
      @runEnds_concat _ inOob front last (t, line)
    have endsNow : ends (front ++ [last]) = stem.map Prod.fst ++ [last.1] := by
      rw [ends, now, List.map_append]
      rfl
    have sublist := ends_sublist (front ++ [last])
    rw [endsNow] at sublist
    have slot : q.lastItail = lastSlot (stem.map Prod.fst) := by
      rw [linked.lastItail, endsNow, List.dropLast_concat]
    have whole := linked.itails
    rw [endsNow] at whole
    obtain ⟨middle, before, same, _⟩ := leads_append.mp whole
    have loaded : q.loadNextItail q.lastItail = some (some last.1) := by
      rw [loadNextItail, if_pos linked.live_lastItail, slot]
      exact congrArg some ((load_lastSlot before).trans same)
    have lastLine := linked.held last (by simp)
    have some : q.firstInput.isSome = true := by
      have inputs := linked.inputs
      rw [addrs_append] at inputs
      cases front with
      | nil => rw [inputs.1]; rfl
      | cons head front => rw [inputs.1]; rfl
    by_cases differ : last.2.isOob ≠ line.isOob
    · refine ⟨stem.map Prod.fst ++ [last.1], none, ?_, whole, sublist, ?_⟩
      · rw [ends, later, inOob, inOob, if_neg differ, List.map_append, List.map_append]
        rfl
      · rw [lastSlot_concat]
        simp [moveLastItail, some, loaded, lastLine, differ]
    · refine ⟨stem.map Prod.fst, middle, ?_, before, (List.sublist_append_left _ _).trans sublist, ?_⟩
      · rw [ends, later, inOob, inOob, if_pos (not_not.mp differ), List.map_append]
        rfl
      · rw [← slot]
        simp [moveLastItail, some, loaded, lastLine, differ]

theorem linkAtRear_links {q : InputQueue} {items : Items} (linked : Linked q items) {t : Nat}
    {line : Line} (held : q.lineAt t = some line) (fresh : t ∉ addrs items)
    (unlinked : q.itails.next t = none) :
    ∃ q', linkAtRear t line q = some q' ∧ Linked q' (items ++ [(t, line)]) ∧
      SameElsewhere q q' := by
  obtain ⟨stem, stop, endsNow, stemLeads, sublist, moved⟩ := rear_itail linked t line
  let q₁ : InputQueue := { q with lastItail := lastSlot stem }
  let q₂ := q₁.setNextItail (lastSlot stem) (some t)
  let q₃ := q₂.setNext q.lastInput (some t)
  let q₄ : InputQueue := { q₃ with lastInput := .of t }
  have stemLive : q₁.live (lastSlot stem) = true :=
    linked.live fun a same => sublist.subset (lastSlot_mem same)
  have inputLive : q₂.live q.lastInput = true :=
    (live_setNextItail q₁ _ _ _).trans linked.live_lastInput
  have lines : ∀ a, q₄.lineAt a = q.lineAt a := by
    intro a
    change (q₂.setNext q.lastInput (some t)).lineAt a = q.lineAt a
    rw [lineAt_setNext, lineAt_setNextItail]
    rfl
  have tLive : q₄.live (.of t) = true := by rw [live_of, lines, held]; rfl
  have inputs : (q₄.setNext (.of t) none).inputs =
      (q.inputs.store (lastSlot (addrs items)) (some t)).store (.of t) none := by
    rw [inputs_setNext tLive]
    change (q₂.setNext q.lastInput (some t)).inputs.store _ _ = _
    rw [inputs_setNext inputLive, inputs_setNextItail, linked.lastInput]
    rfl
  have itails : (q₄.setNext (.of t) none).itails = q.itails.store (lastSlot stem) (some t) := by
    rw [itails_setNext]
    change (q₂.setNext q.lastInput (some t)).itails = _
    rw [itails_setNext, itails_setNextItail stemLive]
    rfl
  have apart : (addrs (items ++ [(t, line)])).Nodup := by
    rw [addrs_append, List.nodup_append]
    refine ⟨linked.apart, List.nodup_singleton t, fun a member b single same => fresh ?_⟩
    obtain rfl : b = t := by simpa [addrs] using single
    exact same ▸ member
  have apartFrom : addrs (items ++ [(t, line)]) = addrs items ++ [t] := addrs_append _ _
  have elsewhere : SameElsewhere q (q₄.setNext (.of t) none) := by
    refine ⟨fun a => (lineAt_setNext _ _ _ a).trans (lines a), ?_, ?_⟩
    · refine (sameElsewhere_setNext q₄ _ _).total.trans ?_
      exact (sameElsewhere_setNext q₂ _ _).total.trans (sameElsewhere_setNextItail q₁ _ _).total
    · refine (sameElsewhere_setNext q₄ _ _).disableOob.trans ?_
      exact (sameElsewhere_setNext q₂ _ _).disableOob.trans
        (sameElsewhere_setNextItail q₁ _ _).disableOob
  refine ⟨q₄.setNext (.of t) none, ?_, ⟨?_, apart, ?_, ?_, ?_, ?_⟩, elsewhere⟩
  · have first : q₁.storeNextItail q₁.lastItail (some t) = some q₂ := if_pos stemLive
    have second : q₂.storeNext q₂.lastInput (some t) = some q₃ := by
      rw [lastInput_setNextItail]
      exact if_pos inputLive
    have third : q₄.storeNext (.of t) none = some (q₄.setNext (.of t) none) := if_pos tLive
    simp only [linkAtRear, Option.bind_eq_bind, moved, Option.bind_some]
    rw [first, Option.bind_some, second, Option.bind_some]
    exact third
  · intro item member
    rw [elsewhere.lineAt]
    rcases List.mem_append.mp member with old | new
    · exact linked.held item old
    · obtain rfl := List.mem_singleton.mp new
      exact held
  · change Leads (q₄.setNext (.of t) none).inputs.next (q₄.setNext (.of t) none).inputs.first _ _
    rw [inputs, apartFrom]
    have longer := leads_concat linked.inputs linked.apart fresh
    have stored := leads_store none longer (apartFrom ▸ apart)
    rwa [lastSlot_concat] at stored
  · rw [lastInput_setNext, apartFrom, lastSlot_concat]
  · change Leads (q₄.setNext (.of t) none).itails.next (q₄.setNext (.of t) none).itails.first _ _
    rw [itails, endsNow, ← unlinked]
    exact leads_concat stemLeads (sublist.nodup linked.apart) fun member =>
      fresh (sublist.subset member)
  · rw [lastItail_setNext, endsNow, List.dropLast_concat]
    exact (lastItail_setNext q₂ _ _).trans (lastItail_setNextItail q₁ _ _)

/-! Taking a task out. -/

theorem unlinkInput_links {q : InputQueue} {run rest : Items} {t : Nat} {line : Line}
    (linked : Linked q (run ++ (t, line) :: rest)) :
    ∃ q', unlinkInput t (lastSlot (addrs run)) (q.inputs.next t) q = some q' ∧
      Leads q'.inputs.next q'.firstInput (addrs (run ++ rest)) none ∧
      q'.lastInput = lastSlot (addrs (run ++ rest)) ∧
      q'.itails = q.itails ∧ q'.lastItail = q.lastItail ∧ SameElsewhere q q' := by
  have inputs := linked.inputs
  have apart := linked.apart
  have lastInput := linked.lastInput
  simp only [addrs_append] at inputs apart lastInput ⊢
  obtain ⟨runApart, restApart, runRest⟩ := List.nodup_append.mp apart
  obtain ⟨middle, before, rfl, after⟩ := leads_append.mp inputs
  have tApart : t ∉ addrs run ++ addrs rest := by
    intro member
    rcases List.mem_append.mp member with inside | inside
    · exact runRest t inside t (by simp [addrs]) rfl
    · exact (List.nodup_cons.mp restApart).1 inside
  have live : q.live (lastSlot (addrs run)) = true := by
    refine linked.live fun a same => ?_
    rw [addrs_append]
    exact List.mem_append_left _ (lastSlot_mem same)
  let q₁ := q.setNext (lastSlot (addrs run)) (q.inputs.next t)
  have stored : q₁.inputs = q.inputs.store (lastSlot (addrs run)) (q.inputs.next t) :=
    inputs_setNext live
  have leads : Leads q₁.inputs.next q₁.inputs.first (addrs run ++ addrs rest) none := by
    rw [stored]
    refine leads_append.mpr ⟨q.inputs.next t, leads_store _ before runApart, ?_⟩
    refine leads_store_other after fun a member same => ?_
    exact runRest a (lastSlot_mem same) a (List.mem_cons_of_mem _ member) rfl
  have first : q.storeNext (lastSlot (addrs run)) (q.inputs.next t) = some q₁ := if_pos live
  cases follows : q.inputs.next t with
  | none =>
      have restEmpty : addrs rest = [] := by
        cases rest with
        | nil => rfl
        | cons head rest =>
            rw [follows] at after
            exact absurd after.1 nofun
      refine ⟨{ q₁ with lastInput := lastSlot (addrs run) }, ?_, leads, ?_, itails_setNext _ _ _,
        lastItail_setNext _ _ _, ?_⟩
      · rw [unlinkInput, ← follows, first]
        simp [follows]
      · rw [restEmpty, List.append_nil]
      · exact ⟨(sameElsewhere_setNext q _ _).lineAt, (sameElsewhere_setNext q _ _).total,
          (sameElsewhere_setNext q _ _).disableOob⟩
  | some later =>
      have tLive : q₁.live (.of t) = true := by
        rw [live_setNext]
        exact linked.live fun a same => by simp [Slot.of.inj same, addrs]
      have restSome : addrs rest ≠ [] := by
        intro empty
        have stops : Leads q.inputs.next (q.inputs.next t) (addrs rest) none := after
        rw [follows, empty] at stops
        cases stops
      refine ⟨q₁.setNext (.of t) none, ?_, ?_, ?_, ?_, ?_, ?_⟩
      · rw [unlinkInput, ← follows, first]
        simp only [follows]
        exact if_pos tLive
      · change Leads (q₁.setNext (.of t) none).inputs.next (q₁.setNext (.of t) none).inputs.first _ _
        rw [inputs_setNext tLive]
        exact leads_store_other leads fun a member same => tApart (Slot.of.inj same ▸ member)
      · rw [lastInput_setNext, lastInput_setNext, lastInput, lastSlot_append _ restSome,
          lastSlot_append _ (by simp [addrs]), addrs, List.map_cons]
        exact lastSlot_cons _ restSome
      · rw [itails_setNext, itails_setNext]
      · rw [lastItail_setNext, lastItail_setNext]
      · exact (sameElsewhere_setNext _ _ _).trans (sameElsewhere_setNext _ _ _)

section

variable {run rest : Items} {t : Nat} {line : Line}

theorem ends_remove_inside (differ : ∀ item ∈ run, item.2.isOob = !line.isOob)
    (inside : GoesOn inOob line.isOob rest) : ends (run ++ rest) = ends run ++ ends rest := by
  have ending : ¬GoesOn inOob (!line.isOob) rest := by
    rintro ⟨item, isHead, same⟩
    obtain ⟨_, isHead', goesOn⟩ := inside
    cases isHead.symm.trans isHead'
    exact absurd (goesOn.symm.trans same) (by cases line.isOob <;> simp)
  have runs : runEnds inOob (run ++ rest) = runEnds inOob run ++ runEnds inOob rest :=
    runEnds_apart differ ending
  rw [ends, runs, List.map_append]
  rfl

theorem ends_with (differ : ∀ item ∈ run, item.2.isOob = !line.isOob) :
    ends (run ++ (t, line) :: rest) = ends run ++ ends ((t, line) :: rest) := by
  have ending : ¬GoesOn inOob (!line.isOob) ((t, line) :: rest) := by
    rintro ⟨_, ⟨⟩, same⟩
    exact absurd same (by simp [inOob])
  have runs : runEnds inOob (run ++ (t, line) :: rest) = _ := runEnds_apart differ ending
  rw [ends, runs, List.map_append]
  rfl

/-- Without a task that was a run of its own, the runs on both sides are one. -/
theorem ends_remove_end (differ : ∀ item ∈ run, item.2.isOob = !line.isOob)
    (isEnd : ¬GoesOn inOob line.isOob rest) (more : rest ≠ []) : ends (run ++ rest) = ends rest := by
  have goesOn : GoesOn inOob (!line.isOob) rest := by
    cases rest with
    | nil => exact absurd rfl more
    | cons head rest =>
        refine ⟨head, rfl, ?_⟩
        have other : inOob head ≠ line.isOob := fun same => isEnd ⟨head, rfl, same⟩
        simpa only [Bool.eq_not] using other
  exact congrArg (List.map Prod.fst) (runEnds_merge differ goesOn)

theorem ends_one (differ : ∀ item ∈ run, item.2.isOob = !line.isOob) :
    (ends run).dropLast = [] := by
  have one : (runEnds inOob run).dropLast = [] := runEnds_one differ
  rw [ends, ← List.map_dropLast]
  exact congrArg _ one

theorem live_lastSlot {q : InputQueue} {nodes : List Nat}
    (live : ∀ a ∈ nodes, q.live (.of a) = true) : q.live (lastSlot nodes) = true := by
  cases found : lastSlot nodes with
  | head => rfl
  | of a => exact live a (lastSlot_mem found)

theorem unlinkItail_last {q : InputQueue} {nodes : List Nat}
    (live : ∀ a ∈ nodes ++ [t], q.live (.of a) = true) (fresh : t ∉ nodes)
    (itails : Leads q.itails.next q.firstItail (nodes ++ [t]) none) (apart : nodes.Nodup)
    (lastItail : q.lastItail = lastSlot nodes) :
    ∃ q', unlinkItail t (lastSlot nodes) q = some q' ∧
      Leads q'.itails.next q'.firstItail nodes none ∧ q'.lastItail = .head ∧
      q'.inputs = q.inputs ∧ q'.lastInput = q.lastInput ∧ SameElsewhere q q' := by
  obtain ⟨middle, before, rfl, after⟩ := leads_append.mp itails
  have slotLive : q.live (lastSlot nodes) = true :=
    live_lastSlot fun a member => live a (List.mem_append_left _ member)
  let q₁ := q.setNextItail (lastSlot nodes) none
  have stored : q₁.itails = q.itails.store (lastSlot nodes) none := itails_setNextItail slotLive
  have tNext : q₁.itails.next t = none := by
    rw [stored]
    exact (store_next fun same => fresh (lastSlot_mem same)).trans after
  have here : q.loadNextItail (lastSlot nodes) = some (some t) := by
    rw [loadNextItail, if_pos slotLive]
    exact congrArg some (load_lastSlot before)
  have store : q.storeNextItail (lastSlot nodes) none = some q₁ := if_pos slotLive
  have takeOver : takeOverRuns t q₁ = some q₁ := by
    have loaded : q₁.loadNextItail (.of t) = some (q₁.itails.next t) := by
      refine if_pos ?_
      rw [live_setNextItail]
      exact live t (by simp)
    rw [takeOverRuns, loaded, tNext]
    rfl
  have reset : resetLastItail q₁ = some { q₁ with lastItail := .head } := by
    have loaded : q₁.loadNextItail q₁.lastItail = some none := by
      rw [lastItail_setNextItail, lastItail, loadNextItail,
        if_pos ((live_setNextItail _ _ _ _).trans slotLive), stored, load_store]
    rw [resetLastItail, loaded]
    rfl
  refine ⟨{ q₁ with lastItail := .head }, ?_, ?_, rfl, inputs_setNextItail _ _ _,
    lastInput_setNextItail _ _ _, ?_⟩
  · rw [unlinkItail, here]
    simp only [Option.bind_eq_bind, Option.bind_some, if_true]
    rw [store, Option.bind_some, takeOver]
    exact reset
  · change Leads q₁.itails.next q₁.itails.first nodes none
    rw [stored]
    exact leads_store none before apart
  · exact ⟨(sameElsewhere_setNextItail q _ _).lineAt, (sameElsewhere_setNextItail q _ _).total,
      (sameElsewhere_setNextItail q _ _).disableOob⟩

/-- `last_itail` goes back to the head of the list when the task it would name has no next. -/
theorem resetLastItail_links {q : InputQueue} {before more : List Nat} (nonempty : more ≠ [])
    (live : q.live q.lastItail = true) (leads : Leads q.itails.next q.firstItail more none)
    (freed : q.itails.next t = none)
    (lastItail : q.lastItail = lastSlot (before ++ t :: more.dropLast)) :
    ∃ q', resetLastItail q = some q' ∧ Leads q'.itails.next q'.firstItail more none ∧
      q'.lastItail = lastSlot more.dropLast ∧ q'.inputs = q.inputs ∧
      q'.lastInput = q.lastInput ∧ SameElsewhere q q' := by
  rw [resetLastItail, loadNextItail, if_pos live]
  by_cases single : more.dropLast = []
  · have loaded : q.itails.load q.lastItail = none := by
      rw [lastItail, single, lastSlot_concat]
      exact freed
    refine ⟨{ q with lastItail := .head }, ?_, leads, ?_, rfl, rfl, ⟨fun _ => rfl, rfl, rfl⟩⟩
    · rw [loaded]
      rfl
    · rw [single]
      rfl
  · have sameSlot : q.lastItail = lastSlot more.dropLast := by
      rw [lastItail, ← List.singleton_append, ← List.append_assoc, lastSlot_append _ single]
    obtain ⟨a, loaded⟩ : ∃ a, q.itails.load q.lastItail = some a := by
      have split := leads
      rw [← List.dropLast_append_getLast nonempty] at split
      obtain ⟨middle, front, rfl, -⟩ := leads_append.mp split
      exact ⟨_, sameSlot ▸ load_lastSlot front⟩
    refine ⟨q, ?_, leads, sameSlot, rfl, rfl, SameElsewhere.refl q⟩
    rw [loaded]
    rfl

theorem unlinkItail_middle {q : InputQueue} {before more : List Nat} (nonempty : more ≠ [])
    (live : ∀ a ∈ before ++ t :: more, q.live (.of a) = true)
    (apart : (before ++ t :: more).Nodup)
    (itails : Leads q.itails.next q.firstItail (before ++ t :: more) none)
    (lastItail : q.lastItail = lastSlot (before ++ t :: more).dropLast) :
    ∃ q', unlinkItail t (lastSlot before) q = some q' ∧
      Leads q'.itails.next q'.firstItail more none ∧ q'.lastItail = lastSlot more.dropLast ∧
      q'.inputs = q.inputs ∧ q'.lastInput = q.lastInput ∧ SameElsewhere q q' := by
  obtain ⟨middle, leads, rfl, after⟩ := leads_append.mp itails
  obtain ⟨beforeApart, restApart, across⟩ := List.nodup_append.mp apart
  obtain ⟨tApart, moreApart⟩ := List.nodup_cons.mp restApart
  have slotLive : q.live (lastSlot before) = true :=
    live_lastSlot fun a member => live a (List.mem_append_left _ member)
  have tLive : q.live (.of t) = true := live t (by simp)
  let q₁ := q.setNextItail (lastSlot before) none
  have stored : q₁.itails = q.itails.store (lastSlot before) none := itails_setNextItail slotLive
  have tNext : q₁.itails.next t = q.itails.next t := by
    rw [stored]
    exact store_next fun same => across t (lastSlot_mem same) t (by simp) rfl
  have kept : Leads q₁.itails.next (q.itails.next t) more none := by
    rw [stored]
    exact leads_store_other after fun a member same =>
      across a (lastSlot_mem same) a (List.mem_cons_of_mem _ member) rfl
  have shorter : (before ++ t :: more).dropLast = before ++ t :: more.dropLast := by
    rw [List.dropLast_append_of_ne_nil (List.cons_ne_nil t more), List.dropLast_cons_of_ne_nil nonempty]
  obtain ⟨later, follows⟩ : ∃ later, q.itails.next t = some later := by
    cases more with
    | nil => exact absurd rfl nonempty
    | cons head more => exact ⟨head, after.1⟩
  let q₂ : InputQueue := { q₁ with firstItail := some later }
  let q₃ := q₂.setNextItail (.of t) none
  have tLive₂ : q₂.live (.of t) = true := (live_setNextItail q _ _ _).trans tLive
  have stored₃ : q₃.itails = q₂.itails.store (.of t) none := itails_setNextItail tLive₂
  have leads₃ : Leads q₃.itails.next q₃.itails.first more none := by
    rw [stored₃]
    change Leads (q₂.itails.store (.of t) none).next (some later) more none
    rw [← follows]
    exact leads_store_other kept fun a member same => tApart (Slot.of.inj same ▸ member)
  have here : q.loadNextItail (lastSlot before) = some (some t) := by
    rw [loadNextItail, if_pos slotLive]
    exact congrArg some (load_lastSlot leads)
  have store : q.storeNextItail (lastSlot before) none = some q₁ := if_pos slotLive
  have takeOver : takeOverRuns t q₁ = some q₃ := by
    have loaded : q₁.loadNextItail (.of t) = some (q₁.itails.next t) := by
      refine if_pos ?_
      rw [live_setNextItail]
      exact tLive
    rw [takeOverRuns, loaded, tNext, follows]
    exact if_pos tLive₂
  have slot₃ : q₃.lastItail = lastSlot (before ++ t :: more.dropLast) := by
    rw [← shorter, ← lastItail]
    exact (lastItail_setNextItail q₂ _ _).trans (lastItail_setNextItail q _ _)
  have live₃ : ∀ slot, q₃.live slot = q.live slot := fun slot =>
    (live_setNextItail q₂ _ _ slot).trans (live_setNextItail q _ _ slot)
  have elsewhere : SameElsewhere q q₃ := by
    have taken : SameElsewhere q₁ q₂ := ⟨fun _ => rfl, rfl, rfl⟩
    exact (sameElsewhere_setNextItail q (lastSlot before) none).trans
      (taken.trans (sameElsewhere_setNextItail q₂ _ _))
  have inputs : q₃.inputs = q.inputs :=
    (inputs_setNextItail q₂ _ _).trans (inputs_setNextItail q _ _)
  have lastInput : q₃.lastInput = q.lastInput :=
    (lastInput_setNextItail q₂ _ _).trans (lastInput_setNextItail q _ _)
  have slotLive₃ : q₃.live q₃.lastItail = true := by
    rw [live₃, slot₃, ← shorter]
    exact live_lastSlot fun a member => live a ((List.dropLast_sublist _).subset member)
  have whole : unlinkItail t (lastSlot before) q = resetLastItail q₃ := by
    rw [unlinkItail, here]
    simp only [Option.bind_eq_bind, Option.bind_some, if_true]
    rw [store, Option.bind_some, takeOver]
    rfl
  have freed : q₃.itails.next t = none := by
    rw [stored₃]
    exact Function.update_self _ _ _
  obtain ⟨q', reset, leads', slot', inputs', lastInput', elsewhere'⟩ :=
    resetLastItail_links nonempty slotLive₃ leads₃ freed slot₃
  exact ⟨q', whole.trans reset, leads', slot', inputs'.trans inputs, lastInput'.trans lastInput,
    elsewhere.trans elsewhere'⟩

theorem unlinkItail_links {q : InputQueue}
    (differ : ∀ item ∈ run, item.2.isOob = !line.isOob)
    (live : ∀ a ∈ addrs (run ++ (t, line) :: rest), q.live (.of a) = true)
    (apart : (addrs (run ++ (t, line) :: rest)).Nodup)
    (itails : Leads q.itails.next q.firstItail (ends (run ++ (t, line) :: rest)) none)
    (lastItail : q.lastItail = lastSlot (ends (run ++ (t, line) :: rest)).dropLast) :
    ∃ q', unlinkItail t (lastSlot (ends run)) q = some q' ∧
      Leads q'.itails.next q'.firstItail (ends (run ++ rest)) none ∧
      q'.lastItail = lastSlot (ends (run ++ rest)).dropLast ∧
      q'.inputs = q.inputs ∧ q'.lastInput = q.lastInput ∧ SameElsewhere q q' := by
  have apartEnds := (ends_sublist _).nodup apart
  have liveEnds : ∀ a ∈ ends (run ++ (t, line) :: rest), q.live (.of a) = true :=
    fun a member => live a ((ends_sublist _).subset member)
  by_cases goesOn : GoesOn inOob line.isOob rest
  · have same : ends (run ++ (t, line) :: rest) = ends (run ++ rest) := by
      rw [ends_with differ, ends_remove_inside differ goesOn]
      exact congrArg (fun nodes => ends run ++ List.map Prod.fst nodes) (runEnds_inside goesOn)
    rw [same] at itails lastItail
    refine ⟨q, ?_, itails, lastItail, rfl, rfl, SameElsewhere.refl q⟩
    have split := itails
    rw [ends_remove_inside differ goesOn] at split
    obtain ⟨middle, before, after⟩ := leads_append.mp split
    have notHere : middle ≠ some t := by
      rintro rfl
      have member : t ∈ ends rest := by
        cases found : ends rest with
        | nil =>
            rw [found] at after
            cases after
        | cons head others =>
            rw [found] at after
            obtain rfl := Option.some.inj after.1
            exact List.mem_cons_self
      rw [addrs_append] at apart
      exact (List.nodup_cons.mp (List.nodup_append.mp apart).2.1).1 ((ends_sublist rest).subset member)
    have slotLive : q.live (lastSlot (ends run)) = true := by
      cases found : lastSlot (ends run) with
      | head => rfl
      | of a =>
          refine liveEnds a ?_
          rw [ends_with differ]
          exact List.mem_append_left _ (lastSlot_mem found)
    have loaded : q.loadNextItail (lastSlot (ends run)) = some middle := by
      rw [loadNextItail, if_pos slotLive]
      exact congrArg some (load_lastSlot before)
    rw [unlinkItail, loaded]
    simp [notHere]
  · have isEnd : ends (run ++ (t, line) :: rest) = ends run ++ t :: ends rest := by
      rw [ends_with differ]
      exact congrArg (fun nodes => ends run ++ List.map Prod.fst nodes) (runEnds_end goesOn)
    rw [isEnd] at itails lastItail liveEnds apartEnds
    cases rest with
    | nil =>
        obtain ⟨runEndsApart, _, across⟩ := List.nodup_append.mp apartEnds
        have lastSlotNow : q.lastItail = lastSlot (ends run) := by
          rw [lastItail]
          exact congrArg lastSlot List.dropLast_concat
        obtain ⟨q', code, leads, slot, others⟩ := unlinkItail_last liveEnds
          (fun member => across t member t (by simp) rfl) itails runEndsApart lastSlotNow
        refine ⟨q', code, ?_, ?_, others⟩
        · rwa [List.append_nil]
        · rw [List.append_nil, ends_one differ]
          exact slot
    | cons head rest =>
        have someEnd : ends (head :: rest) ≠ [] := by simp [ends, runEnds_eq_nil]
        rw [ends_remove_end differ goesOn nofun]
        exact unlinkItail_middle someEnd liveEnds apartEnds itails lastItail

end

theorem unlink_links {q : InputQueue} {run rest : Items} {t : Nat} {line : Line}
    (linked : Linked q (run ++ (t, line) :: rest))
    (differ : ∀ item ∈ run, item.2.isOob = !line.isOob) :
    ∃ q₁ q₂, unlinkInput t (lastSlot (addrs run)) (q.inputs.next t) q = some q₁ ∧
      unlinkItail t (lastSlot (ends run)) q₁ = some q₂ ∧ Linked q₂ (run ++ rest) ∧
      SameElsewhere q q₂ ∧ t ∉ addrs (run ++ rest) := by
  obtain ⟨q₁, code₁, inputs₁, lastInput₁, itails₁, lastItail₁, elsewhere₁⟩ :=
    unlinkInput_links linked
  have live : ∀ a ∈ addrs (run ++ (t, line) :: rest), q₁.live (.of a) = true := by
    intro a member
    rw [live_of, elsewhere₁.lineAt, ← live_of]
    exact linked.live fun b same => Slot.of.inj same ▸ member
  have leads₁ : Leads q₁.itails.next q₁.itails.first (ends (run ++ (t, line) :: rest)) none := by
    rw [itails₁]
    exact linked.itails
  obtain ⟨q₂, code₂, itails₂, lastItail₂, inputs₂, lastInput₂, elsewhere₂⟩ :=
    unlinkItail_links differ live linked.apart leads₁ (lastItail₁.trans linked.lastItail)
  have elsewhere := elsewhere₁.trans elsewhere₂
  have apart := linked.apart
  rw [addrs_append] at apart
  obtain ⟨runApart, restApart, across⟩ := List.nodup_append.mp apart
  obtain ⟨tApart, restApart⟩ := List.nodup_cons.mp restApart
  have sublist : (run ++ rest).Sublist (run ++ (t, line) :: rest) :=
    (List.sublist_cons_self _ _).append_left run
  refine ⟨q₁, q₂, code₁, code₂, ⟨?_, ?_, ?_, ?_, itails₂, lastItail₂⟩, elsewhere, ?_⟩
  · intro item member
    rw [elsewhere.lineAt]
    exact linked.held item (sublist.subset member)
  · exact (sublist.map Prod.fst).nodup linked.apart
  · change Leads q₂.inputs.next q₂.inputs.first _ _
    rw [inputs₂]
    exact inputs₁
  · exact lastInput₂.trans lastInput₁
  · rw [addrs_append]
    intro member
    rcases List.mem_append.mp member with inRun | inRest
    · exact across t inRun t (by simp [addrs]) rfl
    · exact tApart inRest

end ToastStunt.Tasks
