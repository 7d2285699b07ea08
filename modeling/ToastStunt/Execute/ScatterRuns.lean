import Mathlib.Data.List.SplitLengths
import ToastStunt.Execute.Scatter

/-!
The code of a scattering assignment distributes the elements of a list.
-/

namespace ToastStunt.Execute

open ToastStunt.Lists Maps Placing

variable {α E Exit : Type}

/-! Runs. -/

section

variable {eval : E → Env α → Except Exit (Value α × Env α)} {debug : Bool} {code : List (Cell E)}
  {stop : Nat}

theorem run_more {fuel pc : Nat} {activ : Activ α} {outcome : Outcome α Exit}
    (ran : run eval debug code stop fuel pc activ = some outcome) (more : Nat) :
    run eval debug code stop (fuel + more) pc activ = some outcome := by
  induction fuel generalizing pc activ with
  | zero => cases ran
  | succ fuel ih =>
      rw [Nat.succ_add, run]
      rw [run] at ran
      split at ran
      · rwa [if_pos ‹_›]
      · rw [if_neg ‹_›]
        split at ran
        · cases ran
        · simp [*]
        · simp [*]

variable (eval debug code stop) in
def Ends (pc : Nat) (activ : Activ α) (outcome : Outcome α Exit) : Prop :=
  ∃ fuel, run eval debug code stop fuel pc activ = some outcome

theorem Ends.unique {pc : Nat} {activ : Activ α} {first second : Outcome α Exit}
    (ends : Ends eval debug code stop pc activ first)
    (ends' : Ends eval debug code stop pc activ second) : first = second := by
  obtain ⟨fuel, ran⟩ := ends
  obtain ⟨fuel', ran'⟩ := ends'
  have same := run_more ran fuel'
  rw [Nat.add_comm, run_more ran' fuel] at same
  exact (Option.some.inj same).symm

theorem ends_done (activ : Activ α) : Ends eval debug code stop stop activ (.done activ) :=
  ⟨1, by rw [run, if_pos rfl]⟩

theorem ends_stop {pc : Nat} {activ : Activ α} {outcome : Outcome α Exit} (inside : pc ≠ stop)
    (stepped : step eval debug code pc activ = some (.stop outcome)) :
    Ends eval debug code stop pc activ outcome :=
  ⟨1, by rw [run, if_neg inside, stepped]⟩

theorem Ends.jump {pc next : Nat} {activ activ' : Activ α} {outcome : Outcome α Exit}
    (ends : Ends eval debug code stop next activ' outcome) (inside : pc ≠ stop)
    (stepped : step eval debug code pc activ = some (.jump next activ')) :
    Ends eval debug code stop pc activ outcome := by
  obtain ⟨fuel, ran⟩ := ends
  exact ⟨fuel + 1, by rw [run, if_neg inside, stepped]; exact ran⟩

theorem put_ends {pc id : Nat} {env : Env α} {value : Value α} {below : List (Value α)}
    {outcome : Outcome α Exit} (placed : Placed code pc (putCells id ++ [.op .pop]))
    (inside : pc + (putCells id : List (Cell E)).length < stop)
    (ends : Ends eval debug code stop (pc + (putCells id : List (Cell E)).length + 1)
      ⟨Function.update env id value, below⟩ outcome) :
    Ends eval debug code stop pc ⟨env, value :: below⟩ outcome := by
  unfold putCells at *
  split at placed
  · rw [if_pos ‹_›] at inside ends
    simp only [List.cons_append, List.nil_append, List.length_cons, List.length_nil] at *
    have popped : Ends eval debug code stop (pc + 2)
        ⟨Function.update env id value, value :: below⟩ outcome :=
      ends.jump (by omega) (by simp [step, placed.tail.tail.head])
    refine popped.jump (by omega) ?_
    simp [step, placed.head, readVarName, placed.tail.head]
  · rw [if_neg ‹_›] at inside ends
    simp only [List.cons_append, List.nil_append, List.length_cons, List.length_nil] at *
    refine ends.jump (by omega) ?_
    simp [step, placed.head, placed.tail.head]

theorem chain_ends {entries : List (Nat × E)} {pc : Nat} {env : Env α} {value : Value α}
    {below : List (Value α)} (placed : Placed code pc (chainCells entries))
    (last : pc + (chainCells entries).length = stop) :
    Ends eval debug code stop pc ⟨env, value :: below⟩
      (finish value below (assignDefaults eval entries env)) := by
  induction entries generalizing pc env with
  | nil =>
      obtain rfl : pc = stop := last
      exact ends_done _
  | cons entry next ih =>
      obtain ⟨id, expr⟩ := entry
      rw [chainCells, List.flatMap_cons] at placed last
      have length : (defaultCells (id, expr)).length =
          1 + ((putCells id : List (Cell E)).length + 1) := by
        simp [defaultCells]
        omega
      rw [List.length_append, length] at last
      have own := placed.left
      have put : Placed code (pc + 1) (putCells id ++ [.op .pop]) := own.tail
      cases evaluated : eval expr env with
      | error exit =>
          rw [assignDefaults, evaluated]
          refine ends_stop (by omega) ?_
          simp [step, own.head, evaluated, finish]
      | ok result =>
          obtain ⟨value', env'⟩ := result
          have ran : step eval debug code pc ⟨env, value :: below⟩ =
              some (.jump (pc + 1) ⟨env', value' :: value :: below⟩) := by
            simp [step, own.head, evaluated]
          have onward : Placed code (pc + (1 + ((putCells id : List (Cell E)).length + 1)))
              (chainCells next) := length ▸ placed.right
          have later := @ih _ (Function.update env' id value') onward (by
            rw [chainCells]
            omega)
          rw [assignDefaults, evaluated]
          refine (put_ends put (by omega) ?_).jump (by omega) ran
          simpa only [Nat.add_assoc] using later

end

/-! The loop over the targets. -/

def RestAt (rest : Nat) : Nat → List (Target E) → Prop
  | _, [] => True
  | i, sc :: next => (i = rest ↔ sc.isRest = true) ∧ RestAt rest (i + 1) next

def Enters (pos : Nat) (scatter : List (Target E)) (parts : List (List (Value α)))
    (target : Nat) : Prop :=
  missing scatter parts = [] ∧ target = 0 ∨
    ∃ skipped, defaults scatter = skipped ++ missing scatter parts ∧
      target = pos + (chainCells skipped).length ∧ target ≠ 0

theorem missing_all {left : Nat} {scatter : List (Target E)} {parts : List (List (Value α))}
    (counted : parts.map List.length = sizes left 0 scatter) :
    missing scatter parts = defaults scatter := by
  induction scatter generalizing parts with
  | nil => cases parts <;> rfl
  | cons sc next ih =>
      cases parts with
      | nil => rcases sc with id | ⟨id, _ | expr⟩ | id <;> simp [sizes] at counted
      | cons part parts =>
          rcases sc with id | ⟨id, _ | expr⟩ | id <;>
            simp only [sizes, List.map_cons, List.cons.injEq] at counted <;>
            simp only [missing, defaults] <;> try exact ih counted.2
          obtain rfl := List.eq_nil_of_length_eq_zero counted.1
          rw [missing, ih counted.2]

/-- What the loop has still to do: the elements from `front.length` on are for the targets from
number `i` on, whose parts are `parts`. -/
structure Pending (items : List (Value α)) (rest : Nat) (nrest : Int) (left spare i : Nat)
    (scatter : List (Target E)) (parts : List (List (Value α))) (s : Scattering α) : Prop where
  room : listRoom items.length = true
  restAt : RestAt rest i scatter
  once : scatter.countP Target.isRest ≤ 1
  nrest : scatter.any Target.isRest = true → nrest = left
  counted : parts.map List.length = sizes left spare scatter
  whole : ∃ front extra, items = front ++ (parts.flatten ++ extra) ∧
    (front.length : Int) = i - 1 + s.offset
  avail : s.noptAvail = spare
  free : 0 < left → scatter.countP Target.isOptional ≤ spare
  straight : scatter.any Target.isRest = true → 0 < left → s.offset = 0

theorem element_next {items front after : List (Value α)} {value : Value α} {i : Int}
    (whole : items = front ++ value :: after) (position : (front.length : Int) = i - 1) :
    element items i = some value := by
  rw [element, if_pos (by omega), show (i - 1).toNat = front.length by omega, whole]
  simp

section

variable {items : List (Value α)} {rest left spare i : Nat} {nrest : Int} {id : Nat}
  {next : List (Target E)} {parts : List (List (Value α))} {part : List (Value α)}
  {s : Scattering α}

theorem Pending.later {sc : Target E}
    (pending : Pending items rest nrest left spare i (sc :: next) (part :: parts) s) (spare' : Nat)
    (s' : Scattering α) (plain : sc.isRest = false)
    (counted : parts.map List.length = sizes left spare' next)
    (taken : (part.length : Int) = 1 + s'.offset - s.offset) (avail : s'.noptAvail = spare')
    (free : 0 < left → next.countP Target.isOptional ≤ spare')
    (straight : 0 < left → s'.offset = s.offset) :
    i ≠ rest ∧ Pending items rest nrest left spare' (i + 1) next parts s' := by
  obtain ⟨front, extra, whole, position⟩ := pending.whole
  have others : next.any Target.isRest = true → (sc :: next).any Target.isRest = true := by
    simp [plain]
  have once := pending.once
  rw [List.countP_cons_of_neg (by simp [plain])] at once
  refine ⟨fun same => ?_, pending.room, pending.restAt.2, once, fun has => pending.nrest (others has),
    counted, ⟨front ++ part, extra, by simpa using whole, ?_⟩, avail, free, fun has some =>
      (straight some).trans (pending.straight (others has) some)⟩
  · rw [pending.restAt.1.mp same] at plain
    cases plain
  · rw [List.length_append]
    omega

theorem Pending.required
    (pending : Pending items rest nrest left spare i (.required id :: next) (part :: parts) s) :
    ∃ value, part = [value] ∧
      scatterTarget items rest nrest i id 0 s =
        some { s with env := Function.update s.env id value } ∧
      Pending items rest nrest left spare (i + 1) next parts
        { s with env := Function.update s.env id value } := by
  obtain ⟨one, counted⟩ := List.cons.inj pending.counted
  obtain ⟨value, rfl⟩ := List.length_eq_one_iff.mp one
  obtain ⟨front, extra, whole, position⟩ := pending.whole
  have read := element_next (i := i + s.offset) whole (by omega)
  obtain ⟨notRest, later⟩ := pending.later spare { s with env := Function.update s.env id value }
    rfl counted (by simp) pending.avail
    (fun some => by simpa [Target.isOptional] using pending.free some) fun _ => rfl
  refine ⟨value, rfl, ?_, later⟩
  rw [scatterTarget, if_neg notRest, if_pos rfl, read]
  rfl

theorem Pending.given {default : Option E} (label : Nat) (optional : label ≠ 0)
    (pending : Pending items rest nrest left (spare + 1) i (.optional id default :: next)
      (part :: parts) s) :
    ∃ value, part = [value] ∧
      scatterTarget items rest nrest i id label s =
        some { s with env := Function.update s.env id value, noptAvail := s.noptAvail - 1 } ∧
      Pending items rest nrest left spare (i + 1) next parts
        { s with env := Function.update s.env id value, noptAvail := s.noptAvail - 1 } := by
  obtain ⟨one, counted⟩ := List.cons.inj pending.counted
  obtain ⟨value, rfl⟩ := List.length_eq_one_iff.mp (one.trans (by omega))
  obtain ⟨front, extra, whole, position⟩ := pending.whole
  have read := element_next (i := i + s.offset) whole (by omega)
  have avail := pending.avail
  have available : s.noptAvail > 0 := by omega
  have fewer : 0 < left → next.countP Target.isOptional ≤ spare := by
    intro some
    have more := pending.free some
    rw [List.countP_cons_of_pos rfl] at more
    omega
  obtain ⟨notRest, later⟩ := pending.later spare
    { s with env := Function.update s.env id value, noptAvail := s.noptAvail - 1 }
    rfl counted (by simp) (by simp only; omega) fewer fun _ => rfl
  refine ⟨value, rfl, ?_, later⟩
  rw [scatterTarget, if_neg notRest, if_neg optional, if_pos available, read]
  rfl

theorem Pending.missing {default : Option E} (label : Nat) (optional : label ≠ 0)
    (pending : Pending items rest nrest left 0 i (.optional id default :: next) (part :: parts) s) :
    part = [] ∧
      scatterTarget items rest nrest i id label s = some { s with
        offset := s.offset - 1
        target := if s.target = 0 ∧ label ≠ 1 then label else s.target } ∧
      Pending items rest nrest left 0 (i + 1) next parts { s with
        offset := s.offset - 1
        target := if s.target = 0 ∧ label ≠ 1 then label else s.target } := by
  obtain ⟨zero, counted⟩ := List.cons.inj pending.counted
  obtain rfl := List.eq_nil_of_length_eq_zero (zero.trans (by omega))
  have avail := pending.avail
  have unavailable : ¬s.noptAvail > 0 := by omega
  have none : ¬0 < left := fun some => by
    have := pending.free some
    simp [Target.isOptional] at this
  obtain ⟨notRest, later⟩ := pending.later 0
    { s with
      offset := s.offset - 1
      target := if s.target = 0 ∧ label ≠ 1 then label else s.target }
    rfl counted (by simp only [List.length_nil]; omega) avail (fun some => absurd some none)
    fun some => absurd some none
  refine ⟨rfl, ?_, later⟩
  rw [scatterTarget, if_neg notRest, if_neg optional, if_neg unavailable]

theorem Pending.takesRest
    (pending : Pending items rest nrest left spare i (.rest id :: next) (part :: parts) s) :
    scatterTarget items rest nrest i id 0 s = some { s with
        env := Function.update s.env id (.list part), offset := s.offset + (nrest - 1) } ∧
      Pending items rest nrest left spare (i + 1) next parts { s with
        env := Function.update s.env id (.list part), offset := s.offset + (nrest - 1) } := by
  obtain ⟨size, counted⟩ := List.cons.inj pending.counted
  obtain ⟨front, extra, whole, position⟩ := pending.whole
  have isRest : i = rest := pending.restAt.1.mpr rfl
  have room := pending.nrest (by simp [Target.isRest])
  have once := pending.once
  rw [List.countP_cons_of_pos rfl] at once
  have zero : next.countP Target.isRest = 0 := by omega
  have none : next.any Target.isRest = true → False := by
    simpa using List.countP_eq_zero.mp zero
  have taken : sublist items i (i + nrest - 1) = some part := by
    rw [room]
    by_cases empty : left = 0
    · obtain rfl := List.eq_nil_of_length_eq_zero (size.trans empty)
      exact (copyRange_empty _ _).mpr (by omega)
    · have offset := pending.straight (by simp [Target.isRest]) (by omega)
      have lengths := congrArg List.length whole
      simp only [List.flatten_cons, List.length_append] at lengths
      have copied := copyRange_eq listRoom_rooms pending.room (show 1 ≤ (i : Int) by omega)
        (show (i : Int) ≤ i + left - 1 by omega) (by omega)
      rw [sublist, copied, range, whole, show ((i : Int) - 1).toNat = front.length by omega,
        show ((i : Int) + left - 1 - i + 1).toNat = part.length by omega]
      simp
  refine ⟨?_, pending.room, pending.restAt.2, by omega, fun has => (none has).elim, counted,
    ⟨front ++ part, extra, by simpa using whole, ?_⟩, pending.avail,
    fun some => by simpa [Target.isOptional] using pending.free some, fun has => (none has).elim⟩
  · rw [scatterTarget, if_pos isRest, taken]
    rfl
  · simp only [List.length_append]
    omega

end

/-- The loop gives the targets their parts and finds where the missing defaults begin. -/
theorem scatterLoop_assigns {code : List (Cell E)} {items : List (Value α)}
    {rest left spare i pc pos : Nat} {nrest : Int} {scatter : List (Target E)}
    {parts : List (List (Value α))} {s : Scattering α}
    (pending : Pending items rest nrest left spare i scatter parts s)
    (placed : Placed code pc (targetCells pos scatter)) (real : 2 ≤ pos) :
    ∃ s', scatterLoop code items rest nrest scatter.length i pc s = some s' ∧
      s'.env = assign scatter parts s.env ∧
      (s.target ≠ 0 → s'.target = s.target) ∧
      (s.target = 0 → Enters pos scatter parts s'.target) := by
  induction scatter generalizing spare i pc pos parts s with
  | nil =>
      cases parts with
      | nil => exact ⟨s, rfl, rfl, fun _ => rfl, fun zero => .inl ⟨rfl, zero⟩⟩
      | cons part parts => simpa [sizes] using pending.counted
  | cons sc next ih =>
      cases parts with
      | nil => rcases sc with id | ⟨id, _ | expr⟩ | id <;> simpa [sizes] using pending.counted
      | cons part parts =>
          have turn {id label : Nat} {s' : Scattering α} (atName : code[pc]? = some (.varRef id))
              (atLabel : code[pc + 1]? = some (.label label))
              (ran : scatterTarget items rest nrest i id label s = some s') :
              scatterLoop code items rest nrest (next.length + 1) i pc s =
                scatterLoop code items rest nrest next.length (i + 1) (pc + 2) s' := by
            simp [scatterLoop, readVarName, readLabel, atName, atLabel, ran]
          rcases sc with id | ⟨id, default⟩ | id
          · obtain ⟨value, rfl, ran, later⟩ := pending.required
            obtain ⟨s', looped, env, kept, enters⟩ := ih later placed.tail.tail real
            exact ⟨s', (turn placed.head placed.tail.head ran).trans looped, env, kept, enters⟩
          · cases spare with
            | zero =>
                cases default with
                | none =>
                    obtain ⟨rfl, ran, later⟩ := pending.missing 1 (by omega)
                    obtain ⟨s', looped, env, kept, enters⟩ := ih later placed.tail.tail real
                    simp only [ne_eq, not_true, and_false, if_false] at kept enters
                    exact ⟨s', (turn placed.head placed.tail.head ran).trans looped, env, kept,
                      enters⟩
                | some expr =>
                    obtain ⟨rfl, ran, later⟩ := pending.missing pos (by omega)
                    obtain ⟨s', looped, env, kept, _⟩ := ih later placed.tail.tail
                      (Nat.le_add_right_of_le real)
                    have entered (zero : s.target = 0) : s'.target = pos := by
                      have other : pos ≠ 1 := by omega
                      have nonzero : pos ≠ 0 := by omega
                      simpa [zero, other] using kept (by simpa [zero, other] using nonzero)
                    refine ⟨s', (turn placed.head placed.tail.head ran).trans looped, env,
                      fun some => ?_, fun zero => .inr ⟨[], ?_, entered zero, ?_⟩⟩
                    · simpa [some] using kept (by simp [some])
                    · rw [defaults, missing, missing_all later.counted]
                      rfl
                    · rw [entered zero]
                      omega
            | succ spare =>
                cases default with
                | none =>
                    obtain ⟨value, rfl, ran, later⟩ := pending.given 1 (by omega)
                    obtain ⟨s', looped, env, kept, enters⟩ := ih later placed.tail.tail real
                    exact ⟨s', (turn placed.head placed.tail.head ran).trans looped, env, kept,
                      enters⟩
                | some expr =>
                    obtain ⟨value, rfl, ran, later⟩ := pending.given pos (by omega)
                    obtain ⟨s', looped, env, kept, enters⟩ := ih later placed.tail.tail
                      (Nat.le_add_right_of_le real)
                    refine ⟨s', (turn placed.head placed.tail.head ran).trans looped, env, kept,
                      fun zero => (enters zero).imp (fun none => none) ?_⟩
                    rintro ⟨skipped, split, target, nonzero⟩
                    refine ⟨(id, expr) :: skipped, ?_, ?_, nonzero⟩
                    · rw [defaults, split]
                      rfl
                    · rw [target, chainCells, chainCells, List.flatMap_cons, List.length_append]
                      omega
          · obtain ⟨ran, later⟩ := pending.takesRest
            obtain ⟨s', looped, env, kept, enters⟩ := ih later placed.tail.tail real
            exact ⟨s', (turn placed.head placed.tail.head ran).trans looped, env, kept, enters⟩

/-! The operands that are read back. -/

theorem restAt_append {rest i : Nat} {front back : List (Target E)} :
    RestAt rest i (front ++ back) ↔ RestAt rest i front ∧ RestAt rest (i + front.length) back := by
  induction front generalizing i with
  | nil => simp [RestAt]
  | cons sc front ih =>
      simp only [List.cons_append, RestAt, ih, List.length_cons, and_assoc]
      rw [show i + 1 + front.length = i + (front.length + 1) by omega]

theorem restAt_none {rest i : Nat} {scatter : List (Target E)}
    (none : scatter.countP Target.isRest = 0) (outside : rest < i ∨ i + scatter.length ≤ rest) :
    RestAt rest i scatter := by
  induction scatter generalizing i with
  | nil => trivial
  | cons sc next ih =>
      rw [List.length_cons] at outside
      cases isRest : sc.isRest with
      | false => exact ⟨by simp [isRest]; omega, ih (by simpa [isRest] using none) (by omega)⟩
      | true => simp [isRest] at none

def restRead (scatter : List (Target E)) : Nat := restOperand scatter % 256

theorem restRead_at {scatter : List (Target E)} (once : scatter.countP Target.isRest ≤ 1)
    (few : scatter.length ≤ 255) :
    RestAt (restRead scatter) 1 scatter ∧
      (scatter.any Target.isRest = true → restRead scatter ≤ scatter.length) ∧
      (scatter.any Target.isRest = false →
        restRead scatter = if scatter.length = 255 then 0 else scatter.length + 1) := by
  by_cases has : scatter.countP Target.isRest = 0
  · have none : scatter.any Target.isRest = false := by
      simpa using List.countP_eq_zero.mp has
    have read : restRead scatter = if scatter.length = 255 then 0 else scatter.length + 1 := by
      rw [restRead, restOperand, restPosition_none _ _ has, Option.getD_none]
      split <;> omega
    refine ⟨restAt_none has ?_, fun some => by simp [none] at some, fun _ => read⟩
    rw [read]
    split <;> omega
  · obtain ⟨sc, member, isRest⟩ := List.countP_pos_iff.mp (Nat.pos_of_ne_zero has)
    obtain ⟨front, back, rfl⟩ := List.append_of_mem member
    rw [List.countP_append, List.countP_cons_of_pos isRest] at once
    rw [List.length_append, List.length_cons] at few
    have noneAfter : back.countP Target.isRest = 0 := by omega
    have noneBefore : front.countP Target.isRest = 0 := by omega
    have read : restRead (front ++ sc :: back) = front.length + 1 := by
      rw [restRead, restOperand, restPosition_last _ _ isRest noneAfter, Option.getD_some]
      omega
    rw [read]
    refine ⟨restAt_append.mpr ⟨restAt_none noneBefore (by omega), by simp [isRest]; omega,
      restAt_none noneAfter (by omega)⟩, fun _ => by simp, fun none => ?_⟩
    simp [isRest] at none

theorem sizes_sum (left spare : Nat) (scatter : List (Target E)) :
    (sizes left spare scatter).sum = scatter.countP Target.isRequired +
      min spare (scatter.countP Target.isOptional) + left * scatter.countP Target.isRest := by
  induction scatter generalizing spare with
  | nil => simp [sizes]
  | cons sc next ih =>
      rw [List.countP_cons, List.countP_cons, List.countP_cons]
      cases sc <;> simp [sizes, ih, Target.isRequired, Target.isOptional, Target.isRest,
        Nat.mul_add] <;> omega

theorem exists_parts {scatter : List (Target E)} {items : List (Value α)}
    (once : scatter.countP Target.isRest ≤ 1) (enough : nreq scatter ≤ items.length) :
    ∃ (parts : List (List (Value α))) (extra : List (Value α)),
      parts.map List.length =
        sizes (items.length + 1 - scatter.length) (items.length - nreq scatter) scatter ∧
      items = parts.flatten ++ extra ∧ (¬Misfits scatter items → extra = []) := by
  have counted := count_targets scatter
  have sum := sizes_sum (items.length + 1 - scatter.length) (items.length - nreq scatter) scatter
  have total : (sizes (items.length + 1 - scatter.length) (items.length - nreq scatter)
      scatter).sum ≤ items.length ∧ (¬Misfits scatter items → items.length ≤
        (sizes (items.length + 1 - scatter.length) (items.length - nreq scatter) scatter).sum) := by
    rw [sum]
    unfold nreq Misfits at *
    cases has : scatter.any Target.isRest with
    | false =>
        have none : scatter.countP Target.isRest = 0 :=
          List.countP_eq_zero.mpr (by simpa using has)
        rw [none, Nat.mul_zero]
        exact ⟨by omega, fun fits => by
          have short : ¬scatter.length < items.length := fun long => fits (.inr ⟨rfl, long⟩)
          omega⟩
    | true =>
        have one : scatter.countP Target.isRest = 1 := by
          have some : 0 < scatter.countP Target.isRest :=
            List.countP_pos_iff.mpr (by simpa using has)
          omega
        rw [one, Nat.mul_one]
        exact ⟨by omega, fun _ => by omega⟩
  generalize sizes (items.length + 1 - scatter.length) (items.length - nreq scatter) scatter =
    lengths at total
  have taken : (items.take lengths.sum).length = lengths.sum := by
    simp [total.1]
  refine ⟨lengths.splitLengths (items.take lengths.sum), items.drop lengths.sum,
    List.map_splitLengths_length _ _ (Nat.le_of_eq taken.symm), ?_, fun fits => ?_⟩
  · rw [List.flatten_splitLengths _ _ (Nat.le_of_eq taken), List.take_append_drop]
  · exact List.drop_eq_nil_of_le (total.2 fits)

/-! The whole assignment. -/

section

variable (scatter : List (Target E)) (rhs : E) (before after : List (Cell E))

def whole : List (Cell E) := before ++ (scatterCells before.length scatter rhs ++ after)

def finalLabel : Nat := chainStart before.length scatter + (chainCells (defaults scatter)).length

theorem whole_placed : Placed (whole scatter rhs before after) before.length
    (scatterCells before.length scatter rhs) := placed_after _ _ _

theorem whole_header : Placed (whole scatter rhs before after) (before.length + 1)
    (headerCells scatter) := Placed.left (whole_placed scatter rhs before after).tail

theorem whole_targets : Placed (whole scatter rhs before after) (before.length + 6)
    (targetCells (chainStart before.length scatter) scatter) :=
  Placed.left (Placed.right (whole_placed scatter rhs before after).tail)

theorem whole_ending : Placed (whole scatter rhs before after)
    (before.length + 6 + 2 * scatter.length)
    (.label (finalLabel scatter before) :: chainCells (defaults scatter)) := by
  have placed := Placed.right (Placed.right (whole_placed scatter rhs before after).tail)
  rw [targetCells_length] at placed
  exact placed

theorem whole_chain : Placed (whole scatter rhs before after) (chainStart before.length scatter)
    (chainCells (defaults scatter)) := by
  have placed := (whole_ending scatter rhs before after).tail
  rwa [show before.length + 6 + 2 * scatter.length + 1 = chainStart before.length scatter by
    rw [chainStart]; omega] at placed

theorem readLabel_final :
    readLabel (whole scatter rhs before after) (before.length + 6 + 2 * scatter.length) =
      some (finalLabel scatter before) := by
  rw [readLabel, (whole_ending scatter rhs before after).head]

theorem cells_length : (before ++ scatterCells before.length scatter rhs).length =
    finalLabel scatter before := by
  simp [scatterCells, headerCells, targetCells_length, finalLabel, chainStart]
  omega

end

section

variable {eval : E → Env α → Except Exit (Value α × Env α)} {debug : Bool}
  {scatter : List (Target E)} {rhs : E} {before after : List (Cell E)} {env : Env α}
  {below : List (Value α)} {value : Value α}

theorem scatter_reads (few : scatter.length ≤ 255) :
    (Execute.scatter debug (whole scatter rhs before after) (before.length + 3)
      ⟨env, value :: below⟩ : Option (Next α Exit)) =
    match value with
    | .list items => scatterList debug (whole scatter rhs before after) (before.length + 6)
        scatter.length (nreq scatter) (restRead scatter) items env below
    | value => refuse debug (whole scatter rhs before after) (before.length + 6) scatter.length
        (.mismatch value.typeCode [4 + complexFlag]) env below := by
  have placed := (whole_header scatter rhs before after).tail.tail
  have required : nreq scatter ≤ scatter.length := List.countP_le_length
  have nargsRead : readByte (whole scatter rhs before after) (before.length + 3) =
      some scatter.length := by
    rw [readByte, placed.head]
    simp
    omega
  have nreqRead : readByte (whole scatter rhs before after) (before.length + 3 + 1) =
      some (nreq scatter) := by
    rw [readByte, placed.tail.head]
    simp
    omega
  have restIs : readByte (whole scatter rhs before after) (before.length + 3 + 2) =
      some (restRead scatter) := by
    rw [readByte, placed.tail.tail.head]
    simp [restRead]
  rw [Execute.scatter, nargsRead, Option.bind_some, nreqRead, Option.bind_some, restIs,
    Option.bind_some]
  cases value <;> rfl

theorem step_scatter (activ : Activ α) :
    step eval debug (whole scatter rhs before after) (before.length + 1) activ =
      Execute.scatter debug (whole scatter rhs before after) (before.length + 3) activ := by
  have placed := whole_header scatter rhs before after
  rw [step, placed.head]
  simp only [placed.tail.head]

theorem before_final {offset : Nat} (inside : offset < 7) :
    before.length + offset ≠ finalLabel scatter before := by
  rw [finalLabel, chainStart]
  omega

theorem refuse_ends {error : Raised} {activ : Activ α}
    (refuses : (Execute.scatter debug (whole scatter rhs before after) (before.length + 3) activ :
      Option (Next α Exit)) =
      refuse debug (whole scatter rhs before after) (before.length + 6) scatter.length error env
        below) :
    Ends eval debug (whole scatter rhs before after) (finalLabel scatter before)
      (before.length + 1) activ (refused debug error env below) := by
  have stepped : step eval debug (whole scatter rhs before after) (before.length + 1) activ = _ :=
    (step_scatter activ).trans refuses
  rw [refuse, readLabel_final] at stepped
  cases debug with
  | true => exact ends_stop (before_final (by omega)) stepped
  | false => exact Ends.jump (ends_done _) (before_final (by omega)) stepped

theorem scatter_type (few : scatter.length ≤ 255) (other : ∀ items, value ≠ .list items) :
    Ends eval debug (whole scatter rhs before after) (finalLabel scatter before)
      (before.length + 1) ⟨env, value :: below⟩
      (refused debug (.mismatch value.typeCode [4 + complexFlag]) env below) := by
  refine refuse_ends ?_
  rw [scatter_reads few]
  cases value with
  | list items => exact absurd rfl (other items)
  | none => rfl
  | err err => rfl
  | other type content => rfl

theorem length_int {items : List (Value α)} (room : listRoom items.length = true) :
    toInt items.length = items.length := by
  have := listRoom_rooms.int room
  exact toInt_eq (by omega) (by omega)

theorem scatter_args {items : List (Value α)} (few : scatter.length ≤ 255)
    (room : listRoom items.length = true)
    (misfits : items.length < nreq scatter ∨
      scatter.length < restRead scatter ∧ scatter.length < items.length) :
    Ends eval debug (whole scatter rhs before after) (finalLabel scatter before)
      (before.length + 1) ⟨env, .list items :: below⟩ (refused debug .args env below) := by
  refine refuse_ends ?_
  rw [scatter_reads few]
  simp only [scatterList, length_int room]
  rw [if_pos (by omega)]

theorem scatter_assigns {items : List (Value α)} (once : scatter.countP Target.isRest ≤ 1)
    (few : scatter.length ≤ 255) (room : listRoom items.length = true)
    (enough : nreq scatter ≤ items.length)
    (fits : restRead scatter ≤ scatter.length ∨ items.length ≤ scatter.length) :
    ∃ parts, (¬Misfits scatter items → Shares scatter items parts) ∧
      Ends eval debug (whole scatter rhs before after) (finalLabel scatter before)
        (before.length + 1) ⟨env, .list items :: below⟩
        (finish (.list items) below
          (assignDefaults eval (missing scatter parts) (assign scatter parts env))) := by
  obtain ⟨parts, extra, counted, split, noExtra⟩ := exists_parts once enough
  obtain ⟨restAt, restInside, _⟩ := restRead_at once few
  have total := count_targets scatter
  refine ⟨parts, fun fits => ⟨by simpa [noExtra fits] using split.symm, counted⟩, ?_⟩
  have pending : Pending items (restRead scatter)
      (if restRead scatter ≤ scatter.length ∧ (items.length : Int) ≥ scatter.length then
        items.length - scatter.length + 1 else 0)
      (items.length + 1 - scatter.length) (items.length - nreq scatter) 1 scatter parts
      ⟨env, 0, items.length - nreq scatter, 0⟩ := by
    refine ⟨room, restAt, once, fun has => ?_, counted, ⟨[], extra, by simpa using split, by simp⟩,
      ?_, fun some => ?_, fun _ _ => rfl⟩
    · have inside := restInside has
      split <;> omega
    · simp only
      omega
    · unfold nreq at *
      omega
  obtain ⟨s, looped, env', _, enters⟩ := scatterLoop_assigns pending
    (whole_targets scatter rhs before after) (by rw [chainStart]; omega)
  have scattered : (Execute.scatter debug (whole scatter rhs before after) (before.length + 3)
      ⟨env, .list items :: below⟩ : Option (Next α Exit)) =
      some (.jump (if s.target = 0 then finalLabel scatter before else s.target)
        ⟨assign scatter parts env, .list items :: below⟩) := by
    rw [scatter_reads few]
    simp only [scatterList, length_int room]
    rw [if_neg (by omega), looped, Option.bind_some, readLabel_final, env']
    rfl
  refine Ends.jump ?_ (before_final (by omega)) ((step_scatter _).trans scattered)
  rcases enters rfl with ⟨none, zero⟩ | ⟨skipped, chain, target, nonzero⟩
  · rw [if_pos zero, none]
    exact ends_done _
  · have placed := whole_chain scatter rhs before after
    have entries : (chainCells (defaults scatter) : List (Cell E)) =
        chainCells skipped ++ chainCells (missing scatter parts) := by
      rw [chain, chainCells, List.flatMap_append]
      rfl
    rw [entries] at placed
    rw [if_neg nonzero, target]
    refine chain_ends placed.right ?_
    rw [finalLabel, entries, List.length_append]
    omega

theorem ends_evaluated {start : Env α} {outcome : Outcome α Exit}
    (evaluated : eval rhs start = .ok (value, env)) :
    Ends eval debug (whole scatter rhs before after) (finalLabel scatter before) before.length
        ⟨start, below⟩ outcome ↔
      Ends eval debug (whole scatter rhs before after) (finalLabel scatter before)
        (before.length + 1) ⟨env, value :: below⟩ outcome := by
  have inside : before.length ≠ finalLabel scatter before := by
    rw [finalLabel, chainStart]
    omega
  have stepped : step eval debug (whole scatter rhs before after) before.length ⟨start, below⟩ =
      some (.jump (before.length + 1) ⟨env, value :: below⟩) := by
    rw [step, (whole_placed scatter rhs before after).head]
    simp only [evaluated]
  refine ⟨?_, fun ends => ends.jump inside stepped⟩
  rintro ⟨fuel, ran⟩
  cases fuel with
  | zero => cases ran
  | succ fuel =>
      rw [run, if_neg inside, stepped] at ran
      exact ⟨fuel, ran⟩

/-- A pattern of 255 targets takes no list that is longer, unless one of them is a rest target. -/
def Overlong (scatter : List (Target E)) (value : Value α) : Prop :=
  scatter.length = 255 ∧ scatter.any Target.isRest = false ∧
    ∃ items, value = .list items ∧ 255 < items.length

theorem overlong_assigns (vetted : vetScatter scatter = [])
    (room : ∀ items, value = .list items → listRoom items.length = true)
    (overlong : Overlong scatter value) :
    ¬ScattersExact eval debug scatter value env below
      (Ends eval debug (whole scatter rhs before after) (finalLabel scatter before)
        (before.length + 1) ⟨env, value :: below⟩) := by
  obtain ⟨once, few⟩ := vetScatter_nil.mp vetted
  obtain ⟨full, none, items, rfl, long⟩ := overlong
  have required : nreq scatter ≤ scatter.length := List.countP_le_length
  have read := (restRead_at once few).2.2 none
  rw [if_pos full] at read
  intro exact'
  have refuses := exact'.args items rfl (.inr ⟨none, by omega⟩)
  obtain ⟨parts, _, assigns⟩ := @scatter_assigns α E Exit eval debug scatter rhs before after env
    below items once few (room items rfl) (by omega) (.inl (by omega))
  have same := refuses.unique assigns
  generalize assignDefaults eval (missing scatter parts) (assign scatter parts env) = ended at same
  cases ended <;> cases debug <;> cases same

theorem fitting_exact (vetted : vetScatter scatter = [])
    (room : ∀ items, value = .list items → listRoom items.length = true)
    (fitting : ¬Overlong scatter value) :
    ScattersExact eval debug scatter value env below
      (Ends eval debug (whole scatter rhs before after) (finalLabel scatter before)
        (before.length + 1) ⟨env, value :: below⟩) := by
  obtain ⟨once, few⟩ := vetScatter_nil.mp vetted
  obtain ⟨_, restInside, restBeyond⟩ := restRead_at once few
  refine ⟨fun other => scatter_type few other, ?_, ?_⟩
  · rintro items rfl misfits
    refine scatter_args few (room items rfl) (misfits.imp_right fun long => ?_)
    have notFull : scatter.length ≠ 255 := fun full =>
      fitting ⟨full, long.1, items, rfl, by omega⟩
    rw [restBeyond long.1, if_neg notFull]
    omega
  · rintro items rfl fits
    rw [Misfits] at fits
    obtain ⟨parts, shares, ends⟩ := @scatter_assigns α E Exit eval debug scatter rhs before after
      env below items once few (room items rfl) (by omega) (by
        cases has : scatter.any Target.isRest with
        | true => exact .inl (restInside has)
        | false => exact .inr (Nat.le_of_not_lt fun long => fits (.inr ⟨has, long⟩)))
    exact ⟨parts, shares fits, ends⟩

theorem runs_end {state : State E} {start : Env α} (evaluated : eval rhs start = .ok (value, env)) :
    (fun outcome => ∃ fuel,
      run eval debug ((generateScatter scatter rhs state).cells ++ after)
        (generateScatter scatter rhs state).cells.length fuel state.cells.length ⟨start, below⟩ =
          some outcome) =
      Ends eval debug (whole scatter rhs state.cells after) (finalLabel scatter state.cells)
        (state.cells.length + 1) ⟨env, value :: below⟩ := by
  funext outcome
  rw [generateScatter_cells, cells_length, List.append_assoc]
  exact propext (ends_evaluated evaluated)

end

/-- The code that is laid out for a scattering assignment distributes the value of its right side
as it should, except a list of more than 255 elements over 255 targets without a rest target. -/
theorem scatter_exact_iff (eval : E → Env α → Except Exit (Value α × Env α)) (debug : Bool)
    (scatter : List (Target E)) (vetted : vetScatter scatter = []) (rhs : E) (state : State E)
    (after : List (Cell E)) (start env : Env α) (value : Value α)
    (evaluated : eval rhs start = .ok (value, env))
    (room : ∀ items, value = .list items → listRoom items.length = true)
    (below : List (Value α)) :
    ScattersExact eval debug scatter value env below (fun outcome => ∃ fuel,
      run eval debug ((generateScatter scatter rhs state).cells ++ after)
        (generateScatter scatter rhs state).cells.length fuel state.cells.length ⟨start, below⟩ =
          some outcome) ↔
    ¬(scatter.length = 255 ∧ scatter.any Target.isRest = false ∧
      ∃ items, value = .list items ∧ 255 < items.length) := by
  rw [runs_end evaluated]
  exact ⟨fun exact' overlong => overlong_assigns vetted room overlong exact',
    fun fitting => fitting_exact vetted room fitting⟩

def constant (value : Value Nat) (env : Env Nat) : Except Empty (Value Nat × Env Nat) :=
  .ok (value, env)

def threeTargets : List (Target (Value Nat)) :=
  [.required 0, .optional 1 (some (.other 0 5)), .rest 2]

theorem scatter_exact_three :
    ScattersExact constant true threeTargets (.list [.other 0 7]) (fun _ => .none) []
      (fun outcome => ∃ fuel,
        run constant true ((generateScatter threeTargets (.list [.other 0 7]) ⟨[]⟩).cells ++ [])
          (generateScatter threeTargets (.list [.other 0 7]) ⟨[]⟩).cells.length fuel 0
            ⟨fun _ => .none, []⟩ = some outcome) ↔
    ¬(threeTargets.length = 255 ∧ threeTargets.any Target.isRest = false ∧
      ∃ items, (.list [.other 0 7] : Value Nat) = .list items ∧ 255 < items.length) :=
  scatter_exact_iff constant true threeTargets (by decide) (.list [.other 0 7]) ⟨[]⟩ [] _ _ _ rfl
    (fun items same => by cases same; decide) []

def manyTargets : List (Target (Value Nat)) := List.replicate 255 (.required 0)

/-- 255 targets take a list of 256 elements. -/
theorem scatter_overlong : ¬∀ (scatter : List (Target (Value Nat))) (items : List (Value Nat))
    (state : State (Value Nat)), vetScatter scatter = [] → listRoom items.length = true →
    ScattersExact constant true scatter (.list items) (fun _ => .none) [] (fun outcome => ∃ fuel,
      run constant true ((generateScatter scatter (.list items) state).cells ++ [])
        (generateScatter scatter (.list items) state).cells.length fuel state.cells.length
          ⟨fun _ => .none, []⟩ = some outcome) := by
  intro all
  have noRest : ∀ sc ∈ manyTargets, ¬sc.isRest = true := by
    intro sc member isRest
    rw [List.eq_of_mem_replicate member] at isRest
    cases isRest
  have vetted : vetScatter manyTargets = [] :=
    vetScatter_nil.mpr ⟨by rw [List.countP_eq_zero.mpr noRest]; omega,
      Nat.le_of_eq List.length_replicate⟩
  have room : listRoom (List.replicate 256 (.other 0 7 : Value Nat)).length = true := by
    rw [List.length_replicate]
    decide
  have exact' := all manyTargets _ ⟨[]⟩ vetted room
  rw [runs_end rfl] at exact'
  refine overlong_assigns vetted (fun items same => by cases same; exact room) ?_ exact'
  refine ⟨List.length_replicate, List.any_eq_false.mpr noRest, _, rfl, ?_⟩
  rw [List.length_replicate]
  decide

end ToastStunt.Execute
