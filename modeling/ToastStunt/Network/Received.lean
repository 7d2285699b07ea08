import ToastStunt.Network.Telnet

/-!
What a stream of bytes says: the commands in it, and the lines of the bytes outside them. Nothing
here is about how the bytes are read.
-/

namespace ToastStunt.Network

/-- Between IAC SB and IAC SE: there an IAC stands before a byte other than SE. -/
inductive Parameters : List UInt8 → Prop
  | nil : Parameters []
  | byte {body : List UInt8} {c : UInt8} : Parameters body → c ≠ tnIac → Parameters (body ++ [c])
  | pair {body : List UInt8} {c : UInt8} : Parameters body → c ≠ tnSe →
      Parameters (body ++ [tnIac, c])

inductive Command : List UInt8 → Prop
  | single {c : UInt8} : c ≠ tnIac → c ≠ tnSb → negotiates c = false → Command [tnIac, c]
  | negotiation {c option : UInt8} : negotiates c = true → Command [tnIac, c, option]
  | subnegotiation {body : List UInt8} : Parameters body →
      Command (tnIac :: tnSb :: body ++ [tnIac, tnSe])

inductive Begun : TelnetState → List UInt8 → Prop
  | normal : Begun .normal []
  | iac : Begun .iac [tnIac]
  | command {c : UInt8} : negotiates c = true → Begun .command [tnIac, c]
  | subneg {body : List UInt8} : Parameters body → Begun .subneg (tnIac :: tnSb :: body)
  | subnegIac {body : List UInt8} : Parameters body →
      Begun .subnegIac (tnIac :: tnSb :: body ++ [tnIac])

inductive Item
  | byte (c : UInt8)
  | doubledIac
  | command (bytes : List UInt8)
  deriving DecidableEq, Repr

namespace Item

def bytes : Item → List UInt8
  | byte c => [c]
  | doubledIac => [tnIac, tnIac]
  | command bytes => bytes

inductive Valid : Item → Prop
  | byte {c : UInt8} : c ≠ tnIac → Valid (byte c)
  | doubledIac : Valid doubledIac
  | command {bytes : List UInt8} : Command bytes → Valid (command bytes)

def plain : Item → List UInt8
  | byte c => [c]
  | _ => []

def commands : Item → List (List UInt8)
  | command bytes => [bytes]
  | _ => []

end Item

/-- The bytes are these items, and what is left is a command that has not ended. -/
structure Received (bytes : List UInt8) (items : List Item) (rest : List UInt8) : Prop where
  split : bytes = items.flatMap Item.bytes ++ rest
  valid : ∀ item ∈ items, item.Valid
  begun : ∃ state, Begun state rest

def plainBytes (items : List Item) : List UInt8 := items.flatMap Item.plain

def commands (items : List Item) : List (List UInt8) := items.flatMap Item.commands

/-! Lines. -/

/-- The lines that have ended, and the one that has not. CR, LF and CR LF end a line. -/
def splitLines : List UInt8 → List (List UInt8) × List UInt8
  | [] => ([], [])
  | 13 :: 10 :: rest => Prod.map ([] :: ·) id (splitLines rest)
  | c :: rest =>
      if c = 13 ∨ c = 10 then Prod.map ([] :: ·) id (splitLines rest)
      else
        match splitLines rest with
        | ([], last) => ([], c :: last)
        | (first :: lines, last) => ((c :: first) :: lines, last)

def typeByte (applyBackspace : Bool) (text : CString) (c : UInt8) : CString :=
  if printable c then text ++ [c] else if applyBackspace && erases c then text.dropLast else text

def edit (applyBackspace : Bool) (line : List UInt8) : CString :=
  line.foldl (typeByte applyBackspace) []

def lines (applyBackspace : Bool) (items : List Item) : List CString :=
  (splitLines (plainBytes items)).1.map (edit applyBackspace)

def unended (applyBackspace : Bool) (items : List Item) : CString :=
  edit applyBackspace (splitLines (plainBytes items)).2

example : splitLines [97, 13, 10, 10, 98] = ([[97], []], [98]) := by decide

/-! Byte by byte. -/

structure Heard where
  state : TelnetState
  rest : List UInt8
  items : List Item

def TelnetState.hear (state : TelnetState) (rest : List UInt8) (c : UInt8) :
    TelnetState × List UInt8 × List Item :=
  match state with
  | .normal => if c = tnIac then (.iac, [c], []) else (.normal, [], [.byte c])
  | .iac =>
      if c = tnIac then (.normal, [], [.doubledIac])
      else if c = tnSb then (.subneg, rest ++ [c], [])
      else if negotiates c then (.command, rest ++ [c], [])
      else (.normal, [], [.command (rest ++ [c])])
  | .command => (.normal, [], [.command (rest ++ [c])])
  | .subneg => (if c = tnIac then .subnegIac else .subneg, rest ++ [c], [])
  | .subnegIac =>
      if c = tnSe then (.normal, [], [.command (rest ++ [c])]) else (.subneg, rest ++ [c], [])

namespace Heard

def nothing : Heard := ⟨.normal, [], []⟩

def hear (heard : Heard) (c : UInt8) : Heard :=
  let (state, rest, items) := heard.state.hear heard.rest c
  ⟨state, rest, heard.items ++ items⟩

def hearAll (heard : Heard) (bytes : List UInt8) : Heard := bytes.foldl hear heard

structure Sound (heard : Heard) : Prop where
  valid : ∀ item ∈ heard.items, item.Valid
  begun : Begun heard.state heard.rest

def bytes (heard : Heard) : List UInt8 := heard.items.flatMap Item.bytes ++ heard.rest

end Heard

structure Hears (rest : List UInt8) (c : UInt8) (heard : TelnetState × List UInt8 × List Item) :
    Prop where
  begun : Begun heard.1 heard.2.1
  valid : ∀ item ∈ heard.2.2, item.Valid
  split : heard.2.2.flatMap Item.bytes ++ heard.2.1 = rest ++ [c]

theorem Hears.going {state : TelnetState} {rest : List UInt8} {c : UInt8}
    (begun : Begun state (rest ++ [c])) : Hears rest c (state, rest ++ [c], []) :=
  ⟨begun, nofun, rfl⟩

theorem Hears.ended {rest : List UInt8} {c : UInt8} {item : Item} (valid : item.Valid)
    (bytes : item.bytes = rest ++ [c]) : Hears rest c (.normal, [], [item]) := by
  refine ⟨.normal, fun other member => List.mem_singleton.mp member ▸ valid, ?_⟩
  simpa using bytes

theorem TelnetState.hear_spec {state : TelnetState} {rest : List UInt8} (begun : Begun state rest)
    (c : UInt8) : Hears rest c (state.hear rest c) := by
  cases begun with
  | normal =>
      by_cases iac : c = tnIac
      · rw [hear, if_pos iac, iac]
        exact .going .iac
      · rw [hear, if_neg iac]
        exact .ended (.byte iac) rfl
  | iac =>
      by_cases iac : c = tnIac
      · rw [hear, if_pos iac, iac]
        exact .ended .doubledIac rfl
      · by_cases sb : c = tnSb
        · rw [hear, if_neg iac, if_pos sb, sb]
          exact .going (.subneg .nil)
        · by_cases option : negotiates c = true
          · rw [hear, if_neg iac, if_neg sb, if_pos option]
            exact .going (.command option)
          · rw [hear, if_neg iac, if_neg sb, if_neg option]
            exact .ended (.command (.single iac sb (Bool.eq_false_iff.mpr option))) rfl
  | command option => exact .ended (.command (.negotiation option)) rfl
  | @subneg body parameters =>
      by_cases iac : c = tnIac
      · rw [hear, if_pos iac, iac]
        exact .going (.subnegIac parameters)
      · rw [hear, if_neg iac]
        exact .going (.subneg (parameters.byte iac))
  | @subnegIac body parameters =>
      have joined (c : UInt8) : tnIac :: tnSb :: (body ++ [tnIac, c]) =
          tnIac :: tnSb :: body ++ [tnIac] ++ [c] := by simp
      by_cases se : c = tnSe
      · have command := Command.subnegotiation parameters
        rw [List.cons_append, List.cons_append, joined] at command
        rw [hear, if_pos se, se]
        exact .ended (.command command) rfl
      · have subneg := Begun.subneg (parameters.pair se)
        rw [joined] at subneg
        rw [hear, if_neg se]
        exact .going subneg

namespace Heard

theorem hear_sound {heard : Heard} (sound : heard.Sound) (c : UInt8) :
    (heard.hear c).Sound ∧ (heard.hear c).bytes = heard.bytes ++ [c] := by
  have hears := TelnetState.hear_spec sound.begun c
  refine ⟨⟨fun item member => ?_, hears.begun⟩, ?_⟩
  · exact (List.mem_append.mp member).elim (sound.valid item) (hears.valid item)
  · have split := hears.split
    simp only [bytes, hear, List.flatMap_append, List.append_assoc]
    rw [split]

theorem hearAll_sound {heard : Heard} (sound : heard.Sound) (bytes : List UInt8) :
    (heard.hearAll bytes).Sound ∧ (heard.hearAll bytes).bytes = heard.bytes ++ bytes := by
  induction bytes generalizing heard with
  | nil => exact ⟨sound, (List.append_nil _).symm⟩
  | cons c bytes ih =>
      obtain ⟨sound', one⟩ := hear_sound sound c
      obtain ⟨sound'', all⟩ := ih sound'
      refine ⟨sound'', all.trans ?_⟩
      rw [one, List.append_assoc, List.singleton_append]

theorem nothing_sound : nothing.Sound := ⟨nofun, .normal⟩

theorem Sound.received {heard : Heard} (sound : heard.Sound) :
    Received heard.bytes heard.items heard.rest :=
  ⟨rfl, sound.valid, _, sound.begun⟩

theorem hearAll_append (heard : Heard) (bytes more : List UInt8) :
    heard.hearAll (bytes ++ more) = (heard.hearAll bytes).hearAll more :=
  List.foldl_append

theorem hearAll_parameters {body : List UInt8} (parameters : Parameters body)
    (items : List Item) :
    (⟨.subneg, [tnIac, tnSb], items⟩ : Heard).hearAll body =
      ⟨.subneg, tnIac :: tnSb :: body, items⟩ := by
  induction parameters with
  | nil => rfl
  | byte parameters notIac ih =>
      rw [hearAll_append, ih]
      simp [hearAll, hear, TelnetState.hear, notIac]
  | pair parameters notSe ih =>
      rw [hearAll_append, ih]
      simp [hearAll, hear, TelnetState.hear, notSe]

theorem negotiates_ne {c : UInt8} (option : negotiates c = true) : c ≠ tnIac ∧ c ≠ tnSb := by
  constructor
  · rintro rfl
    cases option
  · rintro rfl
    cases option

theorem hearAll_opened (body : List UInt8) (items : List Item) :
    (⟨.normal, [], items⟩ : Heard).hearAll (tnIac :: tnSb :: body) =
      (⟨.subneg, [tnIac, tnSb], items⟩ : Heard).hearAll body := by
  have opened : ((⟨.normal, [], items⟩ : Heard).hear tnIac).hear tnSb =
      ⟨.subneg, [tnIac, tnSb], items⟩ := by
    have other : tnSb ≠ tnIac := by decide
    simp [hear, TelnetState.hear, other]
  exact congrArg (hearAll · body) opened

theorem hearAll_begun {state : TelnetState} {rest : List UInt8} (begun : Begun state rest)
    (items : List Item) : (⟨.normal, [], items⟩ : Heard).hearAll rest = ⟨state, rest, items⟩ := by
  cases begun with
  | normal => rfl
  | iac => simp [hearAll, hear, TelnetState.hear]
  | command option =>
      obtain ⟨notIac, notSb⟩ := negotiates_ne option
      simp [hearAll, hear, TelnetState.hear, notIac, notSb, option]
  | subneg parameters =>
      rw [hearAll_opened, hearAll_parameters parameters]
  | @subnegIac body parameters =>
      rw [List.cons_append, List.cons_append, hearAll_opened, hearAll_append,
        hearAll_parameters parameters]
      simp [hearAll, hear, TelnetState.hear]

theorem hearAll_command {bytes : List UInt8} (command : Command bytes) (items : List Item) :
    (⟨.normal, [], items⟩ : Heard).hearAll bytes = ⟨.normal, [], items ++ [.command bytes]⟩ := by
  cases command with
  | single notIac notSb option =>
      simp [hearAll, hear, TelnetState.hear, notIac, notSb, option]
  | negotiation option =>
      obtain ⟨notIac, notSb⟩ := negotiates_ne option
      simp [hearAll, hear, TelnetState.hear, notIac, notSb, option]
  | @subnegotiation body parameters =>
      have joined : tnIac :: tnSb :: body ++ [tnIac, tnSe] =
          tnIac :: tnSb :: body ++ [tnIac] ++ [tnSe] := by simp
      rw [joined, hearAll_append, hearAll_begun (.subnegIac parameters)]
      simp [hearAll, hear, TelnetState.hear]

theorem hearAll_item {item : Item} (valid : item.Valid) (items : List Item) :
    (⟨.normal, [], items⟩ : Heard).hearAll item.bytes = ⟨.normal, [], items ++ [item]⟩ := by
  cases valid with
  | byte notIac => simp [hearAll, hear, TelnetState.hear, Item.bytes, notIac]
  | doubledIac => simp [hearAll, hear, TelnetState.hear, Item.bytes]
  | command command => exact hearAll_command command items

theorem hearAll_items {items : List Item} (valid : ∀ item ∈ items, item.Valid)
    (before : List Item) :
    (⟨.normal, [], before⟩ : Heard).hearAll (items.flatMap Item.bytes) =
      ⟨.normal, [], before ++ items⟩ := by
  induction items generalizing before with
  | nil => simp [hearAll]
  | cons item items ih =>
      rw [List.flatMap_cons, hearAll_append, hearAll_item (valid item List.mem_cons_self),
        ih fun other member => valid other (List.mem_cons_of_mem _ member)]
      simp

end Heard

open Heard

def heard (bytes : List UInt8) : Heard := nothing.hearAll bytes

theorem heard_received (bytes : List UInt8) :
    Received bytes (heard bytes).items (heard bytes).rest := by
  obtain ⟨sound, same⟩ := hearAll_sound nothing_sound bytes
  have received := sound.received
  rwa [same] at received

/-- Bytes say one thing only. -/
theorem Received.unique {bytes : List UInt8} {items : List Item} {rest : List UInt8}
    (received : Received bytes items rest) :
    items = (heard bytes).items ∧ rest = (heard bytes).rest := by
  obtain ⟨state, begun⟩ := received.begun
  have all : heard bytes = ⟨state, rest, items⟩ := by
    rw [received.split, heard, hearAll_append]
    change hearAll (hearAll ⟨.normal, [], []⟩ _) rest = _
    rw [hearAll_items received.valid, hearAll_begun begun]
    rfl
  rw [all]
  exact ⟨rfl, rfl⟩

/-! Lines, byte by byte. -/

structure Typed where
  lines : List CString
  text : CString
  afterCR : Bool

namespace Typed

def nothing : Typed := ⟨[], [], false⟩

variable (applyBackspace : Bool)

def ended (typed : Typed) (c : UInt8) : List CString :=
  if c = 13 ∨ (c = 10 ∧ typed.afterCR = false) then [typeByte applyBackspace typed.text c] else []

def type (typed : Typed) (c : UInt8) : Typed :=
  { lines := typed.lines ++ typed.ended applyBackspace c
    text := if c = 13 ∨ (c = 10 ∧ typed.afterCR = false) then []
      else typeByte applyBackspace typed.text c
    afterCR := c = 13 }

def typeAll (typed : Typed) (bytes : List UInt8) : Typed := bytes.foldl (type applyBackspace) typed

def editFrom (text : CString) (line : List UInt8) : CString :=
  line.foldl (typeByte applyBackspace) text

def skipLf : List UInt8 → List UInt8
  | 10 :: rest => rest
  | bytes => bytes

def finish (done : List CString) (text : CString) :
    List (List UInt8) × List UInt8 → List CString × CString
  | ([], last) => (done, editFrom applyBackspace text last)
  | (first :: more, last) =>
      (done ++ editFrom applyBackspace text first :: more.map (edit applyBackspace),
        edit applyBackspace last)

theorem skipLf_other {c : UInt8} (other : c ≠ 10) (rest : List UInt8) :
    skipLf (c :: rest) = c :: rest := by
  rw [skipLf]
  intro _ same
  exact other (List.cons.inj same).1

theorem splitLines_cr (rest : List UInt8) :
    splitLines (13 :: rest) = Prod.map ([] :: ·) id (splitLines (skipLf rest)) := by
  cases rest with
  | nil => rfl
  | cons c rest =>
      by_cases lf : c = 10
      · subst lf
        rfl
      · rw [skipLf_other lf, splitLines, if_pos (.inl rfl)]
        rintro _ _ same
        exact lf (List.cons.inj same).1

theorem splitLines_lf (rest : List UInt8) :
    splitLines (10 :: rest) = Prod.map ([] :: ·) id (splitLines rest) := by
  rw [splitLines, if_pos (.inr rfl)]
  nofun

theorem splitLines_other {c : UInt8} (inside : ¬(c = 13 ∨ c = 10)) (rest : List UInt8) :
    splitLines (c :: rest) =
      match splitLines rest with
      | ([], last) => ([], c :: last)
      | (first :: lines, last) => ((c :: first) :: lines, last) := by
  rw [splitLines, if_neg inside]
  intro _ cr
  exact absurd (.inl cr) inside

theorem typeByte_end {c : UInt8} (ending : c = 13 ∨ c = 10) (text : CString) :
    typeByte applyBackspace text c = text := by
  rcases ending with rfl | rfl <;> cases applyBackspace <;> rfl

theorem finish_ended (done : List CString) (text : CString)
    (split : List (List UInt8) × List UInt8) :
    finish applyBackspace (done ++ [text]) [] split =
      finish applyBackspace done text (Prod.map ([] :: ·) id split) := by
  obtain ⟨lines, last⟩ := split
  cases lines with
  | nil => rfl
  | cons first more =>
      change (done ++ [text] ++ _ :: _, _) = (done ++ text :: _ :: _, _)
      rw [List.append_assoc]
      rfl

theorem finish_other (done : List CString) (text : CString) {c : UInt8}
    (inside : ¬(c = 13 ∨ c = 10)) (rest : List UInt8) :
    finish applyBackspace done (typeByte applyBackspace text c) (splitLines rest) =
      finish applyBackspace done text (splitLines (c :: rest)) := by
  rw [splitLines_other inside]
  obtain ⟨lines, last⟩ := splitLines rest
  cases lines <;> rfl

theorem type_ended (done : List CString) (text : CString) (afterCR : Bool) {c : UInt8}
    (ending : c = 13 ∨ (c = 10 ∧ afterCR = false)) :
    type applyBackspace ⟨done, text, afterCR⟩ c = ⟨done ++ [text], [], c = 13⟩ := by
  rw [type, ended, if_pos ending, if_pos ending,
    typeByte_end applyBackspace (ending.imp_right And.left)]

theorem type_other (done : List CString) (text : CString) (afterCR : Bool) {c : UInt8}
    (inside : ¬(c = 13 ∨ (c = 10 ∧ afterCR = false))) :
    type applyBackspace ⟨done, text, afterCR⟩ c =
      ⟨done, typeByte applyBackspace text c, false⟩ := by
  have notCR : c ≠ 13 := fun cr => inside (.inl cr)
  rw [type, ended, if_neg inside, if_neg inside, List.append_nil, decide_eq_false notCR]

/-- The lines that are typed are those of the split, where a LF after a CR is left out. -/
theorem typeAll_split (bytes : List UInt8) (done : List CString) (text : CString) (afterCR : Bool) :
    let typed := typeAll applyBackspace ⟨done, text, afterCR⟩ bytes
    (typed.lines, typed.text) =
      finish applyBackspace done text (splitLines (if afterCR then skipLf bytes else bytes)) := by
  induction bytes generalizing done text afterCR with
  | nil => cases afterCR <;> rfl
  | cons c rest ih =>
      by_cases cr : c = 13
      · have next := ih (done ++ [text]) [] true
        have kept : (if afterCR then skipLf (c :: rest) else c :: rest) = c :: rest := by
          rw [cr, skipLf_other (by decide), ite_self]
        rw [kept, typeAll, List.foldl_cons, type_ended _ _ _ _ (.inl cr), cr, splitLines_cr,
          ← finish_ended]
        exact next
      · by_cases lf : c = 10
        · subst lf
          cases afterCR with
          | true =>
              have inside : ¬((10 : UInt8) = 13 ∨ ((10 : UInt8) = 10 ∧ true = false)) := by decide
              have next := ih done text false
              rw [typeAll, List.foldl_cons, type_other _ _ _ _ inside, typeByte_end _ (.inr rfl)]
              exact next
          | false =>
              have next := ih (done ++ [text]) [] false
              rw [typeAll, List.foldl_cons, type_ended _ _ _ _ (.inr ⟨rfl, rfl⟩),
                if_neg Bool.false_ne_true, splitLines_lf, ← finish_ended]
              exact next
        · have next := ih done (typeByte applyBackspace text c) false
          have kept : (if afterCR then skipLf (c :: rest) else c :: rest) = c :: rest := by
            rw [skipLf_other lf, ite_self]
          rw [kept, typeAll, List.foldl_cons,
            type_other _ _ _ _ (fun ending => ending.elim cr fun ending => lf ending.1),
            ← finish_other _ _ _ (fun ending => ending.elim cr lf)]
          exact next

end Typed

def typed (applyBackspace : Bool) (items : List Item) : Typed :=
  Typed.nothing.typeAll applyBackspace (plainBytes items)

theorem typed_lines (applyBackspace : Bool) (items : List Item) :
    (typed applyBackspace items).lines = lines applyBackspace items ∧
      (typed applyBackspace items).text = unended applyBackspace items := by
  have split := Typed.typeAll_split applyBackspace (plainBytes items) [] [] false
  rw [if_neg Bool.false_ne_true] at split
  have finished (parts : List (List UInt8) × List UInt8) :
      Typed.finish applyBackspace [] [] parts =
        (parts.1.map (edit applyBackspace), edit applyBackspace parts.2) := by
    obtain ⟨lines, last⟩ := parts
    cases lines <;> rfl
  rw [finished] at split
  exact ⟨congrArg Prod.fst split, congrArg Prod.snd split⟩

end ToastStunt.Network
