import ToastStunt.Library.Failing
import ToastStunt.Network.Received

/-!
What the reads of a connection deliver, whatever they cut the stream into.
-/

namespace ToastStunt.Network

open ToastStunt.Binary

/-! One byte. -/

def deliverLines (lines : List CString) : List Delivery := lines.map (⟨·, false⟩)

/-- The handle after some bytes: they have been heard, and what is outside the commands typed. -/
structure Views (applyBackspace : Bool) (h : NHandle) (heard : Heard) : Prop where
  sound : heard.Sound
  notBinary : h.binary = false
  state : h.telnetState = heard.state
  command : heard.state ≠ .normal → h.commandStream.contents = heard.rest
  text : h.input.contents = (typed applyBackspace heard.items).text
  afterCR : h.lastInputWasCR = (typed applyBackspace heard.items).afterCR
  input : h.input.Sound none
  commandStream : h.commandStream.Sound none
  short : h.commandStream.contents.length ≤ heard.bytes.length
  shortInput : h.input.contents.length ≤ heard.bytes.length

variable {applyBackspace : Bool}

theorem plainBytes_append (items more : List Item) :
    plainBytes (items ++ more) = plainBytes items ++ plainBytes more :=
  List.flatMap_append

theorem commands_append (items more : List Item) :
    commands (items ++ more) = commands items ++ commands more :=
  List.flatMap_append

theorem typed_append (items more : List Item) :
    typed applyBackspace (items ++ more) =
      (typed applyBackspace items).typeAll applyBackspace (plainBytes more) := by
  rw [typed, typed, plainBytes_append, Typed.typeAll, List.foldl_append]
  rfl

theorem typeChar_spec {input : Stream} (sound : input.Sound none)
    (small : input.contents.length + 1 < 2 ^ 30) (c : UInt8) :
    ∃ input', typeChar applyBackspace input c = .ok input' ∧
      input'.contents = typeByte applyBackspace input.contents c ∧ input'.Sound none ∧
      input'.contents.length ≤ input.contents.length + 1 := by
  by_cases shown : printable c
  · obtain ⟨input', ran, contents, sound'⟩ := (streamAddChar_appends none c).ok input sound small
    refine ⟨input', (if_pos shown).trans ran, ?_, sound', ?_⟩
    · rw [contents, typeByte, if_pos shown]
    · rw [contents, List.length_append]
      exact Nat.le_refl _
  · rw [typeChar, if_neg shown]
    simp only [typeByte, if_neg shown]
    by_cases erased : applyBackspace && erases c
    · rw [if_pos erased, if_pos erased]
      have shorter : (streamDeleteChar input).contents.length ≤ input.contents.length := by
        simp [streamDeleteChar]
      exact ⟨_, rfl, rfl, ⟨Nat.lt_of_le_of_lt shorter sound.room, nofun⟩,
        Nat.le_succ_of_le shorter⟩
    · rw [if_neg erased, if_neg erased]
      exact ⟨_, rfl, rfl, sound, Nat.le_succ _⟩

theorem normalByte_spec {h : NHandle} {t : Typed} (text : h.input.contents = t.text)
    (afterCR : h.lastInputWasCR = t.afterCR) (sound : h.input.Sound none)
    (small : h.input.contents.length + 1 < 2 ^ 30) (c : UInt8) :
    ∃ input, normalByte applyBackspace h c =
        .ok ({ h with input := input, lastInputWasCR := (t.type applyBackspace c).afterCR },
          deliverLines (t.ended applyBackspace c)) ∧
      input.contents = (t.type applyBackspace c).text ∧ input.Sound none ∧
      input.contents.length ≤ h.input.contents.length + 1 := by
  obtain ⟨input, ran, contents, sound', short⟩ :=
    @typeChar_spec applyBackspace _ sound small c
  rw [text] at contents
  rw [normalByte, Failing.bind_of_ok ran, afterCR]
  by_cases ending : c = 13 ∨ (c = 10 ∧ t.afterCR = false)
  · refine ⟨input.reset, ?_, ?_, ⟨Nat.zero_lt_of_lt sound'.room, nofun⟩, Nat.zero_le _⟩
    · rw [if_pos ending, Typed.ended, if_pos ending, ← contents]
      rfl
    · rw [Typed.type, if_pos ending]
      rfl
  · refine ⟨input, ?_, ?_, sound', short⟩
    · rw [if_neg ending, Typed.ended, if_neg ending]
      rfl
    · rw [Typed.type, if_neg ending, contents]

structure Commanded (heard : TelnetState × List UInt8 × List Item) (rest : List UInt8)
    (oob oob' : Stream) : Prop where
  untyped : plainBytes heard.2.2 = []
  going : heard.1 ≠ .normal → heard.2.1 = rest
  oob : oob'.contents = oob.contents ++ canonical (commands heard.2.2).flatten
  sound : oob'.Sound none

theorem Commanded.quiet {state : TelnetState} {rest : List UInt8} {items : List Item}
    {oob : Stream} {left : List UInt8} (sound : oob.Sound none) (untyped : plainBytes items = [])
    (uncommanded : commands items = []) (going : state ≠ .normal → left = rest) :
    Commanded (state, left, items) rest oob oob :=
  ⟨untyped, going, by rw [uncommanded]; exact (List.append_nil _).symm, sound⟩

theorem completeCommand_spec {h : NHandle} {oob : Stream} (sound : oob.Sound none)
    (fits : oob.contents.length + (canonical h.commandStream.contents).length < 2 ^ 30) :
    ∃ oob', completeCommand h oob = .ok ({ h with telnetState := .normal }, oob') ∧
      Commanded (.normal, [], [.command h.commandStream.contents]) h.commandStream.contents
        oob oob' := by
  obtain ⟨oob', ran, contents, sound'⟩ :=
    (streamAddRawBytes_appends none h.commandStream.contents).ok oob sound fits
  refine ⟨oob', ?_, rfl, fun other => absurd rfl other, ?_, sound'⟩
  · rw [completeCommand, Failing.bind_of_ok ran]
  · rw [contents]
    simp [commands, Item.commands]

theorem commandByte_spec {h : NHandle} {oob : Stream} {rest : List UInt8} {c : UInt8}
    (inside : h.telnetState ≠ .normal) (command : h.commandStream.contents = rest ++ [c])
    (sound : oob.Sound none)
    (fits : oob.contents.length + (canonical h.commandStream.contents).length < 2 ^ 30) :
    ∃ cmd oob', commandByte h oob c =
        .ok ({ h with telnetState := (h.telnetState.hear rest c).1, telnetCmd := cmd }, oob') ∧
      Commanded (h.telnetState.hear rest c) (rest ++ [c]) oob oob' := by
  have completed (cmd : UInt8) : ∃ oob', completeCommand { h with telnetCmd := cmd } oob =
        .ok ({ h with telnetState := .normal, telnetCmd := cmd }, oob') ∧
      Commanded (.normal, [], [.command (rest ++ [c])]) (rest ++ [c]) oob oob' := by
    have complete := @completeCommand_spec { h with telnetCmd := cmd } oob sound fits
    change ∃ oob', _ ∧ Commanded (_, _, [.command h.commandStream.contents])
      h.commandStream.contents oob oob' at complete
    rwa [command] at complete
  cases state : h.telnetState with
  | normal => exact absurd state inside
  | iac =>
      rw [commandByte, state, TelnetState.hear]
      by_cases iac : c = tnIac
      · simp only [if_pos iac]
        exact ⟨h.telnetCmd, oob, rfl, .quiet sound rfl rfl fun other => absurd rfl other⟩
      · by_cases sb : c = tnSb
        · simp only [if_neg iac, if_pos sb]
          exact ⟨c, oob, rfl, .quiet sound rfl rfl fun _ => rfl⟩
        · by_cases option : negotiates c = true
          · simp only [if_neg iac, if_neg sb, if_pos option]
            exact ⟨c, oob, rfl, .quiet sound rfl rfl fun _ => rfl⟩
          · simp only [if_neg iac, if_neg sb, if_neg option]
            exact ⟨c, completed c⟩
  | command =>
      rw [commandByte, state, TelnetState.hear]
      exact ⟨h.telnetCmd, completed h.telnetCmd⟩
  | subneg =>
      rw [commandByte, state, TelnetState.hear]
      by_cases iac : c = tnIac
      · simp only [if_pos iac]
        exact ⟨h.telnetCmd, oob, rfl, .quiet sound rfl rfl fun _ => rfl⟩
      · simp only [if_neg iac]
        exact ⟨h.telnetCmd, oob, by rw [← state], .quiet sound rfl rfl fun _ => rfl⟩
  | subnegIac =>
      rw [commandByte, state, TelnetState.hear]
      by_cases se : c = tnSe
      · simp only [if_pos se]
        exact ⟨h.telnetCmd, completed h.telnetCmd⟩
      · simp only [if_neg se]
        exact ⟨h.telnetCmd, oob, rfl, .quiet sound rfl rfl fun _ => rfl⟩

/-- What one byte, or some, do to a handle that has heard some: `items` have been completed. -/
structure Takes (applyBackspace : Bool) (h' : NHandle) (oob oob' : Stream)
    (delivered : List Delivery) (heard heard' : Heard) (items : List Item) : Prop where
  views : Views applyBackspace h' heard'
  completed : heard'.items = heard.items ++ items
  lines : ∃ new, delivered = deliverLines new ∧
    (typed applyBackspace heard'.items).lines = (typed applyBackspace heard.items).lines ++ new
  oob : oob'.contents = oob.contents ++ canonical (commands items).flatten
  sound : oob'.Sound none

theorem hear_bytes {heard : Heard} (sound : heard.Sound) (c : UInt8) :
    (heard.hear c).bytes.length = heard.bytes.length + 1 := by
  rw [(Heard.hear_sound sound c).2, List.length_append, List.length_singleton]

theorem rest_short (heard : Heard) : heard.rest.length ≤ heard.bytes.length := by
  rw [Heard.bytes, List.length_append]
  exact Nat.le_add_left _ _

theorem canonical_length (bytes : List UInt8) : (canonical bytes).length ≤ 3 * bytes.length := by
  induction bytes with
  | nil => exact Nat.le_refl _
  | cons c bytes ih =>
      have split : canonical (c :: bytes) = escape c ++ canonical bytes := rfl
      have one := (escape_length c).2
      rw [split, List.length_append, List.length_cons]
      omega

theorem Views.commanded {h : NHandle} {heard : Heard} (views : Views applyBackspace h heard)
    {c cmd : UInt8} {rest : List UInt8} {commandStream oob oob' : Stream}
    (command : commandStream.contents = rest) (sound : commandStream.Sound none)
    (short : rest.length ≤ heard.bytes.length + 1)
    (commanded : Commanded (heard.state.hear heard.rest c) rest oob oob') :
    Takes applyBackspace
      { h with
        commandStream := commandStream, telnetState := (heard.state.hear heard.rest c).1
        telnetCmd := cmd }
      oob oob' [] heard (heard.hear c) (heard.state.hear heard.rest c).2.2 := by
  have untyped : typed applyBackspace (heard.hear c).items = typed applyBackspace heard.items := by
    rw [Heard.hear, typed_append, commanded.untyped]
    rfl
  have length := hear_bytes views.sound c
  refine ⟨?_, rfl, ⟨[], rfl, ?_⟩, commanded.oob, commanded.sound⟩
  · exact
      { sound := (Heard.hear_sound views.sound c).1
        notBinary := views.notBinary
        state := rfl
        command := fun going => command.trans (commanded.going going).symm
        text := untyped ▸ views.text
        afterCR := untyped ▸ views.afterCR
        input := views.input
        commandStream := sound
        short := by rw [length, command]; exact short
        shortInput := by rw [length]; exact Nat.le_succ_of_le views.shortInput }
  · rw [untyped, List.append_nil]

theorem processTelnetByte_spec {h : NHandle} {heard : Heard} {oob : Stream}
    (views : Views applyBackspace h heard) (below : heard.bytes.length < maxLineBytes)
    (sound : oob.Sound none) (fits : oob.contents.length + 3 * maxLineBytes < 2 ^ 30) (c : UInt8) :
    ∃ h' oob' delivered, processTelnetByte applyBackspace h oob c =
        .ok (some (h', oob', delivered)) ∧
      Takes applyBackspace h' oob oob' delivered heard (heard.hear c)
        (heard.state.hear heard.rest c).2.2 := by
  have short := views.short
  have shortInput := views.shortInput
  have length := hear_bytes views.sound c
  have small : 3 * maxLineBytes < 2 ^ 30 := by omega
  have room : ¬h.commandStream.contents.length ≥ maxLineBytes := by omega
  rw [processTelnetByte, if_neg room]
  by_cases plain : h.telnetState = .normal ∧ c ≠ tnIac
  · have heard_eq : heard.state.hear heard.rest c = (.normal, [], [.byte c]) := by
      rw [← views.state, plain.1, TelnetState.hear, if_neg plain.2]
    have typed_eq : typed applyBackspace (heard.hear c).items =
        (typed applyBackspace heard.items).type applyBackspace c := by
      rw [Heard.hear, heard_eq, typed_append]
      rfl
    obtain ⟨input, ran, text, sound', grown⟩ :=
      normalByte_spec views.text views.afterCR views.input (by omega) c
    rw [if_pos plain, Failing.bind_of_ok ran]
    refine ⟨_, oob, _, rfl, ?_, rfl, ⟨_, rfl, ?_⟩, ?_, sound⟩
    · have normal : (heard.hear c).state = .normal := by rw [Heard.hear, heard_eq]
      exact
        { sound := (Heard.hear_sound views.sound c).1
          notBinary := views.notBinary
          state := plain.1.trans normal.symm
          command := fun going => absurd normal going
          text := text.trans (congrArg Typed.text typed_eq.symm)
          afterCR := congrArg Typed.afterCR typed_eq.symm
          input := sound'
          commandStream := views.commandStream
          short := by rw [length]; exact Nat.le_succ_of_le short
          shortInput := by rw [length]; exact Nat.le_trans grown (Nat.succ_le_succ shortInput) }
    · rw [typed_eq]
      rfl
    · rw [heard_eq]
      exact (List.append_nil _).symm
  · rw [if_neg plain]
    by_cases normal : h.telnetState = .normal
    · have iac : c = tnIac := by
        by_contra other
        exact plain ⟨normal, other⟩
      have heard_eq : heard.state.hear heard.rest c = (.iac, [c], []) := by
        rw [← views.state, normal, TelnetState.hear, if_pos iac]
      obtain ⟨commandStream, ran, contents, sound'⟩ := (streamAddChar_appends none c).ok
        h.commandStream.reset ⟨Nat.zero_lt_of_lt views.commandStream.room, by rintro _ ⟨⟩⟩
        (show 0 + 1 < 2 ^ 30 by decide)
      rw [if_pos normal, Failing.bind_of_ok ran]
      have takes := @Views.commanded applyBackspace h heard views c h.telnetCmd [c] commandStream
        oob oob contents sound' (by simp) (by rw [heard_eq]; exact .quiet sound rfl rfl fun _ => rfl)
      refine ⟨_, oob, [], rfl, ?_⟩
      rwa [heard_eq] at takes ⊢
    · have restShort := rest_short heard
      obtain ⟨commandStream, ran, contents, sound'⟩ :=
        (streamAddChar_appends none c).ok h.commandStream views.commandStream
          (show h.commandStream.contents.length + 1 < 2 ^ 30 by omega)
      rw [views.command (views.state ▸ normal)] at contents
      have textLength := canonical_length (heard.rest ++ [c])
      rw [List.length_append, List.length_singleton] at textLength
      obtain ⟨cmd, oob', completed, commanded⟩ := @commandByte_spec
        { h with commandStream := commandStream } oob heard.rest c
        normal contents sound
        (show oob.contents.length + (canonical commandStream.contents).length < 2 ^ 30 by
          rw [contents]
          omega)
      rw [if_neg normal, Failing.bind_of_ok ran, Failing.bind_of_ok completed]
      change Commanded (h.telnetState.hear heard.rest c) _ oob oob' at commanded
      rw [views.state] at commanded
      refine ⟨_, oob', [], rfl, ?_⟩
      have takes := @Views.commanded applyBackspace h heard views c cmd _ commandStream oob oob'
        contents sound' (by rw [List.length_append, List.length_singleton]; omega) commanded
      rwa [← views.state] at takes ⊢

/-! A read. -/

theorem Takes.trans {h h' : NHandle} {oob oob' oob'' : Stream}
    {delivered more : List Delivery} {heard heard' heard'' : Heard} {items later : List Item}
    (one : Takes applyBackspace h oob oob' delivered heard heard' items)
    (two : Takes applyBackspace h' oob' oob'' more heard' heard'' later) :
    Takes applyBackspace h' oob oob'' (delivered ++ more) heard heard'' (items ++ later) := by
  obtain ⟨new, rfl, lines⟩ := one.lines
  obtain ⟨new', rfl, lines'⟩ := two.lines
  refine ⟨two.views, ?_, ⟨new ++ new', ?_, ?_⟩, ?_, two.sound⟩
  · rw [two.completed, one.completed, List.append_assoc]
  · rw [deliverLines, deliverLines, deliverLines, List.map_append]
  · rw [lines', lines, List.append_assoc]
  · rw [two.oob, one.oob, commands_append, List.flatten_append, List.append_assoc]
    simp [canonical]

theorem commands_short (items : List Item) :
    (commands items).flatten.length ≤ (items.flatMap Item.bytes).length := by
  induction items with
  | nil => exact Nat.le_refl _
  | cons item items ih =>
      change (item.commands ++ commands items).flatten.length ≤ (item.bytes ++ _).length
      rw [List.flatten_append, List.length_append, List.length_append]
      refine Nat.add_le_add ?_ ih
      cases item <;> simp [Item.commands, Item.bytes]

def Narrow (oob : Stream) (heard : Heard) : Prop :=
  oob.contents.length ≤ 3 * (heard.items.flatMap Item.bytes).length

theorem Takes.narrow {h : NHandle} {oob oob' : Stream} {delivered : List Delivery}
    {heard heard' : Heard} {items : List Item} (narrow : Narrow oob heard)
    (takes : Takes applyBackspace h oob oob' delivered heard heard' items) :
    Narrow oob' heard' := by
  have text := canonical_length (commands items).flatten
  have short := commands_short items
  rw [Narrow] at narrow ⊢
  rw [takes.oob, takes.completed, List.flatMap_append, List.length_append, List.length_append]
  omega

theorem processBytes_spec {buffer : List UInt8} {h : NHandle} {heard : Heard} {oob : Stream}
    (views : Views applyBackspace h heard)
    (below : heard.bytes.length + buffer.length < maxLineBytes) (sound : oob.Sound none)
    (narrow : Narrow oob heard) :
    ∃ h' oob' delivered items, processBytes applyBackspace h oob buffer =
        .ok (some (h', oob', delivered)) ∧
      Takes applyBackspace h' oob oob' delivered heard (heard.hearAll buffer) items := by
  induction buffer generalizing h heard oob with
  | nil =>
      refine ⟨h, oob, [], [], rfl, views, (List.append_nil _).symm, ⟨[], rfl, ?_⟩, ?_, sound⟩
      · exact (List.append_nil _).symm
      · exact (List.append_nil _).symm
  | cons c buffer ih =>
      have length := hear_bytes views.sound c
      have bytes : (heard.items.flatMap Item.bytes).length ≤ heard.bytes.length := by
        rw [Heard.bytes, List.length_append]
        exact Nat.le_add_right _ _
      have fits : oob.contents.length + 3 * maxLineBytes < 2 ^ 30 := by
        rw [Narrow] at narrow
        rw [List.length_cons] at below
        have : maxLineBytes = 5242880 := rfl
        omega
      rw [List.length_cons] at below
      obtain ⟨h₁, oob₁, delivered, ran, one⟩ :=
        processTelnetByte_spec views (by omega) sound fits c
      obtain ⟨h₂, oob₂, more, items, ran', rest⟩ :=
        ih one.views (by omega) one.sound (one.narrow narrow)
      refine ⟨h₂, oob₂, delivered ++ more, _, ?_, one.trans rest⟩
      rw [processBytes, Failing.bind_of_ok ran]
      simp only
      rw [Failing.bind_of_ok ran']

/-- What a read delivers, when it completes these items: the lines that end in it, and after them
the commands in one text. -/
def turn (applyBackspace : Bool) (before here : List Item) : List Delivery :=
  deliverLines ((lines applyBackspace (before ++ here)).drop
    (lines applyBackspace before).length) ++
  if commands here = [] then [] else [⟨canonical (commands here).flatten, true⟩]

theorem Command.nonempty {bytes : List UInt8} (command : Command bytes) : bytes ≠ [] := by
  cases command <;> nofun

theorem canonical_commands {items : List Item} (valid : ∀ item ∈ items, item.Valid) :
    (canonical (commands items).flatten).length > 0 ↔ commands items ≠ [] := by
  constructor
  · intro text none
    rw [none] at text
    exact absurd text (by decide)
  · intro some
    obtain ⟨bytes, listed⟩ := List.exists_mem_of_ne_nil _ some
    obtain ⟨item, member, inItem⟩ := List.mem_flatMap.mp listed
    have whole : bytes ≠ [] := by
      cases valid item member with
      | byte notIac => cases inItem
      | doubledIac => cases inItem
      | command command => exact List.mem_singleton.mp inItem ▸ command.nonempty
    obtain ⟨c, rest, rfl⟩ := List.exists_cons_of_ne_nil whole
    have first : c ∈ (commands items).flatten := List.mem_flatten.mpr ⟨_, listed, List.mem_cons_self⟩
    obtain ⟨before, after, split⟩ := List.append_of_mem first
    have one := (escape_length c).1
    rw [split, canonical, List.flatMap_append, List.flatMap_cons, List.length_append,
      List.length_append]
    omega

theorem pullInput_spec {buffer : List UInt8} {h : NHandle} {heard : Heard}
    (views : Views applyBackspace h heard)
    (below : heard.bytes.length + buffer.length < maxLineBytes) :
    ∃ h' items, pullInput applyBackspace h buffer =
        .ok (some (h', turn applyBackspace heard.items items)) ∧
      Views applyBackspace h' (heard.hearAll buffer) ∧
      (heard.hearAll buffer).items = heard.items ++ items := by
  have shortInput := views.shortInput
  have room : ¬h.input.contents.length ≥ maxLineBytes := by omega
  have empty : (newStream 100).Sound none := ⟨by decide, nofun⟩
  obtain ⟨h', oob, delivered, items, ran, takes⟩ :=
    processBytes_spec views below empty (Nat.zero_le _)
  obtain ⟨new, rfl, added⟩ := takes.lines
  have text : oob.contents = canonical (commands items).flatten := takes.oob
  have complete : oob.contents.length > 0 ↔ commands items ≠ [] := by
    rw [text]
    refine canonical_commands fun item member => takes.views.sound.valid item ?_
    rw [takes.completed]
    exact List.mem_append_right _ member
  have dropped : (lines applyBackspace (heard.items ++ items)).drop
      (lines applyBackspace heard.items).length = new := by
    rw [takes.completed, (typed_lines applyBackspace _).1, (typed_lines applyBackspace _).1]
      at added
    rw [added, List.drop_left]
  refine ⟨h', items, ?_, takes.views, takes.completed⟩
  rw [pullInput, if_neg room, views.notBinary, if_neg Bool.false_ne_true, Failing.bind_of_ok ran,
    turn, dropped, ← text]
  by_cases none : commands items = []
  · have nothing : ¬oob.contents.length > 0 := fun some => complete.mp some none
    simp only [if_pos none, if_neg nothing, List.append_nil]
  · simp only [if_neg none, if_pos (complete.mpr none)]

/-! All reads. -/

def turns (applyBackspace : Bool) : (before : List Item) → (parts : List (List Item)) →
    List (List Delivery)
  | _, [] => []
  | before, here :: parts =>
      turn applyBackspace before here :: turns applyBackspace (before ++ here) parts

structure Cut (reads : List (List UInt8)) (parts : List (List Item)) : Prop where
  length : parts.length = reads.length
  received : ∀ n, ∃ rest, Received (reads.take n).flatten (parts.take n).flatten rest

theorem pullInputs_spec {reads : List (List UInt8)} {h : NHandle} {heard : Heard}
    (views : Views applyBackspace h heard)
    (below : heard.bytes.length + reads.flatten.length < maxLineBytes) :
    ∃ h' parts, pullInputs applyBackspace h reads =
        .ok (some (h', turns applyBackspace heard.items parts)) ∧
      Views applyBackspace h' (heard.hearAll reads.flatten) ∧ parts.length = reads.length ∧
      ∀ n, (heard.hearAll (reads.take n).flatten).items = heard.items ++ (parts.take n).flatten := by
  induction reads generalizing h heard with
  | nil =>
      refine ⟨h, [], rfl, views, rfl, fun n => ?_⟩
      rw [List.take_nil, List.take_nil, List.flatten_nil, List.flatten_nil, List.append_nil]
      rfl
  | cons buffer reads ih =>
      rw [List.flatten_cons, List.length_append] at below
      obtain ⟨h₁, items, ran, views₁, completed⟩ :=
        @pullInput_spec applyBackspace buffer _ _ views (by omega)
      have length := (Heard.hearAll_sound views.sound buffer).2
      obtain ⟨h₂, parts, ran', views₂, same, received⟩ := ih views₁ (by
        rw [length, List.length_append]
        omega)
      refine ⟨h₂, items :: parts, ?_, ?_, congrArg Nat.succ same, fun n => ?_⟩
      · rw [pullInputs, Failing.bind_of_ok ran]
        simp only
        rw [Failing.bind_of_ok ran', completed]
        rfl
      · rwa [List.flatten_cons, Heard.hearAll_append]
      · cases n with
        | zero =>
            rw [List.take_zero, List.take_zero, List.flatten_nil, List.flatten_nil, List.append_nil]
            rfl
        | succ n =>
            rw [List.take_succ_cons, List.take_succ_cons, List.flatten_cons, List.flatten_cons,
              Heard.hearAll_append, received, completed, List.append_assoc]

/-! What has been delivered in all. -/

def inBand (delivered : List Delivery) : List CString :=
  (delivered.filter (!·.outOfBand)).map Delivery.line

def outOfBand (delivered : List Delivery) : CString :=
  ((delivered.filter Delivery.outOfBand).map Delivery.line).flatten

theorem typeAll_lines (bytes : List UInt8) (t : Typed) :
    ∃ new, (t.typeAll applyBackspace bytes).lines = t.lines ++ new := by
  induction bytes generalizing t with
  | nil => exact ⟨[], (List.append_nil _).symm⟩
  | cons c bytes ih =>
      obtain ⟨new, rest⟩ := ih (t.type applyBackspace c)
      refine ⟨t.ended applyBackspace c ++ new, ?_⟩
      rw [← List.append_assoc]
      exact rest

theorem lines_append (applyBackspace : Bool) (items more : List Item) :
    ∃ new, lines applyBackspace (items ++ more) = lines applyBackspace items ++ new := by
  have added := @typeAll_lines applyBackspace (plainBytes more) (typed applyBackspace items)
  rwa [← typed_append, (typed_lines applyBackspace _).1, (typed_lines applyBackspace _).1] at added

theorem inBand_append (delivered more : List Delivery) :
    inBand (delivered ++ more) = inBand delivered ++ inBand more := by
  rw [inBand, List.filter_append, List.map_append]
  rfl

theorem outOfBand_append (delivered more : List Delivery) :
    outOfBand (delivered ++ more) = outOfBand delivered ++ outOfBand more := by
  rw [outOfBand, List.filter_append, List.map_append, List.flatten_append]
  rfl

theorem inBand_lines (new : List CString) :
    inBand (deliverLines new) = new ∧ outOfBand (deliverLines new) = [] := by
  induction new with
  | nil => exact ⟨rfl, rfl⟩
  | cons line new ih => exact ⟨congrArg (line :: ·) ih.1, ih.2⟩

theorem inBand_turn (before here : List Item) :
    lines applyBackspace before ++ inBand (turn applyBackspace before here) =
      lines applyBackspace (before ++ here) ∧
    outOfBand (turn applyBackspace before here) = canonical (commands here).flatten := by
  obtain ⟨new, added⟩ := lines_append applyBackspace before here
  rw [turn, inBand_append, outOfBand_append, (inBand_lines _).1, (inBand_lines _).2, added,
    List.drop_left]
  by_cases none : commands here = []
  · rw [if_pos none, none]
    exact ⟨congrArg _ (List.append_nil _), rfl⟩
  · rw [if_neg none]
    exact ⟨congrArg _ (List.append_nil _), List.append_nil _⟩

theorem inBand_turns (before : List Item) (parts : List (List Item)) :
    lines applyBackspace before ++ inBand (turns applyBackspace before parts).flatten =
      lines applyBackspace (before ++ parts.flatten) ∧
    outOfBand (turns applyBackspace before parts).flatten =
      canonical (commands parts.flatten).flatten := by
  induction parts generalizing before with
  | nil =>
      rw [List.flatten_nil, List.append_nil]
      exact ⟨List.append_nil _, rfl⟩
  | cons here parts ih =>
      obtain ⟨lines_eq, out⟩ := ih (before ++ here)
      obtain ⟨lines_eq', out'⟩ := @inBand_turn applyBackspace before here
      rw [turns, List.flatten_cons, List.flatten_cons, inBand_append, outOfBand_append, out, out',
        ← List.append_assoc, lines_eq', lines_eq, List.append_assoc, commands_append,
        List.flatten_append]
      exact ⟨rfl, by simp [canonical]⟩

theorem splitLines_flatten (bytes : List UInt8) :
    (splitLines bytes).1.flatten ++ (splitLines bytes).2 =
      bytes.filter fun c => decide ¬(c = 13 ∨ c = 10) := by
  induction bytes using splitLines.induct with
  | case1 => rfl
  | case2 rest ih => exact ih
  | case3 c rest other ending ih =>
      rw [splitLines, if_pos ending, List.filter_cons_of_neg (by simpa using ending.resolve_left)]
      · exact ih
      · exact other
  | case4 c rest other inside last split ih =>
      rw [splitLines, if_neg inside, split, List.filter_cons_of_pos (by simpa using inside)]
      · rw [split] at ih
        exact congrArg (c :: ·) ih
      · exact other
  | case5 c rest other inside first more last split ih =>
      rw [splitLines, if_neg inside, split, List.filter_cons_of_pos (by simpa using inside)]
      · rw [split] at ih
        exact congrArg (c :: ·) ih
      · exact other

theorem edit_printable {line : List UInt8}
    (kept : applyBackspace = false ∨ ∀ c ∈ line, erases c = false) :
    edit applyBackspace line = line.filter printable := by
  have typed (text : CString) (line : List UInt8)
      (kept : applyBackspace = false ∨ ∀ c ∈ line, erases c = false) :
      line.foldl (typeByte applyBackspace) text = text ++ line.filter printable := by
    induction line generalizing text with
    | nil => exact (List.append_nil _).symm
    | cons c line ih =>
        have rest := ih (typeByte applyBackspace text c)
          (kept.imp_right fun kept d member => kept d (List.mem_cons_of_mem _ member))
        have unerased : (applyBackspace && erases c) = false := by
          rcases kept with off | kept
          · rw [off, Bool.false_and]
          · rw [kept c List.mem_cons_self, Bool.and_false]
        rw [List.foldl_cons, rest, typeByte, unerased]
        by_cases shown : printable c
        · rw [if_pos shown, List.filter_cons_of_pos shown, List.append_assoc,
            List.singleton_append]
        · rw [if_neg shown, List.filter_cons_of_neg shown, if_neg Bool.false_ne_true]
  exact typed [] line kept

theorem lines_printable {items : List Item}
    (kept : applyBackspace = false ∨ ∀ c ∈ plainBytes items, erases c = false) :
    (lines applyBackspace items).flatten ++ unended applyBackspace items =
      (plainBytes items).filter printable := by
  have whole := splitLines_flatten (plainBytes items)
  have inside (c : UInt8)
      (member : c ∈ (splitLines (plainBytes items)).1.flatten ++ (splitLines (plainBytes items)).2) :
      c ∈ plainBytes items := by
    rw [whole] at member
    exact List.mem_of_mem_filter member
  have edited : (splitLines (plainBytes items)).1.map (edit applyBackspace) =
      (splitLines (plainBytes items)).1.map (List.filter printable) := by
    refine List.map_congr_left fun line listed => edit_printable (kept.imp_right fun kept c inLine => ?_)
    exact kept c (inside c (List.mem_append_left _ (List.mem_flatten.mpr ⟨line, listed, inLine⟩)))
  have ending (c : UInt8) : (printable c && decide ¬(c = 13 ∨ c = 10)) = printable c := by
    by_cases shown : printable c
    · have other : ¬(c = 13 ∨ c = 10) := by
        rintro (rfl | rfl) <;> cases shown
      rw [decide_eq_true other, Bool.and_true]
    · rw [Bool.eq_false_iff.mpr shown, Bool.false_and]
  rw [lines, unended, edited, edit_printable (kept.imp_right fun kept c inLine =>
    kept c (inside c (List.mem_append_right _ inLine))), ← List.filter_flatten,
    ← List.filter_append, whole, List.filter_filter]
  exact List.filter_congr fun c _ => ending c

theorem new_views : Views applyBackspace .new .nothing where
  sound := Heard.nothing_sound
  notBinary := rfl
  state := rfl
  command := fun other => absurd rfl other
  text := rfl
  afterCR := rfl
  input := ⟨by decide, nofun⟩
  commandStream := ⟨by decide, nofun⟩
  short := Nat.le_refl _
  shortInput := Nat.le_refl _

structure Delivers (applyBackspace : Bool) (items : List Item) (delivered : List Delivery)
    (h : NHandle) : Prop where
  lines : inBand delivered = lines applyBackspace items
  commands : outOfBand delivered = canonical (commands items).flatten
  unended : h.input.contents = unended applyBackspace items

/-- Lines and commands do not depend on the reads, but for where the commands come: after the lines
that end in the read that completes them. -/
theorem pullInputs_exact (applyBackspace : Bool) (bytes : List UInt8)
    (below : bytes.length < maxLineBytes) :
    ∃ items rest, Received bytes items rest ∧
      (∀ items' rest', Received bytes items' rest' → items' = items ∧ rest' = rest) ∧
      ((applyBackspace = false ∨ ∀ c ∈ plainBytes items, erases c = false) →
        (lines applyBackspace items).flatten ++ unended applyBackspace items =
          (plainBytes items).filter printable) ∧
      ∀ reads, reads.flatten = bytes → ∃ h parts,
        pullInputs applyBackspace .new reads = .ok (some (h, turns applyBackspace [] parts)) ∧
        Cut reads parts ∧ parts.flatten = items ∧
        Delivers applyBackspace items (turns applyBackspace [] parts).flatten h := by
  refine ⟨(heard bytes).items, (heard bytes).rest, heard_received bytes, fun _ _ => Received.unique,
    lines_printable, ?_⟩
  rintro reads rfl
  obtain ⟨h, parts, ran, views, length, received⟩ :=
    pullInputs_spec new_views (show 0 + reads.flatten.length < maxLineBytes by rwa [Nat.zero_add])
  have whole : parts.flatten = (heard reads.flatten).items := by
    have all := received reads.length
    rw [List.take_length, ← length, List.take_length] at all
    exact all.symm
  obtain ⟨lines_eq, commands_eq⟩ := @inBand_turns applyBackspace [] parts
  rw [List.nil_append, whole] at lines_eq
  rw [whole] at commands_eq
  refine ⟨h, parts, ran, ⟨length, fun n => ⟨(heard (reads.take n).flatten).rest, ?_⟩⟩, whole, lines_eq, commands_eq, ?_⟩
  · have part := heard_received (reads.take n).flatten
    have items : (heard (reads.take n).flatten).items = (parts.take n).flatten := received n
    rwa [items] at part
  · exact views.text.trans (typed_lines applyBackspace _).2

theorem pullInputs_exact_line :
    ∃ items rest, Received [97, 255, 241, 13] items rest ∧
      (∀ items' rest', Received [97, 255, 241, 13] items' rest' → items' = items ∧ rest' = rest) ∧
      ((true = false ∨ ∀ c ∈ plainBytes items, erases c = false) →
        (lines true items).flatten ++ unended true items = (plainBytes items).filter printable) ∧
      ∀ reads, reads.flatten = [97, 255, 241, 13] → ∃ h parts,
        pullInputs true .new reads = .ok (some (h, turns true [] parts)) ∧
        Cut reads parts ∧ parts.flatten = items ∧
        Delivers true items (turns true [] parts).flatten h :=
  pullInputs_exact true [97, 255, 241, 13] (by decide)

/-- A command before a line comes after it in one read and before it in two; two commands come as
one; and a backspace takes a printable byte away. -/
theorem pullInputs_cut :
    (∃ h, pullInputs true .new [[255, 241, 97, 13]] =
      .ok (some (h, [[⟨[97], false⟩, ⟨canonical [255, 241], true⟩]]))) ∧
    (∃ h, pullInputs true .new [[255, 241], [97, 13]] =
      .ok (some (h, [[⟨canonical [255, 241], true⟩], [⟨[97], false⟩]]))) ∧
    (∃ h, pullInputs true .new [[255, 241, 255, 241]] =
      .ok (some (h, [[⟨canonical [255, 241, 255, 241], true⟩]]))) ∧
    ∃ h, pullInputs true .new [[97, 8, 13]] = .ok (some (h, [[⟨[], false⟩]])) :=
  ⟨⟨_, rfl⟩, ⟨_, rfl⟩, ⟨_, rfl⟩, ⟨_, rfl⟩⟩

end ToastStunt.Network
