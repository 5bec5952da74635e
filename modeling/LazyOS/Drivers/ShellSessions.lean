import LazyOS.Drivers.InterruptedSave

namespace LazyOS.Drivers

open LazyOS.Data
open LazyOS.Fs

/-! Sessions at the keyboard: lines typed at the prompt, and files written in the
editor. -/

def typedText (keys : List KeyPress) : List Byte := typedAll [] (keys.map KeyPress.scanCode)

inductive Action where
  | line (keys : List KeyPress) (enter : KeyPress)
  | edit (keys : List KeyPress) (enter : KeyPress) (typing : List KeyPress) (esc : KeyPress)

namespace Action

def events : Action → List ConsoleEvent
  | line keys enter => keys.map .press ++ [.press enter]
  | edit keys enter typing esc =>
      keys.map .press ++ .press enter :: (typing.map .press ++ [.press esc])

end Action

def act (store : Store) : Action → Store × List Byte
  | .line keys enter => (parseLine (typedText keys)).step enter.timeStamp store
  | .edit keys _ typing esc =>
      match parseLine (typedText keys) with
      | .write name => store.step (.create (savedArgs name (typedText typing) esc))
      | _ => (store, [])

/-- A line that fits `position`, typed up to its `Enter`. -/
structure TypesLine (keys : List KeyPress) (enter : KeyPress) : Prop where
  stays : ∀ key ∈ keys, key.scanCode ≠ enterKey
  short : NeverMore 255 [] (keys.map KeyPress.scanCode)
  ends : enter.scanCode = enterKey

/-- A text that fits `e_pos`, typed up to its `ESC`. -/
structure TypesText (typing : List KeyPress) (esc : KeyPress) : Prop where
  stays : ∀ key ∈ typing, key.scanCode ≠ escKey
  short : NeverMore 255 [] (typing.map KeyPress.scanCode)
  ends : esc.scanCode = escKey

structure AtPrompt (limit : Nat) (c : Console) (store : Store) : Prop where
  mode : c.mode = .terminal
  onScreen : OnScreen c.terminal
  line : HoldsTyped c.buff []
  editor : HoldsTyped c.editorBuff []
  mounted : Mounted limit c.fs store

def entered (keys : List KeyPress) (c : Console) : Option Terminal :=
  (pressAll keys c).bind fun typing => enterEcho typing.terminal

/-- A line leaves its answer on the screen, the editor leaves the window as it was. -/
def Action.Shows (before after : Console) (answer : List Byte) : Action → Prop
  | .line keys _ => ∃ shown, entered keys before = some shown ∧
      (parseLine (typedText keys)).display answer shown = some after.terminal
  | .edit keys .. => answer = [] ∧ ∃ shown, entered keys before = some shown ∧
      Restored shown after

theorem HoldsTyped.stringAt {buffer : TextBuffer} {text : List Byte}
    (held : HoldsTyped buffer text) (nonzero : ∀ c ∈ text, c ≠ 0)
    (short : text.length < bufferSize) : StringAt buffer.bytes 0 text := by
  refine ⟨fun k inside => ?_, nonzero, ?_⟩
  · rw [Nat.zero_add]
    exact held.bytes k inside
  · rw [Nat.zero_add]
    exact held.zero _ le_rfl short

theorem typedText_nonzero (keys : List KeyPress) : ∀ c ∈ typedText keys, c ≠ 0 :=
  typedAll_nonzero _ fun _ none => absurd none List.not_mem_nil

theorem typedText_length {keys : List KeyPress}
    (short : NeverMore 255 [] (keys.map KeyPress.scanCode)) : (typedText keys).length ≤ 255 :=
  short _ List.prefix_rfl

structure LineTyped (limit : Nat) (store : Store) (keys : List KeyPress) (c typing : Console)
    (shown : Terminal) : Prop where
  pressed : pressAll keys c = some typing
  echoed : enterEcho typing.terminal = some shown
  ok : CursorOk shown.videoMem shown.terminalRow shown.terminalCol
  mode : typing.mode = .terminal
  onScreen : OnScreen typing.terminal
  line : StringAt typing.buff.bytes 0 (typedText keys)
  editor : HoldsTyped typing.editorBuff []
  mounted : Mounted limit typing.fs store

theorem LineTyped.entered {limit : Nat} {store : Store} {keys : List KeyPress}
    {c typing : Console} {shown : Terminal}
    (typed : LineTyped limit store keys c typing shown) :
    entered keys c = some shown := by
  unfold Drivers.entered
  rw [typed.pressed, Option.bind_some, typed.echoed]

section Prompt

variable {limit : Nat} {store : Store} {c : Console} {keys : List KeyPress}
variable {enter : KeyPress}

theorem AtPrompt.types (prompt : AtPrompt limit c store) (types : TypesLine keys enter) :
    ∃ typing shown, LineTyped limit store keys c typing shown := by
  have closing : ∀ key ∈ keys, key.scanCode ≠ closingKey c.mode := by
    rw [prompt.mode]
    exact types.stays
  obtain ⟨t, pressed, draws⟩ := pressAll_types prompt.onScreen.inv.shown closing
  obtain ⟨shown, echoed, later⟩ := enterEcho_draws draws.shown
  unfold Console.retyped Console.active at pressed
  simp only [prompt.mode] at pressed
  have held : HoldsTyped ((keys.map KeyPress.scanCode).foldl TextBuffer.press c.buff)
      (typedText keys) :=
    (pressAll_holdsTyped_iff prompt.line (Nat.zero_le _) _).mpr types.short
  have short := Nat.lt_of_le_of_lt (typedText_length types.short)
    (by decide : 255 < bufferSize)
  refine ⟨_, shown, pressed, echoed, later.shown, ?_, ?_, ?_, ?_, ?_⟩
  · rfl
  · exact runEvents_onScreen prompt.onScreen pressed
  · exact held.stringAt (typedText_nonzero keys) short
  · exact prompt.editor
  · exact prompt.mounted

end Prompt

theorem parseLine_eq_write {line name : List Byte} (write : parseLine line = .write name) :
    (splitLine line).1 = literal "write" ∧ (splitLine line).2 = some name := by
  unfold parseLine parseWords at write
  split_ifs at write with _ _ _ _ read here delete
  · cases argument : (splitLine line).2 <;> simp [argument] at write
  · refine ⟨here, ?_⟩
    cases argument : (splitLine line).2 with
    | none => simp [argument] at write
    | some text =>
        rw [argument] at write
        exact congrArg some (Command.write.inj write)
  · cases argument : (splitLine line).2 <;> simp [argument] at write

theorem bufferTestCommand_opens {c : Console} {line name : List Byte}
    (fits : line.length < bufferSize) (held : StringAt c.buff.bytes 0 line)
    (write : parseLine line = .write name) (timeStamp : RtcTime) :
    bufferTestCommand timeStamp c =
      openEditor ((splitLine line).1.length + 1) (c.cut line) := by
  obtain ⟨word, argument⟩ := parseLine_eq_write write
  have start : argumentStart line = some ((splitLine line).1.length + 1) := by
    unfold argumentStart
    rw [argument]
    rfl
  rw [bufferTestCommand_line fits held, start]
  generalize (splitLine line).1.length + 1 = first
  rw [word, if_neg (by decide)]
  unfold runCommand
  rw [if_neg (by decide), if_neg (by decide), if_neg (by decide), if_neg (by decide),
    if_pos (by decide)]

theorem openEditor_fills {c : Console}
    (ok : CursorOk c.terminal.videoMem c.terminal.terminalRow c.terminal.terminalCol)
    {start : Nat} {name : List Byte} (held : StringAt c.buff.bytes start name)
    (short : name.length < filenameSize) (fits : start + name.length < bufferSize) :
    ∃ editing, openEditor start c = some editing ∧ Editing c.terminal c.fs editing ∧
      editing.editorBuff = c.editorBuff ∧ StringAt editing.editorFilename 0 name := by
  obtain ⟨editing, opened, edits⟩ := openEditor_editing ok held short fits
  refine ⟨editing, opened, edits, ?_⟩
  have copied := copyFilename_loop filenameSize 0 held short c.editorFilename
  unfold openEditor at opened
  rw [copied, Option.bind_some] at opened
  obtain ⟨text, -, opened⟩ := Option.bind_eq_some_iff.mp opened
  obtain ⟨t, -, rfl⟩ := Option.map_eq_some_iff.mp opened
  exact ⟨rfl, copyFilename_short filenameSize 0 held short _⟩

section Editor

variable {limit : Nat} {store : Store} {c : Console} {shown : Terminal} {fs : FileSystem}
variable {name text : List Byte}

theorem Editing.types (editing : Editing shown fs c) (empty : HoldsTyped c.editorBuff [])
    {typing : List KeyPress} {esc : KeyPress} (types : TypesText typing esc) :
    ∃ working, pressAll typing c = some working ∧ Editing shown fs working ∧
      HoldsTyped working.editorBuff (typedText typing) ∧
      working.editorFilename = c.editorFilename ∧ working.buff = c.buff := by
  have closing : ∀ key ∈ typing, key.scanCode ≠ closingKey c.mode := by
    rw [editing.mode]
    exact types.stays
  obtain ⟨t, pressed, draws⟩ := pressAll_types editing.inv.shown closing
  unfold Console.retyped Console.active at pressed
  simp only [editing.mode] at pressed
  refine ⟨_, pressed, editing.draws editing.mode.symm rfl draws, ?_, rfl, rfl⟩
  exact (pressAll_holdsTyped_iff empty (Nat.zero_le _) _).mpr types.short

/-- `Enter` behind a `write` has opened the editor on an empty text. -/
structure Opened (name : List Byte) (line : Console) (shown : Terminal) (opened : Console) :
    Prop where
  editing : Editing shown line.fs opened
  empty : HoldsTyped opened.editorBuff []
  named : StringAt opened.editorFilename 0 name
  cleared : HoldsTyped opened.buff []
  onScreen : OnScreen opened.terminal

theorem LineTyped.opens {keys : List KeyPress} {line : Console} {enter : KeyPress}
    (typed : LineTyped limit store keys c line shown) (types : TypesLine keys enter)
    (write : parseLine (typedText keys) = .write name) (short : name.length < filenameSize) :
    ∃ opened, keyboardCallback enter line = some opened ∧ Opened name line shown opened := by
  obtain ⟨-, argument⟩ := parseLine_eq_write write
  have fits := Nat.lt_of_le_of_lt (typedText_length types.short)
    (by decide : 255 < bufferSize)
  have room := argument_length_lt argument
  obtain ⟨editing, ran, edits, untouched, named⟩ := openEditor_fills
    (c := Console.cut (typedText keys) { line with terminal := shown }) typed.ok
    (stringAt_cutLine_argument typed.line argument) short (by omega)
  have pressed : keyboardCallback enter line = some (clearBuffer editing) := by
    rw [keyboardCallback_enter typed.mode types.ends typed.echoed,
      bufferTestCommand_opens (c := { line with terminal := shown }) fits typed.line write,
      ran, Option.map_some]
  have empty : HoldsTyped editing.editorBuff [] := by
    rw [untouched]
    exact typed.editor
  refine ⟨clearBuffer editing, pressed, ⟨edits.mode, edits.files, edits.inv, edits.saves⟩,
    empty, named, ?_, ?_⟩
  · exact enter_empties typed.onScreen typed.mode types.ends pressed
  · exact keyboardCallback_onScreen typed.onScreen pressed

end Editor

section Actions

variable {limit : Nat} {store : Store} {c : Console} {keys : List KeyPress}
variable {enter : KeyPress}
variable (prompt : AtPrompt limit c store) (types : TypesLine keys enter)
variable (bound : limit ≤ totalFat12Entreis)

include prompt types bound

end Actions

/-- The file in `slot` is the first of this name, and nothing before it is free. -/
structure FirstKept (store : Store) (name : CString) (slot : Fin 224) (file : StoredFile) :
    Prop where
  here : store slot = some file
  called : file.Called name
  earlier : ∀ earlier < slot, ∃ other, store earlier = some other ∧ ¬ other.Called name

theorem FirstKept.find {store : Store} {name : CString} {slot : Fin 224} {file : StoredFile}
    (kept : FirstKept store name slot file) : store.find name = some slot := by
  refine find?_finRange.mpr ⟨?_, fun earlier before => ?_⟩
  · rw [kept.here, Option.any_some]
    exact decide_eq_true kept.called
  · obtain ⟨other, there, different⟩ := kept.earlier earlier before
    rw [there, Option.any_some]
    exact decide_eq_false different

theorem FirstKept.create {store : Store} {name : CString} {slot : Fin 224} {file : StoredFile}
    (kept : FirstKept store name slot file) (args : CreateArgs) :
    FirstKept (store.step (.create args)).1 name slot file := by
  cases empty : store.emptySlot with
  | none =>
      simp only [Store.step, empty]
      exact kept
  | some free =>
      obtain ⟨none, -⟩ := find?_finRange.mp empty
      have behind : ∀ earlier ≤ slot, earlier ≠ free := by
        rintro earlier upTo rfl
        rcases upTo.eq_or_lt with rfl | before
        · rw [kept.here] at none
          cases none
        · obtain ⟨other, there, -⟩ := kept.earlier earlier before
          rw [there] at none
          cases none
      rw [Store.step_create empty]
      refine ⟨?_, kept.called, fun earlier before => ?_⟩
      · simp only [Function.update_of_ne (behind slot le_rfl)]
        exact kept.here
      · simp only [Function.update_of_ne (behind earlier before.le)]
        exact kept.earlier earlier before

theorem FirstKept.read {store : Store} {name : CString} {slot : Fin 224} {file : StoredFile}
    (kept : FirstKept store name slot file) :
    (store.step (.read name)).2 = shownText file.contents ++ literal "\n" := by
  simp only [Store.step, kept.find, Option.bind_some, kept.here]

def Command.Deletes : Command → Prop
  | .delete _ => True
  | _ => False

theorem Command.step_keeps {command : Command} (keeps : ¬ command.Deletes)
    (timeStamp : RtcTime) (store : Store) : (command.step timeStamp store).1 = store := by
  cases command with
  | read name => exact Store.step_read store _
  | delete name => exact absurd trivial keeps
  | _ => rfl

def Action.Deletes : Action → Prop
  | .line keys _ => (parseLine (typedText keys)).Deletes
  | .edit .. => False

theorem FirstKept.act {store : Store} {name : CString} {slot : Fin 224} {file : StoredFile}
    (kept : FirstKept store name slot file) {action : Action} (keeps : ¬ action.Deletes) :
    FirstKept (act store action).1 name slot file := by
  cases action with
  | line keys enter =>
      simp only [Drivers.act]
      rw [Command.step_keeps keeps]
      exact kept
  | edit keys enter typing esc =>
      simp only [Drivers.act]
      cases parseLine (typedText keys) with
      | write name => exact kept.create _
      | _ => exact kept

theorem FirstKept.answers {store : Store} {name : CString} {slot : Fin 224}
    {file : StoredFile} (kept : FirstKept store name slot file) {actions : List Action}
    (keeps : ∀ action ∈ actions, ¬ action.Deletes) :
    FirstKept (answers Drivers.act store actions).1 name slot file := by
  induction actions generalizing store with
  | nil => exact kept
  | cons action rest ih =>
      exact ih (kept.act (keeps action List.mem_cons_self))
        fun other member => keeps other (List.mem_cons_of_mem _ member)

end LazyOS.Drivers
