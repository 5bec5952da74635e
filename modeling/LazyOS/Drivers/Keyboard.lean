import LazyOS.Drivers.Terminal
import LazyOS.Fs.Operations

namespace LazyOS.Drivers

open LazyOS.Data
open LazyOS.Fs

/-! The keyboard handler of `keyboard.c` with the buffers and the commands of
`vga_buffer.c`.  An operation is `none` when it comes to an index outside an array, or
never ends; `buff` comes from `kzalloc`, which is taken to succeed. -/

def bufferSize : Nat := 4096

inductive Mode where
  | terminal
  | editor
deriving DecidableEq

/-- A buffer with its position: `buff` with `position`, `editor_buff` with `e_pos`. -/
structure TextBuffer where
  bytes : Nat → Byte
  position : Byte

def TextBuffer.store (buffer : TextBuffer) (ch : Byte) : TextBuffer where
  bytes := Function.update buffer.bytes buffer.position.toNat ch
  position := buffer.position + 1

def TextBuffer.removeOne (buffer : TextBuffer) : TextBuffer :=
  if buffer.position = 0 then buffer
  else
    { bytes := Function.update buffer.bytes (buffer.position.toNat - 1) 0
      position := buffer.position - 1 }

def TextBuffer.clear (buffer : TextBuffer) : TextBuffer where
  bytes := fun i => if i < bufferSize then 0 else buffer.bytes i
  position := 0

structure Console where
  terminal : Terminal
  mode : Mode
  buff : TextBuffer
  editorBuff : TextBuffer
  editorFilename : CString
  fs : FileSystem

/-- What one interrupt brings: the scan code, the time the clock shows and the contents
of the uninitialised local of `create_file`. -/
structure KeyPress where
  scanCode : Byte
  timeStamp : RtcTime
  newFile : FileDir

def Console.print (msg : List Byte) (c : Console) : Option Console :=
  (Drivers.print msg c.terminal).map fun t => { c with terminal := t }

def Console.onFiles (operation : FileSystem → Option FileSystem) (c : Console) :
    Option Console :=
  (operation { c.fs with screen := [] }).bind fun fs =>
    (c.print fs.screen).map fun c => { c with fs := { fs with screen := [] } }

def inputIntoBuffer (ch : Byte) (c : Console) : Option Console :=
  if c.buff.position.toNat ≥ bufferSize then c.print (literal "\nThe buffer is full\n")
  else some { c with buff := c.buff.store ch }

def clearBuffer (c : Console) : Console := { c with buff := c.buff.clear }

def removeOneFromBuffer (c : Console) : Console :=
  { c with buff := c.buff.removeOne }

def inputIntoEditorBuffer (ch : Byte) (c : Console) : Option Console :=
  if c.buff.position.toNat ≥ bufferSize then c.print (literal "\nThe buffer is full\n")
  else some { c with editorBuff := c.editorBuff.store ch }

def clearEditorBuffer (c : Console) : Console :=
  { c with editorBuff := c.editorBuff.clear }

def removeOneFromEditorBuffer (c : Console) : Console :=
  { c with editorBuff := c.editorBuff.removeOne }

/-- The loop that looks for the first space, with the buffer it leaves and the start of
the argument.  After the space its condition reads one byte more. -/
def splitLoop (buff : Nat → Byte) : (remaining i : Nat) →
    Option ((Nat → Byte) × Option Nat)
  | 0, _ => none
  | remaining + 1, i =>
      if buff i = 0 then some (buff, none)
      else if buff i = 0x20 then
        if i + 1 < bufferSize then some (Function.update buff i 0, some (i + 1)) else none
      else splitLoop buff remaining (i + 1)

def filenameSize : Nat := 10

def copyFilenameLoop (argument : CString) : (remaining i : Nat) → CString →
    Option CString
  | 0, _, _ => none
  | remaining + 1, i, filename =>
      if argument i = 0 then some (Function.update filename i 0)
      else
        copyFilenameLoop argument remaining (i + 1)
          (Function.update filename i (argument i))

def openEditor (start : Nat) (c : Console) : Option Console :=
  (copyFilenameLoop (fun k => c.buff.bytes (start + k)) filenameSize 0
    c.editorFilename).bind fun filename =>
  (textAt c.buff.bytes (bufferSize - start) start).bind fun argument =>
  ((saveWindowContent c.terminal).bind (enterEditorMode argument)).map fun t =>
    { c with terminal := t, mode := .editor, editorFilename := filename }

def testCom (c : Console) : Option Console := c.print (literal "testing the buffer\n")

def getTime (timeStamp : RtcTime) (c : Console) : Option Console :=
  c.print (printTime timeStamp)

def usage (command : String) (c : Console) : Option Console :=
  c.print (literal "usage: " ++ literal command ++ literal " <filename>\n")

def runCommand (timeStamp : RtcTime) (command : List Byte) (argument : Option Nat)
    (c : Console) : Option Console :=
  let argv1 (start : Nat) : CString := fun k => c.buff.bytes (start + k)
  if strcomp command (literal "test") then testCom c
  else if strcomp command (literal "clear") then
    (terminalClear c.terminal).map fun t => { c with terminal := t }
  else if strcomp command (literal "get-time") then getTime timeStamp c
  else if strcomp command (literal "read") then
    match argument with
    | none => usage "read" c
    | some start => c.onFiles fun fs => readFile fs (argv1 start)
  else if strcomp command (literal "write") then
    match argument with
    | none => usage "write" c
    | some start => openEditor start c
  else if strcomp command (literal "delete") then
    match argument with
    | none => usage "delete" c
    | some start => c.onFiles fun fs => deleteFile fs (argv1 start)
  else if strcomp command (literal "ls") then c.onFiles fun fs => some (listFiles fs)
  else c.print (literal "Command not recognized\n")

def bufferTestCommand (timeStamp : RtcTime) (c : Console) : Option Console :=
  (splitLoop c.buff.bytes bufferSize 0).bind fun split =>
  let c := { c with buff := { c.buff with bytes := split.1 } }
  if c.buff.bytes 0 = 0 then some c
  else
    (textAt c.buff.bytes bufferSize 0).bind fun command =>
      runCommand timeStamp command split.2 c

def cFileArgs (key : KeyPress) (c : Console) : CreateArgs where
  newFile := key.newFile
  timeStamp := key.timeStamp
  nameT := c.editorFilename
  extT := literalString "txt"
  data := fun k => c.editorBuff.bytes k.toNat
  size := c.editorBuff.position.setWidth 32
  attributeT := 0x20

def cFile (key : KeyPress) (c : Console) : Option Console :=
  (c.fs.create (cFileArgs key c)).map fun created => { c with fs := created.2 }

def charByte (c : Char) : Byte := BitVec.ofNat 8 c.toNat

def escKey : Byte := 0x01

def backspaceKey : Byte := 0x0E

def enterKey : Byte := 0x1C

def letter : (scanCode : Byte) → Byte
  | 0x29 => 0x60
  | 0x01 => charByte 'E'
  | 0x02 => charByte '1'
  | 0x03 => charByte '2'
  | 0x04 => charByte '3'
  | 0x05 => charByte '4'
  | 0x06 => charByte '5'
  | 0x07 => charByte '6'
  | 0x08 => charByte '7'
  | 0x09 => charByte '8'
  | 0x0A => charByte '9'
  | 0x0B => charByte '0'
  | 0x0C => charByte '-'
  | 0x0D => charByte '='
  | 0x10 => charByte 'q'
  | 0x11 => charByte 'w'
  | 0x12 => charByte 'e'
  | 0x13 => charByte 'r'
  | 0x14 => charByte 't'
  | 0x15 => charByte 'y'
  | 0x16 => charByte 'u'
  | 0x17 => charByte 'i'
  | 0x18 => charByte 'o'
  | 0x19 => charByte 'p'
  | 0x1A => charByte '['
  | 0x1B => charByte ']'
  | 0x1E => charByte 'a'
  | 0x1F => charByte 's'
  | 0x20 => charByte 'd'
  | 0x21 => charByte 'f'
  | 0x22 => charByte 'g'
  | 0x23 => charByte 'h'
  | 0x24 => charByte 'j'
  | 0x25 => charByte 'k'
  | 0x26 => charByte 'l'
  | 0x27 => charByte ';'
  | 0x28 => 0x27
  | 0x1C => newlineChar
  | 0x2C => charByte 'z'
  | 0x2D => charByte 'x'
  | 0x2E => charByte 'c'
  | 0x2F => charByte 'v'
  | 0x30 => charByte 'b'
  | 0x31 => charByte 'n'
  | 0x32 => charByte 'm'
  | 0x33 => charByte ','
  | 0x34 => charByte '.'
  | 0x35 => charByte '/'
  | 0x39 => charByte ' '
  | _ => 0

def returnLetter (scanCode : Byte) (t : Terminal) : Option (Byte × Terminal) :=
  if scanCode = backspaceKey then (backspace t).map fun t => (0, t)
  else some (letter scanCode, t)

/-- `str` is empty for a key without a character. -/
def echo (ch : Byte) : List Byte := if ch = 0 then [] else [ch]

def released (scanCode : Byte) : Bool := scanCode &&& 0x80 ≠ 0

def keyboardCallback (key : KeyPress) (c : Console) : Option Console :=
  if released key.scanCode then some c
  else if c.mode = .editor ∧ key.scanCode = escKey then
    (cFile key c).bind fun c =>
    (retriveSavedWindow c.terminal).map fun t =>
      { clearEditorBuffer c with mode := .terminal, terminal := t }
  else
    (returnLetter key.scanCode c.terminal).bind fun returned =>
    let ch := returned.1
    (Drivers.print (echo ch) returned.2).bind fun t =>
    let c := { c with terminal := t }
    let c :=
      if key.scanCode = backspaceKey then
        match c.mode with
        | .terminal => removeOneFromBuffer c
        | .editor => removeOneFromEditorBuffer c
      else c
    if ch = newlineChar then
      (c.print (literal "\n")).bind fun c =>
        match c.mode with
        | .terminal => (bufferTestCommand key.timeStamp c).map clearBuffer
        | .editor => inputIntoEditorBuffer ch c
    else if ch ≠ 0 then
      match c.mode with
      | .terminal => inputIntoBuffer ch c
      | .editor => inputIntoEditorBuffer ch c
    else some c

inductive ConsoleEvent where
  | press (key : KeyPress)
  | output (msg : List Byte) (fg bg : Color)

def ConsoleEvent.run : ConsoleEvent → Console → Option Console
  | .press key, c => keyboardCallback key c
  | .output msg fg bg, c =>
      (printColor msg fg bg c.terminal).map fun t => { c with terminal := t }

def runEvents : List ConsoleEvent → Console → Option Console
  | [], c => some c
  | event :: rest, c => (event.run c).bind (runEvents rest)

def bootConsole (terminal : Terminal) (fs : FileSystem) : Console where
  terminal := terminal
  mode := .terminal
  buff := ⟨fun _ => 0, 0⟩
  editorBuff := ⟨fun _ => 0, 0⟩
  editorFilename := fun _ => 0
  fs := fs

/-! Whatever happens in a session, its terminal is one that terminal operations lead
to. -/

section Sessions

variable {c next : Console}

theorem Console.print_onScreen {msg : List Byte} (reached : OnScreen c.terminal)
    (printed : c.print msg = some next) : OnScreen next.terminal := by
  obtain ⟨t, drew, rfl⟩ := Option.map_eq_some_iff.mp printed
  exact reached.run (.print msg) drew

theorem Console.onFiles_onScreen {operation : FileSystem → Option FileSystem}
    (reached : OnScreen c.terminal) (ran : c.onFiles operation = some next) :
    OnScreen next.terminal := by
  unfold Console.onFiles at ran
  obtain ⟨fs, -, finished⟩ := Option.bind_eq_some_iff.mp ran
  obtain ⟨shown, printed, rfl⟩ := Option.map_eq_some_iff.mp finished
  have onScreen : OnScreen shown.terminal := Console.print_onScreen reached printed
  exact onScreen

theorem openEditor_onScreen {start : Nat} (reached : OnScreen c.terminal)
    (opened : openEditor start c = some next) : OnScreen next.terminal := by
  unfold openEditor at opened
  obtain ⟨filename, -, opened⟩ := Option.bind_eq_some_iff.mp opened
  obtain ⟨argument, -, opened⟩ := Option.bind_eq_some_iff.mp opened
  obtain ⟨t, entered, rfl⟩ := Option.map_eq_some_iff.mp opened
  exact reached.run (.enterEditor argument) entered

theorem runCommand_onScreen {timeStamp : RtcTime} {command : List Byte}
    {argument : Option Nat} (reached : OnScreen c.terminal)
    (ran : runCommand timeStamp command argument c = some next) :
    OnScreen next.terminal := by
  unfold runCommand at ran
  simp only at ran
  split_ifs at ran
  · exact Console.print_onScreen reached ran
  · obtain ⟨t, cleared, rfl⟩ := Option.map_eq_some_iff.mp ran
    exact reached.run .clear cleared
  · exact Console.print_onScreen reached ran
  · cases argument with
    | none => exact Console.print_onScreen reached ran
    | some start => exact Console.onFiles_onScreen reached ran
  · cases argument with
    | none => exact Console.print_onScreen reached ran
    | some start => exact openEditor_onScreen reached ran
  · cases argument with
    | none => exact Console.print_onScreen reached ran
    | some start => exact Console.onFiles_onScreen reached ran
  · exact Console.onFiles_onScreen reached ran
  · exact Console.print_onScreen reached ran

theorem bufferTestCommand_onScreen {timeStamp : RtcTime} (reached : OnScreen c.terminal)
    (ran : bufferTestCommand timeStamp c = some next) : OnScreen next.terminal := by
  unfold bufferTestCommand at ran
  obtain ⟨split, -, ran⟩ := Option.bind_eq_some_iff.mp ran
  simp only at ran
  split_ifs at ran
  · obtain rfl := Option.some.inj ran
    exact reached
  · obtain ⟨command, -, ran⟩ := Option.bind_eq_some_iff.mp ran
    refine runCommand_onScreen ?_ ran
    exact reached

theorem inputIntoBuffer_onScreen {ch : Byte} (reached : OnScreen c.terminal)
    (ran : inputIntoBuffer ch c = some next) : OnScreen next.terminal := by
  unfold inputIntoBuffer at ran
  split_ifs at ran
  · exact Console.print_onScreen reached ran
  · exact Option.some.inj ran ▸ reached

theorem inputIntoEditorBuffer_onScreen {ch : Byte} (reached : OnScreen c.terminal)
    (ran : inputIntoEditorBuffer ch c = some next) : OnScreen next.terminal := by
  unfold inputIntoEditorBuffer at ran
  split_ifs at ran
  · exact Console.print_onScreen reached ran
  · exact Option.some.inj ran ▸ reached

theorem returnLetter_onScreen {scanCode ch : Byte} {t shown : Terminal}
    (reached : OnScreen t) (returned : returnLetter scanCode t = some (ch, shown)) :
    OnScreen shown := by
  unfold returnLetter at returned
  split_ifs at returned
  · obtain ⟨erased, drew, same⟩ := Option.map_eq_some_iff.mp returned
    exact (Prod.mk.inj same).2 ▸ reached.run .backspace drew
  · exact (Prod.mk.inj (Option.some.inj returned)).2 ▸ reached

theorem keyboardCallback_onScreen {key : KeyPress} (reached : OnScreen c.terminal)
    (ran : keyboardCallback key c = some next) : OnScreen next.terminal := by
  unfold keyboardCallback at ran
  split at ran
  · exact Option.some.inj ran ▸ reached
  · split at ran
    · obtain ⟨saved, created, ran⟩ := Option.bind_eq_some_iff.mp ran
      obtain ⟨t, retrived, rfl⟩ := Option.map_eq_some_iff.mp ran
      obtain ⟨files, -, rfl⟩ := Option.map_eq_some_iff.mp created
      exact reached.run .retrive retrived
    · obtain ⟨⟨ch, t⟩, returned, ran⟩ := Option.bind_eq_some_iff.mp ran
      obtain ⟨shown, echoed, ran⟩ := Option.bind_eq_some_iff.mp ran
      have shownText : OnScreen shown :=
        (returnLetter_onScreen reached returned).run (.print _) echoed
      simp only at ran
      generalize erased : (if key.scanCode = backspaceKey then _ else _) = typing at ran
      have same : OnScreen typing.terminal := by
        rw [← erased]
        split_ifs
        · cases c.mode <;> exact shownText
        · exact shownText
      split_ifs at ran
      · obtain ⟨printed, drew, ran⟩ := Option.bind_eq_some_iff.mp ran
        have after := Console.print_onScreen same drew
        split at ran
        · obtain ⟨last, commanded, rfl⟩ := Option.map_eq_some_iff.mp ran
          have onScreen : OnScreen last.terminal :=
            bufferTestCommand_onScreen after commanded
          exact onScreen
        · exact inputIntoEditorBuffer_onScreen after ran
      · split at ran
        · exact inputIntoBuffer_onScreen same ran
        · exact inputIntoEditorBuffer_onScreen same ran
      · exact Option.some.inj ran ▸ same

theorem runEvents_onScreen {events : List ConsoleEvent} (reached : OnScreen c.terminal)
    (ran : runEvents events c = some next) : OnScreen next.terminal := by
  induction events generalizing c with
  | nil => exact Option.some.inj ran ▸ reached
  | cons event rest ih =>
      obtain ⟨middle, first, later⟩ := Option.bind_eq_some_iff.mp ran
      refine ih ?_ later
      cases event with
      | press key => exact keyboardCallback_onScreen reached first
      | output msg fg bg =>
          obtain ⟨t, printed, rfl⟩ := Option.map_eq_some_iff.mp first
          exact reached.run (.printColor msg fg bg) printed

end Sessions

end LazyOS.Drivers
