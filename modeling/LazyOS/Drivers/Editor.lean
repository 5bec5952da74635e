import LazyOS.Drivers.Typing

namespace LazyOS.Drivers

open LazyOS.Data
open LazyOS.Fs

/-! The editor: how a command opens it, what can happen while it is open, and what
`ESC` brings back. -/

theorem splitLoop_eq {buff : Nat → Byte} {stop : Nat} (space : buff stop = 0x20)
    (inside : stop + 1 < bufferSize) (remaining i : Nat) (lower : i ≤ stop)
    (upper : stop < i + remaining)
    (word : ∀ k, i ≤ k → k < stop → buff k ≠ 0 ∧ buff k ≠ 0x20) :
    splitLoop buff remaining i = some (Function.update buff stop 0, some (stop + 1)) := by
  induction remaining generalizing i with
  | zero => omega
  | succ remaining ih =>
      unfold splitLoop
      by_cases here : i = stop
      · subst here
        rw [if_neg (space ▸ by decide), if_pos space, if_pos inside]
      · obtain ⟨nonzero, nonspace⟩ := word i le_rfl (by omega)
        rw [if_neg nonzero, if_neg nonspace]
        exact ih (i + 1) (by omega) (by omega) fun k above below =>
          word k (by omega) below

theorem stringAt_word {buff : Nat → Byte} {word argument : List Byte}
    (held : StringAt buff 0 (word ++ 0x20 :: argument)) :
    StringAt (Function.update buff word.length 0) 0 word := by
  have bytes := held.bytes
  simp only [Nat.zero_add, List.length_append] at bytes
  refine ⟨fun k inside => ?_, fun c member =>
    held.nonzero c (List.mem_append_left _ member), ?_⟩
  · rw [Nat.zero_add, Function.update_of_ne (by omega), bytes k (by omega),
      List.getElem_append_left inside]
  · rw [Nat.zero_add, Function.update_self]

theorem stringAt_argument {buff : Nat → Byte} {word argument : List Byte}
    (held : StringAt buff 0 (word ++ 0x20 :: argument)) :
    StringAt (Function.update buff word.length 0) (word.length + 1) argument := by
  have bytes := held.bytes
  have ends := held.ends
  simp only [Nat.zero_add, List.length_append, List.length_cons] at bytes ends
  refine ⟨fun k inside => ?_, fun c member => held.nonzero c
    (List.mem_append_right _ (List.mem_cons_of_mem _ member)), ?_⟩
  · rw [Function.update_of_ne (by omega), bytes (word.length + 1 + k) (by omega),
      List.getElem_append_right (by omega)]
    have shifted : word.length + 1 + k - word.length = k + 1 := by omega
    simp only [shifted, List.getElem_cons_succ]
  · rw [Function.update_of_ne (by omega), Nat.add_assoc, Nat.add_comm 1]
    exact ends

theorem splitLoop_command {buff : Nat → Byte} {word argument : List Byte}
    (held : StringAt buff 0 (word ++ 0x20 :: argument))
    (nonspace : ∀ c ∈ word, c ≠ 0x20) (fits : word.length + 1 < bufferSize) :
    splitLoop buff bufferSize 0 =
      some (Function.update buff word.length 0, some (word.length + 1)) := by
  have bytes := held.bytes
  simp only [Nat.zero_add, List.length_append, List.length_cons] at bytes
  apply splitLoop_eq _ fits bufferSize 0 (Nat.zero_le _) (by omega)
  · intro k _ below
    rw [bytes k (by omega), List.getElem_append_left below]
    exact ⟨held.nonzero _ (List.mem_append_left _ (List.getElem_mem below)),
      nonspace _ (List.getElem_mem below)⟩
  · rw [bytes word.length (by omega), List.getElem_append_right le_rfl]
    simp only [Nat.sub_self, List.getElem_cons_zero]

theorem copyFilenameLoop_returns (argument : CString) {stop : Nat}
    (ends : argument stop = 0) (remaining i : Nat) (lower : i ≤ stop)
    (upper : stop < i + remaining) (filename : CString) :
    ∃ copied, copyFilenameLoop argument remaining i filename = some copied := by
  induction remaining generalizing i filename with
  | zero => omega
  | succ remaining ih =>
      unfold copyFilenameLoop
      by_cases ended : argument i = 0
      · rw [if_pos ended]
        exact ⟨_, rfl⟩
      · rw [if_neg ended]
        have further : i ≠ stop := fun here => ended (here ▸ ends)
        exact ih (i + 1) (by omega) (by omega) _

structure Editing (shown : Terminal) (fs : FileSystem) (c : Console) : Prop where
  mode : c.mode = .editor
  files : c.fs = fs
  inv : TerminalInv c.terminal
  saves : Saves shown c.terminal

theorem openEditor_editing {c : Console}
    (ok : CursorOk c.terminal.videoMem c.terminal.terminalRow c.terminal.terminalCol)
    {start : Nat} {name : List Byte} (held : StringAt c.buff.bytes start name)
    (short : name.length < filenameSize) (fits : start + name.length < bufferSize) :
    ∃ editing, openEditor start c = some editing ∧ Editing c.terminal c.fs editing := by
  obtain ⟨filename, copied⟩ := copyFilenameLoop_returns
    (fun k => c.buff.bytes (start + k)) held.ends filenameSize 0
    (Nat.zero_le _) (by omega) c.editorFilename
  have argument : textAt c.buff.bytes (bufferSize - start) start = some name :=
    textAt_iff.mpr ⟨by omega, held⟩
  obtain ⟨t, entered, inv, saves⟩ := enterEditor_spec ok name
  refine ⟨{ c with terminal := t, mode := .editor, editorFilename := filename }, ?_,
    rfl, rfl, inv, saves⟩
  unfold openEditor
  rw [copied, Option.bind_some, argument, Option.bind_some, entered, Option.map_some]

theorem literal_write : literal "write " = literal "write" ++ [0x20] := by decide

theorem bufferTestCommand_write {c : Console}
    (ok : CursorOk c.terminal.videoMem c.terminal.terminalRow c.terminal.terminalCol)
    {name : List Byte} (command : textAt c.buff.bytes bufferSize 0 =
      some (literal "write " ++ name)) (short : name.length < filenameSize)
    (timeStamp : RtcTime) :
    ∃ editing, bufferTestCommand timeStamp c = some editing ∧
      Editing c.terminal c.fs editing := by
  rw [literal_write, List.append_assoc, List.singleton_append] at command
  obtain ⟨-, held⟩ := textAt_iff.mp command
  have word := stringAt_word held
  have split := splitLoop_command held (by decide) (by decide)
  have named : textAt (Function.update c.buff.bytes (literal "write").length 0)
      bufferSize 0 = some (literal "write") := textAt_iff.mpr ⟨by decide, word⟩
  have started : Function.update c.buff.bytes (literal "write").length 0 0 ≠ 0 := by
    have first := word.bytes 0 (by decide)
    rw [Nat.zero_add] at first
    rw [first]
    decide
  obtain ⟨editing, opened, edits⟩ := openEditor_editing
    (c := { c with buff := { c.buff with
      bytes := Function.update c.buff.bytes (literal "write").length 0 } })
    ok (stringAt_argument held) short (by
      have length : (literal "write").length = 5 := by decide
      unfold filenameSize at short
      unfold bufferSize
      omega)
  refine ⟨editing, ?_, edits⟩
  unfold bufferTestCommand
  rw [split, Option.bind_some]
  simp only
  rw [if_neg started, named, Option.bind_some]
  unfold runCommand
  rw [if_neg (by decide), if_neg (by decide), if_neg (by decide), if_neg (by decide),
    if_pos (by decide)]
  exact opened

def enterEcho (t : Terminal) : Option Terminal :=
  (print [newlineChar] t).bind (print (literal "\n"))

theorem enterEcho_draws {t : Terminal}
    (ok : CursorOk t.videoMem t.terminalRow t.terminalCol) :
    ∃ shown, enterEcho t = some shown ∧ Draws t shown := by
  obtain ⟨first, printed, draws⟩ := print_draws ok [newlineChar]
  obtain ⟨shown, again, later⟩ := print_draws draws.shown (literal "\n")
  refine ⟨shown, ?_, draws.trans later⟩
  unfold enterEcho
  rw [printed, Option.bind_some, again]

theorem keyboardCallback_enter {c : Console} (mode : c.mode = .terminal) {key : KeyPress}
    (pressed : key.scanCode = enterKey) {shown : Terminal}
    (echoed : enterEcho c.terminal = some shown) :
    keyboardCallback key c =
      (bufferTestCommand key.timeStamp { c with terminal := shown }).map clearBuffer := by
  unfold enterEcho at echoed
  rw [Option.bind_eq_some_iff] at echoed
  obtain ⟨first, printed, again⟩ := echoed
  have letterEq : letter enterKey = newlineChar := (letter_eq_newline enterKey).mpr rfl
  have shownText : echo newlineChar = [newlineChar] := by decide
  have notBackspace : enterKey ≠ backspaceKey := by decide
  have noEscape : ¬ (c.mode = .editor ∧ enterKey = escKey) := by
    rw [mode]
    decide
  unfold keyboardCallback returnLetter
  rw [pressed, if_neg (by decide), if_neg noEscape, if_neg notBackspace,
    Option.bind_some, letterEq]
  simp only [shownText, printed, Option.bind_some, if_neg notBackspace, if_true]
  unfold Console.print
  simp only [again, Option.map_some, Option.bind_some, mode]

variable {shown : Terminal} {fs : FileSystem}

theorem Editing.draws {c next : Console} (editing : Editing shown fs c)
    (mode : next.mode = c.mode) (files : next.fs = c.fs)
    (draws : Draws c.terminal next.terminal) : Editing shown fs next :=
  ⟨mode.trans editing.mode, files.trans editing.files, draws.inv editing.inv,
    editing.saves.draws draws⟩

def ConsoleEvent.NotEscape : ConsoleEvent → Prop
  | .press key => key.scanCode ≠ escKey
  | .output .. => True

theorem Editing.step {c : Console} (editing : Editing shown fs c)
    {event : ConsoleEvent} (stays : event.NotEscape) :
    ∃ next, event.run c = some next ∧ Editing shown fs next := by
  cases event with
  | press key =>
      have notClosing : key.scanCode ≠ closingKey c.mode := by
        rw [editing.mode]
        exact stays
      obtain ⟨t, pressed, draws⟩ := keyboardCallback_types editing.inv.shown notClosing
      refine ⟨_, pressed, editing.draws (retyped_mode ..) (retyped_fs ..) ?_⟩
      rw [retyped_terminal]
      exact draws
  | output msg fg bg =>
      obtain ⟨t, printed, draws⟩ := printColor_draws editing.inv.shown msg fg bg
      refine ⟨{ c with terminal := t }, ?_, editing.draws rfl rfl draws⟩
      simp only [ConsoleEvent.run, printed, Option.map_some]

theorem Editing.run {c : Console} (editing : Editing shown fs c)
    {events : List ConsoleEvent} (stays : ∀ event ∈ events, event.NotEscape) :
    ∃ working, runEvents events c = some working ∧ Editing shown fs working := by
  induction events generalizing c with
  | nil => exact ⟨c, rfl, editing⟩
  | cons event rest ih =>
      obtain ⟨next, ran, edits⟩ := editing.step (stays event List.mem_cons_self)
      obtain ⟨working, finished, ended⟩ :=
        ih edits fun later member => stays later (List.mem_cons_of_mem _ member)
      refine ⟨working, ?_, ended⟩
      rw [runEvents, ran, Option.bind_some, finished]

structure Restored (shown : Terminal) (back : Console) : Prop where
  cells : ∀ position < vgaHeight * vgaWidth,
    back.terminal.videoMem position = shown.videoMem position
  row : back.terminal.terminalRow = shown.terminalRow
  col : back.terminal.terminalCol = shown.terminalCol
  mode : back.mode = .terminal
  emptied : ∀ i < bufferSize, back.editorBuff.bytes i = 0
  start : back.editorBuff.position = 0

theorem Editing.leave {c : Console} (editing : Editing shown fs c)
    {esc : KeyPress} (pressed : esc.scanCode = escKey) {filled : Option (Fin 224)}
    {after : FileSystem}
    (created : c.fs.create (cFileArgs esc c) = some (filled, after)) :
    ∃ back, keyboardCallback esc c = some back ∧ Restored shown back := by
  obtain ⟨t, retrived, -, cells, row, col⟩ := retriveSavedWindow_spec editing.inv
  refine ⟨_, keyboardCallback_esc editing.mode pressed created retrived, ?_⟩
  exact {
    cells := fun position inside =>
      (cells position inside).trans (editing.saves.screen position inside)
    row := row.trans editing.saves.row
    col := col.trans editing.saves.col
    mode := rfl
    emptied := fun _ inside => if_pos inside
    start := rfl }

/-- A command `write <name>` opens the editor over the window, whatever is typed and
printed then leaves it open, and `ESC` brings the window back. -/
theorem leaving_editor_restores {console : Console} {name : List Byte}
    (onScreen : OnScreen console.terminal) (idle : console.mode = .terminal)
    (command : textAt console.buff.bytes bufferSize 0 =
      some (literal "write " ++ name)) (short : name.length ≤ 9)
    {enter : KeyPress} (pressed : enter.scanCode = enterKey) :
    ∃ shown editing, enterEcho console.terminal = some shown ∧
      keyboardCallback enter console = some editing ∧ editing.mode = .editor ∧
      ∀ events, (∀ event ∈ events, event.NotEscape) →
        ∃ working, runEvents events editing = some working ∧ working.mode = .editor ∧
          working.fs = console.fs ∧ ∀ esc filled after, esc.scanCode = escKey →
            SuccessfulCreate working.fs (cFileArgs esc working) filled after →
              ∃ back, keyboardCallback esc working = some back ∧ Restored shown back := by
  obtain ⟨shown, echoed, draws⟩ := enterEcho_draws onScreen.inv.shown
  obtain ⟨opened, ran, edits⟩ := bufferTestCommand_write
    (c := { console with terminal := shown }) draws.shown command
    (Nat.lt_succ_of_le short) enter.timeStamp
  refine ⟨shown, clearBuffer opened, echoed, ?_, edits.mode, fun events stays => ?_⟩
  · rw [keyboardCallback_enter idle pressed echoed, ran, Option.map_some]
  · have editing : Editing shown console.fs (clearBuffer opened) :=
      ⟨edits.mode, edits.files, edits.inv, edits.saves⟩
    obtain ⟨working, finished, ended⟩ := editing.run stays
    exact ⟨working, finished, ended.mode, ended.files, fun esc filled after escaped success =>
      ended.leave escaped success.returned⟩

def writeSession : Console :=
  { firstSession with buff := ⟨literalString "write a", 7⟩ }

theorem successfulCreate_boot (args : CreateArgs) (small : args.size.toNat ≤ sectorSize) :
    ∃ after, SuccessfulCreate (bootFileSystem (fun _ => 0) blankDisk) args 0 after := by
  have enough : clusterCount args.size.toNat ≤
      (freeCells (bootFileSystem (fun _ => 0) blankDisk).fat12Table 0).length := by
    rw [freeCells_boot_length, clusterCount_of_small small]
    decide
  obtain ⟨after, created⟩ := create_returns (freeSlot_boot _ _) enough
  exact ⟨after, created, allocated_of_enough enough⟩

theorem cFileArgs_small (esc : KeyPress) (c : Console) :
    (cFileArgs esc c).size.toNat ≤ sectorSize := by
  have bound := c.editorBuff.position.isLt
  show (c.editorBuff.position.setWidth 32).toNat ≤ sectorSize
  rw [BitVec.toNat_setWidth_of_le (by decide)]
  unfold sectorSize
  omega

theorem leaving_editor_restores_one_letter :
    ∃ shown back, enterEcho writeSession.terminal = some shown ∧
      runEvents [.press (keyOf enterKey), .press (keyOf 0x1E), .press (keyOf escKey)]
        writeSession = some back ∧ Restored shown back := by
  obtain ⟨shown, editing, echoed, opened, -, edits⟩ := leaving_editor_restores
    (show OnScreen writeSession.terminal from firstSession_onScreen)
    (show writeSession.mode = .terminal from rfl)
    (show textAt writeSession.buff.bytes bufferSize 0 =
      some (literal "write " ++ literal "a") by decide) (by decide)
    (show (keyOf enterKey).scanCode = enterKey from rfl)
  obtain ⟨working, typedOne, -, files, leaves⟩ := edits [.press (keyOf 0x1E)]
    (by
      intro event member
      rw [List.mem_singleton.mp member]
      show (keyOf 0x1E).scanCode ≠ escKey
      decide)
  obtain ⟨after, success⟩ := successfulCreate_boot
    (cFileArgs (keyOf escKey) working) (cFileArgs_small _ _)
  obtain ⟨back, left, restored⟩ := leaves (keyOf escKey) 0 after rfl (by
    rw [files]
    exact success)
  refine ⟨shown, back, echoed, ?_, restored⟩
  simp only [runEvents, ConsoleEvent.run, Option.bind_eq_some_iff, Option.some.injEq]
    at typedOne
  obtain ⟨next, pressed, rfl⟩ := typedOne
  simp only [runEvents, ConsoleEvent.run, opened, pressed, left, Option.bind_some]

end LazyOS.Drivers
