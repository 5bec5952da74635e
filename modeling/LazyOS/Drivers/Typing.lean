import LazyOS.Drivers.Keyboard
import LazyOS.Fs.Frame
import LazyOS.Fs.RoundTrip

namespace LazyOS.Drivers

open LazyOS.Data
open LazyOS.Fs

/-! What the buffers hold while keys are pressed.  Their positions are `uint8_t`, the
buffers have room for 4096 characters. -/

/-- What a key does to the text that has been typed: releases and keys without a
character do nothing, and a full buffer takes no more. -/
def typed (pending : List Byte) (scanCode : Byte) : List Byte :=
  if released scanCode then pending
  else if scanCode = backspaceKey then pending.dropLast
  else if letter scanCode = 0 then pending
  else if pending.length < bufferSize then pending ++ [letter scanCode]
  else pending

def typedAll (pending : List Byte) (codes : List Byte) : List Byte :=
  codes.foldl typed pending

structure HoldsTyped (buffer : TextBuffer) (text : List Byte) : Prop where
  position : buffer.position.toNat = text.length
  bytes : ∀ k (inside : k < text.length), buffer.bytes k = text[k]
  zero : ∀ k, text.length ≤ k → k < bufferSize → buffer.bytes k = 0

def TextBuffer.press (buffer : TextBuffer) (scanCode : Byte) : TextBuffer :=
  if released scanCode then buffer
  else if scanCode = backspaceKey then buffer.removeOne
  else if letter scanCode = 0 then buffer
  else buffer.store (letter scanCode)

theorem HoldsTyped.removeOne {buffer : TextBuffer} {text : List Byte}
    (held : HoldsTyped buffer text) : HoldsTyped buffer.removeOne text.dropLast := by
  have position := held.position
  unfold TextBuffer.removeOne
  by_cases start : buffer.position = 0
  · rw [if_pos start]
    rw [start] at position
    have none : text = [] := List.length_eq_zero_iff.mp position.symm
    subst none
    exact held
  · rw [if_neg start]
    have typedOne : 0 < buffer.position.toNat :=
      Nat.pos_of_ne_zero fun zero => start (BitVec.eq_of_toNat_eq zero)
    have least : (1 : Byte) ≤ buffer.position := by
      rw [BitVec.le_def]
      exact typedOne
    have previous : (buffer.position - 1).toNat = buffer.position.toNat - 1 :=
      BitVec.toNat_sub_of_le least
    refine ⟨?_, fun k inside => ?_, fun k above inside => ?_⟩
    · rw [List.length_dropLast, ← position]
      exact previous
    · rw [List.length_dropLast] at inside
      simp only
      rw [Function.update_of_ne (by omega), List.getElem_dropLast]
      exact held.bytes k (by omega)
    · rw [List.length_dropLast] at above
      simp only
      by_cases last : k = buffer.position.toNat - 1
      · rw [last, Function.update_self]
      · rw [Function.update_of_ne last]
        exact held.zero k (by omega) inside

theorem HoldsTyped.store {buffer : TextBuffer} {text : List Byte}
    (held : HoldsTyped buffer text) (short : text.length < 255) (ch : Byte) :
    HoldsTyped (buffer.store ch) (text ++ [ch]) := by
  have position := held.position
  refine ⟨?_, fun k inside => ?_, fun k above inside => ?_⟩
  · show (buffer.position + 1).toNat = _
    rw [List.length_append, BitVec.toNat_add_of_lt, position]
    · rfl
    · rw [position]
      show text.length + 1 < 2 ^ 8
      omega
  · rw [List.length_append, List.length_singleton] at inside
    show Function.update buffer.bytes buffer.position.toNat ch k = _
    by_cases last : k = text.length
    · subst last
      rw [position, Function.update_self, List.getElem_concat_length rfl]
    · rw [Function.update_of_ne (by omega), List.getElem_append_left (by omega)]
      exact held.bytes k (by omega)
  · rw [List.length_append, List.length_singleton] at above
    show Function.update buffer.bytes buffer.position.toNat ch k = _
    rw [Function.update_of_ne (by omega)]
    exact held.zero k (by omega) inside

/-! The last byte the position can name.  Once it has been written nothing clears it:
the position has gone round, and a removal only clears bytes before it. -/

def Spilled (buffer : TextBuffer) : Prop := buffer.bytes 255 ≠ 0

theorem Spilled.not_holdsTyped {buffer : TextBuffer} (spilled : Spilled buffer)
    (text : List Byte) : ¬ HoldsTyped buffer text := by
  intro held
  have bound := buffer.position.isLt
  have position := held.position
  exact spilled (held.zero 255 (by omega) (by decide))

theorem Spilled.removeOne {buffer : TextBuffer} (spilled : Spilled buffer) :
    Spilled buffer.removeOne := by
  have bound := buffer.position.isLt
  unfold TextBuffer.removeOne
  split
  · exact spilled
  · show Function.update buffer.bytes (buffer.position.toNat - 1) 0 255 ≠ 0
    rw [Function.update_of_ne (by omega)]
    exact spilled

theorem Spilled.store {buffer : TextBuffer} (spilled : Spilled buffer) {ch : Byte}
    (visible : ch ≠ 0) : Spilled (buffer.store ch) := by
  show Function.update buffer.bytes buffer.position.toNat ch 255 ≠ 0
  by_cases here : (255 : Nat) = buffer.position.toNat
  · rw [← here, Function.update_self]
    exact visible
  · rw [Function.update_of_ne here]
    exact spilled

theorem Spilled.press {buffer : TextBuffer} (spilled : Spilled buffer) (scanCode : Byte) :
    Spilled (buffer.press scanCode) := by
  unfold TextBuffer.press
  split
  · exact spilled
  · split
    · exact spilled.removeOne
    · split
      · exact spilled
      · rename_i visible
        exact spilled.store visible

theorem HoldsTyped.spills {buffer : TextBuffer} {text : List Byte}
    (held : HoldsTyped buffer text) (full : text.length = 255) {ch : Byte}
    (visible : ch ≠ 0) : Spilled (buffer.store ch) := by
  have position := held.position
  show Function.update buffer.bytes buffer.position.toNat ch 255 ≠ 0
  rw [position, full, Function.update_self]
  exact visible

theorem Spilled.pressAll {buffer : TextBuffer} (spilled : Spilled buffer)
    (codes : List Byte) : Spilled (codes.foldl TextBuffer.press buffer) := by
  induction codes generalizing buffer with
  | nil => exact spilled
  | cons code rest ih => exact ih (spilled.press code)

/-- One key: the buffer goes along with the typed text up to 255 characters, and is
spoilt by the next one. -/
theorem HoldsTyped.press {buffer : TextBuffer} {text : List Byte}
    (held : HoldsTyped buffer text) (short : text.length ≤ 255) (scanCode : Byte) :
    ((typed text scanCode).length ≤ 255 ∧
        HoldsTyped (buffer.press scanCode) (typed text scanCode)) ∨
      (255 < (typed text scanCode).length ∧ Spilled (buffer.press scanCode)) := by
  unfold typed TextBuffer.press
  by_cases up : released scanCode
  · rw [if_pos up, if_pos up]
    exact .inl ⟨short, held⟩
  rw [if_neg up, if_neg up]
  by_cases back : scanCode = backspaceKey
  · rw [if_pos back, if_pos back, List.length_dropLast]
    exact .inl ⟨by omega, held.removeOne⟩
  rw [if_neg back, if_neg back]
  by_cases silent : letter scanCode = 0
  · rw [if_pos silent, if_pos silent]
    exact .inl ⟨short, held⟩
  have room : text.length < bufferSize := Nat.lt_of_le_of_lt short (by decide)
  rw [if_neg silent, if_neg silent, if_pos room, List.length_append, List.length_singleton]
  by_cases full : text.length = 255
  · exact .inr ⟨by omega, held.spills full silent⟩
  · exact .inl ⟨by omega, held.store (by omega) _⟩

theorem pressAll_holdsTyped_iff {buffer : TextBuffer} {text : List Byte}
    (held : HoldsTyped buffer text) (short : text.length ≤ 255) (codes : List Byte) :
    HoldsTyped (codes.foldl TextBuffer.press buffer) (typedAll text codes) ↔
      ∀ early, early <+: codes → (typedAll text early).length ≤ 255 := by
  induction codes generalizing buffer text with
  | nil =>
      refine iff_of_true held fun early before => ?_
      rw [List.prefix_nil.mp before]
      exact short
  | cons code rest ih =>
      obtain ⟨fits, kept⟩ | ⟨long, spilled⟩ := held.press short code
      · refine (ih kept fits).trans ⟨fun later early before => ?_, fun all early before =>
          all (code :: early) ((List.prefix_cons_inj code).mpr before)⟩
        obtain rfl | ⟨tail, rfl, within⟩ := List.prefix_cons_iff.mp before
        · exact short
        · exact later tail within
      · refine iff_of_false ((spilled.pressAll rest).not_holdsTyped _) fun all => ?_
        have first : (typed text code).length ≤ 255 :=
          all [code] ((List.prefix_cons_inj code).mpr (List.nil_prefix))
        omega

theorem typed_nonzero {text : List Byte} (nonzero : ∀ c ∈ text, c ≠ 0)
    (scanCode : Byte) : ∀ c ∈ typed text scanCode, c ≠ 0 := by
  unfold typed
  split
  · exact nonzero
  · split
    · exact fun c member => nonzero c (List.dropLast_subset _ member)
    · split
      · exact nonzero
      · rename_i visible
        split
        · intro c member
          obtain earlier | here := List.mem_append.mp member
          · exact nonzero c earlier
          · rw [List.mem_singleton.mp here]
            exact visible
        · exact nonzero

theorem typedAll_nonzero (codes : List Byte) {text : List Byte}
    (nonzero : ∀ c ∈ text, c ≠ 0) : ∀ c ∈ typedAll text codes, c ≠ 0 := by
  induction codes generalizing text with
  | nil => exact nonzero
  | cons code rest ih => exact ih (typed_nonzero nonzero code)

def closingKey : Mode → Byte
  | .terminal => enterKey
  | .editor => escKey

def Console.active (c : Console) : TextBuffer :=
  match c.mode with
  | .terminal => c.buff
  | .editor => c.editorBuff

def Console.retyped (c : Console) (t : Terminal) (buffer : TextBuffer) : Console :=
  match c.mode with
  | .terminal => { c with terminal := t, buff := buffer }
  | .editor => { c with terminal := t, editorBuff := buffer }

section Retyped

variable (c : Console) (t : Terminal) (buffer : TextBuffer)

@[simp] theorem retyped_mode : (c.retyped t buffer).mode = c.mode := by
  unfold Console.retyped
  split <;> rfl

@[simp] theorem retyped_terminal : (c.retyped t buffer).terminal = t := by
  unfold Console.retyped
  split <;> rfl

@[simp] theorem retyped_fs : (c.retyped t buffer).fs = c.fs := by
  unfold Console.retyped
  split <;> rfl

@[simp] theorem retyped_active : (c.retyped t buffer).active = buffer := by
  unfold Console.active
  rw [retyped_mode]
  unfold Console.retyped
  split <;> rfl

@[simp] theorem retyped_retyped (later : Terminal) (other : TextBuffer) :
    (c.retyped t buffer).retyped later other = c.retyped later other := by
  unfold Console.retyped
  cases c.mode <;> rfl

theorem retyped_self : c.retyped c.terminal c.active = c := by
  unfold Console.retyped Console.active
  cases mode : c.mode <;> simp [← mode]

end Retyped

theorem position_lt_bufferSize (buffer : TextBuffer) :
    ¬ buffer.position.toNat ≥ bufferSize :=
  Nat.not_le.mpr (buffer.position.isLt.trans (by decide))

theorem inputIntoBuffer_eq (ch : Byte) (c : Console) :
    inputIntoBuffer ch c = some { c with buff := c.buff.store ch } :=
  if_neg (position_lt_bufferSize c.buff)

/-- The guard of the editor buffer asks for the other position, which is no nearer to
the end. -/
theorem inputIntoEditorBuffer_eq (ch : Byte) (c : Console) :
    inputIntoEditorBuffer ch c = some { c with editorBuff := c.editorBuff.store ch } :=
  if_neg (position_lt_bufferSize c.buff)

theorem letter_eq_newline (scanCode : Byte) :
    letter scanCode = newlineChar ↔ scanCode = enterKey := by
  revert scanCode
  decide +kernel

theorem keyboardCallback_types {c : Console}
    (ok : CursorOk c.terminal.videoMem c.terminal.terminalRow c.terminal.terminalCol)
    {key : KeyPress} (stays : key.scanCode ≠ closingKey c.mode) :
    ∃ t, keyboardCallback key c = some (c.retyped t (c.active.press key.scanCode)) ∧
      Draws c.terminal t := by
  unfold keyboardCallback TextBuffer.press
  by_cases up : released key.scanCode
  · refine ⟨c.terminal, ?_, Draws.refl ok⟩
    rw [if_pos up, if_pos up, retyped_self]
  have inside : ¬ (c.mode = .editor ∧ key.scanCode = escKey) := by
    rintro ⟨mode, esc⟩
    exact stays (by rw [mode, esc]; rfl)
  rw [if_neg up, if_neg up, if_neg inside]
  unfold returnLetter
  by_cases back : key.scanCode = backspaceKey
  · obtain ⟨t, erased, draws⟩ := backspace_draws ok
    refine ⟨t, ?_, draws⟩
    rw [if_pos back, if_pos back, erased]
    unfold Console.retyped Console.active
    cases c.mode <;> simp [echo, print, printColor, newlineChar, back,
      removeOneFromBuffer, removeOneFromEditorBuffer]
  rw [if_neg back, if_neg back, Option.bind_some]
  obtain ⟨first, echoed, draws⟩ := print_draws ok (echo (letter key.scanCode))
  simp only [echoed, Option.bind_some, if_neg back]
  by_cases newline : letter key.scanCode = newlineChar
  · have enter := (letter_eq_newline key.scanCode).mp newline
    have mode : c.mode = .editor := by
      cases mode : c.mode with
      | terminal => exact absurd (by rw [mode, enter]; rfl) stays
      | editor => rfl
    obtain ⟨next, printed, later⟩ := print_draws draws.shown (literal "\n")
    refine ⟨next, ?_, draws.trans later⟩
    rw [if_pos newline, if_neg (newline ▸ by decide)]
    unfold Console.retyped Console.active Console.print
    simp only [printed, mode, Option.map_some, Option.bind_some, inputIntoEditorBuffer_eq]
  refine ⟨first, ?_, draws⟩
  rw [if_neg newline]
  by_cases silent : letter key.scanCode = 0
  · rw [if_neg (not_not.mpr silent), if_pos silent]
    unfold Console.retyped Console.active
    cases c.mode <;> simp
  · rw [if_pos silent, if_neg silent]
    unfold Console.retyped Console.active
    cases c.mode <;> simp [inputIntoBuffer_eq, inputIntoEditorBuffer_eq]

def pressAll (keys : List KeyPress) (c : Console) : Option Console :=
  runEvents (keys.map .press) c

theorem pressAll_types {c : Console}
    (ok : CursorOk c.terminal.videoMem c.terminal.terminalRow c.terminal.terminalCol)
    {keys : List KeyPress} (stays : ∀ key ∈ keys, key.scanCode ≠ closingKey c.mode) :
    ∃ t, pressAll keys c =
        some (c.retyped t ((keys.map KeyPress.scanCode).foldl TextBuffer.press c.active)) ∧
      Draws c.terminal t := by
  unfold pressAll
  induction keys generalizing c with
  | nil => exact ⟨c.terminal, congrArg some (retyped_self c).symm, Draws.refl ok⟩
  | cons key rest ih =>
      obtain ⟨first, pressed, draws⟩ :=
        keyboardCallback_types ok (stays key List.mem_cons_self)
      obtain ⟨last, ran, later⟩ :=
        ih (c := c.retyped first (c.active.press key.scanCode))
          (by rw [retyped_terminal]; exact draws.shown)
          (fun other member => by
            rw [retyped_mode]
            exact stays other (List.mem_cons_of_mem _ member))
      rw [retyped_terminal] at later
      refine ⟨last, ?_, draws.trans later⟩
      rw [retyped_active, retyped_retyped] at ran
      simp only [List.map_cons, runEvents, ConsoleEvent.run, pressed, Option.bind_some, ran,
        List.foldl_cons]

structure ContainsText (fs : FileSystem) (filled : Fin 224) (text : List Byte) :
    Prop where
  size : (fs.rootDir filled).size.toNat = text.length
  contents : readFileText fs.fat12Table fs.disk (fs.rootDir filled) = some text

structure TextKept (c : Console) (text : List Byte) : Prop where
  held : HoldsTyped c.active text
  saved : c.mode = .editor → ∀ esc filled after, esc.scanCode = escKey →
    SuccessfulCreate c.fs (cFileArgs esc c) filled after →
      ∃ back, keyboardCallback esc c = some back ∧ back.fs = after ∧
        ContainsText after filled text

theorem keyboardCallback_esc {c : Console} (mode : c.mode = .editor) {esc : KeyPress}
    (pressed : esc.scanCode = escKey) {filled : Option (Fin 224)} {after : FileSystem}
    (created : c.fs.create (cFileArgs esc c) = some (filled, after)) {t : Terminal}
    (retrived : retriveSavedWindow c.terminal = some t) :
    keyboardCallback esc c = some
      { c with
        terminal := t
        mode := .terminal
        editorBuff := c.editorBuff.clear
        fs := after } := by
  unfold keyboardCallback
  rw [pressed, if_neg (by decide), if_pos ⟨mode, rfl⟩]
  have saved : cFile esc c = some { c with fs := after } := by
    unfold cFile
    rw [created, Option.map_some]
  rw [saved, Option.bind_some]
  simp only [retrived, Option.map_some, clearEditorBuffer]

theorem dataBytes_cFileArgs {c : Console} {text : List Byte}
    (held : HoldsTyped c.editorBuff text) (esc : KeyPress) :
    (cFileArgs esc c).size.toNat = text.length ∧
      dataBytes (cFileArgs esc c).data text.length = text := by
  constructor
  · rw [← held.position]
    show (c.editorBuff.position.setWidth 32).toNat = c.editorBuff.position.toNat
    rw [BitVec.toNat_setWidth_of_le (by decide)]
  · apply List.ext_getElem
    · unfold dataBytes
      rw [List.length_map, List.length_range]
    · intro k left right
      unfold dataBytes cFileArgs
      simp only [List.getElem_map, List.getElem_range, Int.toNat_natCast]
      exact held.bytes k right

theorem containsText_create {c : Console} {text : List Byte}
    (held : HoldsTyped c.editorBuff text) (nonzero : ∀ ch ∈ text, ch ≠ 0)
    {esc : KeyPress} {filled : Fin 224} {after : FileSystem}
    (success : SuccessfulCreate c.fs (cFileArgs esc c) filled after) :
    ContainsText after filled text := by
  obtain ⟨size, data⟩ := dataBytes_cFileArgs held esc
  have small : (cFileArgs esc c).size.toNat ≤ sectorSize := by
    rw [size, ← held.position]
    exact (Nat.le_of_lt c.editorBuff.position.isLt).trans (by decide)
  have enough : clusterCount (cFileArgs esc c).size.toNat ≤
      (freeCells c.fs.fat12Table 0).length := by
    obtain ⟨first, rest, lowest, -⟩ := fat12Allocate_served success.allocated
    rw [clusterCount_of_small small]
    exact (Nat.succ_le_succ (Nat.zero_le _)).trans lowest.length_le
  have nulFree : ∀ k : Nat, k < (cFileArgs esc c).size.toNat →
      (cFileArgs esc c).data k ≠ 0 := by
    intro k bound
    rw [size] at bound
    show c.editorBuff.bytes ((k : Int).toNat) ≠ 0
    rw [Int.toNat_natCast, held.bytes k bound]
    exact nonzero _ (List.getElem_mem bound)
  have entry : after.rootDir filled = (cFileArgs esc c).entry
      (fat12Allocate c.fs.fat12Table (cFileArgs esc c).size.toNat).1 := by
    obtain ⟨-, disk, -, rfl⟩ := create_cases_slot success.returned
    exact Function.update_self ..
  refine ⟨by rw [entry]; exact size, ?_⟩
  rw [entry, readFileText_create_small success.returned enough nulFree small, size, data]

theorem textKept_of_holdsTyped {c : Console} {text : List Byte}
    (held : HoldsTyped c.active text) (nonzero : ∀ ch ∈ text, ch ≠ 0) :
    TextKept c text := by
  refine ⟨held, fun mode esc filled after pressed success => ?_⟩
  have inEditor : HoldsTyped c.editorBuff text := by
    unfold Console.active at held
    rw [mode] at held
    exact held
  exact ⟨_, keyboardCallback_esc mode pressed success.returned
    (retriveSavedWindow_eq c.terminal), rfl, containsText_create inEditor nonzero success⟩

/-- From an empty buffer every sequence of keys of one mode comes to an end, and the
text typed is in the buffer, and in the file that `ESC` saves, exactly when there were
never more than 255 characters. -/
theorem typed_text_kept_iff {console : Console} (onScreen : OnScreen console.terminal)
    (empty : HoldsTyped console.active []) {keys : List KeyPress}
    (stays : ∀ key ∈ keys, key.scanCode ≠ closingKey console.mode) :
    ∃ last, pressAll keys console = some last ∧ last.mode = console.mode ∧
      (TextKept last (typedAll [] (keys.map KeyPress.scanCode)) ↔
        ∀ early, early <+: keys.map KeyPress.scanCode →
          (typedAll [] early).length ≤ 255) := by
  obtain ⟨t, pressed, -⟩ := pressAll_types onScreen.inv.shown stays
  refine ⟨_, pressed, retyped_mode .., ?_⟩
  have followed := pressAll_holdsTyped_iff empty (Nat.zero_le 255)
    (keys.map KeyPress.scanCode)
  have nonzero := typedAll_nonzero (keys.map KeyPress.scanCode)
    (fun c member => absurd member List.not_mem_nil : ∀ c ∈ ([] : List Byte), c ≠ 0)
  rw [← followed]
  constructor
  · intro kept
    have held := kept.held
    rw [retyped_active] at held
    exact held
  · intro held
    apply textKept_of_holdsTyped _ nonzero
    rw [retyped_active]
    exact held

def firstSession : Console :=
  bootConsole
    { bootTerminal (fun _ => 0) with
      videoMem := drawn (fun _ => blank) (fun _ => 0) (vgaHeight * vgaWidth) }
    (bootFileSystem (fun _ => 0) blankDisk)

def keyOf (scanCode : Byte) : KeyPress := ⟨scanCode, ⟨0, 0, 0, 0, 0, 0⟩, FileDir.zero⟩

theorem firstSession_onScreen : OnScreen firstSession.terminal := by
  refine ⟨fun _ => 0, [], ?_⟩
  rw [terminalInitialize_eq, Option.bind_some, runOps]
  rfl

theorem firstSession_empty : HoldsTyped firstSession.active [] :=
  ⟨rfl, fun k inside => absurd inside (Nat.not_lt_zero k), fun _ _ _ => rfl⟩

/-- `ab`, the `b` of which is taken back, and a `c`. -/
theorem typed_text_kept_iff_corrected :
    ∃ last, pressAll ([0x1E, 0x30, backspaceKey, 0x2E].map keyOf) firstSession = some last ∧
      TextKept last [charByte 'a', charByte 'c'] := by
  obtain ⟨last, pressed, -, kept⟩ := typed_text_kept_iff firstSession_onScreen
    firstSession_empty (show ∀ key ∈ [0x1E, 0x30, backspaceKey, 0x2E].map keyOf,
      key.scanCode ≠ closingKey firstSession.mode from by decide)
  refine ⟨last, pressed, kept.mpr fun early before => ?_⟩
  have short : ∀ early ∈ [0x1E, 0x30, backspaceKey, 0x2E].inits,
      (typedAll [] early).length ≤ 255 := by decide
  exact short early ((List.mem_inits _ _).mpr before)

theorem typedAll_replicate (count : Nat) (room : count ≤ bufferSize) :
    typedAll [] (List.replicate count 0x1E) = List.replicate count (charByte 'a') := by
  induction count with
  | zero => rfl
  | succ count ih =>
      have earlier := ih (by omega)
      unfold typedAll at earlier ⊢
      rw [List.replicate_succ', List.foldl_append, earlier, List.replicate_succ']
      show typed _ 0x1E = _
      unfold typed
      rw [if_neg (by decide), if_neg (by decide), if_neg (by decide), if_pos]
      · rfl
      · rw [List.length_replicate]
        omega

/-- The position goes round with the 256th character of a line. -/
theorem long_line_lost :
    OnScreen firstSession.terminal ∧ HoldsTyped firstSession.active [] ∧
      (∀ key ∈ List.replicate 256 (keyOf 0x1E),
        key.scanCode ≠ closingKey firstSession.mode) ∧
      (∀ count ≤ 256, (typedAll [] (List.replicate count 0x1E)).length ≤ bufferSize) ∧
      ∃ last, pressAll (List.replicate 256 (keyOf 0x1E)) firstSession = some last ∧
        ¬ TextKept last (typedAll [] (List.replicate 256 0x1E)) := by
  have stays : ∀ key ∈ List.replicate 256 (keyOf 0x1E),
      key.scanCode ≠ closingKey firstSession.mode := by
    intro key member
    rw [List.eq_of_mem_replicate member]
    decide
  have codes : (List.replicate 256 (keyOf 0x1E)).map KeyPress.scanCode =
      List.replicate 256 0x1E := List.map_replicate
  refine ⟨firstSession_onScreen, firstSession_empty, stays, fun count few => ?_, ?_⟩
  · rw [typedAll_replicate count (few.trans (by decide)), List.length_replicate]
    exact few.trans (by decide)
  · obtain ⟨t, pressed, -⟩ := pressAll_types firstSession_onScreen.inv.shown stays
    refine ⟨_, pressed, fun kept => ?_⟩
    have held := kept.held
    rw [retyped_active, codes, pressAll_holdsTyped_iff firstSession_empty (Nat.zero_le 255)]
      at held
    have short := held _ List.prefix_rfl
    rw [typedAll_replicate 256 (by decide), List.length_replicate] at short
    exact absurd short (by decide)

end LazyOS.Drivers
