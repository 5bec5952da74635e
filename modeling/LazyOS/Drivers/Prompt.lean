import LazyOS.Data.Shown
import LazyOS.Drivers.Editor
import LazyOS.Drivers.Erase

namespace LazyOS.Drivers

open LazyOS.Data

/-! The command line on the screen.  `Backspace` erases the last visible cell and knows
nothing of the buffer; `remove_one_from_buffer` stops at the start of the buffer. -/

def visibleFrom (screen : Nat → Half) (start : Nat) : List Half :=
  shownIn Visible screen start (vgaHeight * vgaWidth)

def textEndLoop (screen : Nat → Half) : (count : Nat) → Nat
  | 0 => 0
  | count + 1 => if Visible (screen count) then count + 1 else textEndLoop screen count

def textEnd (screen : Nat → Half) : Nat := textEndLoop screen (vgaHeight * vgaWidth)

theorem textEndLoop_spec (screen : Nat → Half) (count : Nat) :
    textEndLoop screen count ≤ count ∧
    (∀ position, textEndLoop screen count ≤ position → position < count →
      ¬ Visible (screen position)) ∧
    (textEndLoop screen count ≠ 0 → Visible (screen (textEndLoop screen count - 1))) := by
  induction count with
  | zero => exact ⟨le_rfl, fun _ _ none => absurd none (Nat.not_lt_zero _), (absurd rfl ·)⟩
  | succ count ih =>
      unfold textEndLoop
      by_cases visible : Visible (screen count)
      · rw [if_pos visible]
        exact ⟨le_rfl, fun _ after inside => absurd inside (Nat.not_lt.mpr after),
          fun _ => visible⟩
      · rw [if_neg visible]
        obtain ⟨bound, behind, last⟩ := ih
        refine ⟨bound.trans (Nat.le_succ _), fun position after inside => ?_, last⟩
        rcases Nat.lt_succ_iff_lt_or_eq.mp inside with earlier | rfl
        · exact behind position after earlier
        · exact visible

section TextEnd

variable (screen : Nat → Half)

theorem textEnd_le : textEnd screen ≤ vgaHeight * vgaWidth :=
  (textEndLoop_spec screen _).1

theorem not_visible_of_textEnd_le {position : Nat} (after : textEnd screen ≤ position)
    (inside : position < vgaHeight * vgaWidth) : ¬ Visible (screen position) :=
  (textEndLoop_spec screen _).2.1 position after inside

theorem visible_before_textEnd (some : textEnd screen ≠ 0) :
    Visible (screen (textEnd screen - 1)) := (textEndLoop_spec screen _).2.2 some

theorem textEnd_eq_zero :
    textEnd screen = 0 ↔
      ∀ position < vgaHeight * vgaWidth, ¬ Visible (screen position) := by
  constructor
  · intro zero position inside
    exact not_visible_of_textEnd_le screen (zero ▸ Nat.zero_le _) inside
  · intro none
    by_contra some
    have bound := textEnd_le screen
    exact none _ (by omega) (visible_before_textEnd screen some)

theorem visibleFrom_textEnd : visibleFrom screen (textEnd screen) = [] :=
  shownIn_eq_nil.mpr fun _ after inside => not_visible_of_textEnd_le screen after inside

end TextEnd

def typedCells (buffer : TextBuffer) : List Half :=
  (List.range buffer.position.toNat).map fun k =>
    terminalMakeChar (buffer.bytes k) .white .black

/-- What was on the screen before is unchanged up to its last visible cell, and the
visible cells behind that are the characters in the buffer. -/
structure PromptAgrees (before : Terminal) (after : Console) : Prop where
  kept : ∀ position < textEnd before.videoMem,
    after.terminal.videoMem position = before.videoMem position
  typed : visibleFrom after.terminal.videoMem (textEnd before.videoMem) =
    typedCells after.buff

def Scrolls (scanCode : Byte) (t : Terminal) : Prop :=
  ¬ released scanCode ∧ letter scanCode ≠ 0 ∧
    vgaWidth ≤ t.terminalCol ∧ vgaHeight ≤ t.terminalRow + 1

/-- No key of the sequence scrolls the screen when its turn comes. -/
def Unscrolled : List KeyPress → Console → Prop
  | [], _ => True
  | key :: rest, c =>
      ¬ Scrolls key.scanCode c.terminal ∧
        ∀ next, keyboardCallback key c = some next → Unscrolled rest next

/-- A `Backspace` is pressed when nothing is typed. -/
def BacksOver (text : List Byte) (codes : List Byte) : Prop :=
  ∃ early, early ++ [backspaceKey] <+: codes ∧ typedAll text early = []

theorem backsOver_nil (text : List Byte) : ¬ BacksOver text [] := by
  rintro ⟨early, before, -⟩
  exact absurd (List.prefix_nil.mp before) (by simp)

theorem backsOver_cons (text : List Byte) (code : Byte) (rest : List Byte) :
    BacksOver text (code :: rest) ↔
      code = backspaceKey ∧ text = [] ∨ BacksOver (typed text code) rest := by
  constructor
  · rintro ⟨early, before, none⟩
    cases early with
    | nil =>
        rw [List.nil_append, List.cons_prefix_cons] at before
        exact .inl ⟨before.1.symm, none⟩
    | cons first early =>
        rw [List.cons_append, List.cons_prefix_cons] at before
        obtain ⟨rfl, before⟩ := before
        exact .inr ⟨early, before, none⟩
  · rintro (⟨rfl, none⟩ | ⟨early, before, none⟩)
    · exact ⟨[], (List.prefix_cons_inj _).mpr List.nil_prefix, none⟩
    · exact ⟨code :: early, (List.prefix_cons_inj _).mpr before, none⟩

def keyScreen (scanCode : Byte) (t : Terminal) : Option Terminal :=
  if released scanCode then some t
  else if scanCode = backspaceKey then backspace t
  else print (echo (letter scanCode)) t

theorem keyboardCallback_prompt {c : Console} (mode : c.mode = .terminal)
    {key : KeyPress} (stays : key.scanCode ≠ enterKey) :
    keyboardCallback key c = (keyScreen key.scanCode c.terminal).map fun t =>
      { c with terminal := t, buff := c.buff.press key.scanCode } := by
  have noEscape : ¬ (c.mode = .editor ∧ key.scanCode = escKey) := by
    rw [mode]
    rintro ⟨other, -⟩
    cases other
  have notNewline : letter key.scanCode ≠ newlineChar :=
    fun newline => stays ((letter_eq_newline _).mp newline)
  unfold keyboardCallback keyScreen TextBuffer.press returnLetter
  by_cases up : released key.scanCode
  · rw [if_pos up, if_pos up, if_pos up]
    rfl
  rw [if_neg up, if_neg up, if_neg up, if_neg noEscape]
  by_cases back : key.scanCode = backspaceKey
  · rw [if_pos back, if_pos back, if_pos back]
    cases backspace c.terminal with
    | none => rfl
    | some t =>
        simp [echo, print, printColor, newlineChar, back, mode, removeOneFromBuffer]
  · rw [if_neg back, if_neg back, if_neg back, Option.bind_some]
    simp only
    cases print (echo (letter key.scanCode)) c.terminal with
    | none => rfl
    | some t =>
        simp only [Option.bind_some, Option.map_some, if_neg back, if_neg notNewline]
        by_cases silent : letter key.scanCode = 0
        · rw [if_neg (not_not.mpr silent), if_pos silent]
        · rw [if_pos silent, if_neg silent, mode]
          exact inputIntoBuffer_eq _ _

theorem backspace_visible {t : Terminal}
    (ok : CursorOk t.videoMem t.terminalRow t.terminalCol) :
    ∃ next, backspace t = some next ∧
      CursorOk next.videoMem next.terminalRow next.terminalCol ∧
      ((∃ last, LastVisible t.videoMem last ∧
          next.videoMem = Function.update t.videoMem last blank) ∨
        textEnd t.videoMem = 0 ∧ textEnd next.videoMem = 0) := by
  obtain ⟨next, ran, draws⟩ := backspace_draws ok
  refine ⟨next, ran, draws.shown, ?_⟩
  by_cases home : t.terminalCol = 0 ∧ t.terminalRow = 0
  · rw [backspace_home home] at ran
    obtain rfl := Option.some.inj ran
    have none : textEnd t.videoMem = 0 := (textEnd_eq_zero _).mpr fun position inside =>
      not_not.mpr (ok.unseen position (by rw [home.1, home.2]; omega) inside)
    exact .inr ⟨none, none⟩
  · obtain ⟨same, ran', erases⟩ := backspace_erases ok home
    obtain rfl := Option.some.inj (ran.symm.trans ran')
    by_cases seen : ∃ position < vgaHeight * vgaWidth, Visible (t.videoMem position)
    · obtain ⟨position, inside, visible⟩ := seen
      obtain ⟨last, greatest⟩ := exists_lastVisible inside visible
      exact .inl ⟨last, greatest, erases.lastVisible greatest ▸ erases.erased⟩
    · have none : ∀ position < vgaHeight * vgaWidth, ¬ Visible (t.videoMem position) :=
        fun position inside visible => seen ⟨position, inside, visible⟩
      refine .inr ⟨(textEnd_eq_zero _).mpr none, (textEnd_eq_zero _).mpr fun position inside => ?_⟩
      rw [erases.erased]
      by_cases here : position = next.cursorAt
      · rw [here, Function.update_self]
        exact not_visible_blank
      · rw [Function.update_of_ne here]
        exact none position inside

theorem keyScreen_character {t : Terminal}
    (ok : CursorOk t.videoMem t.terminalRow t.terminalCol) {scanCode : Byte}
    (down : ¬ released scanCode) (character : letter scanCode ≠ 0)
    (stays : scanCode ≠ enterKey) (still : ¬ Scrolls scanCode t) :
    ∃ next, keyScreen scanCode t = some next ∧
      CursorOk next.videoMem next.terminalRow next.terminalCol ∧
      t.cursorAt < vgaHeight * vgaWidth ∧
      next.videoMem = Function.update t.videoMem t.cursorAt
        (terminalMakeChar (letter scanCode) .white .black) := by
  have notBack : scanCode ≠ backspaceKey := by
    rintro rfl
    exact character rfl
  have notNewline : letter scanCode ≠ newlineChar :=
    fun newline => stays ((letter_eq_newline _).mp newline)
  have room : t.cursorAt < vgaHeight * vgaWidth := by
    have row := ok.row_lt
    have col := ok.col_le
    by_contra full
    refine still ⟨down, character, ?_, ?_⟩ <;>
      · unfold Terminal.cursorAt vgaHeight vgaWidth at *
        omega
  obtain ⟨next, wrote, cells, -⟩ := terminalWriteChar_inside ok room notNewline .white .black
  obtain ⟨same, wrote', draws⟩ := terminalWriteChar_draws ok (letter scanCode) .white .black
  obtain rfl := Option.some.inj (wrote.symm.trans wrote')
  refine ⟨next, ?_, draws.shown, room, cells⟩
  unfold keyScreen echo print
  rw [if_neg down, if_neg notBack, if_neg character, printColor, wrote]
  rfl

theorem keyScreen_silent {scanCode : Byte} (t : Terminal)
    (silent : released scanCode ∨ scanCode ≠ backspaceKey ∧ letter scanCode = 0) :
    keyScreen scanCode t = some t := by
  unfold keyScreen
  by_cases up : released scanCode
  · rw [if_pos up]
  · obtain ⟨other, none⟩ := silent.resolve_left up
    rw [if_neg up, if_neg other, none]
    rfl

inductive Pressed (scanCode : Byte) (t next : Terminal) (text : List Byte) :
    List Byte → Prop
  | silent (same : next = t) (notBack : scanCode ≠ backspaceKey) :
      Pressed scanCode t next text text
  | erased {last : Nat} (back : scanCode = backspaceKey)
      (greatest : LastVisible t.videoMem last)
      (cells : next.videoMem = Function.update t.videoMem last blank) :
      Pressed scanCode t next text text.dropLast
  | empty (back : scanCode = backspaceKey) (none : textEnd t.videoMem = 0)
      (left : textEnd next.videoMem = 0) : Pressed scanCode t next text text.dropLast
  | written (notBack : scanCode ≠ backspaceKey) (room : t.cursorAt < vgaHeight * vgaWidth)
      (cells : next.videoMem = Function.update t.videoMem t.cursorAt
        (terminalMakeChar (letter scanCode) .white .black)) :
      Pressed scanCode t next text (text ++ [letter scanCode])

theorem keyScreen_pressed {t : Terminal}
    (ok : CursorOk t.videoMem t.terminalRow t.terminalCol) {text : List Byte}
    (short : text.length < bufferSize) {scanCode : Byte} (stays : scanCode ≠ enterKey)
    (still : ¬ Scrolls scanCode t) :
    ∃ next, keyScreen scanCode t = some next ∧
      CursorOk next.videoMem next.terminalRow next.terminalCol ∧
      Pressed scanCode t next text (typed text scanCode) := by
  unfold typed
  by_cases up : released scanCode
  · rw [if_pos up]
    refine ⟨t, keyScreen_silent t (.inl up), ok, .silent rfl ?_⟩
    rintro rfl
    exact absurd up (by decide)
  rw [if_neg up]
  by_cases back : scanCode = backspaceKey
  · rw [if_pos back]
    obtain ⟨next, ran, shown, erased⟩ := backspace_visible ok
    have pressed : keyScreen scanCode t = some next := by
      unfold keyScreen
      rw [if_neg up, if_pos back, ran]
    rcases erased with ⟨last, greatest, cells⟩ | ⟨none, left⟩
    · exact ⟨next, pressed, shown, .erased back greatest cells⟩
    · exact ⟨next, pressed, shown, .empty back none left⟩
  rw [if_neg back]
  by_cases silent : letter scanCode = 0
  · rw [if_pos silent]
    exact ⟨t, keyScreen_silent t (.inr ⟨back, silent⟩), ok, .silent rfl back⟩
  · rw [if_neg silent, if_pos short]
    obtain ⟨next, pressed, shown, room, cells⟩ :=
      keyScreen_character ok up silent stays still
    exact ⟨next, pressed, shown, .written back room cells⟩

/-! The screen follows the buffer until a `Backspace` takes a cell of the earlier
output.  From then on a cell is missing. -/

section Following

variable (before : Terminal)

structure Follows (t : Terminal) (text : List Byte) : Prop where
  ok : CursorOk t.videoMem t.terminalRow t.terminalCol
  kept : ∀ position < textEnd before.videoMem,
    t.videoMem position = before.videoMem position
  line : visibleFrom t.videoMem (textEnd before.videoMem) =
    text.map fun c => terminalMakeChar c .white .black

structure LosesCells (t : Terminal) (text : List Byte) : Prop where
  ok : CursorOk t.videoMem t.terminalRow t.terminalCol
  fewer : (visibleFrom t.videoMem 0).length <
    (visibleFrom before.videoMem 0).length + text.length
  enough : text.length ≤ (visibleFrom t.videoMem 0).length

variable {before} {t : Terminal} {text : List Byte}

theorem visibleFrom_kept (kept : ∀ position < textEnd before.videoMem,
      t.videoMem position = before.videoMem position) :
    visibleFrom t.videoMem 0 =
      visibleFrom before.videoMem 0 ++ visibleFrom t.videoMem (textEnd before.videoMem) := by
  have earlier : visibleFrom before.videoMem 0 =
      shownIn Visible before.videoMem 0 (textEnd before.videoMem) := by
    have none := visibleFrom_textEnd before.videoMem
    unfold visibleFrom at none ⊢
    rw [shownIn_split (Nat.zero_le _) (textEnd_le before.videoMem), none, List.append_nil]
  rw [earlier]
  unfold visibleFrom
  rw [shownIn_split (Nat.zero_le _) (textEnd_le before.videoMem)]
  congr 1
  exact shownIn_congr fun position _ inside => kept position inside

theorem Follows.count (follows : Follows before t text) :
    (visibleFrom t.videoMem 0).length =
      (visibleFrom before.videoMem 0).length + text.length := by
  rw [visibleFrom_kept follows.kept, List.length_append, follows.line, List.length_map]

theorem Follows.textEnd_le_cursorAt (follows : Follows before t text) :
    textEnd before.videoMem ≤ t.cursorAt := by
  by_cases none : textEnd before.videoMem = 0
  · exact none ▸ Nat.zero_le _
  · by_contra early
    have bound := textEnd_le before.videoMem
    have visible := visible_before_textEnd before.videoMem none
    rw [← follows.kept _ (by omega)] at visible
    exact visible (follows.ok.unseen _ (by unfold Terminal.cursorAt at early; omega)
      (by omega))

theorem Follows.written (follows : Follows before t text) {next : Terminal}
    (ok : CursorOk next.videoMem next.terminalRow next.terminalCol)
    (room : t.cursorAt < vgaHeight * vgaWidth) {c : Byte}
    (cells : next.videoMem = Function.update t.videoMem t.cursorAt
      (terminalMakeChar c .white .black)) : Follows before next (text ++ [c]) := by
  have start := follows.textEnd_le_cursorAt
  have behind : ∀ position, t.cursorAt ≤ position → position < vgaHeight * vgaWidth →
      ¬ Visible (t.videoMem position) :=
    fun position after inside => not_not.mpr (follows.ok.unseen position after inside)
  refine ⟨ok, fun position inside => ?_, ?_⟩
  · rw [cells, Function.update_of_ne (by omega)]
    exact follows.kept position inside
  · rw [cells, List.map_append, ← follows.line]
    exact shownIn_write start room behind (visible_makeChar c white_ink)

theorem Follows.erased (follows : Follows before t text) (some : text ≠ [])
    {next : Terminal} (ok : CursorOk next.videoMem next.terminalRow next.terminalCol)
    {last : Nat} (greatest : LastVisible t.videoMem last)
    (cells : next.videoMem = Function.update t.videoMem last blank) :
    Follows before next text.dropLast := by
  have behindText : textEnd before.videoMem ≤ last := by
    by_contra early
    have none : visibleFrom t.videoMem (textEnd before.videoMem) = [] :=
      shownIn_eq_nil.mpr fun position after inside =>
        greatest.behind position (by omega) inside
    rw [follows.line, List.map_eq_nil_iff] at none
    exact some none
  refine ⟨ok, fun position inside => ?_, ?_⟩
  · rw [cells, Function.update_of_ne (by omega)]
    exact follows.kept position inside
  · rw [cells, List.map_dropLast, ← follows.line]
    exact shownIn_erase behindText greatest.inside greatest.visible greatest.behind
      not_visible_blank

theorem LastVisible.count {screen : Nat → Half} {last : Nat}
    (greatest : LastVisible screen last) :
    (visibleFrom (Function.update screen last blank) 0).length + 1 =
      (visibleFrom screen 0).length := by
  have seen : (visibleFrom screen 0) ≠ [] := fun none =>
    shownIn_eq_nil.mp none last (Nat.zero_le _) greatest.inside greatest.visible
  unfold visibleFrom at *
  rw [shownIn_erase (Nat.zero_le _) greatest.inside greatest.visible greatest.behind
    not_visible_blank, List.length_dropLast]
  have positive := List.length_pos_of_ne_nil seen
  omega

theorem visibleFrom_zero (none : textEnd t.videoMem = 0) :
    visibleFrom t.videoMem 0 = [] := by
  have empty := visibleFrom_textEnd t.videoMem
  rwa [none] at empty

/-- One key.  The screen goes along with the buffer, unless it is a `Backspace` with
nothing typed and something to erase. -/
theorem Follows.key (follows : Follows before t text) (short : text.length < bufferSize)
    {scanCode : Byte} (stays : scanCode ≠ enterKey) (still : ¬ Scrolls scanCode t) :
    ∃ next, keyScreen scanCode t = some next ∧
      (Follows before next (typed text scanCode) ∧
          (scanCode = backspaceKey → text = [] → textEnd before.videoMem = 0) ∨
        LosesCells before next (typed text scanCode) ∧ scanCode = backspaceKey ∧
          text = [] ∧ textEnd before.videoMem ≠ 0) := by
  obtain ⟨next, ran, ok, pressed⟩ := keyScreen_pressed follows.ok short stays still
  refine ⟨next, ran, ?_⟩
  generalize typed text scanCode = later at pressed ⊢
  cases pressed with
  | silent same notBack =>
      rw [same]
      exact .inl ⟨follows, (absurd · notBack)⟩
  | @erased last back greatest cells =>
      by_cases nothing : text = []
      · have count := follows.count
        have fewer := greatest.count
        rw [← cells] at fewer
        subst nothing
        have lost : LosesCells before next [] :=
          ⟨ok, by rw [List.length_nil] at *; omega, Nat.zero_le _⟩
        refine .inr ⟨lost, back, rfl, fun blankBefore => ?_⟩
        have empty := visibleFrom_zero blankBefore
        rw [empty, List.length_nil, List.length_nil] at count
        omega
      · exact .inl ⟨follows.erased nothing ok greatest cells,
          fun _ none => absurd none nothing⟩
  | empty back none left =>
      have empty := visibleFrom_zero none
      rw [visibleFrom_kept follows.kept, List.append_eq_nil_iff, follows.line,
        List.map_eq_nil_iff] at empty
      obtain ⟨earlier, rfl⟩ := empty
      have blankBefore : textEnd before.videoMem = 0 := by
        rw [textEnd_eq_zero]
        exact fun position inside => shownIn_eq_nil.mp earlier position (Nat.zero_le _) inside
      refine .inl ⟨⟨ok, fun position inside => ?_, ?_⟩, fun _ _ => blankBefore⟩
      · rw [blankBefore] at inside
        exact absurd inside (Nat.not_lt_zero _)
      · rw [blankBefore]
        exact visibleFrom_zero left
  | written notBack room cells =>
      exact .inl ⟨follows.written ok room cells, (absurd · notBack)⟩

theorem LosesCells.key (loses : LosesCells before t text) (short : text.length < bufferSize)
    {scanCode : Byte} (stays : scanCode ≠ enterKey) (still : ¬ Scrolls scanCode t) :
    ∃ next, keyScreen scanCode t = some next ∧
      LosesCells before next (typed text scanCode) := by
  have fewer := loses.fewer
  have enough := loses.enough
  obtain ⟨next, ran, ok, pressed⟩ := keyScreen_pressed loses.ok short stays still
  refine ⟨next, ran, ?_⟩
  generalize typed text scanCode = later at pressed ⊢
  cases pressed with
  | silent same _ =>
      rw [same]
      exact loses
  | @erased last _ greatest cells =>
      have one := greatest.count
      rw [← cells] at one
      refine ⟨ok, ?_, ?_⟩
      all_goals rw [List.length_dropLast]
      all_goals omega
  | empty _ none left =>
      rw [visibleFrom_zero none, List.length_nil] at fewer enough
      refine ⟨ok, ?_, ?_⟩
      all_goals rw [visibleFrom_zero left, List.length_dropLast, List.length_nil]
      all_goals omega
  | written _ room cells =>
      have behind : ∀ position, t.cursorAt ≤ position → position < vgaHeight * vgaWidth →
          ¬ Visible (t.videoMem position) :=
        fun position after inside => not_not.mpr (loses.ok.unseen position after inside)
      have written : visibleFrom next.videoMem 0 = visibleFrom t.videoMem 0 ++
          [terminalMakeChar (letter scanCode) .white .black] := by
        rw [cells]
        exact shownIn_write (Nat.zero_le _) room behind (visible_makeChar _ white_ink)
      refine ⟨ok, ?_, ?_⟩
      all_goals rw [written, List.length_append, List.length_append, List.length_singleton,
        List.length_singleton]
      all_goals omega

end Following

/-- The pending characters never become more than `position` can count. -/
def NeverMore (limit : Nat) (text : List Byte) (codes : List Byte) : Prop :=
  ∀ early, early <+: codes → (typedAll text early).length ≤ limit

theorem NeverMore.first {limit : Nat} {text codes : List Byte}
    (never : NeverMore limit text codes) : text.length ≤ limit := never [] List.nil_prefix

theorem NeverMore.rest {limit : Nat} {text rest : List Byte} {code : Byte}
    (never : NeverMore limit text (code :: rest)) : NeverMore limit (typed text code) rest :=
  fun early before => never (code :: early) ((List.prefix_cons_inj code).mpr before)

theorem typed_length_le (text : List Byte) (scanCode : Byte) :
    (typed text scanCode).length ≤ text.length + 1 := by
  unfold typed
  split
  · exact Nat.le_succ _
  · split
    · rw [List.length_dropLast]
      omega
    · split
      · exact Nat.le_succ _
      · split
        · rw [List.length_append, List.length_singleton]
        · exact Nat.le_succ _

theorem typedAll_length_le (text codes : List Byte) :
    (typedAll text codes).length ≤ text.length + codes.length := by
  induction codes generalizing text with
  | nil => exact le_rfl
  | cons code rest ih =>
      have first := typed_length_le text code
      have later := ih (typed text code)
      rw [List.length_cons]
      exact later.trans (by omega)

theorem neverMore_of_length_le {limit : Nat} {codes : List Byte}
    (few : codes.length ≤ limit) : NeverMore limit [] codes := fun early before => by
  have typedFew := typedAll_length_le [] early
  have shorter := before.length_le
  rw [List.length_nil] at typedFew
  omega

section Runs

variable {before : Terminal} {text : List Byte} {c : Console} {keys : List KeyPress}

theorem pressAll_cons {key : KeyPress} {rest : List KeyPress} {next : Console}
    (pressed : keyboardCallback key c = some next) :
    pressAll (key :: rest) c = pressAll rest next := by
  unfold pressAll
  rw [List.map_cons, runEvents, ConsoleEvent.run, pressed, Option.bind_some]

theorem LosesCells.run (mode : c.mode = .terminal)
    (loses : LosesCells before c.terminal text)
    (never : NeverMore 255 text (keys.map KeyPress.scanCode))
    (stays : ∀ key ∈ keys, key.scanCode ≠ enterKey) (still : Unscrolled keys c) :
    ∃ last, pressAll keys c = some last ∧
      LosesCells before last.terminal (typedAll text (keys.map KeyPress.scanCode)) := by
  induction keys generalizing c text with
  | nil => exact ⟨c, rfl, loses⟩
  | cons key rest ih =>
      have short := never.first
      have stay := stays key List.mem_cons_self
      obtain ⟨t, screen, lost⟩ := loses.key (by unfold bufferSize; omega) stay still.1
      have pressed := keyboardCallback_prompt mode stay
      rw [screen, Option.map_some] at pressed
      rw [pressAll_cons pressed]
      exact ih mode lost never.rest
        (fun other member => stays other (List.mem_cons_of_mem _ member))
        (still.2 _ pressed)

theorem Follows.run (mode : c.mode = .terminal) (follows : Follows before c.terminal text)
    (never : NeverMore 255 text (keys.map KeyPress.scanCode))
    (stays : ∀ key ∈ keys, key.scanCode ≠ enterKey) (still : Unscrolled keys c) :
    ∃ last, pressAll keys c = some last ∧
      (Follows before last.terminal (typedAll text (keys.map KeyPress.scanCode)) ∧
          (BacksOver text (keys.map KeyPress.scanCode) → textEnd before.videoMem = 0) ∨
        LosesCells before last.terminal (typedAll text (keys.map KeyPress.scanCode)) ∧
          BacksOver text (keys.map KeyPress.scanCode) ∧ textEnd before.videoMem ≠ 0) := by
  induction keys generalizing c text with
  | nil => exact ⟨c, rfl, .inl ⟨follows, fun past => absurd past (backsOver_nil text)⟩⟩
  | cons key rest ih =>
      have short := never.first
      have stay := stays key List.mem_cons_self
      have others : ∀ other ∈ rest, other.scanCode ≠ enterKey :=
        fun other member => stays other (List.mem_cons_of_mem _ member)
      obtain ⟨t, screen, step⟩ := follows.key (by unfold bufferSize; omega) stay still.1
      have pressed := keyboardCallback_prompt mode stay
      rw [screen, Option.map_some] at pressed
      rw [pressAll_cons pressed, List.map_cons, backsOver_cons]
      rcases step with ⟨kept, guarded⟩ | ⟨lost, past⟩
      · obtain ⟨last, ran, ended⟩ := ih
          (c := { c with terminal := t, buff := c.buff.press key.scanCode })
          mode kept never.rest others (still.2 _ pressed)
        refine ⟨last, ran, ?_⟩
        rcases ended with ⟨kept, later⟩ | ⟨lost, later, some⟩
        · refine .inl ⟨kept, ?_⟩
          rintro (⟨back, none⟩ | past)
          · exact guarded back none
          · exact later past
        · exact .inr ⟨lost, .inr later, some⟩
      · obtain ⟨last, ran, ended⟩ := LosesCells.run
          (c := { c with terminal := t, buff := c.buff.press key.scanCode })
          mode lost never.rest others (still.2 _ pressed)
        exact ⟨last, ran, .inr ⟨ended, .inl ⟨past.1, past.2.1⟩, past.2.2⟩⟩

end Runs

theorem typedCells_of_holdsTyped {buffer : TextBuffer} {text : List Byte}
    (held : HoldsTyped buffer text) :
    typedCells buffer = text.map fun c => terminalMakeChar c .white .black := by
  unfold typedCells
  rw [held.position]
  apply List.ext_getElem
  · rw [List.length_map, List.length_map, List.length_range]
  · intro k left right
    rw [List.length_map] at right
    rw [List.getElem_map, List.getElem_map, List.getElem_range, held.bytes k right]

/-- From an empty command buffer the screen and the buffer agree after a sequence of
keys exactly when nothing was visible before it or no `Backspace` is pressed with
nothing typed. -/
theorem screen_agrees_iff {c : Console} (onScreen : OnScreen c.terminal)
    (mode : c.mode = .terminal) (empty : HoldsTyped c.buff []) {keys : List KeyPress}
    (never : NeverMore 255 [] (keys.map KeyPress.scanCode))
    (stays : ∀ key ∈ keys, key.scanCode ≠ enterKey) (still : Unscrolled keys c) :
    ∃ last, pressAll keys c = some last ∧
      (PromptAgrees c.terminal last ↔
        (∀ position < vgaHeight * vgaWidth, ¬ Visible (c.terminal.videoMem position)) ∨
          ¬ BacksOver [] (keys.map KeyPress.scanCode)) := by
  have start : Follows c.terminal c.terminal [] :=
    ⟨onScreen.inv.shown, fun _ _ => rfl, visibleFrom_textEnd c.terminal.videoMem⟩
  obtain ⟨last, ran, ended⟩ := start.run mode never stays still
  have closing : ∀ key ∈ keys, key.scanCode ≠ closingKey c.mode := by
    rw [mode]
    exact stays
  have held : HoldsTyped last.buff (typedAll [] (keys.map KeyPress.scanCode)) := by
    obtain ⟨t, ran', -⟩ := pressAll_types onScreen.inv.shown closing
    obtain rfl := Option.some.inj (ran.symm.trans ran')
    have active : c.active = c.buff := by
      unfold Console.active
      rw [mode]
    rw [active]
    unfold Console.retyped
    rw [mode]
    exact (pressAll_holdsTyped_iff empty (Nat.zero_le _) _).mpr never
  refine ⟨last, ran, ?_⟩
  rw [← textEnd_eq_zero]
  rcases ended with ⟨follows, guarded⟩ | ⟨loses, past, some⟩
  · refine iff_of_true ⟨follows.kept, ?_⟩ ?_
    · rw [typedCells_of_holdsTyped held]
      exact follows.line
    · by_cases past : BacksOver [] (keys.map KeyPress.scanCode)
      · exact .inl (guarded past)
      · exact .inr past
  · refine iff_of_false (fun agrees => ?_) (not_or.mpr ⟨some, not_not.mpr past⟩)
    have follows : Follows c.terminal last.terminal
        (typedAll [] (keys.map KeyPress.scanCode)) := by
      refine ⟨loses.ok, agrees.kept, ?_⟩
      rw [← typedCells_of_holdsTyped held]
      exact agrees.typed
    have count := follows.count
    have fewer := loses.fewer
    omega

theorem enter_empties {c next : Console} (onScreen : OnScreen c.terminal)
    (mode : c.mode = .terminal) {key : KeyPress} (pressed : key.scanCode = enterKey)
    (ran : keyboardCallback key c = some next) : HoldsTyped next.buff [] := by
  obtain ⟨shown, echoed, -⟩ := enterEcho_draws onScreen.inv.shown
  rw [keyboardCallback_enter mode pressed echoed] at ran
  obtain ⟨commanded, -, rfl⟩ := Option.map_eq_some_iff.mp ran
  exact ⟨rfl, fun k inside => absurd inside (Nat.not_lt_zero k), fun _ _ inside =>
    if_pos inside⟩

theorem after_unknown_command :
    ∃ c, pressAll [keyOf 0x1E, keyOf enterKey] firstSession = some c ∧
      OnScreen c.terminal ∧ c.mode = .terminal ∧ HoldsTyped c.buff [] ∧
      c.terminal.terminalRow = 3 ∧ textEnd c.terminal.videoMem = 182 := by
  have computed : ((pressAll [keyOf 0x1E] firstSession).bind fun first =>
      (keyboardCallback (keyOf enterKey) first).map fun c =>
        (first.mode, c.mode, c.terminal.terminalRow, textEnd c.terminal.videoMem)) =
      some (.terminal, .terminal, 3, 182) := by decide +kernel
  obtain ⟨first, typedOne, entered⟩ := Option.bind_eq_some_iff.mp computed
  obtain ⟨c, ran, values⟩ := Option.map_eq_some_iff.mp entered
  simp only [Prod.mk.injEq] at values
  obtain ⟨modeBefore, mode, row, stop⟩ := values
  have onScreen := runEvents_onScreen firstSession_onScreen typedOne
  refine ⟨c, ?_, keyboardCallback_onScreen onScreen ran, mode,
    enter_empties onScreen modeBefore rfl ran, row, stop⟩
  unfold pressAll at *
  simp only [List.map_cons, List.map_nil, runEvents, ConsoleEvent.run,
    Option.bind_eq_some_iff, Option.some.injEq] at typedOne ⊢
  obtain ⟨middle, pressed, rfl⟩ := typedOne
  exact ⟨middle, pressed, c, ran, rfl⟩

theorem not_scrolls_backspace (t : Terminal) : ¬ Scrolls backspaceKey t :=
  fun scrolls => scrolls.2.1 rfl

theorem screen_agrees_iff_one_letter :
    ∃ c last, pressAll [keyOf 0x1E, keyOf enterKey] firstSession = some c ∧
      pressAll [keyOf 0x30, keyOf backspaceKey] c = some last ∧
      PromptAgrees c.terminal last := by
  obtain ⟨c, reached, onScreen, mode, empty, row, -⟩ := after_unknown_command
  have still : Unscrolled [keyOf 0x30, keyOf backspaceKey] c := by
    refine ⟨fun scrolls => ?_, fun next _ => ⟨not_scrolls_backspace _, fun _ _ => trivial⟩⟩
    have low := scrolls.2.2.2
    rw [row] at low
    exact absurd low (by decide)
  obtain ⟨last, ran, agrees⟩ := screen_agrees_iff onScreen mode empty
    (neverMore_of_length_le (by decide)) (by decide) still
  refine ⟨c, last, reached, ran, agrees.mpr (.inr ?_)⟩
  simp only [List.map_cons, List.map_nil, backsOver_cons]
  rintro (⟨back, -⟩ | ⟨-, none⟩ | past)
  · exact absurd back (by decide)
  · exact absurd none (by decide)
  · exact backsOver_nil _ past

/-- One `Backspace` after the message of an unknown command takes its last letter. -/
theorem earlier_output_erased :
    ∃ c last, pressAll [keyOf 0x1E, keyOf enterKey] firstSession = some c ∧
      OnScreen c.terminal ∧ c.mode = .terminal ∧ HoldsTyped c.buff [] ∧
      Unscrolled [keyOf backspaceKey] c ∧
      pressAll [keyOf backspaceKey] c = some last ∧ ¬ PromptAgrees c.terminal last := by
  obtain ⟨c, reached, onScreen, mode, empty, -, stop⟩ := after_unknown_command
  have pressed := keyboardCallback_prompt mode
    (show (keyOf backspaceKey).scanCode ≠ enterKey by decide)
  obtain ⟨next, ran, -, erased⟩ := backspace_visible onScreen.inv.shown
  have screen : keyScreen (keyOf backspaceKey).scanCode c.terminal = some next := ran
  rw [screen, Option.map_some] at pressed
  refine ⟨c, _, reached, onScreen, mode, empty,
    ⟨not_scrolls_backspace _, fun _ _ => trivial⟩, pressAll_cons pressed, fun agrees => ?_⟩
  rcases erased with ⟨last, greatest, cells⟩ | ⟨none, -⟩
  · have inside : last < textEnd c.terminal.videoMem := by
      by_contra after
      exact not_visible_of_textEnd_le _ (Nat.le_of_not_lt after) greatest.inside
        greatest.visible
    have kept : next.videoMem last = c.terminal.videoMem last := agrees.kept last inside
    rw [cells, Function.update_self] at kept
    exact not_visible_blank (kept ▸ greatest.visible)
  · rw [stop] at none
    exact absurd none (by decide)

end LazyOS.Drivers
