import LazyOS.Drivers.Terminal

namespace LazyOS.Drivers

open LazyOS.Data

/-! What a character and a `Backspace` do to the cells, with the cursor as a linear
position.  The position behind a row is the first one of the next row. -/

def Terminal.cursorAt (t : Terminal) : Nat := t.terminalRow * vgaWidth + t.terminalCol

def Visible (cell : Half) : Prop := attrByte cell ≠ 0

instance (cell : Half) : Decidable (Visible cell) :=
  inferInstanceAs (Decidable (_ ≠ _))

theorem not_visible_blank : ¬ Visible blank := fun visible => visible attrByte_blank

structure LastVisible (screen : Nat → Half) (last : Nat) : Prop where
  inside : last < vgaHeight * vgaWidth
  visible : Visible (screen last)
  behind : ∀ position, last < position → position < vgaHeight * vgaWidth →
    ¬ Visible (screen position)

theorem exists_lastVisible {screen : Nat → Half} {position : Nat}
    (inside : position < vgaHeight * vgaWidth) (visible : Visible (screen position)) :
    ∃ last, LastVisible screen last := by
  let Seen (k : Nat) : Prop := k < vgaHeight * vgaWidth ∧ Visible (screen k)
  have seen : Seen (Nat.findGreatest Seen (vgaHeight * vgaWidth)) :=
    Nat.findGreatest_spec inside.le ⟨inside, visible⟩
  refine ⟨_, seen.1, seen.2, fun later after bound other => ?_⟩
  exact Nat.findGreatest_is_greatest after bound.le ⟨bound, other⟩

theorem LastVisible.unique {screen : Nat → Half} {first second : Nat}
    (left : LastVisible screen first) (right : LastVisible screen second) :
    first = second := by
  rcases Nat.lt_trichotomy first second with before | same | after
  · exact absurd right.visible (left.behind second before right.inside)
  · exact same
  · exact absurd left.visible (right.behind first after left.inside)

theorem visible_makeChar (c : Byte) {fg bg : Color} (ink : fg ≠ .black ∨ bg ≠ .black) :
    Visible (terminalMakeChar c fg bg) := by
  have parts : attrByte (terminalMakeChar c fg bg) =
      ((bg.code <<< 4) ||| fg.code) ||| ((c.signExtend 16) >>> 8).setWidth 8 := by
    unfold attrByte terminalMakeChar
    ext i bound
    simp only [BitVec.getElem_setWidth, BitVec.getLsbD_ushiftRight, BitVec.getLsbD_or,
      BitVec.getLsbD_shiftLeft, BitVec.getElem_or, BitVec.getLsbD_setWidth]
    simp [show 8 + i < 16 by omega, show i < 16 by omega, bound,
      BitVec.getLsbD_eq_getElem (show i - 4 < 8 by omega)]
  have colored : (bg.code <<< 4) ||| fg.code ≠ 0 := by
    cases fg <;> cases bg <;> first | decide | simp at ink
  intro none
  rw [parts] at none
  exact colored (BitVec.or_eq_zero_iff.mp none).1

theorem white_ink : Color.white ≠ .black ∨ Color.black ≠ .black := .inl (by decide)

theorem terminalWriteChar_inside {t : Terminal}
    (ok : CursorOk t.videoMem t.terminalRow t.terminalCol)
    (room : t.cursorAt < vgaHeight * vgaWidth) {c : Byte} (other : c ≠ newlineChar)
    (fg bg : Color) :
    ∃ next, terminalWriteChar c fg bg t = some next ∧
      next.videoMem = Function.update t.videoMem t.cursorAt (terminalMakeChar c fg bg) ∧
      next.cursorAt = t.cursorAt + 1 := by
  have put {row col : Nat} (place : row * vgaWidth + col = t.cursorAt)
      (colLt : col < vgaWidth) :
      ((terminalPutChar col row fg bg c
        { t with terminalRow := row, terminalCol := col }).map fun t =>
          { t with terminalCol := (t.terminalCol + 1) % 2 ^ 16 }) =
        some { t with
          videoMem := Function.update t.videoMem t.cursorAt (terminalMakeChar c fg bg)
          terminalRow := row
          terminalCol := col + 1 } := by
    have narrow : (col + 1) % 2 ^ 16 = col + 1 :=
      Nat.mod_eq_of_lt (Nat.lt_of_le_of_lt colLt (by decide))
    rw [terminalPutChar_eq _ fg bg c (place ▸ room), Option.map_some, place]
    simp only [narrow]
  unfold terminalWriteChar
  rw [if_neg other]
  by_cases full : t.terminalCol ≥ vgaWidth
  · have last : t.terminalCol = vgaWidth := Nat.le_antisymm ok.col_le full
    have place : (t.terminalRow + 1) * vgaWidth + 0 = t.cursorAt := by
      unfold Terminal.cursorAt
      rw [last, Nat.succ_mul, Nat.add_zero]
    have above : t.terminalRow + 1 < vgaHeight := by
      unfold vgaHeight vgaWidth at *
      omega
    rw [if_pos full, nextRow_inside above, Option.bind_some, put place (by decide)]
    refine ⟨_, rfl, rfl, ?_⟩
    rw [← place]
    rfl
  · rw [if_neg full, Option.bind_some]
    refine ⟨_, put rfl (Nat.lt_of_not_le full), rfl, rfl⟩

/-- The walk changes no cell, and does not stop at a black one away from the first
position. -/
theorem backspaceLoop_stops {turns : Nat} {t last : Terminal}
    (walked : backspaceLoop turns t = some last) :
    last.videoMem = t.videoMem ∧
      (last.cursorAt = 0 ∨ Visible (last.videoMem last.cursorAt)) := by
  induction turns generalizing t with
  | zero => cases walked
  | succ turns ih =>
      unfold backspaceLoop at walked
      by_cases home : t.terminalCol = 0 ∧ t.terminalRow = 0
      · rw [if_pos home] at walked
        obtain rfl := Option.some.inj walked
        refine ⟨rfl, .inl ?_⟩
        rw [Terminal.cursorAt, home.1, home.2, Nat.zero_mul]
      · rw [if_neg home] at walked
        obtain ⟨attr, read, walked⟩ := Option.bind_eq_some_iff.mp walked
        by_cases black : attr = 0
        · rw [if_pos black] at walked
          obtain ⟨same, stopped⟩ := ih walked
          exact ⟨same.trans (backOne_videoMem t), stopped⟩
        · rw [if_neg black] at walked
          obtain rfl := Option.some.inj walked
          refine ⟨rfl, .inr fun none => black ?_⟩
          obtain ⟨cell, found, rfl⟩ := Option.map_eq_some_iff.mp read
          change t.readCell t.cursorAt = some cell at found
          have inside : t.cursorAt < vgaHeight * vgaWidth := by
            by_contra outside
            rw [Terminal.readCell, if_neg outside] at found
            cases found
          rw [Terminal.readCell_eq t inside] at found
          obtain rfl := Option.some.inj found
          exact none

/-- Away from the first position `Backspace` blanks one cell and rests on it: nothing
is visible behind that cell, and it is visible itself unless it is the first. -/
structure Erases (t next : Terminal) : Prop where
  erased : next.videoMem = Function.update t.videoMem next.cursorAt blank
  row_lt : next.terminalRow < vgaHeight
  col_lt : next.terminalCol < vgaWidth
  behind : ∀ position, next.cursorAt < position → position < vgaHeight * vgaWidth →
    ¬ Visible (t.videoMem position)
  last : next.cursorAt = 0 ∨ Visible (t.videoMem next.cursorAt)

theorem backspace_erases {t : Terminal}
    (ok : CursorOk t.videoMem t.terminalRow t.terminalCol)
    (away : ¬ (t.terminalCol = 0 ∧ t.terminalRow = 0)) :
    ∃ next, backspace t = some next ∧ Erases t next := by
  obtain ⟨walk, fewer⟩ := walkAt_backOne ok.row_lt ok.col_le ok.unseen away
  rw [← backOne_videoMem t] at walk
  obtain ⟨last, walked, ended⟩ := backspaceLoop_spec (stepsBack t + 1) walk (by omega)
  obtain ⟨same, stopped⟩ := backspaceLoop_stops walked
  rw [backOne_videoMem] at same
  unfold backspace
  rw [if_neg away, walked, Option.bind_some,
    terminalPutChar_eq last .black .black 0x20 (grid_inside ended.row_lt ended.col_lt)]
  refine ⟨_, rfl, ?_, ended.row_lt, ended.col_lt, ?_, ?_⟩
  · rw [← same]
    rfl
  · intro position after bound visible
    rw [← same] at visible
    exact visible (ended.unseen position after bound)
  · rw [← same]
    exact stopped

theorem Erases.inside {t next : Terminal} (erases : Erases t next) :
    next.cursorAt < vgaHeight * vgaWidth := grid_inside erases.row_lt erases.col_lt

theorem Erases.lastVisible {t next : Terminal} (erases : Erases t next) {last : Nat}
    (visible : LastVisible t.videoMem last) : next.cursorAt = last := by
  rcases erases.last with first | here
  · by_contra other
    exact erases.behind last (by omega) visible.inside visible.visible
  · exact LastVisible.unique ⟨erases.inside, here, erases.behind⟩ visible

theorem Erases.home {t next : Terminal} (erases : Erases t next)
    (none : ∀ position < vgaHeight * vgaWidth, ¬ Visible (t.videoMem position)) :
    next.terminalRow = 0 ∧ next.terminalCol = 0 := by
  rcases erases.last with first | here
  · unfold Terminal.cursorAt vgaWidth at first
    omega
  · exact absurd here (none _ erases.inside)

theorem backspace_home {t : Terminal} (home : t.terminalCol = 0 ∧ t.terminalRow = 0) :
    backspace t = some t := if_pos home

/-! The terminals that printing in colours, `Backspace` and `terminal_clear` lead to. -/

/-- The operation draws no character in black on black and leaves the saved window
alone. -/
def TermOp.Prints : TermOp → Prop
  | .writeChar c fg bg => c = newlineChar ∨ fg ≠ .black ∨ bg ≠ .black
  | .printColor _ fg bg => fg ≠ .black ∨ bg ≠ .black
  | .print _ => True
  | .backspace => True
  | .clear => True
  | .enterEditor _ => False
  | .retrive => False

def Printed (t : Terminal) : Prop :=
  ∃ videoMem ops, (∀ op ∈ ops, op.Prints) ∧
    (terminalInitialize (bootTerminal videoMem)).bind (runOps ops) = some t

theorem Printed.onScreen {t : Terminal} (printed : Printed t) : OnScreen t := by
  obtain ⟨videoMem, ops, -, ran⟩ := printed
  exact ⟨videoMem, ops, ran⟩

/-- What is not visible is a blank. -/
def Clean (screen : Nat → Half) : Prop :=
  ∀ position < vgaHeight * vgaWidth, Visible (screen position) ∨ screen position = blank

theorem Clean.update {screen : Nat → Half} (clean : Clean screen) (here : Nat)
    {cell : Half} (good : Visible cell ∨ cell = blank) :
    Clean (Function.update screen here cell) := by
  intro position inside
  by_cases same : position = here
  · rw [same, Function.update_self]
    exact good
  · rw [Function.update_of_ne same]
    exact clean position inside

theorem Clean.scrolled {screen : Nat → Half} (clean : Clean screen) :
    Clean (scrolled screen) := by
  intro position inside
  by_cases upper : position < (vgaHeight - 1) * vgaWidth
  · rw [show Drivers.scrolled screen position = screen (position + vgaWidth) from
      if_pos upper]
    exact clean _ (by unfold vgaHeight vgaWidth at *; omega)
  · refine .inr ?_
    rw [Drivers.scrolled, if_neg upper, if_pos inside]

theorem clean_drawn_blank (screen : Nat → Half) :
    Clean (drawn (fun _ => blank) screen (vgaHeight * vgaWidth)) :=
  fun _ inside => .inr (if_pos inside)

theorem nextRow_clean {t next : Terminal}
    (ok : CursorOk t.videoMem t.terminalRow t.terminalCol) (clean : Clean t.videoMem)
    (moved : nextRow t = some next) : Clean next.videoMem := by
  have row := ok.row_lt
  by_cases inside : t.terminalRow + 1 < vgaHeight
  · rw [nextRow_inside inside] at moved
    exact Option.some.inj moved ▸ clean
  · rw [nextRow_last (by omega)] at moved
    exact Option.some.inj moved ▸ clean.scrolled

theorem terminalWriteChar_clean {t next : Terminal}
    (ok : CursorOk t.videoMem t.terminalRow t.terminalCol) (clean : Clean t.videoMem)
    {c : Byte} {fg bg : Color} (ink : c = newlineChar ∨ fg ≠ .black ∨ bg ≠ .black)
    (wrote : terminalWriteChar c fg bg t = some next) : Clean next.videoMem := by
  unfold terminalWriteChar at wrote
  by_cases newline : c = newlineChar
  · rw [if_pos newline] at wrote
    exact nextRow_clean ok clean wrote
  · rw [if_neg newline] at wrote
    have colored := ink.resolve_left newline
    obtain ⟨middle, moved, put⟩ := Option.bind_eq_some_iff.mp wrote
    have before : Clean middle.videoMem := by
      split at moved
      · exact nextRow_clean ok clean moved
      · exact Option.some.inj moved ▸ clean
    obtain ⟨drawn, set, rfl⟩ := Option.map_eq_some_iff.mp put
    unfold terminalPutChar Terminal.writeCell at set
    simp only at set
    split at set
    · obtain rfl := Option.some.inj set
      exact before.update _ (.inl (visible_makeChar c colored))
    · cases set

theorem printColor_clean {t next : Terminal}
    (ok : CursorOk t.videoMem t.terminalRow t.terminalCol) (clean : Clean t.videoMem)
    {msg : List Byte} {fg bg : Color} (ink : fg ≠ .black ∨ bg ≠ .black)
    (printed : printColor msg fg bg t = some next) : Clean next.videoMem := by
  induction msg generalizing t with
  | nil => exact Option.some.inj printed ▸ clean
  | cons c rest ih =>
      obtain ⟨middle, wrote, printed⟩ := Option.bind_eq_some_iff.mp printed
      obtain ⟨same, wrote', draws⟩ := terminalWriteChar_draws ok c fg bg
      obtain rfl := Option.some.inj (wrote.symm.trans wrote')
      exact ih draws.shown (terminalWriteChar_clean ok clean (.inr ink) wrote) printed

theorem backspace_clean {t next : Terminal}
    (ok : CursorOk t.videoMem t.terminalRow t.terminalCol) (clean : Clean t.videoMem)
    (ran : backspace t = some next) : Clean next.videoMem := by
  by_cases home : t.terminalCol = 0 ∧ t.terminalRow = 0
  · rw [backspace_home home] at ran
    exact Option.some.inj ran ▸ clean
  · obtain ⟨same, ran', erases⟩ := backspace_erases ok home
    obtain rfl := Option.some.inj (ran.symm.trans ran')
    rw [erases.erased]
    exact clean.update _ (.inr rfl)

theorem TermOp.run_clean {t next : Terminal} (inv : TerminalInv t)
    (clean : Clean t.videoMem) {op : TermOp} (prints : op.Prints)
    (ran : op.run t = some next) : Clean next.videoMem := by
  cases op with
  | writeChar c fg bg => exact terminalWriteChar_clean inv.shown clean prints ran
  | print msg => exact printColor_clean inv.shown clean white_ink ran
  | printColor msg fg bg => exact printColor_clean inv.shown clean prints ran
  | backspace => exact backspace_clean inv.shown clean ran
  | clear =>
      simp only [TermOp.run, terminalClear_eq] at ran
      obtain rfl := Option.some.inj ran
      exact clean_drawn_blank t.videoMem
  | enterEditor filename => exact prints.elim
  | retrive => exact prints.elim

theorem runOps_clean {t last : Terminal} (inv : TerminalInv t) (clean : Clean t.videoMem)
    {ops : List TermOp} (prints : ∀ op ∈ ops, op.Prints)
    (ran : runOps ops t = some last) : Clean last.videoMem := by
  induction ops generalizing t with
  | nil => exact Option.some.inj ran ▸ clean
  | cons op rest ih =>
      obtain ⟨next, first, later⟩ := Option.bind_eq_some_iff.mp ran
      obtain ⟨same, first', kept⟩ := op.run_inv inv
      obtain rfl := Option.some.inj (first.symm.trans first')
      exact ih kept (TermOp.run_clean inv clean (prints op List.mem_cons_self) first)
        (fun other member => prints other (List.mem_cons_of_mem _ member)) later

theorem Printed.clean {t : Terminal} (printed : Printed t) : Clean t.videoMem := by
  obtain ⟨videoMem, ops, prints, ran⟩ := printed
  obtain ⟨first, initialized, inv⟩ := terminalInitialize_inv videoMem
  rw [initialized, Option.bind_some] at ran
  refine runOps_clean inv ?_ prints ran
  rw [terminalInitialize_eq] at initialized
  exact Option.some.inj initialized ▸ clean_drawn_blank videoMem

/-- `Backspace` comes to an end.  Away from the first position it blanks the last
visible cell, no other one, and rests on it; a screen without a visible cell is left
blank, with the cursor at the first position. -/
theorem backspace_erases_last_visible {t : Terminal} (printed : Printed t) :
    ∃ next, backspace t = some next ∧
      ((∃ position < vgaHeight * vgaWidth, Visible (t.videoMem position)) →
        ¬ (t.terminalCol = 0 ∧ t.terminalRow = 0) →
        ∃ last, LastVisible t.videoMem last ∧
          next.videoMem = Function.update t.videoMem last blank ∧
          next.terminalRow * vgaWidth + next.terminalCol = last ∧
          next.terminalCol < vgaWidth) ∧
      ((∀ position < vgaHeight * vgaWidth, ¬ Visible (t.videoMem position)) →
        (∀ position < vgaHeight * vgaWidth, next.videoMem position = blank) ∧
        next.terminalRow = 0 ∧ next.terminalCol = 0) := by
  have clean := printed.clean
  have ok := printed.onScreen.inv.shown
  by_cases home : t.terminalCol = 0 ∧ t.terminalRow = 0
  · refine ⟨t, backspace_home home, fun _ away => absurd home away, fun none => ?_⟩
    exact ⟨fun position inside => (clean position inside).resolve_left (none position inside),
      home.2, home.1⟩
  · obtain ⟨next, ran, erases⟩ := backspace_erases ok home
    refine ⟨next, ran, fun seen _ => ?_, fun none => ⟨fun position inside => ?_, ?_⟩⟩
    · obtain ⟨position, inside, visible⟩ := seen
      obtain ⟨last, greatest⟩ := exists_lastVisible inside visible
      have here := erases.lastVisible greatest
      exact ⟨last, greatest, here ▸ erases.erased, here, erases.col_lt⟩
    · rw [erases.erased]
      by_cases same : position = next.cursorAt
      · rw [same, Function.update_self]
      · rw [Function.update_of_ne same]
        exact (clean position inside).resolve_left (none position inside)
    · exact erases.home none

def letterAndNewline : Terminal where
  videoMem := Function.update (drawn (fun _ => blank) (fun _ => 0) (vgaHeight * vgaWidth)) 0
    (terminalMakeChar 0x61 .white .black)
  terminalRow := 1
  terminalCol := 0
  savedScreen := fun _ => 0
  savedRow := 0
  savedCol := 0

theorem letterAndNewline_printed : Printed letterAndNewline := by
  refine ⟨fun _ => 0, [.writeChar 0x61 .white .black, .writeChar newlineChar .white .black],
    fun op member => ?_, ?_⟩
  · rcases List.mem_pair.mp member with rfl | rfl
    · exact .inr (.inl (by decide))
    · exact .inl rfl
  · rw [terminalInitialize_eq]
    rfl

/-- The gap behind the newline is walked over, and the letter is erased. -/
theorem backspace_erases_last_visible_gap :
    ∃ next, backspace letterAndNewline = some next ∧ next.terminalRow = 0 ∧
      next.terminalCol = 0 ∧ next.videoMem 0 = blank := by
  obtain ⟨next, ran, erased, -⟩ := backspace_erases_last_visible letterAndNewline_printed
  have visible : Visible (letterAndNewline.videoMem 0) := visible_makeChar 0x61 white_ink
  obtain ⟨last, greatest, cells, cursor, -⟩ := erased ⟨0, by decide, visible⟩ (by decide)
  have behind : ∀ position, 0 < position → position < vgaHeight * vgaWidth →
      ¬ Visible (letterAndNewline.videoMem position) := by
    intro position after inside
    simp only [letterAndNewline]
    rw [Function.update_of_ne after.ne', drawn, if_pos inside]
    exact not_visible_blank
  obtain rfl := LastVisible.unique greatest ⟨by decide, visible, behind⟩
  unfold vgaWidth at cursor
  exact ⟨next, ran, by omega, by omega, by rw [cells, Function.update_self]⟩

end LazyOS.Drivers
