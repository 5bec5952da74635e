import LazyOS.Drivers.Editor

namespace LazyOS.Drivers

open LazyOS.Data
open LazyOS.Fs

/-! The arrays that `bufferTestCommand` works in, with every cell it touches.  The
strings that the file operations read are theirs; here are the cells of `buff`, `argv`
and `editor_filename`. -/

def maxArgs : Nat := 2

inductive Place where
  | buff (i : Nat)
  | argv (i : Nat)
  | editorFilename (i : Nat)
deriving DecidableEq

def Place.InBounds : Place → Prop
  | .buff i => i < bufferSize
  | .argv i => i < maxArgs
  | .editorFilename i => i < filenameSize

/-- `argv` holds the index in `buff` where each argument starts. -/
structure Arguments where
  buff : Nat → Byte
  argv : Nat → Nat
  argc : Nat

/-- The loop that splits the line; its condition reads the buffer before it looks at
`argc`. -/
def splitArguments : (turns i : Nat) → Arguments → Option (List Place × Arguments)
  | 0, _, _ => none
  | turns + 1, i, args =>
      if args.buff i = 0 ∨ ¬ args.argc < maxArgs then some ([.buff i], args)
      else if args.buff i = 0x20 then
        (splitArguments turns (i + 1)
          { buff := Function.update args.buff i 0
            argv := Function.update args.argv args.argc (i + 1)
            argc := args.argc + 1 }).map fun rest =>
          (.buff i :: .argv args.argc :: rest.1, rest.2)
      else
        (splitArguments turns (i + 1) args).map fun rest => (.buff i :: rest.1, rest.2)

def strlenPlaces (buff : Nat → Byte) : (turns start : Nat) → Option (List Place)
  | 0, _ => none
  | turns + 1, start =>
      if buff start = 0 then some [.buff start]
      else (strlenPlaces buff turns (start + 1)).map (.buff start :: ·)

def comparePlaces (buff : Nat → Byte) : (other : List Byte) → (i : Nat) → List Place
  | [], i => [.buff i]
  | c :: rest, i =>
      .buff i :: if buff i = c then comparePlaces buff rest (i + 1) else []

/-- `strcomp(argv[0], other)`, where `argv[0]` is the word. -/
def strcompPlaces (buff : Nat → Byte) (word other : List Byte) : Option (List Place) :=
  (strlenPlaces buff bufferSize 0).map fun read =>
    .argv 0 :: read ++
      if word.length ≠ other.length then [] else comparePlaces buff other 0

def commandNames : List (List Byte) :=
  ["test", "clear", "get-time", "read", "write", "delete", "ls"].map literal

def dispatchPlaces (buff : Nat → Byte) (word : List Byte) :
    (names : List (List Byte)) → Option (List Place)
  | [] => some []
  | name :: rest =>
      (strcompPlaces buff word name).bind fun here =>
        if strcomp word name then some here
        else (dispatchPlaces buff word rest).map (here ++ ·)

/-- The loop that copies the name of the file with the store behind it.  It stops after
ten characters as well, and the terminator then lies behind the array. -/
def copyFilename (buff : Nat → Byte) (start : Nat) :
    (remaining i : Nat) → CString → List Place × CString
  | 0, i, filename => ([.editorFilename i], Function.update filename i 0)
  | remaining + 1, i, filename =>
      if buff (start + i) = 0 then
        ([.argv 1, .buff (start + i), .editorFilename i], Function.update filename i 0)
      else
        let rest := copyFilename buff start remaining (i + 1)
          (Function.update filename i (buff (start + i)))
        (.argv 1 :: .buff (start + i) :: .editorFilename i :: rest.1, rest.2)

/-- What follows the dispatch: the argument is handed on, and `write` copies the name
and has it printed. -/
def argumentPlaces (args : Arguments) (word : List Byte) (filename : CString) :
    Option (List Place × CString) :=
  if args.argc < 2 then some ([], filename)
  else if strcomp word (literal "write") then
    let copied := copyFilename args.buff (args.argv 1) filenameSize 0 filename
    (strlenPlaces args.buff bufferSize (args.argv 1)).map fun shown =>
      (copied.1 ++ .argv 1 :: shown, copied.2)
  else if strcomp word (literal "read") ∨ strcomp word (literal "delete") then
    some ([.argv 1], filename)
  else some ([], filename)

/-- The cells that `bufferTestCommand` touches, and what it leaves in
`editor_filename`. -/
def commandPlaces (buff : Nat → Byte) (filename : CString) :
    Option (List Place × CString) :=
  (splitArguments bufferSize 0 ⟨buff, fun _ => 0, 1⟩).bind fun split =>
  let args := split.2
  let entered : List Place := .argv 0 :: split.1 ++ [.argv 0, .buff 0]
  if args.buff 0 = 0 then some (entered, filename)
  else
    (textAt args.buff bufferSize 0).bind fun word =>
    (dispatchPlaces args.buff word commandNames).bind fun compared =>
    (argumentPlaces args word filename).map fun used =>
      (entered ++ compared ++ used.1, used.2)

def splitLine : List Byte → List Byte × Option (List Byte)
  | [] => ([], none)
  | c :: rest =>
      if c = 0x20 then ([], some rest)
      else (c :: (splitLine rest).1, (splitLine rest).2)

def cutLine (line : List Byte) (buff : Nat → Byte) : Nat → Byte :=
  match (splitLine line).2 with
  | none => buff
  | some _ => Function.update buff (splitLine line).1.length 0

def argumentStart (line : List Byte) : Option Nat :=
  (splitLine line).2.map fun _ => (splitLine line).1.length + 1

theorem splitLine_nonspace (line : List Byte) : ∀ c ∈ (splitLine line).1, c ≠ 0x20 := by
  induction line with
  | nil => exact fun c member => absurd member List.not_mem_nil
  | cons c rest ih =>
      unfold splitLine
      by_cases space : c = 0x20
      · rw [if_pos space]
        exact fun c member => absurd member List.not_mem_nil
      · rw [if_neg space]
        intro other member
        rcases List.mem_cons.mp member with rfl | later
        · exact space
        · exact ih other later

theorem splitLine_eq (line : List Byte) :
    line = (splitLine line).1 ++
      match (splitLine line).2 with
      | none => []
      | some argument => 0x20 :: argument := by
  induction line with
  | nil => rfl
  | cons c rest ih =>
      unfold splitLine
      by_cases space : c = 0x20
      · rw [if_pos space, space]
        rfl
      · rw [if_neg space, List.cons_append]
        exact congrArg (c :: ·) ih

theorem splitLine_word {line : List Byte} (none : (splitLine line).2 = none) :
    line = (splitLine line).1 := by
  have whole := splitLine_eq line
  rw [none] at whole
  exact whole.trans (List.append_nil _)

theorem splitLine_argument {line argument : List Byte}
    (found : (splitLine line).2 = some argument) :
    line = (splitLine line).1 ++ 0x20 :: argument := by
  have whole := splitLine_eq line
  rw [found] at whole
  exact whole

theorem buff_of_tail {place : Place} {start length : Nat}
    (inside : ∃ k ≤ length, place = .buff (start + 1 + k)) :
    ∃ k ≤ length + 1, place = .buff (start + k) := by
  obtain ⟨k, bound, rfl⟩ := inside
  exact ⟨k + 1, Nat.succ_le_succ bound, by rw [Nat.add_assoc, Nat.add_comm 1]⟩

theorem splitArguments_spec {line : List Byte} {turns : Nat} (enough : line.length < turns)
    (i : Nat) {args : Arguments} (one : args.argc = 1) (held : StringAt args.buff i line) :
    ∃ places, splitArguments turns i args = some (places,
        match (splitLine line).2 with
        | none => args
        | some _ =>
            ⟨Function.update args.buff (i + (splitLine line).1.length) 0,
              Function.update args.argv 1 (i + (splitLine line).1.length + 1), 2⟩) ∧
      ∀ place ∈ places, place = .argv 1 ∨ ∃ k ≤ line.length, place = .buff (i + k) := by
  induction line generalizing turns i with
  | nil =>
      obtain ⟨turns, rfl⟩ := Nat.exists_eq_succ_of_ne_zero (Nat.ne_zero_of_lt enough)
      refine ⟨[.buff i], ?_, fun place member => ?_⟩
      · rw [splitArguments, if_pos (.inl held.ends)]
        rfl
      · exact .inr ⟨0, le_rfl, List.mem_singleton.mp member⟩
  | cons c rest ih =>
      obtain ⟨turns, rfl⟩ := Nat.exists_eq_succ_of_ne_zero (Nat.ne_zero_of_lt enough)
      have head := held.head
      have goes : ¬ (args.buff i = 0 ∨ ¬ args.argc < maxArgs) := by
        rw [head, one]
        rintro (zero | full)
        · exact held.nonzero c List.mem_cons_self zero
        · exact full (by decide)
      unfold splitArguments splitLine
      rw [if_neg goes, head]
      by_cases space : c = 0x20
      · -- The next turn reads one byte more and sees that `argv` is full.
        obtain ⟨turns, rfl⟩ : ∃ more, turns = more + 1 :=
          Nat.exists_eq_succ_of_ne_zero (by rw [List.length_cons] at enough; omega)
        rw [if_pos space, if_pos space, splitArguments,
          if_pos (.inr (show ¬ args.argc + 1 < maxArgs by rw [one]; decide)), one]
        refine ⟨[.buff i, .argv 1, .buff (i + 1)], rfl, fun place member => ?_⟩
        simp only [List.mem_cons, List.not_mem_nil, or_false] at member
        rcases member with rfl | rfl | rfl
        · exact .inr ⟨0, Nat.zero_le _, rfl⟩
        · exact .inl rfl
        · exact .inr ⟨1, by rw [List.length_cons]; omega, rfl⟩
      · rw [if_neg space, if_neg space]
        have fewer : rest.length < turns := by
          rw [List.length_cons] at enough
          omega
        obtain ⟨places, split, inside⟩ := ih fewer (i + 1) held.tail
        have shift : i + 1 + (splitLine rest).1.length =
            i + (c :: (splitLine rest).1).length := by
          rw [List.length_cons]
          omega
        rw [split, Option.map_some, shift]
        refine ⟨_, rfl, fun place member => ?_⟩
        rcases List.mem_cons.mp member with rfl | later
        · exact .inr ⟨0, Nat.zero_le _, rfl⟩
        · exact (inside place later).imp_right buff_of_tail

theorem strlenPlaces_spec {text : List Byte} {turns : Nat} (enough : text.length < turns)
    {buff : Nat → Byte} {start : Nat} (held : StringAt buff start text) :
    ∃ places, strlenPlaces buff turns start = some places ∧
      ∀ place ∈ places, ∃ k ≤ text.length, place = .buff (start + k) := by
  induction text generalizing turns start with
  | nil =>
      obtain ⟨turns, rfl⟩ := Nat.exists_eq_succ_of_ne_zero (Nat.ne_zero_of_lt enough)
      refine ⟨[.buff start], if_pos held.ends, fun place member => ?_⟩
      exact ⟨0, le_rfl, List.mem_singleton.mp member⟩
  | cons c rest ih =>
      obtain ⟨turns, rfl⟩ := Nat.exists_eq_succ_of_ne_zero (Nat.ne_zero_of_lt enough)
      have fewer : rest.length < turns := by
        rw [List.length_cons] at enough
        omega
      obtain ⟨places, read, inside⟩ := ih fewer held.tail
      have goes : buff start ≠ 0 := by
        rw [held.head]
        exact held.nonzero c List.mem_cons_self
      unfold strlenPlaces
      rw [if_neg goes, read, Option.map_some]
      refine ⟨_, rfl, fun place member => ?_⟩
      rcases List.mem_cons.mp member with rfl | later
      · exact ⟨0, Nat.zero_le _, rfl⟩
      · exact buff_of_tail (inside place later)

theorem comparePlaces_inBounds {buff : Nat → Byte} {other : List Byte} {i : Nat}
    {place : Place} (member : place ∈ comparePlaces buff other i) :
    ∃ k ≤ other.length, place = .buff (i + k) := by
  induction other generalizing i with
  | nil => exact ⟨0, le_rfl, List.mem_singleton.mp member⟩
  | cons c rest ih =>
      unfold comparePlaces at member
      rcases List.mem_cons.mp member with rfl | later
      · exact ⟨0, Nat.zero_le _, rfl⟩
      · split at later
        · exact buff_of_tail (ih later)
        · cases later

theorem strcompPlaces_inBounds {buff : Nat → Byte} {word : List Byte}
    (fits : word.length < bufferSize) (held : StringAt buff 0 word) (other : List Byte) :
    ∃ places, strcompPlaces buff word other = some places ∧
      ∀ place ∈ places, place.InBounds := by
  obtain ⟨read, found, inside⟩ := strlenPlaces_spec fits held
  unfold strcompPlaces
  rw [found, Option.map_some]
  refine ⟨_, rfl, fun place member => ?_⟩
  rcases List.mem_cons.mp member with rfl | member
  · exact (by decide : 0 < maxArgs)
  · rcases List.mem_append.mp member with first | loop
    · obtain ⟨k, bound, rfl⟩ := inside place first
      exact Nat.lt_of_le_of_lt (by omega : 0 + k ≤ word.length) fits
    · split at loop
      · cases loop
      · rename_i lengths
        obtain ⟨k, bound, rfl⟩ := comparePlaces_inBounds loop
        exact Nat.lt_of_le_of_lt (by omega : 0 + k ≤ word.length) fits

theorem dispatchPlaces_inBounds {buff : Nat → Byte} {word : List Byte}
    (fits : word.length < bufferSize) (held : StringAt buff 0 word)
    (names : List (List Byte)) :
    ∃ places, dispatchPlaces buff word names = some places ∧
      ∀ place ∈ places, place.InBounds := by
  induction names with
  | nil => exact ⟨[], rfl, fun _ none => absurd none List.not_mem_nil⟩
  | cons name rest ih =>
      obtain ⟨here, compared, inside⟩ := strcompPlaces_inBounds fits held name
      obtain ⟨later, others, insideLater⟩ := ih
      unfold dispatchPlaces
      rw [compared, Option.bind_some]
      by_cases same : strcomp word name
      · rw [if_pos same]
        exact ⟨here, rfl, inside⟩
      · rw [if_neg same, others, Option.map_some]
        refine ⟨_, rfl, fun place member => ?_⟩
        exact (List.mem_append.mp member).elim (inside place) (insideLater place)

theorem copyFilename_before (buff : Nat → Byte) (start remaining i : Nat)
    (filename : CString) {k : Nat} (before : k < i) :
    (copyFilename buff start remaining i filename).2 k = filename k := by
  induction remaining generalizing i filename with
  | zero => exact Function.update_of_ne before.ne _ _
  | succ remaining ih =>
      unfold copyFilename
      by_cases ended : buff (start + i) = 0
      · rw [if_pos ended]
        exact Function.update_of_ne before.ne _ _
      · rw [if_neg ended]
        simp only
        rw [ih (i + 1) _ (Nat.lt_succ_of_lt before), Function.update_of_ne before.ne]

section ShortArgument

variable {buff : Nat → Byte} {start : Nat} {argument : List Byte}

theorem copyFilename_short (remaining i : Nat) (held : StringAt buff (start + i) argument)
    (short : argument.length < remaining) (filename : CString) :
    StringAt (copyFilename buff start remaining i filename).2 i argument := by
  induction argument generalizing remaining i filename with
  | nil =>
      obtain ⟨remaining, rfl⟩ := Nat.exists_eq_succ_of_ne_zero (Nat.ne_zero_of_lt short)
      have ended : buff (start + i) = 0 := held.ends
      unfold copyFilename
      rw [if_pos ended]
      exact ⟨fun k inside => absurd inside (Nat.not_lt_zero k), fun _ none =>
        absurd none List.not_mem_nil, Function.update_self ..⟩
  | cons c rest ih =>
      obtain ⟨remaining, rfl⟩ := Nat.exists_eq_succ_of_ne_zero (Nat.ne_zero_of_lt short)
      have head : buff (start + i) = c := held.head
      have goes : buff (start + i) ≠ 0 := by
        rw [head]
        exact held.nonzero c List.mem_cons_self
      have copied := ih remaining (i + 1) held.tail (Nat.lt_of_succ_lt_succ short)
        (Function.update filename i (buff (start + i)))
      unfold copyFilename
      rw [if_neg goes]
      refine ⟨fun k bound => ?_, held.nonzero, ?_⟩
      · cases k with
        | zero =>
            have first := copyFilename_before buff start remaining (i + 1)
              (Function.update filename i (buff (start + i))) (Nat.lt_succ_self i)
            rw [Function.update_self] at first
            exact first.trans head
        | succ k =>
            have later := copied.bytes k (Nat.lt_of_succ_lt_succ bound)
            rw [Nat.succ_add_eq_add_succ] at later
            exact later
      · have ends := copied.ends
        rw [Nat.succ_add_eq_add_succ] at ends
        exact ends

theorem copyFilename_loop (remaining i : Nat) (held : StringAt buff (start + i) argument)
    (short : argument.length < remaining) (filename : CString) :
    copyFilenameLoop (fun k => buff (start + k)) remaining i filename =
      some (copyFilename buff start remaining i filename).2 := by
  induction argument generalizing remaining i filename with
  | nil =>
      obtain ⟨remaining, rfl⟩ := Nat.exists_eq_succ_of_ne_zero (Nat.ne_zero_of_lt short)
      have ended : buff (start + i) = 0 := held.ends
      unfold copyFilename copyFilenameLoop
      rw [if_pos ended, if_pos ended]
  | cons c rest ih =>
      obtain ⟨remaining, rfl⟩ := Nat.exists_eq_succ_of_ne_zero (Nat.ne_zero_of_lt short)
      have goes : buff (start + i) ≠ 0 := by
        rw [held.head]
        exact held.nonzero c List.mem_cons_self
      unfold copyFilename copyFilenameLoop
      rw [if_neg goes, if_neg goes]
      exact ih remaining (i + 1) held.tail (Nat.lt_of_succ_lt_succ short) _

theorem copyFilename_places (remaining i : Nat) (held : StringAt buff (start + i) argument)
    (short : argument.length < remaining) (filename : CString) :
    ∀ place ∈ (copyFilename buff start remaining i filename).1,
      place = .argv 1 ∨ ∃ k ≤ argument.length,
        place = .buff (start + i + k) ∨ place = .editorFilename (i + k) := by
  intro place member
  induction argument generalizing remaining i filename with
  | nil =>
      obtain ⟨remaining, rfl⟩ := Nat.exists_eq_succ_of_ne_zero (Nat.ne_zero_of_lt short)
      have ended : buff (start + i) = 0 := held.ends
      unfold copyFilename at member
      rw [if_pos ended] at member
      simp only [List.mem_cons, List.not_mem_nil, or_false] at member
      rcases member with rfl | rfl | rfl
      · exact .inl rfl
      · exact .inr ⟨0, le_rfl, .inl rfl⟩
      · exact .inr ⟨0, le_rfl, .inr rfl⟩
  | cons c rest ih =>
      obtain ⟨remaining, rfl⟩ := Nat.exists_eq_succ_of_ne_zero (Nat.ne_zero_of_lt short)
      have goes : buff (start + i) ≠ 0 := by
        rw [held.head]
        exact held.nonzero c List.mem_cons_self
      unfold copyFilename at member
      rw [if_neg goes] at member
      simp only [List.mem_cons] at member
      rcases member with rfl | rfl | rfl | later
      · exact .inl rfl
      · exact .inr ⟨0, Nat.zero_le _, .inl rfl⟩
      · exact .inr ⟨0, Nat.zero_le _, .inr rfl⟩
      · obtain other | ⟨k, bound, here⟩ :=
          ih remaining (i + 1) held.tail (Nat.lt_of_succ_lt_succ short) _ later
        · exact .inl other
        · refine .inr ⟨k + 1, Nat.succ_le_succ bound, ?_⟩
          rw [show start + i + (k + 1) = start + (i + 1) + k by omega,
            show i + (k + 1) = i + 1 + k by omega]
          exact here

end ShortArgument

theorem copyFilename_long {buff : Nat → Byte} {start : Nat} {argument : List Byte}
    (remaining i : Nat) (held : StringAt buff (start + i) argument)
    (long : remaining ≤ argument.length) (filename : CString) :
    .editorFilename (i + remaining) ∈ (copyFilename buff start remaining i filename).1 := by
  induction remaining generalizing i argument filename with
  | zero => exact List.mem_singleton.mpr rfl
  | succ remaining ih =>
      cases argument with
      | nil => exact absurd long (Nat.not_succ_le_zero _)
      | cons c rest =>
          have goes : buff (start + i) ≠ 0 := by
            rw [held.head]
            exact held.nonzero c List.mem_cons_self
          have later := ih (i + 1) held.tail (Nat.le_of_succ_le_succ long)
            (Function.update filename i (buff (start + i)))
          rw [Nat.succ_add_eq_add_succ] at later
          unfold copyFilename
          rw [if_neg goes]
          simp only [List.mem_cons]
          exact .inr (.inr (.inr later))

theorem splitLoop_word {buff : Nat → Byte} {line : List Byte} (turns i : Nat)
    (enough : line.length < turns) (held : StringAt buff i line)
    (nonspace : ∀ c ∈ line, c ≠ 0x20) : splitLoop buff turns i = some (buff, none) := by
  induction line generalizing turns i with
  | nil =>
      obtain ⟨turns, rfl⟩ := Nat.exists_eq_succ_of_ne_zero (Nat.ne_zero_of_lt enough)
      exact if_pos held.ends
  | cons c rest ih =>
      obtain ⟨turns, rfl⟩ := Nat.exists_eq_succ_of_ne_zero (Nat.ne_zero_of_lt enough)
      unfold splitLoop
      rw [held.head, if_neg (held.nonzero c List.mem_cons_self),
        if_neg (nonspace c List.mem_cons_self)]
      exact ih turns (i + 1) (Nat.lt_of_succ_lt_succ enough) held.tail
        fun other member => nonspace other (List.mem_cons_of_mem _ member)

section Line

variable {buff : Nat → Byte} {line : List Byte}
variable (held : StringAt buff 0 line)

include held

theorem stringAt_cutLine : StringAt (cutLine line buff) 0 (splitLine line).1 := by
  unfold cutLine
  cases argument : (splitLine line).2 with
  | none =>
      rw [← splitLine_word argument]
      exact held
  | some rest =>
      rw [splitLine_argument argument] at held
      exact stringAt_word held

theorem stringAt_cutLine_argument {argument : List Byte}
    (found : (splitLine line).2 = some argument) :
    StringAt (cutLine line buff) ((splitLine line).1.length + 1) argument := by
  unfold cutLine
  rw [found]
  rw [splitLine_argument found] at held
  exact stringAt_argument held

theorem splitLoop_line (fits : line.length < bufferSize) :
    splitLoop buff bufferSize 0 = some (cutLine line buff, argumentStart line) := by
  have nonspace := splitLine_nonspace line
  unfold cutLine argumentStart
  cases argument : (splitLine line).2 with
  | none =>
      rw [← splitLine_word argument] at nonspace
      exact splitLoop_word _ _ fits held nonspace
  | some rest =>
      have whole := splitLine_argument argument
      have short := congrArg List.length whole
      rw [List.length_append, List.length_cons] at short
      rw [whole] at held
      exact splitLoop_command held nonspace (by omega)

end Line

theorem word_length_le (line : List Byte) : (splitLine line).1.length ≤ line.length := by
  have whole := congrArg List.length (splitLine_eq line)
  rw [List.length_append] at whole
  omega

theorem argument_length_lt {line argument : List Byte}
    (found : (splitLine line).2 = some argument) :
    (splitLine line).1.length + argument.length < line.length := by
  have whole := congrArg List.length (splitLine_argument found)
  rw [List.length_append, List.length_cons] at whole
  omega

def Console.cut (line : List Byte) (c : Console) : Console :=
  { c with buff := { c.buff with bytes := cutLine line c.buff.bytes } }

theorem bufferTestCommand_line {c : Console} {line : List Byte}
    (fits : line.length < bufferSize) (held : StringAt c.buff.bytes 0 line)
    (timeStamp : RtcTime) :
    bufferTestCommand timeStamp c =
      if (splitLine line).1 = [] then some (c.cut line)
      else runCommand timeStamp (splitLine line).1 (argumentStart line) (c.cut line) := by
  have word := stringAt_cutLine held
  have read : textAt (cutLine line c.buff.bytes) bufferSize 0 = some (splitLine line).1 :=
    textAt_iff.mpr ⟨Nat.lt_of_le_of_lt (word_length_le line) fits, word⟩
  unfold bufferTestCommand
  rw [splitLoop_line held fits, Option.bind_some]
  simp only [read, Option.bind_some]
  cases first : (splitLine line).1 with
  | nil =>
      rw [first] at word
      have ended : cutLine line c.buff.bytes 0 = 0 := word.ends
      rw [if_pos ended, if_pos rfl]
      rfl
  | cons c rest =>
      rw [first] at word
      rw [if_neg, if_neg (List.cons_ne_nil c rest)]
      · rfl
      · rw [word.head]
        exact word.nonzero c List.mem_cons_self

structure SplitsTo (buff : Nat → Byte) (line : List Byte) (args : Arguments) : Prop where
  buff : args.buff = cutLine line buff
  single : (splitLine line).2 = none → args.argc = 1
  second : ∀ argument, (splitLine line).2 = some argument →
    args.argc = 2 ∧ args.argv 1 = (splitLine line).1.length + 1

theorem splitArguments_line {buff : Nat → Byte} {line : List Byte}
    (fits : line.length < bufferSize) (held : StringAt buff 0 line) :
    ∃ places args, splitArguments bufferSize 0 ⟨buff, fun _ => 0, 1⟩ =
        some (places, args) ∧
      (∀ place ∈ places, place.InBounds) ∧ SplitsTo buff line args := by
  obtain ⟨places, split, inside⟩ := splitArguments_spec fits 0
    (show (⟨buff, fun _ => 0, 1⟩ : Arguments).argc = 1 from rfl) held
  refine ⟨places, _, split, fun place member => ?_, ?_⟩
  · obtain rfl | ⟨k, bound, rfl⟩ := inside place member
    · exact (by decide : 1 < maxArgs)
    · exact Nat.lt_of_le_of_lt (by omega : 0 + k ≤ line.length) fits
  · cases found : (splitLine line).2 with
    | none =>
        refine ⟨?_, fun _ => rfl, fun argument other => ?_⟩
        · unfold cutLine
          rw [found]
        · rw [found] at other
          cases other
    | some argument =>
        refine ⟨?_, fun none => ?_, fun _ _ => ⟨rfl, ?_⟩⟩
        · unfold cutLine
          rw [found]
          simp only [Nat.zero_add]
        · rw [found] at none
          cases none
        · simp only [Function.update_self, Nat.zero_add]

/-- The places of a command that has a word: those before the argument are inside the
arrays. -/
theorem commandPlaces_word {buff : Nat → Byte} {line : List Byte}
    (fits : line.length < bufferSize) (held : StringAt buff 0 line)
    (nonempty : (splitLine line).1 ≠ []) (filename : CString) :
    ∃ (before : List Place) (args : Arguments), (∀ place ∈ before, place.InBounds) ∧
      SplitsTo buff line args ∧ commandPlaces buff filename =
        (argumentPlaces args (splitLine line).1 filename).map fun used =>
          (before ++ used.1, used.2) := by
  obtain ⟨places, args, split, inside, splits⟩ := splitArguments_line fits held
  have word := stringAt_cutLine held
  have short := Nat.lt_of_le_of_lt (word_length_le line) fits
  have read : textAt (cutLine line buff) bufferSize 0 = some (splitLine line).1 :=
    textAt_iff.mpr ⟨short, word⟩
  obtain ⟨compared, dispatched, insideWord⟩ := dispatchPlaces_inBounds short word commandNames
  have started : cutLine line buff 0 ≠ 0 := by
    obtain ⟨c, rest, first⟩ := List.exists_cons_of_ne_nil nonempty
    rw [first] at word
    rw [word.head]
    exact word.nonzero c List.mem_cons_self
  refine ⟨.argv 0 :: places ++ [.argv 0, .buff 0] ++ compared, args, fun place member => ?_,
    splits, ?_⟩
  · have argv : (Place.argv 0).InBounds := (by decide : 0 < maxArgs)
    have first : (Place.buff 0).InBounds := (by decide : 0 < bufferSize)
    simp only [List.cons_append, List.mem_cons, List.mem_append, List.not_mem_nil,
      or_false] at member
    rcases member with rfl | (loop | rfl | rfl) | word
    · exact argv
    · exact inside place loop
    · exact argv
    · exact first
    · exact insideWord place word
  · unfold commandPlaces
    rw [split, Option.bind_some]
    simp only [splits.buff, if_neg started, read, Option.bind_some, dispatched]

theorem argumentPlaces_write {args : Arguments} {argument : List Byte}
    (both : args.argc = 2) (held : StringAt args.buff (args.argv 1) argument)
    (fits : args.argv 1 + argument.length < bufferSize) (filename : CString) :
    ∃ shown : List Place, (∀ place ∈ shown, place.InBounds) ∧
      argumentPlaces args (literal "write") filename =
        some ((copyFilename args.buff (args.argv 1) filenameSize 0 filename).1 ++ shown,
          (copyFilename args.buff (args.argv 1) filenameSize 0 filename).2) := by
  obtain ⟨shown, read, inside⟩ :=
    strlenPlaces_spec (by omega : argument.length < bufferSize) held
  refine ⟨.argv 1 :: shown, fun place member => ?_, ?_⟩
  · rcases List.mem_cons.mp member with rfl | later
    · exact (by decide : 1 < maxArgs)
    · obtain ⟨k, bound, rfl⟩ := inside place later
      exact Nat.lt_of_le_of_lt (Nat.add_le_add_left bound _) fits
  · unfold argumentPlaces
    rw [if_neg (by omega), if_pos (by decide), read, Option.map_some]

theorem argumentPlaces_other (args : Arguments) {word : List Byte} (filename : CString)
    (other : args.argc < 2 ∨ word ≠ literal "write") :
    ∃ used : List Place, argumentPlaces args word filename = some (used, filename) ∧
      ∀ place ∈ used, place.InBounds := by
  have argv : ∀ place ∈ [Place.argv 1], place.InBounds := fun place member => by
    rw [List.mem_singleton.mp member]
    exact (by decide : 1 < maxArgs)
  have empty : ∀ place ∈ ([] : List Place), place.InBounds :=
    fun _ none => absurd none List.not_mem_nil
  unfold argumentPlaces
  by_cases single : args.argc < 2
  · exact ⟨[], if_pos single, empty⟩
  · have different : ¬ strcomp word (literal "write") := by
      rw [strcomp_iff]
      exact other.resolve_left single
    rw [if_neg single, if_neg different]
    split
    · exact ⟨_, rfl, argv⟩
    · exact ⟨_, rfl, empty⟩

/-- `editor_filename` holds a beginning of the argument with its terminator. -/
def HoldsPrefix (filename : CString) (argument : List Byte) : Prop :=
  ∃ name, name <+: argument ∧ name.length < filenameSize ∧ StringAt filename 0 name

/-- A command line is taken apart inside the arrays: the text before its first space is
what runs, the text after it is the argument, and `write` leaves a terminated beginning
of that in `editor_filename`. -/
structure ParsesLine (timeStamp : RtcTime) (c : Console) (line : List Byte) : Prop where
  dispatches : bufferTestCommand timeStamp c =
    if (splitLine line).1 = [] then some (c.cut line)
    else runCommand timeStamp (splitLine line).1 (argumentStart line) (c.cut line)
  argument : ∀ argument, (splitLine line).2 = some argument →
    ∃ start, argumentStart line = some start ∧
      textAt (c.cut line).buff.bytes (bufferSize - start) start = some argument
  touches : ∃ places filename,
    commandPlaces c.buff.bytes c.editorFilename = some (places, filename) ∧
      (∀ place ∈ places, place.InBounds) ∧
      ∀ argument, (splitLine line).1 = literal "write" →
        (splitLine line).2 = some argument → HoldsPrefix filename argument ∧
          ∀ next, bufferTestCommand timeStamp c = some next →
            next.editorFilename = filename

section Parses

variable {c : Console} {line : List Byte}
variable (fits : line.length < bufferSize) (held : StringAt c.buff.bytes 0 line)

include fits held

theorem argument_handed_on {argument : List Byte}
    (found : (splitLine line).2 = some argument) :
    ∃ start, argumentStart line = some start ∧
      textAt (c.cut line).buff.bytes (bufferSize - start) start = some argument := by
  have short := argument_length_lt found
  refine ⟨(splitLine line).1.length + 1, ?_, textAt_iff.mpr ⟨by omega, ?_⟩⟩
  · unfold argumentStart
    rw [found]
    rfl
  · exact stringAt_cutLine_argument held found

theorem bufferTestCommand_filename {argument : List Byte}
    (write : (splitLine line).1 = literal "write")
    (found : (splitLine line).2 = some argument) (short : argument.length < filenameSize)
    {timeStamp : RtcTime} {next : Console}
    (ran : bufferTestCommand timeStamp c = some next) :
    next.editorFilename = (copyFilename (cutLine line c.buff.bytes)
      ((splitLine line).1.length + 1) filenameSize 0 c.editorFilename).2 := by
  have copied := copyFilename_loop filenameSize 0
    (stringAt_cutLine_argument held found) short c.editorFilename
  have start : argumentStart line = some ((splitLine line).1.length + 1) := by
    unfold argumentStart
    rw [found]
    rfl
  have nonempty : (splitLine line).1 ≠ [] := by
    rw [write]
    decide
  rw [bufferTestCommand_line fits held, if_neg nonempty, start] at ran
  generalize (splitLine line).1.length + 1 = first at *
  rw [write] at ran
  unfold runCommand at ran
  rw [if_neg (by decide), if_neg (by decide), if_neg (by decide), if_neg (by decide),
    if_pos (by decide)] at ran
  simp only [openEditor] at ran
  obtain ⟨filename, same, ran⟩ := Option.bind_eq_some_iff.mp ran
  obtain ⟨text, -, ran⟩ := Option.bind_eq_some_iff.mp ran
  obtain ⟨t, -, rfl⟩ := Option.map_eq_some_iff.mp ran
  exact Option.some.inj (same.symm.trans copied)

theorem parsesLine_write {argument : List Byte}
    (write : (splitLine line).1 = literal "write")
    (found : (splitLine line).2 = some argument) (timeStamp : RtcTime) :
    ParsesLine timeStamp c line ↔ argument.length < filenameSize := by
  have nonempty : (splitLine line).1 ≠ [] := by
    rw [write]
    decide
  obtain ⟨before, args, inside, splits, places⟩ :=
    commandPlaces_word fits held nonempty c.editorFilename
  obtain ⟨both, start⟩ := splits.second argument found
  have heldArgument := stringAt_cutLine_argument held found
  have room := argument_length_lt found
  rw [← splits.buff, ← start] at heldArgument
  obtain ⟨shown, insideShown, used⟩ :=
    argumentPlaces_write both heldArgument (by omega) c.editorFilename
  rw [write, used, Option.map_some] at places
  constructor
  · intro parses
    obtain ⟨all, filename, touched, bounds, -⟩ := parses.touches
    rw [places] at touched
    obtain ⟨rfl, rfl⟩ := Prod.mk.inj (Option.some.inj touched)
    by_contra long
    have outside := bounds (.editorFilename (0 + filenameSize))
      (List.mem_append_right _ (List.mem_append_left _
        (copyFilename_long filenameSize 0 heldArgument (Nat.le_of_not_lt long) _)))
    exact Nat.lt_irrefl filenameSize ((Nat.zero_add filenameSize) ▸ outside)
  · intro short
    have copied := copyFilename_short filenameSize 0 heldArgument short c.editorFilename
    have insideCopy :=
      copyFilename_places filenameSize 0 heldArgument short c.editorFilename
    refine ⟨bufferTestCommand_line fits held timeStamp,
      fun _ other => argument_handed_on fits held other, _, _, places,
      fun place member => ?_, fun other _ same => ⟨?_, fun next ran => ?_⟩⟩
    · rcases List.mem_append.mp member with first | later
      · exact inside place first
      · rcases List.mem_append.mp later with copy | printed
        · obtain rfl | ⟨k, bound, rfl | rfl⟩ := insideCopy place copy
          · exact (by decide : 1 < maxArgs)
          · exact Nat.lt_of_le_of_lt (by omega : args.argv 1 + 0 + k ≤ line.length) fits
          · exact Nat.lt_of_le_of_lt (by omega : 0 + k ≤ argument.length) short
        · exact insideShown place printed
    · rw [found] at same
      obtain rfl := Option.some.inj same
      exact ⟨argument, List.prefix_rfl, short, copied⟩
    · rw [bufferTestCommand_filename fits held write found short ran, splits.buff, start]

theorem parsesLine_other (other : (splitLine line).1 ≠ literal "write" ∨
      (splitLine line).2 = none) (timeStamp : RtcTime) :
    ParsesLine timeStamp c line := by
  refine ⟨bufferTestCommand_line fits held timeStamp,
    fun _ found => argument_handed_on fits held found, ?_⟩
  have noWrite {filename : CString} : ∀ argument, (splitLine line).1 = literal "write" →
      (splitLine line).2 = some argument → HoldsPrefix filename argument ∧
        ∀ next, bufferTestCommand timeStamp c = some next →
          next.editorFilename = filename := by
    intro argument write found
    rcases other with different | none
    · exact absurd write different
    · rw [none] at found
      cases found
  by_cases nonempty : (splitLine line).1 = []
  · obtain ⟨places, args, split, inside, splits⟩ := splitArguments_line fits held
    have ended : args.buff 0 = 0 := by
      have word := stringAt_cutLine held
      rw [nonempty] at word
      rw [splits.buff]
      exact word.ends
    refine ⟨.argv 0 :: places ++ [.argv 0, .buff 0], c.editorFilename, ?_,
      fun place member => ?_, noWrite⟩
    · unfold commandPlaces
      rw [split, Option.bind_some]
      simp only [if_pos ended]
    · simp only [List.cons_append, List.mem_cons, List.mem_append, List.not_mem_nil,
        or_false] at member
      rcases member with rfl | loop | rfl | rfl
      · exact (by decide : 0 < maxArgs)
      · exact inside place loop
      · exact (by decide : 0 < maxArgs)
      · exact (by decide : 0 < bufferSize)
  · obtain ⟨before, args, inside, splits, places⟩ :=
      commandPlaces_word fits held nonempty c.editorFilename
    have single : args.argc < 2 ∨ (splitLine line).1 ≠ literal "write" :=
      other.symm.imp_left fun none => by
        rw [splits.single none]
        decide
    obtain ⟨used, rest, insideUsed⟩ := argumentPlaces_other args c.editorFilename single
    rw [rest, Option.map_some] at places
    refine ⟨_, _, places, fun place member => ?_, noWrite⟩
    exact (List.mem_append.mp member).elim (inside place) (insideUsed place)

end Parses

/-- Every terminated line is taken apart inside the arrays, except a `write` whose
argument has ten characters or more. -/
theorem parses_line_iff {c : Console} {line : List Byte}
    (terminated : textAt c.buff.bytes bufferSize 0 = some line) (timeStamp : RtcTime) :
    ParsesLine timeStamp c line ↔
      ¬ ((splitLine line).1 = literal "write" ∧
        ∃ argument, (splitLine line).2 = some argument ∧ filenameSize ≤ argument.length) := by
  obtain ⟨fits, held⟩ := textAt_iff.mp terminated
  by_cases write : (splitLine line).1 = literal "write"
  · cases found : (splitLine line).2 with
    | none =>
        refine iff_of_true (parsesLine_other fits held (.inr found) timeStamp) ?_
        rintro ⟨-, argument, same, -⟩
        cases same
    | some argument =>
        rw [parsesLine_write fits held write found, ← Nat.not_le, not_iff_not]
        constructor
        · exact fun long => ⟨write, argument, rfl, long⟩
        · rintro ⟨-, other, same, long⟩
          exact Option.some.inj same ▸ long
  · exact iff_of_true (parsesLine_other fits held (.inl write) timeStamp)
      fun both => write both.1

theorem parses_line_iff_write_a :
    ParsesLine ⟨0, 0, 0, 0, 0, 0⟩ writeSession (literal "write a") :=
  (parses_line_iff (show textAt writeSession.buff.bytes bufferSize 0 =
    some (literal "write a") by decide) _).mpr fun both => by
      obtain ⟨-, argument, same, long⟩ := both
      have short : (splitLine (literal "write a")).2 = some (literal "a") := by decide
      rw [short] at same
      exact absurd (Option.some.inj same ▸ long) (by decide)

def longNameSession : Console :=
  { firstSession with buff := ⟨literalString "write abcdefghij", 16⟩ }

theorem long_name_overruns :
    textAt longNameSession.buff.bytes bufferSize 0 = some (literal "write abcdefghij") ∧
      (∀ places filename, commandPlaces longNameSession.buff.bytes
        longNameSession.editorFilename = some (places, filename) →
          .editorFilename 10 ∈ places) ∧
      ¬ ParsesLine ⟨0, 0, 0, 0, 0, 0⟩ longNameSession (literal "write abcdefghij") := by
  have terminated : textAt longNameSession.buff.bytes bufferSize 0 =
      some (literal "write abcdefghij") := by decide
  have overrun : ∀ places filename, commandPlaces longNameSession.buff.bytes
      longNameSession.editorFilename = some (places, filename) →
        .editorFilename 10 ∈ places := by
    intro places filename touched
    have found : ((commandPlaces longNameSession.buff.bytes
        longNameSession.editorFilename).map fun touched =>
          decide (.editorFilename 10 ∈ touched.1)) = some true := by decide +kernel
    rw [touched, Option.map_some, Option.some.injEq, decide_eq_true_eq] at found
    exact found
  refine ⟨terminated, overrun, fun parses => ?_⟩
  obtain ⟨places, filename, touched, inside, -⟩ := parses.touches
  exact absurd (inside _ (overrun places filename touched)) (Nat.lt_irrefl 10)

end LazyOS.Drivers
