import LazyOS.Data.Rtc
import LazyOS.Fs.Fat12

namespace LazyOS.Drivers

open LazyOS.Data
open LazyOS.Fs

/-! `clock.c`: the date is read register by register, after a wait for the end of an
update. -/

section Device

variable {window : Nat} (rtc : Rtc window)

def rtcRead (type : Byte) (port : RtcPort) : Byte × RtcPort :=
  rtc.read (Rtc.select type port)

def convertToNum (bcd : Byte) : Byte := (bcd >>> 4) * 10 + (bcd &&& 0x0F)

def rtcUpdated : (polls : Nat) → RtcPort → Option RtcPort
  | 0, _ => none
  | polls + 1, port =>
      let status := rtcRead rtc statusA port
      if status.1 &&& updateBit = 0 then some status.2 else rtcUpdated polls status.2

def readDate (polls : Nat) (port : RtcPort) : Option (RtcTime × RtcPort) :=
  (rtcUpdated rtc polls port).map fun port =>
  let seconds := rtcRead rtc 0x00 port
  let minutes := rtcRead rtc 0x02 seconds.2
  let hours := rtcRead rtc 0x04 minutes.2
  let day := rtcRead rtc 0x07 hours.2
  let month := rtcRead rtc 0x08 day.2
  let year := rtcRead rtc 0x09 month.2
  ({ seconds := convertToNum seconds.1
     minutes := convertToNum minutes.1
     hours := convertToNum hours.1
     day := convertToNum day.1
     month := convertToNum month.1
     year := convertToNum year.1 }, year.2)

def registersAt (now : Nat) : RtcTime where
  seconds := rtc.register now 0x00
  minutes := rtc.register now 0x02
  hours := rtc.register now 0x04
  day := rtc.register now 0x07
  month := rtc.register now 0x08
  year := rtc.register now 0x09

end Device

def decoded (raw : RtcTime) : RtcTime where
  seconds := convertToNum raw.seconds
  minutes := convertToNum raw.minutes
  hours := convertToNum raw.hours
  day := convertToNum raw.day
  month := convertToNum raw.month
  year := convertToNum raw.year

section Reading

variable {window : Nat} (rtc : Rtc window)

theorem rtcRead_eq (type : Byte) (port : RtcPort) :
    rtcRead rtc type port = (rtc.register (port.now + 1) type, ⟨port.now + 2, type⟩) := rfl

theorem rtcUpdated_returns {k : Nat} {port : RtcPort}
    (clear : rtc.register (port.now + 1 + 2 * k) statusA &&& updateBit = 0) :
    ∃ polls moment selected, rtcUpdated rtc polls port = some ⟨moment + 1, selected⟩ ∧
      port.now ≤ moment ∧ rtc.register moment statusA &&& updateBit = 0 := by
  induction k generalizing port with
  | zero =>
      refine ⟨1, port.now + 1, statusA, ?_, Nat.le_succ _, clear⟩
      unfold rtcUpdated
      rw [rtcRead_eq]
      exact if_pos clear
  | succ k ih =>
      by_cases now : rtc.register (port.now + 1) statusA &&& updateBit = 0
      · refine ⟨1, port.now + 1, statusA, ?_, Nat.le_succ _, now⟩
        unfold rtcUpdated
        rw [rtcRead_eq]
        exact if_pos now
      · have later : rtc.register ((rtcRead rtc statusA port).2.now + 1 + 2 * k) statusA &&&
            updateBit = 0 := by
          rw [rtcRead_eq]
          rw [show port.now + 1 + 2 * (k + 1) = port.now + 2 + 1 + 2 * k by omega] at clear
          exact clear
        obtain ⟨polls, moment, selected, waited, after, ended⟩ := ih later
        rw [rtcRead_eq] at waited after
        have lower : port.now ≤ moment := (Nat.le_add_right _ 2).trans after
        refine ⟨polls + 1, moment, selected, ?_, lower, ended⟩
        unfold rtcUpdated
        rw [rtcRead_eq]
        exact (if_neg now).trans waited

theorem readDate_eq {polls : Nat} {port : RtcPort} {moment : Nat} {selected : Byte}
    (waited : rtcUpdated rtc polls port = some ⟨moment + 1, selected⟩) :
    readDate rtc polls port = some (decoded
      { seconds := rtc.register (moment + 2) 0x00
        minutes := rtc.register (moment + 4) 0x02
        hours := rtc.register (moment + 6) 0x04
        day := rtc.register (moment + 8) 0x07
        month := rtc.register (moment + 10) 0x08
        year := rtc.register (moment + 12) 0x09 }, ⟨moment + 13, 0x09⟩) := by
  unfold readDate
  rw [waited, Option.map_some]
  rfl

theorem readDate_steady (enough : 12 ≤ window) {polls : Nat} {port : RtcPort}
    {moment : Nat} {selected : Byte}
    (waited : rtcUpdated rtc polls port = some ⟨moment + 1, selected⟩)
    (clear : rtc.register moment statusA &&& updateBit = 0) :
    readDate rtc polls port =
      some (decoded (registersAt rtc moment), ⟨moment + 13, 0x09⟩) := by
  have same : ∀ k ≤ 12, ∀ index ∈ dateRegisters,
      rtc.register (moment + k) index = rtc.register moment index :=
    fun k few => rtc.steady moment clear (moment + k) (by omega) (by omega)
  rw [readDate_eq rtc waited, same 2 (by decide) 0x00 (by decide),
    same 4 (by decide) 0x02 (by decide), same 6 (by decide) 0x04 (by decide),
    same 8 (by decide) 0x07 (by decide), same 10 (by decide) 0x08 (by decide),
    same 12 (by decide) 0x09 (by decide)]
  rfl

end Reading

def lateClock (window : Nat) : Rtc window where
  register := fun now index =>
    if index = statusA then if now < 13 ∧ 13 ≤ now + window then updateBit else 0
    else if now < 13 then 1 else 2
  steady := by
    intro now clear later after before index member
    have date : index ≠ statusA := by
      rintro rfl
      exact absurd member (by decide)
    simp only [if_neg date]
    rw [if_pos rfl] at clear
    by_cases early : now < 13 ∧ 13 ≤ now + window
    · rw [if_pos early] at clear
      exact absurd clear (by decide)
    · by_cases past : now < 13
      · rw [if_pos past, if_pos (by omega)]
      · rw [if_neg past, if_neg (by omega)]
  clears := by
    intro now
    refine ⟨max now 13, le_max_left _ _, ?_⟩
    simp only [if_true]
    rw [if_neg (by omega), if_neg (by omega)]
    decide

/-- The date is that of one moment between the first access and the last. -/
def OneMoment {window : Nat} (rtc : Rtc window) (port : RtcPort) : Prop :=
  ∃ polls date after, readDate rtc polls port = some (date, after) ∧
    ∃ moment, port.now ≤ moment ∧ moment < after.now ∧
      date = decoded (registersAt rtc moment)

/-- Between the first access and the last the clock goes from `old` to `new`; the year is
that of `new`, and the seconds are still those of `old`. -/
structure YearAhead {window : Nat} (rtc : Rtc window) (port after : RtcPort)
    (date old new : RtcTime) (update : Nat) : Prop where
  during : port.now < update ∧ update < after.now
  before : ∀ now < update, registersAt rtc now = old
  behind : ∀ now, update ≤ now → registersAt rtc now = new
  seconds : date.seconds = convertToNum old.seconds ∧
    convertToNum old.seconds ≠ convertToNum new.seconds
  year : date.year = convertToNum new.year ∧
    convertToNum old.year ≠ convertToNum new.year

theorem YearAhead.not_moment {window : Nat} {rtc : Rtc window} {port after : RtcPort}
    {date old new : RtcTime} {update : Nat} (ahead : YearAhead rtc port after date old new update)
    (moment : Nat) : date ≠ decoded (registersAt rtc moment) := by
  rintro rfl
  by_cases early : moment < update
  · have year := ahead.year.1
    rw [ahead.before moment early] at year
    exact ahead.year.2 year
  · have seconds := ahead.seconds.1
    rw [ahead.behind moment (Nat.le_of_not_lt early)] at seconds
    exact ahead.seconds.2 seconds.symm

theorem lateClock_waits {window : Nat} (short : window < 12) (polls : Nat) :
    rtcUpdated (lateClock window) (polls + 1) ⟨0, 0⟩ = some ⟨2, statusA⟩ := by
  have clear : (lateClock window).register 1 statusA = 0 := by
    unfold lateClock
    simp only [if_true]
    exact if_neg (by omega)
  unfold rtcUpdated
  rw [rtcRead_eq, Nat.zero_add]
  simp only [clear]
  exact if_pos (by decide)

theorem lateClock_register {window : Nat} (now : Nat) {index : Byte}
    (date : index ≠ statusA) :
    (lateClock window).register now index = if now < 13 then 1 else 2 := if_neg date

theorem lateClock_registersAt (window now : Nat) :
    registersAt (lateClock window) now =
      if now < 13 then ⟨1, 1, 1, 1, 1, 1⟩ else ⟨2, 2, 2, 2, 2, 2⟩ := by
  unfold registersAt
  simp only [lateClock_register now (by decide : (0x00 : Byte) ≠ statusA),
    lateClock_register now (by decide : (0x02 : Byte) ≠ statusA),
    lateClock_register now (by decide : (0x04 : Byte) ≠ statusA),
    lateClock_register now (by decide : (0x07 : Byte) ≠ statusA),
    lateClock_register now (by decide : (0x08 : Byte) ≠ statusA),
    lateClock_register now (by decide : (0x09 : Byte) ≠ statusA)]
  split <;> rfl

theorem lateClock_yearAhead {window : Nat} (short : window < 12) (polls : Nat) :
    ∃ date after, readDate (lateClock window) (polls + 1) ⟨0, 0⟩ = some (date, after) ∧
      YearAhead (lateClock window) ⟨0, 0⟩ after date ⟨1, 1, 1, 1, 1, 1⟩ ⟨2, 2, 2, 2, 2, 2⟩
        13 := by
  refine ⟨_, _, readDate_eq _ (lateClock_waits short polls), ⟨by decide, by decide⟩,
    fun now early => ?_, fun now late => ?_, ⟨?_, by decide⟩, ⟨?_, by decide⟩⟩
  · rw [lateClock_registersAt, if_pos early]
  · rw [lateClock_registersAt, if_neg (Nat.not_lt_of_le late)]
  · exact congrArg convertToNum (@lateClock_register window 3 0x00 (by decide))
  · exact congrArg convertToNum (@lateClock_register window 13 0x09 (by decide))

theorem lateClock_torn {window : Nat} (short : window < 12) :
    ¬ OneMoment (lateClock window) ⟨0, 0⟩ := by
  rintro ⟨polls, date, after, ran, moment, -, -, same⟩
  cases polls with
  | zero => cases ran
  | succ polls =>
      obtain ⟨read, last, reads, ahead⟩ := lateClock_yearAhead short polls
      obtain ⟨rfl, -⟩ := Prod.mk.inj (Option.some.inj (ran.symm.trans reads))
      exact ahead.not_moment moment same

/-- `read_date` comes back with the date of one moment, from whichever moment it is
called and however the clock runs, exactly when no update can come within the twelve
accesses after the one that finds the bit clear.  Otherwise the year may be ahead of the
seconds. -/
theorem read_date_of_one_moment_iff (window : Nat) :
    ((∀ (rtc : Rtc window) (port : RtcPort), OneMoment rtc port) ↔ 12 ≤ window) ∧
    (window < 12 → ∃ (rtc : Rtc window) (polls : Nat) (port : RtcPort) (date : RtcTime)
      (after : RtcPort), readDate rtc polls port = some (date, after) ∧
        ∃ old new update, YearAhead rtc port after date old new update) := by
  refine ⟨⟨fun always => ?_, fun enough rtc port => ?_⟩, fun short => ?_⟩
  · by_contra short
    exact lateClock_torn (Nat.lt_of_not_le short) (always _ _)
  · obtain ⟨k, clear⟩ := rtc.clear_from (port.now + 1)
    obtain ⟨polls, moment, selected, waited, after, ended⟩ := rtcUpdated_returns rtc clear
    exact ⟨polls, _, _, readDate_steady rtc enough waited ended, moment, after,
      Nat.lt_add_of_pos_right (by decide), rfl⟩
  · obtain ⟨date, after, reads, ahead⟩ := lateClock_yearAhead short 0
    exact ⟨lateClock window, 1, ⟨0, 0⟩, date, after, reads, _, _, _, ahead⟩

def IsBcd (raw : Byte) : Prop := raw >>> 4 ≤ 9 ∧ raw &&& 0x0F ≤ 9

instance (raw : Byte) : Decidable (IsBcd raw) := inferInstanceAs (Decidable (_ ∧ _))

structure BcdDate (raw : RtcTime) : Prop where
  seconds : IsBcd raw.seconds
  minutes : IsBcd raw.minutes
  hours : IsBcd raw.hours
  day : IsBcd raw.day
  month : IsBcd raw.month
  year : IsBcd raw.year

def toBcd (num : Byte) : Byte := (num / 10) <<< 4 ||| num % 10

theorem toBcd_convertToNum : ∀ raw : Byte, IsBcd raw → toBcd (convertToNum raw) = raw := by
  decide +kernel

theorem convertToNum_inj {raw other : Byte} (bcd : IsBcd raw) (otherBcd : IsBcd other)
    (same : convertToNum raw = convertToNum other) : raw = other := by
  rw [← toBcd_convertToNum raw bcd, same, toBcd_convertToNum other otherBcd]

def isDigit (c : Byte) : Bool := 0x30 ≤ c && c ≤ 0x39

theorem itoaLoop_three (turns : Nat) (num : Byte) (tmp : List Byte) :
    itoaLoop (turns + 3) num tmp = itoaLoop 3 num tmp := by
  have ended : ∀ num : Byte, num / 10 / 10 / 10 = 0 := by decide +kernel
  have stops : ∀ (turns : Nat) (tmp : List Byte), itoaLoop turns 0 tmp = tmp := by
    intro turns tmp
    cases turns with
    | zero => rfl
    | succ turns => exact if_pos rfl
  simp only [itoaLoop, ended, stops]

theorem itoa_digits : ∀ num : Byte, (itoa num).all isDigit = true := by decide +kernel

def digitsValue (text : List Byte) : Byte :=
  text.foldl (fun value c => value * 10 + (c - 0x30)) 0

theorem digitsValue_itoa : ∀ num : Byte, digitsValue (itoa num) = num := by decide +kernel

theorem itoa_inj {num other : Byte} (same : itoa num = itoa other) : num = other := by
  rw [← digitsValue_itoa num, same, digitsValue_itoa]

theorem not_mem_itoa {stop : Byte} (separates : isDigit stop = false) (num : Byte) :
    stop ∉ itoa num := by
  intro member
  have digit := List.all_eq_true.mp (itoa_digits num) stop member
  rw [separates] at digit
  cases digit

theorem itoa_append_inj {num other stop : Byte} {back rest : List Byte}
    (separates : isDigit stop = false)
    (same : itoa num ++ stop :: back = itoa other ++ stop :: rest) :
    num = other ∧ back = rest := by
  have digits : ∀ number tail, (itoa number ++ stop :: tail).takeWhile (· ≠ stop) =
      itoa number := fun number tail => by
    rw [List.takeWhile_append_of_pos, List.takeWhile_cons_of_neg (by simp), List.append_nil]
    intro c member
    simpa using fun here : c = stop => not_mem_itoa separates number (here ▸ member)
  have first := congrArg (List.takeWhile (· ≠ stop)) same
  rw [digits, digits] at first
  obtain rfl := itoa_inj first
  exact ⟨rfl, (List.cons.inj (List.append_cancel_left same)).2⟩

theorem printTime_eq (t : RtcTime) :
    printTime t = itoa t.hours ++ 0x3A :: (itoa t.minutes ++ 0x3A :: (itoa t.seconds ++
      0x20 :: (itoa t.day ++ 0x2F :: (itoa t.month ++ 0x2F :: (itoa t.year ++ [0x0A]))))) := by
  have colon : literal ":" = [0x3A] := rfl
  have space : literal " " = [0x20] := rfl
  have slash : literal "/" = [0x2F] := rfl
  have newline : literal "\n" = [0x0A] := rfl
  unfold printTime
  rw [colon, space, slash, newline]
  simp only [List.append_assoc, List.cons_append, List.nil_append]

theorem printTime_inj {t other : RtcTime} (same : printTime t = printTime other) :
    t = other := by
  rw [printTime_eq, printTime_eq] at same
  obtain ⟨hours, same⟩ := itoa_append_inj (by decide) same
  obtain ⟨minutes, same⟩ := itoa_append_inj (by decide) same
  obtain ⟨seconds, same⟩ := itoa_append_inj (by decide) same
  obtain ⟨day, same⟩ := itoa_append_inj (by decide) same
  obtain ⟨month, same⟩ := itoa_append_inj (by decide) same
  obtain ⟨year, -⟩ := itoa_append_inj (by decide) same
  cases t
  cases other
  rw [RtcTime.mk.injEq]
  exact ⟨seconds, minutes, hours, day, month, year⟩

/-- Two states of the clock that are printed alike are the same state. -/
theorem clock_text_exact {raw other : RtcTime} (bcd : BcdDate raw) (otherBcd : BcdDate other) :
    printTime (decoded raw) = printTime (decoded other) ↔ raw = other := by
  refine ⟨fun same => ?_, fun same => same ▸ rfl⟩
  have fields := printTime_inj same
  unfold decoded at fields
  simp only [RtcTime.mk.injEq] at fields
  obtain ⟨seconds, minutes, hours, day, month, year⟩ := fields
  have secondsEq := convertToNum_inj bcd.seconds otherBcd.seconds seconds
  have minutesEq := convertToNum_inj bcd.minutes otherBcd.minutes minutes
  have hoursEq := convertToNum_inj bcd.hours otherBcd.hours hours
  have dayEq := convertToNum_inj bcd.day otherBcd.day day
  have monthEq := convertToNum_inj bcd.month otherBcd.month month
  have yearEq := convertToNum_inj bcd.year otherBcd.year year
  cases raw
  cases other
  rw [RtcTime.mk.injEq]
  exact ⟨secondsEq, minutesEq, hoursEq, dayEq, monthEq, yearEq⟩

theorem clock_text_exact_new_year :
    printTime (decoded ⟨0x59, 0x59, 0x23, 0x31, 0x12, 0x99⟩) = literal "23:59:59 31/12/99\n" ∧
      printTime (decoded ⟨0x59, 0x59, 0x23, 0x31, 0x12, 0x99⟩) ≠
        printTime (decoded ⟨0x00, 0x00, 0x00, 0x01, 0x01, 0x00⟩) := by
  refine ⟨by decide +kernel, fun same => ?_⟩
  have one := (clock_text_exact
    ⟨by decide, by decide, by decide, by decide, by decide, by decide⟩
    ⟨by decide, by decide, by decide, by decide, by decide, by decide⟩).mp same
  exact absurd one (by decide)

end LazyOS.Drivers
