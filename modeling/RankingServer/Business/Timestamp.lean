import RankingServer.Business.Contents
import RankingServer.Foundation.Calendar

/-!
# Dates between SQL and the cache

`ScoreDataSave` turns the `time_t` value of an entry into a text with `gmtime_s`
and `put_time`, and SQL reads a date from the text.  `ScoreDataLoad` goes the
other way with `mktime` and `_mkgmtime`.  The functions of the C runtime are
those of its documentation; nothing is assumed about the `tm` that a failing
`gmtime_s` leaves behind.
-/

namespace RankingServer.Business

open Calendar

/-! ## The text of a date -/

/-- The seconds from the beginning of the year 0 to that of 1970. -/
def EPOCH : ℕ := 62167219200

/-- The `time_t` value of a date that is read as UTC. -/
def unixTime (d : DateTime) : ℤ := d.seconds - EPOCH

/-- The end of the year 3000, the last `time_t` value that `gmtime_s` takes. -/
def GMTIME_MAX : ℤ := 32535215999

/-- `gmtime_s`; `none` stands for a `tm` that cannot be used. -/
def gmtime_s (time : ℤ) : Option DateTime :=
  if 0 ≤ time ∧ time ≤ GMTIME_MAX then
    some (DateTime.ofSeconds (EPOCH + time.toNat))
  else none

def twoDigits (n : ℕ) : List UInt8 :=
  [Json.digit (n / 10), Json.digit (n % 10)]

/-- `put_time` with the format `%Y-%m-%d %H:%M:%S`. -/
def put_time (timeinfo : DateTime) : List UInt8 :=
  Json.dumpNat timeinfo.date.year ++ ascii "-" ++
    twoDigits timeinfo.date.month ++ ascii "-" ++
    twoDigits timeinfo.date.day ++ ascii " " ++ twoDigits timeinfo.hour ++
    ascii ":" ++ twoDigits timeinfo.minute ++ ascii ":" ++
    twoDigits timeinfo.second

/-- `timestampStr`, unless `gmtime_s` fails. -/
def timestampStr (lastUpdate : ℤ) : Option (List UInt8) :=
  (gmtime_s lastUpdate).map put_time

def SQL_TIMESTAMP_LENGTH : ℕ := 19

def sqlField (text : List UInt8) (start length : ℕ) : ℕ :=
  Json.parseNat ((text.drop start).take length)

/-- The date that SQL reads from a text of the form `YYYY-MM-DD HH:MM:SS`. -/
def sqlDateTime (text : List UInt8) : Option DateTime :=
  (DateTime.ofFields (sqlField text 0 4) (sqlField text 5 2)
    (sqlField text 8 2) (sqlField text 11 2) (sqlField text 14 2)
    (sqlField text 17 2)).filter fun d => put_time d = text

theorem unixTime_injective : Function.Injective unixTime := by
  intro d d' h
  apply DateTime.seconds_injective
  rw [unixTime, unixTime] at h
  omega

theorem gmtime_s_eq_some_iff {time : ℤ} {d : DateTime} :
    gmtime_s time = some d ↔
      (0 ≤ time ∧ time ≤ GMTIME_MAX) ∧ unixTime d = time := by
  rw [gmtime_s]
  split
  · next hrange =>
      have htime : unixTime (DateTime.ofSeconds (EPOCH + time.toNat)) =
          time := by
        rw [unixTime, DateTime.seconds_ofSeconds]
        omega
      rw [Option.some_inj, and_iff_right hrange, ← unixTime_injective.eq_iff,
        htime, eq_comm]
  · next hrange => simp [hrange]

/-- Years that `gmtime_s` gives have four digits. -/
theorem year_of_gmtime_s {time : ℤ} {d : DateTime}
    (h : gmtime_s time = some d) :
    1970 ≤ d.date.year ∧ d.date.year ≤ 3000 := by
  obtain ⟨⟨hlow, hhigh⟩, htime⟩ := gmtime_s_eq_some_iff.mp h
  rw [unixTime] at htime
  rw [GMTIME_MAX] at hhigh
  have hfirst : (DateTime.ofSeconds EPOCH).date.year = 1970 := by
    decide +kernel
  have hlast : (DateTime.ofSeconds (EPOCH + 32535215999)).date.year = 3000 := by
    decide +kernel
  rw [← hfirst, ← hlast]
  constructor
  · apply DateTime.year_le_of_seconds_le
    rw [DateTime.seconds_ofSeconds]
    omega
  · apply DateTime.year_le_of_seconds_le
    rw [DateTime.seconds_ofSeconds]
    omega

theorem length_dumpNat {n : ℕ} (hlow : 1000 ≤ n) (hhigh : n < 10000) :
    (Json.dumpNat n).length = 4 := by
  have hne : n ≠ 0 := by omega
  rw [Json.dumpNat, if_neg hne, List.length_map, List.length_reverse]
  apply le_antisymm
  · exact (Nat.digits_length_le_iff (by decide) n).mpr hhigh
  · exact (Nat.lt_digits_length_iff (by decide) n).mpr hlow

theorem length_put_time {d : DateTime} (hlow : 1000 ≤ d.date.year)
    (hhigh : d.date.year < 10000) :
    (put_time d).length = SQL_TIMESTAMP_LENGTH := by
  simp only [put_time, List.length_append, length_dumpNat hlow hhigh]
  rfl

theorem parseNat_twoDigits {n : ℕ} (hn : n < 100) :
    Json.parseNat (twoDigits n) = n := by
  have htens : (Json.digit (n / 10)).toNat = 48 + n / 10 :=
    Json.toNat_digit (by omega)
  have hunits : (Json.digit (n % 10)).toNat = 48 + n % 10 :=
    Json.toNat_digit (by omega)
  simp only [Json.parseNat, twoDigits, List.foldl_cons, List.foldl_nil, htens,
    hunits]
  omega

/-- SQL reads the date that was printed. -/
theorem sqlDateTime_put_time {d : DateTime} (hlow : 1000 ≤ d.date.year)
    (hhigh : d.date.year < 10000) : sqlDateTime (put_time d) = some d := by
  have hyear := length_dumpNat hlow hhigh
  have hdays := daysInMonth_le d.date.year d.date.month
  have hmonth_le := d.date.month_le
  have hday_le := d.date.day_le
  have hhour_lt := d.hour_lt
  have hminute_lt := d.minute_lt
  have hsecond_lt := d.second_lt
  have hfields : sqlField (put_time d) 0 4 = d.date.year ∧
      sqlField (put_time d) 5 2 = d.date.month ∧
      sqlField (put_time d) 8 2 = d.date.day ∧
      sqlField (put_time d) 11 2 = d.hour ∧
      sqlField (put_time d) 14 2 = d.minute ∧
      sqlField (put_time d) 17 2 = d.second := by
    have hnumber := Json.parseNat_dumpNat d.date.year
    obtain ⟨y₁, y₂, y₃, y₄, hdigits⟩ := List.length_eq_four.mp hyear
    rw [hdigits] at hnumber
    rw [put_time, hdigits]
    exact ⟨hnumber, parseNat_twoDigits (by omega),
      parseNat_twoDigits (by omega), parseNat_twoDigits (by omega),
      parseNat_twoDigits (by omega), parseNat_twoDigits (by omega)⟩
  obtain ⟨hyear, hmonth, hday, hhour, hminute, hsecond⟩ := hfields
  rw [sqlDateTime, hyear, hmonth, hday, hhour, hminute, hsecond,
    DateTime.ofFields_fields, Option.filter_some, if_pos (decide_eq_true rfl)]

theorem timestampStr_eq_some_iff {time : ℤ} {text : List UInt8} :
    timestampStr time = some text ↔
      ∃ d, gmtime_s time = some d ∧ put_time d = text :=
  Option.map_eq_some_iff

/-- A text of the length that is bound, from which SQL reads a time. -/
structure Denotes (text : List UInt8) (time : ℤ) : Prop where
  length : text.length = SQL_TIMESTAMP_LENGTH
  date : ∃ d, sqlDateTime text = some d ∧ unixTime d = time

/-- A text that is printed denotes the time it was printed for. -/
theorem denotes_of_timestampStr {time : ℤ} {text : List UInt8}
    (h : timestampStr time = some text) : Denotes text time := by
  obtain ⟨d, hgmtime, rfl⟩ := timestampStr_eq_some_iff.mp h
  obtain ⟨hlow, hhigh⟩ := year_of_gmtime_s hgmtime
  have htime := (gmtime_s_eq_some_iff.mp hgmtime).2
  have hlow' : 1000 ≤ d.date.year := by omega
  have hhigh' : d.date.year < 10000 := by omega
  exact ⟨length_put_time hlow' hhigh', d,
    sqlDateTime_put_time hlow' hhigh', htime⟩

example : timestampStr 951782400 = some (ascii "2000-02-29 00:00:00") := by
  decide +kernel

theorem exists_timestampStr_iff (time : ℤ) :
    (∃ text, timestampStr time = some text) ↔
      0 ≤ time ∧ time ≤ GMTIME_MAX := by
  rw [← Option.isSome_iff_exists, timestampStr, Option.isSome_map, gmtime_s]
  split
  · next hrange => exact iff_of_true rfl hrange
  · next hrange => exact iff_of_false Bool.false_ne_true hrange

/-! ## The dates of save requests -/

/-- The text that `ScoreDataSave` binds for a cached value. -/
def boundTimestamp (value : List UInt8) : Option (List UInt8) :=
  (readScore (some value)).join.bind fun data => timestampStr data.mLastUpdate

/-- A time that a save request carries can be moved to UTC+9, and whenever such
a request is acknowledged, what is stored for it is saved with a text that
denotes the moved time. -/
structure Survives (last_update : ℤ) : Prop where
  noOverflow : IsTime (last_update + 9 * 3600)
  bound : ∀ (cached : Option (List UInt8)) (socketId : ℕ)
    (playerId : List UInt8) (score : ℤ) (stored : List SetCommand)
    (client contentsType : ℕ) (body : List UInt8),
    Hub.handle cached socketId (.saveScore playerId score last_update) =
        .responded stored client contentsType body →
      ∀ command ∈ stored, ∃ text, boundTimestamp command.value = some text ∧
        Denotes text (last_update + 9 * 3600)

/-- The text that is bound for what a save request stores is that of its
date. -/
theorem boundTimestamp_of_dump {playerId value : List UInt8} {score date : ℤ}
    (hvalue : Json.dump (Data_Score.toJson playerId score date) = some value) :
    boundTimestamp value = timestampStr date := by
  rw [boundTimestamp, readScore_dump hvalue]
  rfl

/-- The program can only bind a text if `gmtime_s` takes the moved time. -/
theorem Survives.exists_timestampStr {last_update : ℤ}
    (h : Survives last_update) :
    ∃ text, timestampStr (last_update + 9 * 3600) = some text := by
  have hutf8 : Json.wellFormed [] = true := rfl
  obtain ⟨value, hvalue⟩ :=
    Data_Score.exists_dump_toJson hutf8 0 (Hub.koreaTime last_update)
  have hresponded := Hub.handle_saveScore hvalue none 0
  obtain ⟨text, hbound, -⟩ :=
    h.bound none 0 [] 0 _ _ _ _ hresponded _ (List.mem_singleton_self _)
  rw [setCachedData_dump hvalue, boundTimestamp_of_dump hvalue,
    Hub.koreaTime_of_isTime h.noOverflow] at hbound
  exact ⟨text, hbound⟩

/-- The times that survive are those that `gmtime_s` takes after they were
moved. -/
theorem survives_iff (last_update : ℤ) :
    Survives last_update ↔
      0 ≤ last_update + 9 * 3600 ∧ last_update + 9 * 3600 ≤ GMTIME_MAX := by
  constructor
  · intro h
    exact (exists_timestampStr_iff _).mp h.exists_timestampStr
  · intro hrange
    obtain ⟨text, htext⟩ := (exists_timestampStr_iff _).mpr hrange
    have htime : IsTime (last_update + 9 * 3600) := by
      rw [GMTIME_MAX] at hrange
      rw [IsTime]
      omega
    refine ⟨htime, ?_⟩
    intro cached socketId playerId score stored client contentsType body
      hresponded command hcommand
    refine ⟨text, ?_, denotes_of_timestampStr htext⟩
    rcases Hub.stored_of_handle hresponded with rfl | ⟨_, _, _, value,
      hrequest, hvalue, rfl⟩
    · cases hcommand
    · cases hrequest
      obtain rfl := List.mem_singleton.mp hcommand
      rw [setCachedData_dump hvalue, boundTimestamp_of_dump hvalue,
        Hub.koreaTime_of_isTime htime]
      exact htext

/-- A time in milliseconds is acknowledged and then lost. -/
theorem not_survives_milliseconds :
    ¬ ∀ last_update, IsTime last_update → Survives last_update := by
  intro hall
  have htime : IsTime 1751328000000 := by
    rw [IsTime]
    omega
  obtain ⟨text, htext⟩ := (hall 1751328000000 htime).exists_timestampStr
  have hrange := (exists_timestampStr_iff _).mp ⟨text, htext⟩
  rw [GMTIME_MAX] at hrange
  omega

/-! ## Time zones -/

/-- The rules of a time zone: what standard time is ahead of UTC, when daylight
saving time is in force, and what it adds. -/
structure Zone where
  offset : ℤ
  bias : ℤ
  isDaylight : ℤ → Bool

/-- A `tm`. -/
structure Tm where
  time : DateTime
  tm_isdst : Bool

/-- The date with a `time_t` value, read as UTC. -/
def ofUnixTime (time : ℤ) : DateTime := DateTime.ofSeconds (time + EPOCH).toNat

/-- The local time at an instant. -/
def Zone.localtime (zone : Zone) (instant : ℤ) : Tm :=
  ⟨ofUnixTime (instant + zone.offset +
      if zone.isDaylight instant then zone.bias else 0),
    zone.isDaylight instant⟩

/-- `mktime`, which normalises its argument. -/
def mktime (zone : Zone) (timeinfo : Tm) : ℤ × Tm :=
  let instant := unixTime timeinfo.time - zone.offset -
    if timeinfo.tm_isdst then zone.bias else 0
  (instant, zone.localtime instant)

/-- `_mkgmtime`, which reads the fields as UTC and fails outside the range of
`gmtime_s`. -/
def _mkgmtime (timeinfo : Tm) : ℤ :=
  if 0 ≤ unixTime timeinfo.time ∧ unixTime timeinfo.time ≤ GMTIME_MAX then
    unixTime timeinfo.time
  else -1

/-- `utcTime` of `ScoreDataLoad`. -/
def utcTime (zone : Zone) (lastUpdate : DateTime) : ℤ :=
  let timeinfo : Tm := ⟨lastUpdate, false⟩
  let (_localTime, timeinfo) := mktime zone timeinfo
  _mkgmtime timeinfo

/-- The conversions on a machine; what SQL makes of the text when `gmtime_s`
failed is a parameter. -/
def runtimeClock (zone : Zone) (unusable : ℤ → DateTime) : Clock DateTime where
  utcTime := utcTime zone
  timestampStr time :=
    ((timestampStr time).bind sqlDateTime).getD (unusable time)

/-- The date of a row after it was loaded into the cache and saved again, unless
`gmtime_s` fails. -/
def reload (zone : Zone) (d : DateTime) : Option DateTime :=
  (timestampStr (utcTime zone d)).bind sqlDateTime

/-- The date after some restarts. -/
def restarts (zone : Zone) : ℕ → DateTime → Option DateTime
  | 0, d => some d
  | n + 1, d => (reload zone d).bind (restarts zone n)

/-- No number of restarts shifts the date. -/
def Stable (zone : Zone) (d : DateTime) : Prop :=
  ∀ n, restarts zone n d = some d

/-- What is merged for a row that was loaded has the reloaded date. -/
theorem last_update_ofData_cached (zone : Zone) (unusable : ℤ → DateTime)
    (row : ScoreRow DateTime) :
    (ScoreRow.ofData (runtimeClock zone unusable)
        (row.cached (runtimeClock zone unusable))).last_update =
      (reload zone row.last_update).getD
        (unusable (utcTime zone row.last_update)) := by
  simp only [ScoreRow.ofData, ScoreRow.cached, runtimeClock, reload]

/-- SQL reads back what `gmtime_s` gave. -/
theorem timestampStr_bind_sqlDateTime (time : ℤ) :
    (timestampStr time).bind sqlDateTime = gmtime_s time := by
  cases hgmtime : gmtime_s time with
  | none => rw [timestampStr, hgmtime, Option.map_none, Option.bind_none]
  | some d =>
      obtain ⟨hlow, hhigh⟩ := year_of_gmtime_s hgmtime
      rw [timestampStr, hgmtime, Option.map_some, Option.bind_some,
        sqlDateTime_put_time (by omega) (by omega)]

/-- Dates of the years that the table holds are in the range of `gmtime_s`. -/
theorem unixTime_bounds {d : DateTime} (hlow : 1970 ≤ d.date.year)
    (hhigh : d.date.year ≤ 2999) :
    0 ≤ unixTime d ∧ unixTime d ≤ GMTIME_MAX := by
  have hdays : 719528 ≤ before daysInYear 1970 ∧
      before daysInYear 3000 ≤ 1095728 := by
    have hfirst := before_daysInYear 1970
    have hlast := before_daysInYear 3000
    omega
  have hfirst := hdays.1.trans (before_mono daysInYear hlow)
  have hlast : before daysInYear (d.date.year + 1) ≤ 1095728 :=
    (before_mono daysInYear (Nat.succ_le_succ hhigh)).trans hdays.2
  have hle := d.le_seconds
  have hlt := d.seconds_lt
  rw [unixTime, EPOCH, GMTIME_MAX]
  omega

theorem unixTime_ofUnixTime (time : ℤ) :
    unixTime (ofUnixTime time) = max time (-EPOCH) := by
  rw [unixTime, ofUnixTime, DateTime.seconds_ofSeconds]
  omega

theorem utcTime_eq (zone : Zone) (d : DateTime) :
    utcTime zone d = _mkgmtime (zone.localtime (unixTime d - zone.offset)) := by
  rw [utcTime, mktime]
  simp only [Bool.false_eq_true, if_false, sub_zero]

/-- The cached time is that of the date just when daylight saving time does not
move it. -/
theorem utcTime_eq_unixTime_iff (zone : Zone) {d : DateTime}
    (hlow : 1970 ≤ d.date.year) (hhigh : d.date.year ≤ 2999) :
    utcTime zone d = unixTime d ↔
      zone.isDaylight (unixTime d - zone.offset) = false ∨ zone.bias = 0 := by
  obtain ⟨hpos, hmax⟩ := unixTime_bounds hlow hhigh
  rw [utcTime_eq, _mkgmtime, Zone.localtime, unixTime_ofUnixTime,
    sub_add_cancel]
  cases zone.isDaylight (unixTime d - zone.offset) with
  | false =>
      simp only [Bool.false_eq_true, if_false, add_zero, true_or, iff_true]
      rw [max_eq_left (by omega), if_pos ⟨hpos, hmax⟩]
  | true =>
      simp only [if_true, Bool.true_eq_false, false_or]
      rw [EPOCH]
      split <;> omega

theorem reload_eq_self_iff (zone : Zone) {d : DateTime}
    (hlow : 1970 ≤ d.date.year) (hhigh : d.date.year ≤ 2999) :
    reload zone d = some d ↔
      zone.isDaylight (unixTime d - zone.offset) = false ∨ zone.bias = 0 := by
  rw [reload, timestampStr_bind_sqlDateTime, gmtime_s_eq_some_iff,
    ← utcTime_eq_unixTime_iff zone hlow hhigh]
  constructor
  · intro h
    exact h.2.symm
  · intro h
    exact ⟨h ▸ unixTime_bounds hlow hhigh, h.symm⟩

theorem stable_iff_reload (zone : Zone) (d : DateTime) :
    Stable zone d ↔ reload zone d = some d := by
  constructor
  · intro h
    have hone := h 1
    rw [restarts] at hone
    cases hreload : reload zone d with
    | none => rw [hreload] at hone; exact hone
    | some d' => rw [hreload] at hone; exact hone
  · intro h n
    induction n with
    | zero => rfl
    | succ n ih => rw [restarts, h, Option.bind_some, ih]

/-- A date in the table is stable just when daylight saving time is not in force
at the instant that it denotes as standard time. -/
theorem stable_iff (zone : Zone) {d : DateTime} (hlow : 1970 ≤ d.date.year)
    (hhigh : d.date.year ≤ 2999) :
    Stable zone d ↔
      zone.isDaylight (unixTime d - zone.offset) = false ∨ zone.bias = 0 :=
  (stable_iff_reload zone d).trans (reload_eq_self_iff zone hlow hhigh)

/-- Midnight of the first of July 2025. -/
def midsummer : DateTime := DateTime.ofSeconds (EPOCH + 1751328000)

/-- Korean time, without daylight saving. -/
def koreanTime : Zone := ⟨32400, 3600, fun _ => false⟩

/-- Pacific time, with the daylight saving of 2025. -/
def pacificTime : Zone :=
  ⟨-28800, 3600, fun instant => 1741514400 ≤ instant && instant < 1762074000⟩

theorem stable_midsummer : Stable koreanTime midsummer :=
  (stable_iff koreanTime (by decide +kernel) (by decide +kernel)).mpr
    (Or.inl rfl)

/-- With daylight saving time in force each restart adds an hour. -/
theorem not_stable_midsummer :
    ¬ ∀ zone d, 1970 ≤ d.date.year → d.date.year ≤ 2999 → Stable zone d := by
  intro hall
  have hlow : 1970 ≤ midsummer.date.year := by decide +kernel
  have hhigh : midsummer.date.year ≤ 2999 := by decide +kernel
  have hstable := hall pacificTime midsummer hlow hhigh
  rw [stable_iff_reload, reload_eq_self_iff _ hlow hhigh] at hstable
  revert hstable
  decide +kernel

end RankingServer.Business
