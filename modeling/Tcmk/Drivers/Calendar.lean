import Mathlib

/-!
# Dates and Unix time (`drivers/rtc.rs`)

Both conversions count years from the 1st of March, so that the leap day is the last day of a year,
and group them in eras of 400 years, which are 146097 days each. The arithmetic is that of `u32` and
`i32`, checked: an operation or a cast whose result does not fit gives `none`.

The year of a day of an era is found by an estimate (`year_of_era`), and the month by another
(`month_of_year`). `Civil` is a day in years from March: the date of a day has the order of its
number (`Civil.date_lt`), and `days_from_civil` finds the number (`daysFromCivil_eq`).
-/

namespace Tcmk

namespace Rtc

/-! ## Machine arithmetic -/

def i32 (x : ℤ) : Option ℤ := if -2 ^ 31 ≤ x ∧ x < 2 ^ 31 then some x else none

def u32 (x : ℤ) : Option ℕ := if 0 ≤ x ∧ x < 2 ^ 32 then some x.toNat else none

def u16 (x : ℤ) : Option ℕ := if 0 ≤ x ∧ x < 2 ^ 16 then some x.toNat else none

def u8 (x : ℤ) : Option ℕ := if 0 ≤ x ∧ x < 2 ^ 8 then some x.toNat else none

section Steps

variable {x : ℤ} {n : ℕ}

theorem bind_of_eq {α β : Type} {o : Option α} {a : α} {f : α → Option β} (h : o = some a) :
    (o >>= f) = f a := by
  rw [h, Option.bind_eq_bind, Option.bind_some]

theorem i32_eq (hlow : -2147483648 ≤ x) (hhigh : x < 2147483648) : i32 x = some x :=
  if_pos ⟨hlow, hhigh⟩

theorem u32_eq (h : x = n) (hn : n < 4294967296) : u32 x = some n := by
  subst h
  rw [u32, if_pos ⟨by omega, by omega⟩, Int.toNat_natCast]

theorem u16_eq (h : x = n) (hn : n < 65536) : u16 x = some n := by
  subst h
  rw [u16, if_pos ⟨by omega, by omega⟩, Int.toNat_natCast]

theorem u8_eq (h : x = n) (hn : n < 256) : u8 x = some n := by
  subst h
  rw [u8, if_pos ⟨by omega, by omega⟩, Int.toNat_natCast]

end Steps

/-! ## The conversions -/

/-- `DateTime`. -/
structure DateTime where
  year : ℕ
  month : ℕ
  day : ℕ
  hour : ℕ
  minute : ℕ
  second : ℕ
  deriving DecidableEq

/-- The first day of a year of an era: `yoe * 365 + yoe / 4 - yoe / 100`. -/
def yearStart (yoe : ℕ) : Option ℕ := do
  let days ← u32 (yoe * 365)
  let days ← u32 (days + yoe / 4)
  u32 (days - yoe / 100)

/-- The first day of a month: `(153 * mp + 2) / 5`. -/
def monthStart (mp : ℕ) : Option ℕ := do
  let n ← u32 (153 * mp)
  let n ← u32 (n + 2)
  some (n / 5)

/-- `days_from_civil`. -/
def daysFromCivil (year month day : ℕ) : Option ℕ := do
  let y ← (if month ≤ 2 then i32 (year - 1) else some (year : ℤ))
  let n ← (if y ≥ 0 then some y else i32 (y - 399))
  let era := n.tdiv 400
  let first ← i32 (era * 400)
  let yoe ← u32 (y - first)
  let mp ← (if month > 2 then u32 (month - 3) else u32 (month + 9))
  let doy ← monthStart mp
  let doy ← u32 (doy + day)
  let doy ← u32 (doy - 1)
  let doe ← yearStart yoe
  let doe ← u32 (doe + doy)
  let days ← i32 (era * 146097)
  let days ← i32 (days + doe)
  let days ← i32 (days - 719468)
  u32 days

/-- The sum of `unix_time`. -/
def toUnix (t : DateTime) : Option ℕ := do
  let days ← daysFromCivil t.year t.month t.day
  let seconds ← u32 (days * 86400)
  let seconds ← u32 (seconds + t.hour * 3600)
  let seconds ← u32 (seconds + t.minute * 60)
  u32 (seconds + t.second)

/-- `from_unix`. -/
def fromUnix (epoch : ℕ) : Option DateTime := do
  let days ← i32 (epoch / 86400)
  let seconds := epoch % 86400
  let z ← i32 (days + 719468)
  let n ← (if z ≥ 0 then some z else i32 (z - 146096))
  let era := n.tdiv 146097
  let first ← i32 (era * 146097)
  let doe ← u32 (z - first)
  let n ← u32 (doe - doe / 1460)
  let n ← u32 (n + doe / 36524)
  let n ← u32 (n - doe / 146096)
  let yoe := n / 365
  let first ← i32 (era * 400)
  let y ← i32 (yoe + first)
  let start ← yearStart yoe
  let doy ← u32 (doe - start)
  let n ← u32 (5 * doy)
  let n ← u32 (n + 2)
  let mp := n / 153
  let start ← monthStart mp
  let day ← u32 (doy - start)
  let day ← u32 (day + 1)
  let day ← u8 day
  let month ← (if mp < 10 then u32 (mp + 3) else u32 (mp - 9))
  let month ← u8 month
  let year ← (if month ≤ 2 then i32 (y + 1) else some y)
  let year ← u16 year
  let hour ← u8 (seconds / 3600)
  let minute ← u8 (seconds % 3600 / 60)
  let second ← u8 (seconds % 60)
  some ⟨year, month, day, hour, minute, second⟩

/-! ## The estimates -/

/-- The year after the `yoe`-th year of an era has a leap day. -/
def LeapNext (yoe : ℕ) : Prop := (yoe + 1) % 4 = 0 ∧ ((yoe + 1) % 100 ≠ 0 ∨ (yoe + 1) % 400 = 0)

/-- A day of an era: its century, its four years, its year and its day of the year. Only the last
day of the era is in no century of 36524 days. -/
theorem split_era {doe : ℕ} (h : doe < 146097) :
    ∃ c q t u, c ≤ 3 ∧ q ≤ 24 ∧ t ≤ 3 ∧ u ≤ 365 ∧ (u = 365 → t = 3) ∧
      (q = 24 → t = 3 → u = 365 → c = 3) ∧ doe = 36524 * c + 1461 * q + 365 * t + u := by
  obtain ⟨c, r, hc, hr, hdoe⟩ : ∃ c r, c ≤ 3 ∧ r ≤ 36523 + c / 3 ∧ doe = 36524 * c + r :=
    ⟨min 3 (doe / 36524), doe - 36524 * min 3 (doe / 36524), by omega, by omega, by omega⟩
  obtain ⟨q, s, hs, hrs⟩ : ∃ q s, s < 1461 ∧ r = 1461 * q + s :=
    ⟨r / 1461, r % 1461, by omega, by omega⟩
  obtain ⟨t, u, ht, hu, hsum⟩ : ∃ t u, t ≤ 3 ∧ u ≤ 364 + t / 3 ∧ s = 365 * t + u :=
    ⟨min 3 (s / 365), s - 365 * min 3 (s / 365), by omega, by omega, by omega⟩
  exact ⟨c, q, t, u, hc, by omega, ht, by omega, by omega, by omega, by omega⟩

section Estimate

variable {c q t u : ℕ}

/-- The centuries that the estimate counts. -/
theorem centuries_of_era (hc : c ≤ 3) (hq : q ≤ 24) (ht : t ≤ 3) (hu : u ≤ 365)
    (hlast : q = 24 → t = 3 → u = 365 → c = 3) :
    ∃ e ≤ 1, (36524 * c + 1461 * q + 365 * t + u) / 36524 = c + e ∧
      (36524 * c + 1461 * q + 365 * t + u) / 146096 = e := by
  by_cases hend : 36524 * c + 1461 * q + 365 * t + u = 146096
  · exact ⟨1, Nat.le_refl 1, by rw [hend]; omega, by rw [hend]⟩
  · exact ⟨0, Nat.zero_le 1, by omega, by omega⟩

/-- The leap days that the estimate counts: one too many at the end of some leap years. -/
theorem leaps_of_era (hc : c ≤ 3) (hq : q ≤ 24) (ht : t ≤ 3) (hu : u ≤ 365)
    (hleap : u = 365 → t = 3) :
    ∃ d ≤ u, (u = 365 → d = 1) ∧ (36524 * c + 1461 * q + 365 * t + u) / 1460 = 25 * c + q + d := by
  by_cases h : 24 * c + q + 365 * t + u < 1460
  · exact ⟨0, Nat.zero_le u, by omega, by omega⟩
  · exact ⟨1, by omega, by omega, by omega⟩

theorem yearStart_of_era (hc : c ≤ 3) (hq : q ≤ 24) (ht : t ≤ 3) :
    (100 * c + 4 * q + t) * 365 + (100 * c + 4 * q + t) / 4 - (100 * c + 4 * q + t) / 100 =
      36524 * c + 1461 * q + 365 * t := by
  have hfour : (100 * c + 4 * q + t) / 4 = 25 * c + q := by omega
  have hhundred : (100 * c + 4 * q + t) / 100 = c := by omega
  rw [hfour, hhundred]
  omega

end Estimate

/-- The estimate finds the year of a day of an era. -/
theorem year_of_era {doe yoe : ℕ} (h : doe < 146097)
    (hyoe : yoe = (doe - doe / 1460 + doe / 36524 - doe / 146096) / 365) :
    yoe < 400 ∧ ∃ doy ≤ 365, doe = yoe * 365 + yoe / 4 - yoe / 100 + doy ∧
    (doy = 365 → LeapNext yoe) := by
  obtain ⟨c, q, t, u, hc, hq, ht, hu, hleap, hlast, rfl⟩ := split_era h
  obtain ⟨e, -, hcentury, hera⟩ := centuries_of_era hc hq ht hu hlast
  obtain ⟨d, hdu, hd, hleaps⟩ := leaps_of_era hc hq ht hu hleap
  have hyear : yoe = 100 * c + 4 * q + t := by
    rw [hyoe, hcentury, hera, hleaps]
    clear hcentury hera hleaps hyoe
    omega
  clear hcentury hera hleaps hyoe
  subst hyear
  refine ⟨by omega, u, hu, ?_, fun hu => ?_⟩
  · rw [yearStart_of_era hc hq ht]
  · have ht3 := hleap hu
    unfold LeapNext
    omega

/-- The estimate finds the month of a day of a year, and the day is one of the month's. -/
theorem month_of_year {doy : ℕ} (h : doy ≤ 365) :
    (5 * doy + 2) / 153 ≤ 11 ∧ (153 * ((5 * doy + 2) / 153) + 2) / 5 ≤ doy ∧
      doy - (153 * ((5 * doy + 2) / 153) + 2) / 5 < 31 := by
  omega

/-! ## The calendar -/

/-- A leap year. -/
def LeapYear (year : ℕ) : Prop := year % 4 = 0 ∧ (year % 100 ≠ 0 ∨ year % 400 = 0)

instance (year : ℕ) : Decidable (LeapYear year) := inferInstanceAs (Decidable (_ ∧ _))

/-- The number of days of a month. -/
def daysInMonth (year month : ℕ) : ℕ :=
  if month = 2 then if LeapYear year then 29 else 28
  else if month = 4 ∨ month = 6 ∨ month = 9 ∨ month = 11 then 30
  else 31

namespace DateTime

structure Valid (t : DateTime) : Prop where
  month : 1 ≤ t.month ∧ t.month ≤ 12
  day : 1 ≤ t.day ∧ t.day ≤ daysInMonth t.year t.month
  hour : t.hour < 24
  minute : t.minute < 60
  second : t.second < 60

/-- The fields, the year first: dates are in the lexicographic order of their fields. -/
def fields (t : DateTime) : List ℕ := [t.year, t.month, t.day, t.hour, t.minute, t.second]

/-- The time of day, in seconds. -/
def timeOfDay (t : DateTime) : ℕ := t.hour * 3600 + t.minute * 60 + t.second

end DateTime

theorem yearStart_eq {yoe : ℕ} (h : yoe < 400) :
    yearStart yoe = some (yoe * 365 + yoe / 4 - yoe / 100) := by
  have hdays : u32 (yoe * 365) = some (yoe * 365) := u32_eq (by omega) (by omega)
  have hleaps : u32 ((yoe * 365 : ℕ) + yoe / 4) = some (yoe * 365 + yoe / 4) :=
    u32_eq (by omega) (by omega)
  unfold yearStart
  rw [bind_of_eq hdays, bind_of_eq hleaps]
  exact u32_eq (by omega) (by omega)

theorem monthStart_eq {mp : ℕ} (h : mp ≤ 11) : monthStart mp = some ((153 * mp + 2) / 5) := by
  have hdays : u32 (153 * mp) = some (153 * mp) := u32_eq (by omega) (by omega)
  have hround : u32 ((153 * mp : ℕ) + 2) = some (153 * mp + 2) := u32_eq (by omega) (by omega)
  unfold monthStart
  rw [bind_of_eq hdays, bind_of_eq hround]

/-- A day in years from the 1st of March: its year and its day of the year, counted from zero. Only
a year before a leap day has 366 days. -/
structure Civil where
  era : ℕ
  yoe : ℕ
  doy : ℕ
  yoe_lt : yoe < 400
  doy_le : doy ≤ 365
  leap : doy = 365 → LeapNext yoe

namespace Civil

/-- The day of the era. -/
def doe (c : Civil) : ℕ := c.yoe * 365 + c.yoe / 4 - c.yoe / 100 + c.doy

/-- The day from the start of the first era. -/
def number (c : Civil) : ℕ := c.era * 146097 + c.doe

/-- The month, counted from March, and the day of the month, counted from zero. -/
def mp (c : Civil) : ℕ := (5 * c.doy + 2) / 153

def dom (c : Civil) : ℕ := c.doy - (153 * c.mp + 2) / 5

def month (c : Civil) : ℕ := if c.mp < 10 then c.mp + 3 else c.mp - 9

def year (c : Civil) : ℕ := c.era * 400 + c.yoe + if c.month ≤ 2 then 1 else 0

theorem mp_le (c : Civil) : c.mp ≤ 11 := (month_of_year c.doy_le).1

theorem dom_lt (c : Civil) : c.dom < 31 := (month_of_year c.doy_le).2.2

theorem doy_eq (c : Civil) : (153 * c.mp + 2) / 5 + c.dom = c.doy :=
  Nat.add_sub_cancel' (month_of_year c.doy_le).2.1

theorem doe_lt (c : Civil) : c.doe < 146097 := by
  have hyoe := c.yoe_lt
  have hdoy := c.doy_le
  unfold doe
  omega

theorem month_low {c : Civil} (h : c.mp < 10) : c.month = c.mp + 3 := if_pos h

theorem month_high {c : Civil} (h : ¬c.mp < 10) : c.month = c.mp - 9 := if_neg h

theorem shifted_year (c : Civil) (hera : c.era ≤ 10) :
    (if c.month ≤ 2 then i32 (c.year - 1) else some (c.year : ℤ)) =
      some ((c.era * 400 + c.yoe : ℕ) : ℤ) := by
  have hyoe := c.yoe_lt
  unfold year
  by_cases hle : c.month ≤ 2
  · rw [if_pos hle, if_pos hle, i32_eq (by omega) (by omega)]
    exact congrArg some (by push_cast; ring)
  · rw [if_neg hle, if_neg hle, Nat.add_zero]

theorem shifted_month (c : Civil) :
    (if c.month > 2 then u32 (c.month - 3) else u32 (c.month + 9)) = some c.mp := by
  have hmp := c.mp_le
  by_cases h : c.mp < 10
  · rw [month_low h, if_pos (by omega), u32_eq (n := c.mp) (by omega) (by omega)]
  · rw [month_high h, if_neg (by omega), u32_eq (n := c.mp) (by omega) (by omega)]

/-- The day of a number, its year by the estimate. -/
def ofNumber (z : ℕ) : Civil :=
  let doe := z % 146097
  let yoe := (doe - doe / 1460 + doe / 36524 - doe / 146096) / 365
  have h := year_of_era (Nat.mod_lt z (by omega)) rfl
  { era := z / 146097
    yoe := yoe
    doy := doe - (yoe * 365 + yoe / 4 - yoe / 100)
    yoe_lt := h.1
    doy_le := by
      obtain ⟨-, doy, hdoy, hdoe, -⟩ := h
      exact Nat.sub_le_iff_le_add'.2 (hdoe.trans_le (Nat.add_le_add_left hdoy _))
    leap := by
      obtain ⟨-, doy, hdoy, hdoe, hleap⟩ := h
      exact fun heq => hleap ((Nat.sub_eq_of_eq_add' hdoe).symm.trans heq) }

theorem ofNumber_doe (z : ℕ) : (ofNumber z).doe = z % 146097 := by
  obtain ⟨-, doy, -, hdoe, -⟩ := year_of_era (Nat.mod_lt z (by omega : 0 < 146097)) rfl
  exact Nat.add_sub_cancel' (hdoe ▸ Nat.le_add_right _ _)

theorem ofNumber_yoe (z : ℕ) :
    (ofNumber z).yoe = ((ofNumber z).doe - (ofNumber z).doe / 1460 + (ofNumber z).doe / 36524 -
      (ofNumber z).doe / 146096) / 365 := by
  rw [ofNumber_doe]
  rfl

theorem ofNumber_number (z : ℕ) : (ofNumber z).number = z := by
  rw [number, ofNumber_doe]
  exact Nat.div_add_mod' z 146097

/-- The date of a day. -/
def date (c : Civil) (seconds : ℕ) : DateTime :=
  ⟨c.year, c.month, c.dom + 1, seconds / 3600, seconds % 3600 / 60, seconds % 60⟩

theorem back_year (c : Civil) (hera : c.era ≤ 10) :
    (if c.month ≤ 2 then i32 ((c.era * 400 + c.yoe : ℕ) + 1)
      else some ((c.era * 400 + c.yoe : ℕ) : ℤ)) =
      some (c.year : ℤ) := by
  have hyoe := c.yoe_lt
  unfold year
  by_cases hle : c.month ≤ 2
  · rw [if_pos hle, if_pos hle, i32_eq (by omega) (by omega)]
    exact congrArg some (by push_cast; ring)
  · rw [if_neg hle, if_neg hle, Nat.add_zero]

theorem year_le (c : Civil) (hera : c.era ≤ 10) : c.year ≤ 4400 := by
  have hyoe := c.yoe_lt
  unfold year
  split_ifs <;> omega

theorem month_le (c : Civil) : 1 ≤ c.month ∧ c.month ≤ 12 := by
  have hmp := c.mp_le
  unfold month
  split_ifs <;> omega

theorem back_month (c : Civil) :
    (if c.mp < 10 then u32 (c.mp + 3) else u32 (c.mp - 9)) = some c.month := by
  have hmp := c.mp_le
  by_cases h : c.mp < 10
  · rw [if_pos h, month_low h, u32_eq (n := c.mp + 3) (by omega) (by omega)]
  · rw [if_neg h, month_high h, u32_eq (n := c.mp - 9) (by omega) (by omega)]

end Civil

/-- The way back. -/
theorem daysFromCivil_eq (c : Civil) (hera : c.era ≤ 10) (days : ℕ) (hdays : days < 2147483648)
    (h : c.number = days + 719468) :
    daysFromCivil c.year c.month (c.dom + 1) = some days := by
  have hyoe := c.yoe_lt
  have hn : (if ((c.era * 400 + c.yoe : ℕ) : ℤ) ≥ 0 then some ((c.era * 400 + c.yoe : ℕ) : ℤ)
      else i32 (((c.era * 400 + c.yoe : ℕ) : ℤ) - 399)) = some ((c.era * 400 + c.yoe : ℕ) : ℤ) :=
    if_pos (by omega)
  have hdiv : ((c.era * 400 + c.yoe : ℕ) : ℤ).tdiv 400 = c.era := by
    rw [Int.tdiv_eq_ediv_of_nonneg (by omega)]
    omega
  have hnumber : c.number = c.era * 146097 + c.doe := rfl
  have hdoy := c.doy_eq
  have hdoe : c.doe = c.yoe * 365 + c.yoe / 4 - c.yoe / 100 + c.doy := rfl
  have hmp := c.mp_le
  have hdom := c.dom_lt
  have hstart : (153 * c.mp + 2) / 5 ≤ 337 := by omega
  have hyear : c.yoe * 365 + c.yoe / 4 - c.yoe / 100 ≤ 146000 := by omega
  have hfirst : i32 (c.era * 400) = some ((c.era : ℤ) * 400) := i32_eq (by omega) (by omega)
  have hyoe' : u32 ((c.era * 400 + c.yoe : ℕ) - c.era * 400) = some c.yoe :=
    u32_eq (by omega) (by omega)
  have hdoy₁ : u32 (((153 * c.mp + 2) / 5 : ℕ) + (c.dom + 1 : ℕ)) = some (c.doy + 1) :=
    u32_eq (by omega) (by omega)
  have hdoy₂ : u32 ((c.doy + 1 : ℕ) - 1) = some c.doy := u32_eq (by omega) (by omega)
  have hdoe' : u32 ((c.yoe * 365 + c.yoe / 4 - c.yoe / 100 : ℕ) + c.doy) = some c.doe :=
    u32_eq (by omega) (by omega)
  have hdays₁ : i32 (c.era * 146097) = some ((c.era : ℤ) * 146097) := i32_eq (by omega) (by omega)
  have hdays₂ : i32 (c.era * 146097 + c.doe) = some ((c.era : ℤ) * 146097 + c.doe) :=
    i32_eq (by omega) (by omega)
  have hdays₃ : i32 (c.era * 146097 + c.doe - 719468) = some (days : ℤ) := by
    rw [i32_eq (by omega) (by omega)]
    exact congrArg some (by omega)
  unfold daysFromCivil
  rw [bind_of_eq (c.shifted_year hera), bind_of_eq hn, hdiv, bind_of_eq hfirst, bind_of_eq hyoe',
    bind_of_eq c.shifted_month, bind_of_eq (monthStart_eq hmp), bind_of_eq hdoy₁, bind_of_eq hdoy₂,
    bind_of_eq (yearStart_eq hyoe), bind_of_eq hdoe', bind_of_eq hdays₁, bind_of_eq hdays₂,
    bind_of_eq hdays₃]
  exact u32_eq rfl (by omega)

theorem fromUnix_eq {e : ℕ} (he : e < 4294967296) :
    (Civil.ofNumber (e / 86400 + 719468)).era ≤ 10 ∧
      fromUnix e = some ((Civil.ofNumber (e / 86400 + 719468)).date (e % 86400)) := by
  have hera : (Civil.ofNumber (e / 86400 + 719468)).era = (e / 86400 + 719468) / 146097 := rfl
  have hdoe := Civil.ofNumber_doe (e / 86400 + 719468)
  have hyoe := Civil.ofNumber_yoe (e / 86400 + 719468)
  generalize Civil.ofNumber (e / 86400 + 719468) = c at hera hdoe hyoe ⊢
  have hdays : i32 (e / 86400) = some ((e / 86400 : ℕ) : ℤ) := i32_eq (by omega) (by omega)
  have hz : i32 ((e / 86400 : ℕ) + 719468) = some ((e / 86400 + 719468 : ℕ) : ℤ) :=
    i32_eq (by omega) (by omega)
  have hn : (if ((e / 86400 + 719468 : ℕ) : ℤ) ≥ 0 then some ((e / 86400 + 719468 : ℕ) : ℤ)
      else i32 (((e / 86400 + 719468 : ℕ) : ℤ) - 146096)) = some ((e / 86400 + 719468 : ℕ) : ℤ) :=
    if_pos (by omega)
  have hdiv : ((e / 86400 + 719468 : ℕ) : ℤ).tdiv 146097 = c.era := by
    rw [Int.tdiv_eq_ediv_of_nonneg (by omega)]
    omega
  have hera' : c.era ≤ 10 := by omega
  have hfirst : i32 (c.era * 146097) = some ((c.era : ℤ) * 146097) := i32_eq (by omega) (by omega)
  have hdoe' : u32 ((e / 86400 + 719468 : ℕ) - c.era * 146097) = some c.doe :=
    u32_eq (by omega) (by omega)
  have hlt : c.doe < 146097 := by omega
  have hquads : u32 (c.doe - c.doe / 1460) = some (c.doe - c.doe / 1460) :=
    u32_eq (by omega) (by omega)
  have hcenturies : u32 ((c.doe - c.doe / 1460 : ℕ) + c.doe / 36524) =
      some (c.doe - c.doe / 1460 + c.doe / 36524) := u32_eq (by omega) (by omega)
  have heras : u32 ((c.doe - c.doe / 1460 + c.doe / 36524 : ℕ) - c.doe / 146096) =
      some (c.doe - c.doe / 1460 + c.doe / 36524 - c.doe / 146096) := u32_eq (by omega) (by omega)
  have hyears : i32 (c.era * 400) = some ((c.era : ℤ) * 400) := i32_eq (by omega) (by omega)
  have hyoe' := c.yoe_lt
  have hy : i32 (c.yoe + c.era * 400) = some ((c.era * 400 + c.yoe : ℕ) : ℤ) := by
    rw [i32_eq (by omega) (by omega)]
    exact congrArg some (by push_cast; ring)
  have hdoeq : c.doe = c.yoe * 365 + c.yoe / 4 - c.yoe / 100 + c.doy := rfl
  have hdoyq := c.doy_eq
  have hdom := c.dom_lt
  have hmp : (5 * c.doy + 2) / 153 = c.mp := rfl
  have hmple := c.mp_le
  have hyear := c.year_le hera'
  have hmonth := c.month_le
  have hdoy' : u32 (c.doe - (c.yoe * 365 + c.yoe / 4 - c.yoe / 100 : ℕ)) = some c.doy :=
    u32_eq (by omega) (by omega)
  have hfive : u32 (5 * c.doy) = some (5 * c.doy) := u32_eq (by omega) (by omega)
  have hround : u32 ((5 * c.doy : ℕ) + 2) = some (5 * c.doy + 2) := u32_eq (by omega) (by omega)
  have hday : u32 (c.doy - ((153 * c.mp + 2) / 5 : ℕ)) = some c.dom := u32_eq (by omega) (by omega)
  have hday₁ : u32 (c.dom + 1) = some (c.dom + 1) := u32_eq (by omega) (by omega)
  have hday₂ : u8 (c.dom + 1 : ℕ) = some (c.dom + 1) := u8_eq rfl (by omega)
  have hmonth₁ : u8 c.month = some c.month := u8_eq rfl (by omega)
  have hyear₁ : u16 c.year = some c.year := u16_eq rfl (by omega)
  have hhour : u8 ((e % 86400 : ℕ) / 3600) = some (e % 86400 / 3600) := u8_eq (by omega) (by omega)
  have hminute : u8 ((e % 86400 : ℕ) % 3600 / 60) = some (e % 86400 % 3600 / 60) :=
    u8_eq (by omega) (by omega)
  have hsecond : u8 ((e % 86400 : ℕ) % 60) = some (e % 86400 % 60) := u8_eq (by omega) (by omega)
  refine ⟨hera', ?_⟩
  unfold fromUnix
  rw [bind_of_eq hdays]
  dsimp only
  rw [bind_of_eq hz, bind_of_eq hn, hdiv, bind_of_eq hfirst, bind_of_eq hdoe', bind_of_eq hquads,
    bind_of_eq hcenturies, bind_of_eq heras, ← hyoe, bind_of_eq hyears, bind_of_eq hy,
    bind_of_eq (yearStart_eq hyoe'), bind_of_eq hdoy', bind_of_eq hfive, bind_of_eq hround, hmp]
  rw [bind_of_eq (monthStart_eq hmple), bind_of_eq hday, bind_of_eq hday₁, bind_of_eq hday₂,
    bind_of_eq c.back_month, bind_of_eq hmonth₁, bind_of_eq (c.back_year hera'), bind_of_eq hyear₁,
    bind_of_eq hhour, bind_of_eq hminute, bind_of_eq hsecond]
  rfl

/-! ## The order of dates -/

namespace Civil

variable {c d : Civil}

theorem dom_lt_daysInMonth (c : Civil) : c.dom < daysInMonth c.year c.month := by
  have hdoy := c.doy_le
  have hsum := c.doy_eq
  have hmp : c.mp = (5 * c.doy + 2) / 153 := rfl
  have hmple := c.mp_le
  by_cases hfeb : c.mp = 11
  · have hmonth : c.month = 2 := by rw [month_high (by omega), hfeb]
    have hyear : c.year = c.era * 400 + c.yoe + 1 := by rw [year, if_pos (by omega)]
    rw [daysInMonth, if_pos hmonth]
    rw [hfeb] at hsum
    by_cases hlast : c.doy = 365
    · have hleap : LeapYear c.year := by
        have := c.leap hlast
        unfold LeapNext at this
        unfold LeapYear
        omega
      rw [if_pos hleap]
      omega
    · split_ifs <;> omega
  · have hmonth : c.month ≠ 2 := by
      by_cases h : c.mp < 10
      · rw [month_low h]
        omega
      · rw [month_high h]
        omega
    have hlow : c.mp < 10 → c.month = c.mp + 3 := month_low
    have hhigh : ¬c.mp < 10 → c.month = c.mp - 9 := month_high
    rw [daysInMonth, if_neg hmonth]
    split_ifs with hshort
    · rcases hshort with h | h | h | h
      · have hmp' : c.mp = 1 := by omega
        rw [hmp'] at hsum hmp
        omega
      · have hmp' : c.mp = 3 := by omega
        rw [hmp'] at hsum hmp
        omega
      · have hmp' : c.mp = 6 := by omega
        rw [hmp'] at hsum hmp
        omega
      · have hmp' : c.mp = 8 := by omega
        rw [hmp'] at hsum hmp
        omega
    · exact c.dom_lt

theorem date_valid (c : Civil) {s : ℕ} (hs : s < 86400) : (c.date s).Valid where
  month := c.month_le
  day := ⟨Nat.le_add_left 1 c.dom, c.dom_lt_daysInMonth⟩
  hour := by
    change s / 3600 < 24
    omega
  minute := by
    change s % 3600 / 60 < 60
    omega
  second := Nat.mod_lt s (by omega)

/-- Months are in order as they follow from March on. -/
theorem months (c : Civil) : 12 * c.year + c.month = 12 * (c.era * 400 + c.yoe) + c.mp + 3 := by
  have hmp := c.mp_le
  unfold year
  by_cases h : c.mp < 10
  · rw [month_low h, if_neg (by omega)]
    omega
  · rw [month_high h, if_pos (by omega)]
    omega

theorem year_mono (h : c.number < d.number) : c.era * 400 + c.yoe ≤ d.era * 400 + d.yoe := by
  have hc : c.number = c.era * 146097 + c.doe := rfl
  have hd : d.number = d.era * 146097 + d.doe := rfl
  have hclt := c.doe_lt
  have hdlt := d.doe_lt
  have hyoe := c.yoe_lt
  have hdyoe := d.yoe_lt
  have hera : c.era ≤ d.era := by omega
  rcases Nat.lt_or_eq_of_le hera with hlt | heq
  · omega
  · have hdoe : c.doe < d.doe := by omega
    have hleap := d.leap
    have hdoy := d.doy_le
    unfold doe at hdoe
    unfold LeapNext at hleap
    omega

theorem lex_of_number (h : c.number < d.number) :
    12 * c.year + c.month < 12 * d.year + d.month ∨
      12 * c.year + c.month = 12 * d.year + d.month ∧ c.dom < d.dom := by
  have hmonths := c.months
  have hdmonths := d.months
  have hmp := c.mp_le
  rcases Nat.lt_or_eq_of_le (year_mono h) with hlt | heq
  · omega
  · have hyoe := c.yoe_lt
    have hdyoe := d.yoe_lt
    have hera : c.era = d.era := by omega
    have hyear : c.yoe = d.yoe := by omega
    have hdoy : c.doy < d.doy := by
      unfold number doe at h
      rw [hera, hyear] at h
      omega
    have hle : c.mp ≤ d.mp := Nat.div_le_div_right (by omega)
    rcases Nat.lt_or_eq_of_le hle with hmp' | hmp'
    · omega
    · have hsum := c.doy_eq
      have hdsum := d.doy_eq
      rw [hmp'] at hsum
      omega

theorem date_lt (h : c.number < d.number) (s s' : ℕ) : (c.date s).fields < (d.date s').fields := by
  have hmonth := c.month_le
  have hdmonth := d.month_le
  simp only [DateTime.fields, date, List.cons_lt_cons_iff]
  rcases lex_of_number h with hlt | ⟨heq, hdom⟩
  · rcases Nat.lt_or_ge c.year d.year with hyear | hyear
    · exact .inl hyear
    · exact .inr ⟨by omega, .inl (by omega)⟩
  · exact .inr ⟨by omega, .inr ⟨by omega, .inl (by omega)⟩⟩

theorem time_lt (c : Civil) {s s' : ℕ} (h : s < s') : (c.date s).fields < (c.date s').fields := by
  simp only [DateTime.fields, date, List.cons_lt_cons_iff, lt_irrefl, false_or, true_and]
  omega

theorem date_timeOfDay (c : Civil) (s : ℕ) : (c.date s).timeOfDay = s := by
  simp only [DateTime.timeOfDay, date]
  omega

end Civil

theorem toUnix_eq {t : DateTime} {days e : ℕ}
    (hdays : daysFromCivil t.year t.month t.day = some days)
    (he : e < 4294967296) (h : days * 86400 + t.timeOfDay = e) : toUnix t = some e := by
  unfold DateTime.timeOfDay at h
  have hday : u32 (days * 86400) = some (days * 86400) := u32_eq (by omega) (by omega)
  have hhour : u32 ((days * 86400 : ℕ) + t.hour * 3600) = some (days * 86400 + t.hour * 3600) :=
    u32_eq (by omega) (by omega)
  have hminute : u32 ((days * 86400 + t.hour * 3600 : ℕ) + t.minute * 60) =
      some (days * 86400 + t.hour * 3600 + t.minute * 60) := u32_eq (by omega) (by omega)
  unfold toUnix
  rw [bind_of_eq hdays, bind_of_eq hday, bind_of_eq hhour, bind_of_eq hminute]
  exact u32_eq (by omega) (by omega)

/-- Every Unix time has a date, which leads back to it, and later times have later dates. -/
theorem calendar_round_trip (e : UInt32) :
    ∃ t days, fromUnix e.toNat = some t ∧ t.Valid ∧ daysFromCivil t.year t.month t.day = some days ∧
      days * 86400 + t.timeOfDay = e.toNat ∧ toUnix t = some e.toNat ∧
      ∀ (e' : UInt32) (t' : DateTime), e < e' → fromUnix e'.toNat = some t' →
      t.fields < t'.fields := by
  have he : e.toNat < 4294967296 := e.toNat_lt
  obtain ⟨hera, hfrom⟩ := fromUnix_eq he
  have hnumber := Civil.ofNumber_number (e.toNat / 86400 + 719468)
  have hdays := daysFromCivil_eq _ hera (e.toNat / 86400) (by omega) hnumber
  have hsum : e.toNat / 86400 * 86400 +
      ((Civil.ofNumber (e.toNat / 86400 + 719468)).date (e.toNat % 86400)).timeOfDay = e.toNat := by
    rw [Civil.date_timeOfDay]
    exact Nat.div_add_mod' e.toNat 86400
  refine ⟨_, e.toNat / 86400, hfrom, Civil.date_valid _ (Nat.mod_lt _ (by omega)), hdays, hsum,
    toUnix_eq hdays he hsum, fun e' t' hlt hfrom' => ?_⟩
  have hlt' : e.toNat < e'.toNat := hlt
  rw [(fromUnix_eq e'.toNat_lt).2, Option.some.injEq] at hfrom'
  subst hfrom'
  rcases Nat.lt_or_eq_of_le (Nat.div_le_div_right (c := 86400) hlt'.le) with hday | hday
  · exact Civil.date_lt (by rw [Civil.ofNumber_number, Civil.ofNumber_number]; omega) _ _
  · rw [hday]
    exact Civil.time_lt _ (by omega)

/-- A leap day. -/
example : fromUnix 951782400 = some ⟨2000, 2, 29, 0, 0, 0⟩ := by decide +kernel

end Rtc

end Tcmk
