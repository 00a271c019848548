import Mathlib.Tactic.IntervalCases
import PlaybackCues.Time.Calendar

set_option autoImplicit false

/-!
# Days and dates

Every day has a date that exists, and the date leads back to the day. A day is placed by its cycle
of 400 years, its year within the cycle, its month and its day, where years start in March. The year
of a day is found by a division that is exact on the first and on the last day of each year of the
cycle; since it is monotone, it is exact on the days between them.
-/
namespace PlaybackCues.CalendarDate

/-! ## The years of a cycle -/

/-- The days of a cycle before one of its years. -/
def newYear (year : Nat) : Nat := 365 * year + year / 4 - year / 100 + year / 400

def yearOf (d : Nat) : Nat := (d - d / 1460 + d / 36524 - d / 146096) / 365

theorem yearOf_mono {d e : Nat} (h : d ≤ e) (he : e < 146097) : yearOf d ≤ yearOf e := by
  have hleap : d - d / 1460 ≤ e - e / 1460 := by omega
  have hcentury : d / 36524 ≤ e / 36524 := Nat.div_le_div_right h
  rcases Nat.lt_or_eq_of_le h with hlt | rfl
  · exact Nat.div_le_div_right (by omega)
  · exact Nat.le_refl _

/-- The first and the last day of each year. -/
theorem yearOf_ends : ∀ y : Fin 400, newYear (y + 1) ≤ 146097 ∧
    yearOf (newYear y) = y ∧ yearOf (newYear (y + 1) - 1) = y := by
  decide +kernel

theorem yearOf_bounds {d : Nat} (h : d < 146097) :
    yearOf d < 400 ∧ newYear (yearOf d) ≤ d ∧ d < newYear (yearOf d + 1) := by
  have hyear : yearOf d ≤ yearOf 146096 := yearOf_mono (Nat.le_of_lt_succ h) (Nat.le_refl _)
  rw [show yearOf 146096 = 399 from rfl] at hyear
  refine ⟨by omega, Nat.le_of_not_lt fun hlt => ?_, Nat.lt_of_not_le fun hle => ?_⟩
  · obtain ⟨y, hy⟩ : ∃ y, yearOf d = y + 1 := by
      refine Nat.exists_eq_add_one.mpr (Nat.pos_of_ne_zero fun hzero => ?_)
      rw [hzero] at hlt
      exact Nat.not_lt_zero _ hlt
    obtain ⟨hbound, -, hend⟩ := yearOf_ends ⟨y, by omega⟩
    dsimp only at hbound hend
    rw [hy] at hlt
    have hmono : yearOf d ≤ yearOf (newYear (y + 1) - 1) := yearOf_mono (by omega) (by omega)
    omega
  · by_cases hlast : yearOf d = 399
    · rw [hlast] at hle
      exact absurd (Nat.lt_of_le_of_lt hle h) (by decide)
    · have hstart := (yearOf_ends ⟨yearOf d + 1, by omega⟩).2.1
      have hmono := yearOf_mono hle h
      dsimp only at hstart
      omega

/-! ## Places in a cycle -/

/-- A day by its cycle, the year and the month within, both from zero, and the day of the month. -/
structure Place where
  cycle : Int
  year : Nat
  month : Nat
  day : Nat

namespace Place

def days (p : Place) : Int :=
  p.cycle * 146097 + newYear p.year + daysBefore p.month + p.day - 719468

/-- January and February belong to the next year of the calendar. -/
def date (p : Place) : CalendarDate where
  year := p.cycle * 400 + p.year + if p.month < 10 then 0 else 1
  month := if p.month < 10 then p.month + 3 else p.month - 9
  day := p.day + 1

theorem toDays_date {p : Place} (hyear : p.year < 400) (hmonth : p.month < 12) :
    p.date.toDays = p.days := by
  obtain ⟨cycle, year, month, day⟩ := p
  dsimp only at hyear hmonth
  unfold toDays date days newYear
  by_cases h : month < 10
  · simp only [if_pos h, if_neg (show ¬ month + 3 ≤ 2 by omega)]
    rw [show (month + 3 + 9) % 12 = month by omega]
    omega
  · simp only [if_neg h, if_pos (show month - 9 ≤ 2 by omega)]
    rw [show (month - 9 + 9) % 12 = month by omega]
    omega

structure Fits (p : Place) : Prop where
  year : p.year < 400
  month : p.month < 12
  inMonth : daysBefore p.month + p.day < daysBefore (p.month + 1)
  inYear : newYear p.year + daysBefore p.month + p.day < newYear (p.year + 1)

theorem isLeapYear_iff (cycle : Int) {year : Nat} (h : year < 400) :
    isLeapYear (cycle * 400 + year + 1) = true ↔ newYear (year + 1) = newYear year + 366 := by
  unfold isLeapYear newYear
  simp only [Bool.and_eq_true, Bool.or_eq_true, decide_eq_true_eq]
  omega

theorem newYear_succ (year : Nat) :
    newYear year + 365 ≤ newYear (year + 1) ∧ newYear (year + 1) ≤ newYear year + 366 := by
  unfold newYear
  omega

theorem Fits.lt_daysInMonth {p : Place} (h : p.Fits) :
    p.day < daysInMonth p.date.year p.date.month := by
  obtain ⟨cycle, year, month, day⟩ := p
  obtain ⟨hyear, hmonth, hday, hlast⟩ := h
  dsimp only [date] at hyear hmonth hday hlast ⊢
  by_cases hfeb : month = 11
  · subst hfeb
    -- The last month of the year is as long as the year lets it be.
    have hleap := isLeapYear_iff cycle hyear
    have hlength := newYear_succ year
    have hbefore : daysBefore 11 = 337 := rfl
    show day < if isLeapYear (cycle * 400 + year + 1) = true then 29 else 28
    split
    · omega
    · rename_i hcommon
      rw [hleap] at hcommon
      omega
  · unfold daysBefore at hday
    interval_cases month <;> simp [daysInMonth] at hday hfeb ⊢ <;> omega

theorem isValid_date {p : Place} (h : p.Fits) : p.date.isValid = true := by
  have hmonth : 1 ≤ p.date.month ∧ p.date.month ≤ 12 := by
    have := h.month
    dsimp only [date]
    split <;> omega
  simp only [isValid, Bool.and_eq_true, decide_eq_true_eq]
  exact ⟨⟨⟨hmonth.1, hmonth.2⟩, Nat.le_add_left 1 _⟩, h.lt_daysInMonth⟩

end Place

/-! ## The place of a day -/

def monthOf (i : Nat) : Nat := (5 * i + 2) / 153

theorem monthOf_bounds {i : Nat} (h : i < 366) :
    monthOf i < 12 ∧ daysBefore (monthOf i) ≤ i ∧ i < daysBefore (monthOf i + 1) := by
  unfold monthOf daysBefore
  omega

def place (n : Int) : Place :=
  let d := ((n + 719468) % 146097).toNat
  let i := d - newYear (yearOf d)
  ⟨(n + 719468) / 146097, yearOf d, monthOf i, i - daysBefore (monthOf i)⟩

theorem newYear_of_lt {year : Nat} (h : year < 400) :
    newYear year = 365 * year + year / 4 - year / 100 := by
  unfold newYear
  omega

/-- The place of a day exists and leads back to the day. -/
theorem place_spec (n : Int) : (place n).Fits ∧ (place n).days = n := by
  have hd : ((n + 719468) % 146097).toNat < 146097 := by omega
  obtain ⟨hyear, hle, hlt⟩ := yearOf_bounds hd
  have hnext := Place.newYear_succ (yearOf ((n + 719468) % 146097).toNat)
  obtain ⟨hmonth, hfirst, hlast⟩ := monthOf_bounds
    (i := ((n + 719468) % 146097).toNat - newYear (yearOf ((n + 719468) % 146097).toNat)) (by omega)
  refine ⟨⟨hyear, hmonth, ?_, ?_⟩, ?_⟩
  · dsimp only [place]
    omega
  · dsimp only [place]
    omega
  · dsimp only [place, Place.days]
    omega

theorem ofDays_eq (n : Int) : ofDays n = (place n).date := by
  have hfits := (place_spec n).1
  have hnew := newYear_of_lt hfits.year
  have hmonth := hfits.month
  have hearly : ∀ m < 12, ((if m < 10 then m + 3 else m - 9) ≤ 2) = ¬ m < 10 := fun m hm => by
    split <;> simp <;> omega
  dsimp only [place] at hnew hmonth
  dsimp only [ofDays, place, Place.date]
  rw [hnew] at hmonth ⊢
  unfold monthOf yearOf at hmonth ⊢
  simp only [hearly _ hmonth, ite_not]

theorem toDays_ofDays (n : Int) : (ofDays n).toDays = n := by
  obtain ⟨hfits, hdays⟩ := place_spec n
  rw [ofDays_eq, Place.toDays_date hfits.year hfits.month, hdays]

theorem isValid_ofDays (n : Int) : (ofDays n).isValid = true := by
  rw [ofDays_eq, Place.isValid_date (place_spec n).1]

end PlaybackCues.CalendarDate
