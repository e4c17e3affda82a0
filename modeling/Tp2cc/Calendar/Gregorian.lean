import Mathlib.Order.Defs.LinearOrder
import Mathlib.Tactic.IntervalCases

set_option autoImplicit false

namespace Calendar

def IsLeap (year : Int) : Prop := year % 4 = 0 ∧ (year % 100 ≠ 0 ∨ year % 400 = 0)

instance (year : Int) : Decidable (IsLeap year) := inferInstanceAs (Decidable (_ ∧ _))

def yearLength (year : Int) : Int := if IsLeap year then 366 else 365

def daysInMonth (year : Int) : Nat → Int
  | 2 => if IsLeap year then 29 else 28
  | 4 | 6 | 9 | 11 => 30
  | _ => 31

/-- A date of the calendar: no other can be built. -/
@[ext] structure Date where
  year : Int
  month : Nat
  day : Int
  month_pos : 1 ≤ month
  month_le : month ≤ 12
  day_pos : 1 ≤ day
  day_le : day ≤ daysInMonth year month

theorem daysInMonth_cases (year : Int) (month : Nat) :
    28 ≤ daysInMonth year month ∧ daysInMonth year month ≤ 31 := by
  unfold daysInMonth
  split
  · split <;> omega
  all_goals omega

def Date.next (d : Date) : Date :=
  if h : d.day < daysInMonth d.year d.month then
    ⟨d.year, d.month, d.day+1, d.month_pos, d.month_le, by have := d.day_pos; omega, by omega⟩
  else if h : d.month < 12 then
    ⟨d.year, d.month+1, 1, by omega, by omega, by omega, by
      have := daysInMonth_cases d.year (d.month+1); omega⟩
  else ⟨d.year+1, 1, 1, by omega, by omega, by omega, by
      have := daysInMonth_cases (d.year+1) 1; omega⟩

def yearStart (year : Int) : Int := 365*(year-1)+(year-1)/4-(year-1)/100+(year-1)/400

def monthStart (year : Int) : Nat → Int
  | 0 => 0
  | month+1 => monthStart year month + daysInMonth year (month+1)

/-- The number of the day, counted from 1970-01-01. -/
def Date.dayNumber (d : Date) : Int :=
  yearStart d.year + monthStart d.year (d.month-1) + d.day - 719163

example : Date.dayNumber ⟨1970, 1, 1, by decide, by decide, by decide, by decide⟩ = 0 := by decide

/-- Every four years there is a leap year, except in three centuries out of four. -/
theorem yearStart_succ (year : Int) : yearStart (year+1) = yearStart year + yearLength year := by
  unfold yearStart yearLength
  by_cases h : IsLeap year
  · rw [if_pos h]
    unfold IsLeap at h
    omega
  · rw [if_neg h]
    unfold IsLeap at h
    omega

theorem monthStart_twelve (year : Int) : monthStart year 12 = yearLength year := by
  simp only [monthStart, daysInMonth, yearLength]
  split <;> omega

theorem Date.dayNumber_next (d : Date) : d.next.dayNumber = d.dayNumber + 1 := by
  have hpos := d.month_pos
  have hle := d.month_le
  have hday := d.day_le
  unfold next
  split
  · simp only [dayNumber]
    omega
  next h =>
    obtain ⟨m, hm⟩ : ∃ m, d.month = m+1 := ⟨d.month-1, by omega⟩
    have hlast : d.day = daysInMonth d.year (m+1) := by rw [← hm]; omega
    split
    · simp only [dayNumber, hm, Nat.add_sub_cancel, monthStart]
      omega
    · have hm11 : m = 11 := by omega
      subst hm11
      have hlast : d.day = daysInMonth d.year 12 := hlast
      have htwelve : monthStart d.year 11 + daysInMonth d.year 12 = yearLength d.year :=
        monthStart_twelve d.year
      have hfirst : monthStart (d.year+1) (1-1) = 0 := rfl
      simp only [dayNumber, hm, Nat.add_sub_cancel, yearStart_succ, hfirst]
      omega

/-! Days count up with their dates. -/

theorem yearStart_le {y z : Int} (h : y < z) : yearStart y + yearLength y ≤ yearStart z := by
  rw [← yearStart_succ]
  unfold yearStart
  omega

theorem monthStart_le (year : Int) {m n : Nat} (h : m < n) :
    monthStart year m + daysInMonth year (m+1) ≤ monthStart year n := by
  induction h with
  | refl => exact le_refl _
  | step _ ih =>
    have := daysInMonth_cases year
    rw [monthStart]
    grind

theorem monthStart_nonneg (year : Int) (m : Nat) : 0 ≤ monthStart year m := by
  induction m with
  | zero => exact le_refl _
  | succ m ih =>
    have := daysInMonth_cases year (m+1)
    rw [monthStart]
    omega

theorem Date.dayOfYear_bounds (d : Date) : 1 ≤ monthStart d.year (d.month-1) + d.day ∧
    monthStart d.year (d.month-1) + d.day ≤ yearLength d.year := by
  obtain ⟨m, hm⟩ : ∃ m, d.month = m+1 := ⟨d.month-1, by have := d.month_pos; omega⟩
  have hpos := d.day_pos
  have hday := d.day_le
  have hstart := monthStart_nonneg d.year m
  have hend : monthStart d.year m + daysInMonth d.year (m+1) ≤ yearLength d.year := by
    rw [← monthStart_twelve]
    exact monthStart_le d.year (by have := d.month_le; omega)
  rw [hm] at hday ⊢
  rw [Nat.add_sub_cancel]
  omega

def Date.Before (a b : Date) : Prop :=
  a.year < b.year ∨ (a.year = b.year ∧
    (a.month < b.month ∨ (a.month = b.month ∧ a.day < b.day)))

theorem Date.Before.dayNumber_lt {a b : Date} (h : a.Before b) : a.dayNumber < b.dayNumber := by
  have ha := a.dayOfYear_bounds
  have hb := b.dayOfYear_bounds
  unfold dayNumber
  rcases h with h | ⟨hy, h | ⟨hm, h⟩⟩
  · have := yearStart_le h
    omega
  · have hpos := a.month_pos
    have hday := a.day_le
    have hbday := b.day_pos
    have hm : a.month-1 < b.month-1 := by omega
    have hstart := monthStart_le a.year hm
    rw [Nat.sub_add_cancel hpos] at hstart
    rw [← hy]
    omega
  · rw [hy, hm]
    omega

theorem Date.before_trichotomy (a b : Date) : a.Before b ∨ a = b ∨ b.Before a := by
  unfold Before
  by_cases h : a.year = b.year ∧ a.month = b.month ∧ a.day = b.day
  · exact .inr (.inl (Date.ext h.1 h.2.1 h.2.2))
  · omega

theorem Date.dayNumber_lt_iff {a b : Date} : a.dayNumber < b.dayNumber ↔ a.Before b := by
  constructor
  · intro h
    rcases a.before_trichotomy b with hb | rfl | hb
    · exact hb
    · omega
    · have := hb.dayNumber_lt
      omega
  · exact Before.dayNumber_lt

theorem Date.dayNumber_injective {a b : Date} (h : a.dayNumber = b.dayNumber) : a = b := by
  rcases a.before_trichotomy b with hb | hb | hb
  · have := hb.dayNumber_lt
    omega
  · exact hb
  · have := hb.dayNumber_lt
    omega

end Calendar
