import Tp2cc.Calendar.Gregorian

/-! Years that begin in March, counted within eras of 400 years. February, whose length varies, is
the last month then. -/
set_option autoImplicit false

namespace Calendar

/-- The days of an era before one of its years. -/
def eraStart (yoe : Int) : Int := 365*yoe + yoe/4 - yoe/100

/-- The days of a year that begins in March before one of its months, March being month 0. -/
def marchStart (mp : Int) : Int := (153*mp+2)/5

def yearOfEra (doe : Int) : Int := (doe - doe/1460 + doe/36524 - doe/146096)/365

def marchMonth (doy : Int) : Int := (5*doy+2)/153

/-- The number of a day, counted from 1970-01-01. -/
def marchNumber (era yoe doy : Int) : Int := era*146097 + (eraStart yoe + doy) - 719468

theorem exists_cycles {doe : Int} (h₀ : 0 ≤ doe) (h₁ : doe < 146097) : ∃ c q r doy : Int,
    doe = 36524*c+1461*q+365*r+doy ∧ (0 ≤ c ∧ c ≤ 3) ∧ (0 ≤ q ∧ q ≤ 24) ∧ (0 ≤ r ∧ r ≤ 3) ∧
      (0 ≤ doy ∧ doy ≤ 365) ∧ (doy = 365 → r = 3 ∧ (q = 24 → c = 3)) := by
  obtain ⟨c, hc⟩ : ∃ c, c = min (doe/36524) 3 := ⟨_, rfl⟩
  obtain ⟨q, hq⟩ : ∃ q, q = (doe-36524*c)/1461 := ⟨_, rfl⟩
  obtain ⟨r, hr⟩ : ∃ r, r = min ((doe-36524*c)%1461/365) 3 := ⟨_, rfl⟩
  exact ⟨c, q, r, doe-36524*c-1461*q-365*r, by omega⟩

theorem eraStart_cycles {c q r : Int} (hq : 0 ≤ q ∧ q ≤ 24)
    (hr : 0 ≤ r ∧ r ≤ 3) : eraStart (100*c+4*q+r) = 36524*c+1461*q+365*r := by
  unfold eraStart
  omega

/-- Where the divisions of `yearOfEra` find the year: the corrections make up for the leap days
before it. -/
theorem yearOfEra_cycles {doe c q r doy : Int} (he : doe = 36524*c+1461*q+365*r+doy)
    (hc : 0 ≤ c ∧ c ≤ 3) (hq : 0 ≤ q ∧ q ≤ 24) (hr : 0 ≤ r ∧ r ≤ 3) (hd : 0 ≤ doy ∧ doy ≤ 365)
    (hl : doy = 365 → r = 3 ∧ (q = 24 → c = 3)) : yearOfEra doe = 100*c+4*q+r := by
  have hquad : (24*c+q+365*r+doy < 1460 ∧ doe/1460 = 25*c+q) ∨
      (1460 ≤ 24*c+q+365*r+doy ∧ doe/1460 = 25*c+q+1) := by omega
  have hcent : (doe < 146096 ∧ doe/36524 = c ∧ doe/146096 = 0) ∨
      (doe = 146096 ∧ doe/36524 = c+1 ∧ doe/146096 = 1) := by omega
  unfold yearOfEra
  omega

theorem yearOfEra_spec {doe : Int} (h₀ : 0 ≤ doe) (h₁ : doe < 146097) :
    (0 ≤ yearOfEra doe ∧ yearOfEra doe < 400) ∧
      (0 ≤ doe-eraStart (yearOfEra doe) ∧ doe-eraStart (yearOfEra doe) ≤ 365) ∧
      ∀ era, doe-eraStart (yearOfEra doe) = 365 → IsLeap (400*era+yearOfEra doe+1) := by
  obtain ⟨c, q, r, doy, he, hc, hq, hr, hd, hl⟩ := exists_cycles h₀ h₁
  have hyoe := yearOfEra_cycles he hc hq hr hd hl
  have hstart := eraStart_cycles (c := c) hq hr
  have hdoy : doe-eraStart (yearOfEra doe) = doy := by
    rw [hyoe, hstart]
    omega
  rw [hdoy, hyoe]
  refine ⟨by omega, hd, fun era h => ?_⟩
  obtain ⟨rfl, hcentury⟩ := hl h
  have h₄ : (400*era+(100*c+4*q+3)+1) % 4 = 0 := by omega
  refine ⟨h₄, ?_⟩
  by_cases hq' : q = 24
  · have hc' := hcentury hq'
    omega
  · omega

theorem eraStart_add (era : Int) {yoe : Int} (h₀ : 0 ≤ yoe) (h₁ : yoe < 400) :
    era*146097 + eraStart yoe = yearStart (400*era+yoe+1) := by
  have h₄ : (400*era+yoe)/4 = 100*era+yoe/4 := by omega
  have h₁₀₀ : (400*era+yoe)/100 = 4*era+yoe/100 := by omega
  have h₄₀₀ : (400*era+yoe)/400 = era := by omega
  unfold eraStart yearStart
  rw [Int.add_sub_cancel, h₄, h₁₀₀, h₄₀₀]
  omega

def marchYear (year : Int) (month : Nat) : Int := year + if month ≤ 2 then 1 else 0

theorem Date.dayNumber_eq_march (d : Date) {era yoe mp : Int} (h₀ : 0 ≤ yoe) (h₁ : yoe < 400)
    (hy : d.year = marchYear (400*era+yoe) d.month)
    (hm : mp = d.month + if d.month > 2 then -3 else 9) :
    d.dayNumber = marchNumber era yoe (marchStart mp+d.day-1) := by
  have hera := eraStart_add era h₀ h₁
  have hsucc := yearStart_succ (400*era+yoe)
  have hpos := d.month_pos
  have hle := d.month_le
  unfold dayNumber marchNumber marchStart
  unfold marchYear at hy
  generalize d.month = m at *
  generalize d.year = y at *
  by_cases hb : m ≤ 2
  · rw [if_pos hb] at hy
    rw [hy, ← hera]
    interval_cases m
    · simp [monthStart] at hm ⊢
      omega
    · simp [monthStart, daysInMonth] at hm ⊢
      omega
  · rw [if_neg hb] at hy
    have hy' : y = 400*era+yoe := by omega
    rw [← hy'] at hera hsucc
    by_cases hleap : IsLeap y
    · rw [yearLength, if_pos hleap] at hsucc
      interval_cases m <;> simp [monthStart, daysInMonth, hleap] at hm ⊢ <;> omega
    · rw [yearLength, if_neg hleap] at hsucc
      interval_cases m <;> simp [monthStart, daysInMonth, hleap] at hm ⊢ <;> omega

def calendarMonth (mp : Int) : Int := if mp < 10 then mp+3 else mp-9

theorem calendarMonth_spec {mp : Int} (h₀ : 0 ≤ mp) (h₁ : mp < 12) :
    (1 ≤ (calendarMonth mp).toNat ∧ (calendarMonth mp).toNat ≤ 12) ∧
      mp = (calendarMonth mp).toNat + if (calendarMonth mp).toNat > 2 then -3 else 9 := by
  interval_cases mp <;> simp [calendarMonth]

theorem marchMonth_spec {year doy : Int} (h₀ : 0 ≤ doy) (h₁ : doy ≤ 365)
    (hl : doy = 365 → IsLeap (year+1)) :
    (0 ≤ marchMonth doy ∧ marchMonth doy < 12) ∧
      1 ≤ doy-marchStart (marchMonth doy)+1 ∧
      doy-marchStart (marchMonth doy)+1 ≤
        daysInMonth (marchYear year (calendarMonth (marchMonth doy)).toNat)
          (calendarMonth (marchMonth doy)).toNat := by
  have hmp : 0 ≤ marchMonth doy ∧ marchMonth doy < 12 := by
    unfold marchMonth
    omega
  obtain ⟨mp, he⟩ : ∃ mp, mp = marchMonth doy := ⟨_, rfl⟩
  rw [← he] at hmp ⊢
  unfold marchMonth at he
  refine ⟨hmp, ?_⟩
  obtain ⟨hlo, hhi⟩ := hmp
  interval_cases mp <;> simp [marchStart, calendarMonth, daysInMonth, marchYear] <;> grind

theorem exists_date (days : Int) :
    let doe := (days+719468) % 146097
    let yoe := yearOfEra doe
    let doy := doe-eraStart yoe
    let mp := marchMonth doy
    let month := (calendarMonth mp).toNat
    ∃ d : Date, d.dayNumber = days ∧ d.day = doy-marchStart mp+1 ∧ d.month = month ∧
      d.year = marchYear (400*((days+719468)/146097)+yoe) month := by
  intro doe yoe doy mp month
  have hdoe : 0 ≤ doe ∧ doe < 146097 := by omega
  obtain ⟨hyoe, hdoy, hleap⟩ := yearOfEra_spec hdoe.1 hdoe.2
  obtain ⟨hmp, hday⟩ := marchMonth_spec hdoy.1 hdoy.2 (hleap ((days+719468)/146097))
  obtain ⟨hmonth, hshift⟩ := calendarMonth_spec hmp.1 hmp.2
  let d : Date := ⟨marchYear (400*((days+719468)/146097)+yoe) month, month,
    doy-marchStart mp+1, hmonth.1, hmonth.2, hday.1, hday.2⟩
  refine ⟨d, ?_, rfl, rfl, rfl⟩
  have hsum : marchStart mp + d.day - 1 = doy := by
    simp only [d]
    omega
  have hyear : eraStart yoe + doy = doe := by
    simp only [doy]
    omega
  rw [d.dayNumber_eq_march hyoe.1 hyoe.2 rfl hshift, hsum, marchNumber, hyear]
  omega

end Calendar
