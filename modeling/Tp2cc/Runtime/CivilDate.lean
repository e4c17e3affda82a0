import Tp2cc.Calendar.March
import Tp2cc.Machine.Word

set_option autoImplicit false

namespace Tp2cc.Rt
open Machine Calendar

def civilInt32 : IntType := ⟨true, 32, IntType.thirtyTwo_pos⟩
def civilUInt32 : IntType := ⟨false, 32, IntType.thirtyTwo_pos⟩
def civilInt64 : IntType := ⟨true, 64, IntType.sixtyFour_pos⟩

/-- A signed operation with this exact result. C++ leaves it undefined where the type does not hold
the result. -/
def signedResult (t : IntType) (exact : Int) : Option (Word t) :=
  if h : t.Holds exact then some ⟨exact, h⟩ else none

/-- `value >= 0 ? value : value - below`, whose truncating division rounds down. -/
def floorDividend {t : IntType} (value : Word t) (below : Int) : Option (Word t) :=
  if value.val ≥ 0 then some value else signedResult t (value.val-below)

def unsigned (exact : Int) : Word civilUInt32 := .ofInt _ exact

/-- The three results that `tp2cc_civil_from_days` stores. -/
@[ext] structure CivilDate where
  year : Word civilInt32
  month : Word civilUInt32
  day : Word civilUInt32
  deriving DecidableEq

def dayOfEra (yoe month day : Word civilUInt32) : Word civilUInt32 :=
  let mp := unsigned (month.val + (unsigned (if month.val > 2 then -3 else 9)).val)
  let doy := unsigned ((unsigned ((unsigned (153*mp.val)).val+2)).val/5 + day.val - 1)
  unsigned (yoe.val*365 + yoe.val/4 - yoe.val/100 + doy.val)

def tp2ccDaysFromCivil (date : CivilDate) : Option (Word civilInt64) := do
  let year ← signedResult civilInt32 (date.year.val - if date.month.val ≤ 2 then 1 else 0)
  let dividend ← floorDividend year 399
  let era ← signedResult civilInt32 (dividend.val.tdiv 400)
  let eraYears ← signedResult civilInt32 (era.val*400)
  let yoe := (← signedResult civilInt32 (year.val-eraYears.val)).cast civilUInt32
  let doe := dayOfEra yoe date.month date.day
  let eraDays ← signedResult civilInt32 (era.val*146097)
  let days ← signedResult civilInt32 (eraDays.val + (doe.cast civilInt32).val)
  return (← signedResult civilInt32 (days.val-719468)).cast civilInt64

def dateOfEra (doe : Word civilUInt32) : Word civilUInt32 × Word civilUInt32 × Word civilUInt32 :=
  let yoe := unsigned ((unsigned (doe.val - doe.val/1460 + doe.val/36524 - doe.val/146096)).val/365)
  let doy := unsigned (doe.val - (unsigned (365*yoe.val + yoe.val/4 - yoe.val/100)).val)
  let mp := unsigned ((unsigned (5*doy.val+2)).val/153)
  let day := unsigned (doy.val - (unsigned (153*mp.val+2)).val/5 + 1)
  let month := unsigned (if mp.val < 10 then mp.val+3 else mp.val-9)
  (yoe, month, day)

def tp2ccCivilFromDays (days : Word civilInt64) : Option CivilDate := do
  let days ← signedResult civilInt64 (days.val+719468)
  let dividend ← floorDividend days 146096
  let era ← signedResult civilInt64 (dividend.val.tdiv 146097)
  let eraDays ← signedResult civilInt64 (era.val*146097)
  let doe := (← signedResult civilInt64 (days.val-eraDays.val)).cast civilUInt32
  let (yoe, month, day) := dateOfEra doe
  let eraYears ← signedResult civilInt32 ((era.cast civilInt32).val*400)
  let year ← signedResult civilInt32 ((yoe.cast civilInt32).val+eraYears.val)
  let year ← signedResult civilInt32 (year.val + if month.val ≤ 2 then 1 else 0)
  return ⟨year, month, day⟩

/-! Values of the steps. -/

theorem civilInt32_holds {v : Int} :
    civilInt32.Holds v ↔ -2147483648 ≤ v ∧ v ≤ 2147483647 := by
  simp [IntType.Holds, IntType.lo, IntType.hi, civilInt32]

theorem civilUInt32_holds {v : Int} : civilUInt32.Holds v ↔ 0 ≤ v ∧ v ≤ 4294967295 := by
  simp [IntType.Holds, IntType.lo, IntType.hi, civilUInt32]

theorem civilInt64_holds {v : Int} :
    civilInt64.Holds v ↔ -9223372036854775808 ≤ v ∧ v ≤ 9223372036854775807 := by
  simp [IntType.Holds, IntType.lo, IntType.hi, civilInt64]

@[simp] theorem unsigned_val (v : Int) : (unsigned v).val = v % 4294967296 := by
  simp [unsigned, IntType.reduce, civilUInt32]

theorem cast_unsigned_val {t : IntType} (w : Word t) :
    (w.cast civilUInt32).val = w.val % 4294967296 := by
  simp [IntType.reduce, civilUInt32]

theorem signedResult_bind {t : IntType} {v : Int} {β : Type} {f : Word t → Option β} {r : β} :
    (signedResult t v).bind f = some r ↔ ∃ w : Word t, w.val = v ∧ f w = some r := by
  unfold signedResult
  by_cases h : t.Holds v
  · rw [dif_pos h, Option.bind_some]
    constructor
    · intro hf
      exact ⟨_, rfl, hf⟩
    · rintro ⟨w, hw, hf⟩
      have : w = ⟨v, h⟩ := Word.ext hw
      rwa [this] at hf
  · rw [dif_neg h]
    constructor
    · intro hf
      cases hf
    · rintro ⟨w, hw, _⟩
      exact absurd (hw ▸ w.mem) h

theorem floorDividend_bind {t : IntType} {y : Word t} {k : Int} {β : Type}
    {f : Word t → Option β} {r : β} : (floorDividend y k).bind f = some r ↔
      ∃ w : Word t, w.val = (if y.val ≥ 0 then y.val else y.val-k) ∧ f w = some r := by
  unfold floorDividend
  by_cases h : y.val ≥ 0
  · rw [if_pos h, if_pos h, Option.bind_some]
    constructor
    · intro hf
      exact ⟨y, rfl, hf⟩
    · rintro ⟨w, hw, hf⟩
      rwa [Word.ext hw] at hf
  · rw [if_neg h, if_neg h, signedResult_bind]

theorem tdiv_floor {n : Int} (hn : 0 < n) (a : Int) :
    (if a ≥ 0 then a else a-(n-1)).tdiv n = a/n := by
  split
  next h => exact Int.tdiv_eq_ediv_of_nonneg h
  next h =>
    have hr := Int.emod_nonneg a hn.ne'
    have hlt := Int.emod_lt_of_pos a hn
    have hdiv := Int.mul_ediv_add_emod a n
    have hflip : (n-1-a)/n = -(a/n) := by
      refine ((Int.ediv_emod_unique (r := n-1-a%n) hn).mpr ⟨?_, by omega, by omega⟩).1
      rw [Int.mul_neg]
      omega
    have hneg : a-(n-1) = -(n-1-a) := by omega
    rw [hneg, Int.neg_tdiv, Int.tdiv_eq_ediv_of_nonneg (by omega), hflip, Int.neg_neg]

/-! Dates to days. -/

def CivilDate.Is (c : CivilDate) (d : Date) : Prop :=
  c.year.val = d.year ∧ c.month.val = d.month ∧ c.day.val = d.day

/-- The days that the `int32_t` sums of `tp2cc_days_from_civil` reach. -/
def DayCounted (days : Int) : Prop := -2147483648 ≤ days ∧ days ≤ 2146764179

theorem dayOfEra_val {yoe month day : Word civilUInt32} (hy : yoe.val < 400)
    (hm : 1 ≤ month.val ∧ month.val ≤ 12) (hd : 1 ≤ day.val ∧ day.val ≤ 31) :
    (dayOfEra yoe month day).val = eraStart yoe.val +
      (marchStart (month.val + if month.val > 2 then -3 else 9) + day.val - 1) := by
  have hpos := (civilUInt32_holds.mp yoe.mem).1
  simp only [dayOfEra, unsigned_val]
  have hshift : (month.val + (if month.val > 2 then -3 else 9) % 4294967296) % 4294967296 =
      month.val + if month.val > 2 then -3 else 9 := by
    split <;> omega
  have hmp : 0 ≤ (month.val + if month.val > 2 then -3 else 9) ∧
      (month.val + if month.val > 2 then -3 else 9) < 12 := by
    split <;> omega
  rw [hshift]
  generalize (month.val + if month.val > 2 then -3 else 9) = mp at hmp ⊢
  have hproduct : 153*mp % 4294967296 = 153*mp := by omega
  have hsum : (153*mp+2) % 4294967296 = 153*mp+2 := by omega
  have hdoy : ((153*mp+2)/5+day.val-1) % 4294967296 = (153*mp+2)/5+day.val-1 := by omega
  rw [hproduct, hsum, hdoy]
  unfold eraStart marchStart
  omega

theorem eraStart_bounds {yoe doy : Int} (hy : 0 ≤ yoe ∧ yoe < 400) (hd : 0 ≤ doy ∧ doy ≤ 367) :
    0 ≤ eraStart yoe + doy ∧ eraStart yoe + doy ≤ 146098 := by
  unfold eraStart
  omega

/-- The exact values of the steps: the year from March, and the day of the era. -/
theorem dayNumber_eq_civil {c : CivilDate} {d : Date} (h : c.Is d) :
    let year := c.year.val - if c.month.val ≤ 2 then 1 else 0
    let doe := eraStart (year % 400) +
      (marchStart (c.month.val + if c.month.val > 2 then -3 else 9) + c.day.val - 1)
    d.dayNumber = year/400*146097 + doe - 719468 ∧ 0 ≤ doe ∧ doe ≤ 146098 := by
  obtain ⟨hy, hm, hd⟩ := h
  intro year doe
  have hmonth := d.month_pos
  have hmonth' := d.month_le
  have hday := d.day_pos
  have hday' := d.day_le
  have hdays := daysInMonth_cases d.year d.month
  have hmod : 0 ≤ year % 400 ∧ year % 400 < 400 := by omega
  have hyear : d.year = marchYear (400*(year/400)+year%400) d.month := by
    simp only [year, marchYear, hy, hm]
    split <;> split <;> omega
  have hshift : (c.month.val + if c.month.val > 2 then -3 else 9) =
      d.month + if d.month > 2 then -3 else 9 := by
    rw [hm]
    split <;> split <;> omega
  have hnumber := d.dayNumber_eq_march hmod.1 hmod.2 hyear hshift
  rw [marchNumber, ← hd] at hnumber
  have hmp : 0 ≤ (c.month.val + if c.month.val > 2 then -3 else 9) ∧
      (c.month.val + if c.month.val > 2 then -3 else 9) < 12 := by
    rw [hm]
    split <;> omega
  have hdoy : 0 ≤ marchStart (c.month.val + if c.month.val > 2 then -3 else 9) + c.day.val - 1 ∧
      marchStart (c.month.val + if c.month.val > 2 then -3 else 9) + c.day.val - 1 ≤ 367 := by
    generalize (c.month.val + if c.month.val > 2 then -3 else 9) = mp at hmp ⊢
    unfold marchStart
    omega
  exact ⟨by simp only [doe]; omega, eraStart_bounds hmod hdoy⟩

theorem tp2ccDaysFromCivil_iff {c : CivilDate} {d : Date} (h : c.Is d) {n : Word civilInt64} :
    tp2ccDaysFromCivil c = some n ↔ n.val = d.dayNumber ∧ DayCounted d.dayNumber := by
  have hexact := dayNumber_eq_civil h
  obtain ⟨hy, hm, hd⟩ := h
  have hmonth : 1 ≤ c.month.val ∧ c.month.val ≤ 12 := by
    have := d.month_pos
    have := d.month_le
    omega
  have hday : 1 ≤ c.day.val ∧ c.day.val ≤ 31 := by
    have := d.day_pos
    have := d.day_le
    have := daysInMonth_cases d.year d.month
    omega
  unfold tp2ccDaysFromCivil
  simp only [Option.bind_eq_bind, signedResult_bind, floorDividend_bind, Option.pure_def,
    Option.some.injEq]
  generalize (c.year.val - if c.month.val ≤ 2 then 1 else 0) = Y at hexact ⊢
  obtain ⟨hnumber, hdoe, hdoe'⟩ := hexact
  have hfloor : (if Y ≥ 0 then Y else Y-399).tdiv 400 = Y/400 :=
    tdiv_floor (n := 400) (by decide) Y
  have hval {yoe : Word civilInt32} (hyoe : yoe.val = Y - Y/400*400) :
      ((dayOfEra (yoe.cast _) c.month c.day).cast civilInt32).val = eraStart (Y % 400) +
        (marchStart (c.month.val + if c.month.val > 2 then -3 else 9) + c.day.val - 1) := by
    have hcast : (yoe.cast civilUInt32).val = Y % 400 := by
      rw [cast_unsigned_val, hyoe]
      omega
    have hval := @dayOfEra_val (yoe.cast _) _ _ (by rw [hcast]; omega) hmonth hday
    rw [hcast] at hval
    rw [Word.cast_val_of_holds (by rw [hval, civilInt32_holds]; omega), hval]
  generalize eraStart (Y % 400) +
    (marchStart (c.month.val + if c.month.val > 2 then -3 else 9) + c.day.val - 1) = E at *
  constructor
  · rintro ⟨year, hyear, dividend, hdividend, era, hera, eraYears, heraYears, yoe, hyoe, eraDays,
      heraDays, days, hdays, result, hresult, rfl⟩
    rw [hdividend, hyear, hfloor] at hera
    rw [hyear, heraYears, hera] at hyoe
    rw [hval hyoe, heraDays, hera] at hdays
    have hlo := (civilInt32_holds.mp result.mem).1
    have hhi := (civilInt32_holds.mp days.mem).2
    have hup := (civilInt32_holds.mp result.mem).2
    rw [Word.cast_val_of_holds (civilInt64_holds.mpr (by omega))]
    unfold DayCounted
    omega
  · rintro ⟨hn, hlo, hhi⟩
    refine ⟨⟨Y, civilInt32_holds.mpr (by omega)⟩, rfl,
      ⟨if Y ≥ 0 then Y else Y-399, civilInt32_holds.mpr (by split <;> omega)⟩, rfl,
      ⟨Y/400, civilInt32_holds.mpr (by omega)⟩, hfloor.symm,
      ⟨Y/400*400, civilInt32_holds.mpr (by omega)⟩, rfl,
      ⟨Y-Y/400*400, civilInt32_holds.mpr (by omega)⟩, rfl,
      ⟨Y/400*146097, civilInt32_holds.mpr (by omega)⟩, rfl,
      ⟨Y/400*146097+E, civilInt32_holds.mpr (by omega)⟩, by rw [hval rfl],
      ⟨Y/400*146097+E-719468, civilInt32_holds.mpr (by omega)⟩, rfl, ?_⟩
    apply Word.ext
    rw [Word.cast_val_of_holds (civilInt64_holds.mpr (by simp only; omega)), hn, hnumber]

/-! Days to dates. -/

theorem dateOfEra_val {doe : Word civilUInt32} (h : doe.val < 146097) :
    (dateOfEra doe).1.val = yearOfEra doe.val ∧
      (dateOfEra doe).2.1.val =
        calendarMonth (marchMonth (doe.val-eraStart (yearOfEra doe.val))) ∧
      (dateOfEra doe).2.2.val = doe.val-eraStart (yearOfEra doe.val)-
        marchStart (marchMonth (doe.val-eraStart (yearOfEra doe.val)))+1 := by
  have hpos := (civilUInt32_holds.mp doe.mem).1
  obtain ⟨hyoe, hdoy, hleap⟩ := yearOfEra_spec hpos h
  obtain ⟨hmp, hday, -⟩ := marchMonth_spec hdoy.1 hdoy.2 (hleap 0)
  simp only [dateOfEra, unsigned_val]
  have hyear : (doe.val - doe.val/1460 + doe.val/36524 - doe.val/146096) % 4294967296 / 365 %
      4294967296 = yearOfEra doe.val := by
    have hsmall : (doe.val - doe.val/1460 + doe.val/36524 - doe.val/146096) % 4294967296 =
        doe.val - doe.val/1460 + doe.val/36524 - doe.val/146096 := by omega
    rw [hsmall, ← yearOfEra]
    omega
  rw [hyear]
  have hstart : (365*yearOfEra doe.val + yearOfEra doe.val/4 - yearOfEra doe.val/100) %
      4294967296 = eraStart (yearOfEra doe.val) := by
    unfold eraStart
    omega
  rw [hstart]
  have hplace : (doe.val-eraStart (yearOfEra doe.val)) % 4294967296 =
      doe.val-eraStart (yearOfEra doe.val) := by omega
  rw [hplace]
  generalize doe.val-eraStart (yearOfEra doe.val) = doy at *
  have hmonth : (5*doy+2) % 4294967296 / 153 % 4294967296 = marchMonth doy := by
    have hsmall : (5*doy+2) % 4294967296 = 5*doy+2 := by omega
    rw [hsmall, ← marchMonth]
    omega
  rw [hmonth]
  have hdays : (153*marchMonth doy+2) % 4294967296 / 5 = marchStart (marchMonth doy) := by
    have hsmall : (153*marchMonth doy+2) % 4294967296 = 153*marchMonth doy+2 := by omega
    rw [hsmall, ← marchStart]
  rw [hdays]
  refine ⟨rfl, ?_, by omega⟩
  unfold calendarMonth
  split <;> omega

theorem tp2ccCivilFromDays_eq {z : Word civilInt64} (h : DayCounted z.val) :
    ∃ c d, tp2ccCivilFromDays z = some c ∧ c.Is d ∧ d.dayNumber = z.val := by
  obtain ⟨d, hnumber, hday, hmonth, hyear⟩ := exists_date z.val
  obtain ⟨hlo, hhi⟩ := h
  have hfloor : (if z.val+719468 ≥ 0 then z.val+719468 else z.val+719468-146096).tdiv 146097 =
      (z.val+719468)/146097 := tdiv_floor (n := 146097) (by decide) _
  have hdoe : 0 ≤ (z.val+719468) % 146097 ∧ (z.val+719468) % 146097 < 146097 := by omega
  obtain ⟨hyoe, hdoy, hleap⟩ := yearOfEra_spec hdoe.1 hdoe.2
  obtain ⟨hmp, -, -⟩ := marchMonth_spec hdoy.1 hdoy.2 (hleap 0)
  obtain ⟨⟨hm, hm'⟩, -⟩ := calendarMonth_spec hmp.1 hmp.2
  let rest : Word civilInt64 := ⟨(z.val+719468) % 146097, civilInt64_holds.mpr (by omega)⟩
  have hrest : (rest.cast civilUInt32).val = (z.val+719468) % 146097 := by
    rw [cast_unsigned_val]
    simp only [rest]
    omega
  obtain ⟨hy, hmo, hda⟩ := @dateOfEra_val (rest.cast _) (by rw [hrest]; omega)
  rw [hrest] at hy hmo hda
  generalize he : dateOfEra (rest.cast _) = e at hy hmo hda
  obtain ⟨yoe, month, day⟩ := e
  simp only at hy hmo hda
  have hmonth' : month.val = d.month := by
    rw [hmo, hmonth]
    omega
  have hyear' : d.year = yoe.val+(z.val+719468)/146097*400 + if month.val ≤ 2 then 1 else 0 := by
    rw [hyear, marchYear, hy, ← hmonth, hmonth']
    split <;> split <;> omega
  have hbound : (-14700 ≤ (z.val+719468)/146097 ∧ (z.val+719468)/146097 ≤ 14700) ∧
      0 ≤ yoe.val ∧ yoe.val < 400 := by omega
  refine ⟨⟨⟨d.year, civilInt32_holds.mpr (by rw [hyear']; split <;> omega)⟩, month, day⟩, d, ?_,
    ⟨rfl, hmonth', hda.trans hday.symm⟩, hnumber⟩
  unfold tp2ccCivilFromDays
  simp only [Option.bind_eq_bind, signedResult_bind, floorDividend_bind, Option.pure_def,
    Option.some.injEq]
  refine ⟨⟨z.val+719468, civilInt64_holds.mpr (by omega)⟩, rfl,
    ⟨if z.val+719468 ≥ 0 then z.val+719468 else z.val+719468-146096,
      civilInt64_holds.mpr (by split <;> omega)⟩, rfl,
    ⟨(z.val+719468)/146097, civilInt64_holds.mpr (by omega)⟩, hfloor.symm,
    ⟨(z.val+719468)/146097*146097, civilInt64_holds.mpr (by omega)⟩, rfl,
    rest, by simp only [rest]; omega, ?_⟩
  rw [he]
  dsimp only
  refine ⟨⟨(z.val+719468)/146097*400, civilInt32_holds.mpr (by omega)⟩, ?_,
    ⟨yoe.val+(z.val+719468)/146097*400, civilInt32_holds.mpr (by omega)⟩, ?_,
    ⟨d.year, civilInt32_holds.mpr (by rw [hyear']; split <;> omega)⟩, hyear', rfl⟩
  · rw [Word.cast_val_of_holds (civilInt32_holds.mpr (by simp only; omega))]
  · rw [Word.cast_val_of_holds (civilInt32_holds.mpr (by omega))]

/-! Both ways. -/

theorem CivilDate.Is.unique {c c' : CivilDate} {d : Date} (h : c.Is d) (h' : c'.Is d) : c = c' :=
  CivilDate.ext (Word.ext (h.1.trans h'.1.symm)) (Word.ext (h.2.1.trans h'.2.1.symm))
    (Word.ext (h.2.2.trans h'.2.2.symm))

/-- The first date whose number is counted, and the last. -/
def firstCounted : Date := ⟨-5877641, 6, 23, by decide, by decide, by decide, by decide⟩
def lastCounted : Date := ⟨5879610, 9, 9, by decide, by decide, by decide, by decide⟩

theorem firstCounted_number : firstCounted.dayNumber = -2147483648 := by decide
theorem lastCounted_number : lastCounted.dayNumber = 2146764179 := by decide

def CountedDate (d : Date) : Prop := ¬ d.Before firstCounted ∧ ¬ lastCounted.Before d

theorem countedDate_iff {d : Date} : CountedDate d ↔ DayCounted d.dayNumber := by
  rw [CountedDate, DayCounted, ← Date.dayNumber_lt_iff, ← Date.dayNumber_lt_iff,
    firstCounted_number, lastCounted_number]
  omega

theorem exists_tp2ccDaysFromCivil {c : CivilDate} {d : Date} (h : c.Is d)
    (hd : DayCounted d.dayNumber) : ∃ n, tp2ccDaysFromCivil c = some n ∧ n.val = d.dayNumber := by
  obtain ⟨hlo, hhi⟩ := hd
  exact ⟨⟨d.dayNumber, civilInt64_holds.mpr (by omega)⟩,
    (tp2ccDaysFromCivil_iff h).mpr ⟨rfl, hlo, hhi⟩, rfl⟩

/-- The two conversions undo each other, and count consecutive days, exactly between the first and
the last counted date. -/
theorem civilConversions_inverse_iff (z : Word civilInt64) (c : CivilDate) (d : Date) :
    ((∃ c d, tp2ccCivilFromDays z = some c ∧ c.Is d ∧ tp2ccDaysFromCivil c = some z) ↔
      DayCounted z.val) ∧
    (c.Is d → ((tp2ccDaysFromCivil c).bind tp2ccCivilFromDays = some c ↔ CountedDate d)) ∧
    ∀ c' : CivilDate, c.Is d → c'.Is d.next →
      ((∃ n n', tp2ccDaysFromCivil c = some n ∧ tp2ccDaysFromCivil c' = some n' ∧
        n'.val = n.val+1) ↔ CountedDate d ∧ CountedDate d.next) := by
  refine ⟨?_, fun h => ?_, fun c' h h' => ?_⟩
  · constructor
    · rintro ⟨c, d, _, hc, hz⟩
      obtain ⟨hval, hd⟩ := (tp2ccDaysFromCivil_iff hc).mp hz
      rwa [hval]
    · intro hz
      obtain ⟨c, d, hc, hd, hn⟩ := tp2ccCivilFromDays_eq hz
      exact ⟨c, d, hc, hd, (tp2ccDaysFromCivil_iff hd).mpr ⟨hn.symm, hn ▸ hz⟩⟩
  · rw [countedDate_iff, Option.bind_eq_some_iff]
    constructor
    · rintro ⟨n, hn, _⟩
      exact ((tp2ccDaysFromCivil_iff h).mp hn).2
    · intro hd
      obtain ⟨n, hn, hval⟩ := exists_tp2ccDaysFromCivil h hd
      obtain ⟨c', d', hc', hd', hnumber⟩ := tp2ccCivilFromDays_eq (hval ▸ hd)
      have hsame : d' = d := Date.dayNumber_injective (hnumber.trans hval)
      subst hsame
      exact ⟨n, hn, by rw [hc', hd'.unique h]⟩
  · rw [countedDate_iff, countedDate_iff]
    constructor
    · rintro ⟨n, n', hn, hn', _⟩
      exact ⟨((tp2ccDaysFromCivil_iff h).mp hn).2, ((tp2ccDaysFromCivil_iff h').mp hn').2⟩
    · rintro ⟨hd, hd'⟩
      obtain ⟨n, hn, hval⟩ := exists_tp2ccDaysFromCivil h hd
      obtain ⟨n', hn', hval'⟩ := exists_tp2ccDaysFromCivil h' hd'
      exact ⟨n, n', hn, hn', by rw [hval, hval', d.dayNumber_next]⟩

def leapDate : Date := ⟨2024, 2, 29, by decide, by decide, by decide, by decide⟩

def leapCivilDate : CivilDate := ⟨⟨2024, by decide⟩, ⟨2, by decide⟩, ⟨29, by decide⟩⟩

theorem civilConversions_inverse_leap :
    (tp2ccDaysFromCivil leapCivilDate).bind tp2ccCivilFromDays = some leapCivilDate :=
  ((civilConversions_inverse_iff ⟨0, by decide⟩ leapCivilDate leapDate).2.1 ⟨rfl, rfl, rfl⟩).mpr
    (countedDate_iff.mpr ⟨by decide, by decide⟩)

def farDate : Date := ⟨5900000, 1, 1, by decide, by decide, by decide, by decide⟩

def farCivilDate : CivilDate := ⟨⟨5900000, by decide⟩, ⟨1, by decide⟩, ⟨1, by decide⟩⟩

theorem not_tp2ccDaysFromCivil_far :
    ¬ ∀ (c : CivilDate) (d : Date), c.Is d →
      (tp2ccDaysFromCivil c).bind tp2ccCivilFromDays = some c := by
  intro h
  have hfar := h farCivilDate farDate ⟨rfl, rfl, rfl⟩
  have hnone : tp2ccDaysFromCivil farCivilDate = none := by decide
  rw [hnone] at hfar
  cases hfar

end Tp2cc.Rt
