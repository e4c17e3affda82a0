import Tp2cc.Machine.Numeral
import Tp2cc.Runtime.CivilDate

/-! DOS packed file times: the conversions of `tp2cc_rt/prelude.h` that pack the fields of a time
into 32 bits and unpack them. -/
set_option autoImplicit false

namespace Tp2cc.Rt
open Machine Calendar

/-! `tp2cc_dos_filetime_*`: the places and the masks of the fields. -/

def dosFiletimeSecondShift : Nat := 0
def dosFiletimeMinuteShift : Nat := 5
def dosFiletimeHourShift : Nat := 11
def dosFiletimeDayShift : Nat := 16
def dosFiletimeMonthShift : Nat := 21
def dosFiletimeYearShift : Nat := 25

def dosFiletimeSecond2Mask : BitVec 32 := 0x1f
def dosFiletimeMinuteMask : BitVec 32 := 0x3f
def dosFiletimeHourMask : BitVec 32 := 0x1f
def dosFiletimeDayMask : BitVec 32 := 0x1f
def dosFiletimeMonthMask : BitVec 32 := 0x0f
def dosFiletimeYearMask : BitVec 32 := 0x7f

def dosFiletimeYearBase : Int := 1980
def cTmYearBase : Int := 1900
def dosFiletimeTmYearBase : Int := dosFiletimeYearBase - cTmYearBase
def dosFiletimeSecondQuantum : Int := 2

/-- `std::tm`, whose fields are `int`. -/
@[ext] structure Tm where
  sec : Int
  min : Int
  hour : Int
  mday : Int
  mon : Int
  year : Int
  wday : Int
  yday : Int
  isdst : Int
  deriving DecidableEq

/-- `t_datetime`, whose fields are `uint16_t`. -/
@[ext] structure TDateTime where
  year : BitVec 16
  month : BitVec 16
  day : BitVec 16
  hour : BitVec 16
  min : BitVec 16
  sec : BitVec 16
  deriving DecidableEq

/-- The fields in their places, as both packing functions put them together. -/
def dosFiletime (year month day hour minute second2 : BitVec 32) : BitVec 32 :=
  ((year &&& dosFiletimeYearMask) <<< dosFiletimeYearShift) |||
    ((month &&& dosFiletimeMonthMask) <<< dosFiletimeMonthShift) |||
    ((day &&& dosFiletimeDayMask) <<< dosFiletimeDayShift) |||
    ((hour &&& dosFiletimeHourMask) <<< dosFiletimeHourShift) |||
    ((minute &&& dosFiletimeMinuteMask) <<< dosFiletimeMinuteShift) |||
    ((second2 &&& dosFiletimeSecond2Mask) <<< dosFiletimeSecondShift)

def intResult (exact : Int) : Option Int := (signedResult civilInt32 exact).map Word.val

def tp2ccPackLocalTmAsDosFiletime (lt : Tm) : Option (BitVec 32) := do
  let year ← intResult (lt.year - dosFiletimeTmYearBase)
  let month ← intResult (lt.mon+1)
  return dosFiletime (.ofInt 32 year) (.ofInt 32 month) (.ofInt 32 lt.mday) (.ofInt 32 lt.hour)
    (.ofInt 32 lt.min) (.ofInt 32 (lt.sec.tdiv dosFiletimeSecondQuantum))

def Tm.accepted (out : Tm) : Bool :=
  out.mon ≥ 0 && out.mon < 12 && out.mday ≥ 1 && out.mday ≤ 31 && out.hour < 24 && out.min < 60 &&
    out.sec < 60

section
variable (packed : BitVec 32)

def yearField : BitVec 32 := (packed >>> dosFiletimeYearShift) &&& dosFiletimeYearMask
def monthField : BitVec 32 := (packed >>> dosFiletimeMonthShift) &&& dosFiletimeMonthMask
def dayField : BitVec 32 := (packed >>> dosFiletimeDayShift) &&& dosFiletimeDayMask
def hourField : BitVec 32 := (packed >>> dosFiletimeHourShift) &&& dosFiletimeHourMask
def minuteField : BitVec 32 := (packed >>> dosFiletimeMinuteShift) &&& dosFiletimeMinuteMask
def second2Field : BitVec 32 := (packed >>> dosFiletimeSecondShift) &&& dosFiletimeSecond2Mask

/-- The time, and whether it is accepted. DOS times do not tell daylight saving. -/
def tp2ccUnpackDosFiletimeToLocalTm : Tm × Bool :=
  let out : Tm :=
    { year := (yearField packed + BitVec.ofInt 32 dosFiletimeTmYearBase).toInt
      mon := (monthField packed - 1#32).toInt
      mday := (dayField packed).toInt
      hour := (hourField packed).toInt
      min := (minuteField packed).toInt
      sec := (second2Field packed).toInt * dosFiletimeSecondQuantum
      wday := 0
      yday := 0
      isdst := -1 }
  (out, out.accepted)

def pUnpacktime : TDateTime where
  sec := (second2Field packed * BitVec.ofInt 32 dosFiletimeSecondQuantum).setWidth 16
  min := (minuteField packed).setWidth 16
  hour := (hourField packed).setWidth 16
  day := (dayField packed).setWidth 16
  month := (monthField packed).setWidth 16
  year := (yearField packed + BitVec.ofInt 32 dosFiletimeYearBase).setWidth 16

end

def pPacktime (t : TDateTime) : BitVec 32 :=
  dosFiletime (.ofInt 32 (t.year.toNat - dosFiletimeYearBase)) (t.month.setWidth 32)
    (t.day.setWidth 32) (t.hour.setWidth 32) (t.min.setWidth 32)
    (.ofInt 32 ((t.sec.toNat : Int).tdiv dosFiletimeSecondQuantum))

/-! The fields as numbers. -/

theorem dosFiletime_toNat (year month day hour minute second2 : BitVec 32) :
    (dosFiletime year month day hour minute second2).toNat =
      year.toNat % 128 * 2^25 + month.toNat % 16 * 2^21 + day.toNat % 32 * 2^16 +
        hour.toNat % 32 * 2^11 + minute.toNat % 64 * 2^5 + second2.toNat % 32 := by
  have hyear : ((year &&& dosFiletimeYearMask) <<< dosFiletimeYearShift).toNat =
      (year.toNat % 2^7) <<< 25 := toNat_placed year (w := 7) (by decide)
  have hmonth : ((month &&& dosFiletimeMonthMask) <<< dosFiletimeMonthShift).toNat =
      (month.toNat % 2^4) <<< 21 := toNat_placed month (w := 4) (by decide)
  have hday : ((day &&& dosFiletimeDayMask) <<< dosFiletimeDayShift).toNat =
      (day.toNat % 2^5) <<< 16 := toNat_placed day (w := 5) (by decide)
  have hhour : ((hour &&& dosFiletimeHourMask) <<< dosFiletimeHourShift).toNat =
      (hour.toNat % 2^5) <<< 11 := toNat_placed hour (w := 5) (by decide)
  have hminute : ((minute &&& dosFiletimeMinuteMask) <<< dosFiletimeMinuteShift).toNat =
      (minute.toNat % 2^6) <<< 5 := toNat_placed minute (w := 6) (by decide)
  have hsecond : ((second2 &&& dosFiletimeSecond2Mask) <<< dosFiletimeSecondShift).toNat =
      (second2.toNat % 2^5) <<< 0 := toNat_placed second2 (w := 5) (by decide)
  have hplaced : (dosFiletime year month day hour minute second2).toNat =
      bitFields [(7,year.toNat % 2^7), (4,month.toNat % 2^4), (5,day.toNat % 2^5),
        (5,hour.toNat % 2^5), (6,minute.toNat % 2^6), (5,second2.toNat % 2^5)] := by
    rw [dosFiletime]
    simp only [BitVec.toNat_or, hyear, hmonth, hday, hhour, hminute, hsecond, Nat.or_assoc]
    simp [bitFields, bitWidth]
  rw [hplaced, bitFields_eq_placeValue (by simp; omega)]
  simp [placeValue, bitWidth]
  omega

section
variable (p : BitVec 32)

theorem yearField_toNat : (yearField p).toNat = p.toNat/2^25 % 128 := toNat_field p (w := 7) (by decide)
theorem monthField_toNat : (monthField p).toNat = p.toNat/2^21 % 16 :=
  toNat_field p (w := 4) (by decide)
theorem dayField_toNat : (dayField p).toNat = p.toNat/2^16 % 32 := toNat_field p (w := 5) (by decide)
theorem hourField_toNat : (hourField p).toNat = p.toNat/2^11 % 32 :=
  toNat_field p (w := 5) (by decide)
theorem minuteField_toNat : (minuteField p).toNat = p.toNat/2^5 % 64 :=
  toNat_field p (w := 6) (by decide)
theorem second2Field_toNat : (second2Field p).toNat = p.toNat % 32 := by
  have h := toNat_field p (w := 5) (s := 0) (by decide)
  rwa [pow_zero, Nat.div_one] at h

theorem toInt_of_small {x : BitVec 32} (h : x.toNat < 2147483648) : x.toInt = x.toNat := by
  rw [BitVec.toInt_eq_toNat_cond, if_pos (by omega)]

theorem bmod_of_int {v : Int} (h : -2147483648 ≤ v ∧ v ≤ 2147483647) : v.bmod (2^32) = v :=
  IntType.reduce_of_holds (t := civilInt32) (civilInt32_holds.mpr h)

theorem unpackDosFiletime_val :
    (tp2ccUnpackDosFiletimeToLocalTm p).1 = (
      { year := (p.toNat/2^25 % 128 : Nat) + 80
        mon := (p.toNat/2^21 % 16 : Nat) - 1
        mday := (p.toNat/2^16 % 32 : Nat)
        hour := (p.toNat/2^11 % 32 : Nat)
        min := (p.toNat/2^5 % 64 : Nat)
        sec := (p.toNat % 32 : Nat) * 2
        wday := 0
        yday := 0
        isdst := -1 } : Tm) := by
  have hy := yearField_toNat p
  have hm := monthField_toNat p
  have hd := dayField_toNat p
  have hh := hourField_toNat p
  have hmi := minuteField_toNat p
  have hs := second2Field_toNat p
  unfold tp2ccUnpackDosFiletimeToLocalTm
  ext
  · simp only [toInt_of_small (x := second2Field p) (by omega), hs, dosFiletimeSecondQuantum]
  · simp only [toInt_of_small (x := minuteField p) (by omega), hmi]
  · simp only [toInt_of_small (x := hourField p) (by omega), hh]
  · simp only [toInt_of_small (x := dayField p) (by omega), hd]
  · have hone : (1#32).toInt = 1 := rfl
    simp only [BitVec.toInt_sub, toInt_of_small (x := monthField p) (by omega), hm, hone]
    exact bmod_of_int (by omega)
  · have hbase : (BitVec.ofInt 32 dosFiletimeTmYearBase).toInt = 80 := rfl
    simp only [BitVec.toInt_add, toInt_of_small (x := yearField p) (by omega), hy, hbase]
    exact bmod_of_int (by omega)
  · rfl
  · rfl
  · rfl

end

/-- The two records show the same date and time. -/
structure TDateTime.Same (r : TDateTime) (lt : Tm) : Prop where
  year : (r.year.toNat : Int) = lt.year + cTmYearBase
  month : (r.month.toNat : Int) = lt.mon + 1
  day : (r.day.toNat : Int) = lt.mday
  hour : (r.hour.toNat : Int) = lt.hour
  min : (r.min.toNat : Int) = lt.min
  sec : (r.sec.toNat : Int) = lt.sec

structure Tm.Fits (lt : Tm) : Prop where
  year : 80 ≤ lt.year ∧ lt.year < 208
  mon : -1 ≤ lt.mon ∧ lt.mon < 15
  mday : 0 ≤ lt.mday ∧ lt.mday < 32
  hour : 0 ≤ lt.hour ∧ lt.hour < 32
  min : 0 ≤ lt.min ∧ lt.min < 64
  sec : 0 ≤ lt.sec ∧ lt.sec < 64

def Tm.dosNumber (lt : Tm) : Int :=
  (lt.year-80)*2^25 + (lt.mon+1)*2^21 + lt.mday*2^16 + lt.hour*2^11 + lt.min*2^5 + lt.sec/2

theorem ofInt_toNat {v : Int} (h : 0 ≤ v ∧ v < 4294967296) :
    ((BitVec.ofInt 32 v).toNat : Int) = v := by
  rw [BitVec.toNat_ofInt]
  omega

theorem tp2ccPackLocalTmAsDosFiletime_eq {lt : Tm} (h : lt.Fits) :
    ∃ p, tp2ccPackLocalTmAsDosFiletime lt = some p ∧ (p.toNat : Int) = lt.dosNumber := by
  obtain ⟨hy, hmo, hd, hh, hmi, hs⟩ := h
  have hint {v : Int} (hv : -2147483648 ≤ v ∧ v ≤ 2147483647) : intResult v = some v := by
    rw [intResult, signedResult, dif_pos (civilInt32_holds.mpr hv)]
    rfl
  have hbase : dosFiletimeTmYearBase = 80 := rfl
  refine ⟨_, by
    rw [tp2ccPackLocalTmAsDosFiletime, hint (by omega), hint (by omega)]
    rfl, ?_⟩
  rw [dosFiletime_toNat, Tm.dosNumber]
  have hyear := ofInt_toNat (v := lt.year-dosFiletimeTmYearBase) (by omega)
  have hmonth := ofInt_toNat (v := lt.mon+1) (by omega)
  have hday := ofInt_toNat (v := lt.mday) (by omega)
  have hhour := ofInt_toNat (v := lt.hour) (by omega)
  have hminute := ofInt_toNat (v := lt.min) (by omega)
  have hquotient : lt.sec.tdiv dosFiletimeSecondQuantum = lt.sec/2 :=
    Int.tdiv_eq_ediv_of_nonneg hs.1
  have hsecond := ofInt_toNat (v := lt.sec/2) (by omega)
  rw [hquotient]
  omega

theorem pPacktime_eq {r : TDateTime} {lt : Tm} (h : lt.Fits) (hr : r.Same lt) :
    ((pPacktime r).toNat : Int) = lt.dosNumber := by
  obtain ⟨hy, hmo, hd, hh, hmi, hs⟩ := h
  obtain ⟨ry, rmo, rd, rh, rmi, rs⟩ := hr
  have hbase : cTmYearBase = 1900 := rfl
  have hbase' : dosFiletimeYearBase = 1980 := rfl
  have hyear := ofInt_toNat (v := r.year.toNat-dosFiletimeYearBase) (by omega)
  have hquotient : (r.sec.toNat : Int).tdiv dosFiletimeSecondQuantum = r.sec.toNat/2 :=
    Int.tdiv_eq_ediv_of_nonneg (by omega)
  have hsecond := ofInt_toNat (v := r.sec.toNat/2) (by omega)
  have hwide (x : BitVec 16) : (x.setWidth 32).toNat = x.toNat := by
    rw [BitVec.toNat_setWidth]
    omega
  rw [pPacktime, dosFiletime_toNat, Tm.dosNumber, hquotient, hwide, hwide, hwide, hwide]
  omega

theorem pUnpacktime_same (p : BitVec 32) :
    (pUnpacktime p).Same (tp2ccUnpackDosFiletimeToLocalTm p).1 := by
  rw [unpackDosFiletime_val]
  have hy := yearField_toNat p
  have hm := monthField_toNat p
  have hd := dayField_toNat p
  have hh := hourField_toNat p
  have hmi := minuteField_toNat p
  have hs := second2Field_toNat p
  have hnarrow {x : BitVec 32} (hx : x.toNat < 65536) : (x.setWidth 16).toNat = x.toNat := by
    rw [BitVec.toNat_setWidth]
    omega
  have hsec : (second2Field p * BitVec.ofInt 32 dosFiletimeSecondQuantum).toNat =
      (second2Field p).toNat*2 := by
    have htwo : (BitVec.ofInt 32 dosFiletimeSecondQuantum).toNat = 2 := rfl
    rw [BitVec.toNat_mul, htwo]
    omega
  have hyear : (yearField p + BitVec.ofInt 32 dosFiletimeYearBase).toNat =
      (yearField p).toNat+1980 := by
    have hbase : (BitVec.ofInt 32 dosFiletimeYearBase).toNat = 1980 := rfl
    rw [BitVec.toNat_add, hbase]
    omega
  have hbase : cTmYearBase = 1900 := rfl
  constructor
  · simp only [pUnpacktime]
    rw [hnarrow (by omega)]
    omega
  · simp only [pUnpacktime]
    rw [hnarrow (by omega)]
    omega
  · simp only [pUnpacktime]
    rw [hnarrow (by omega)]
    omega
  · simp only [pUnpacktime]
    rw [hnarrow (by omega)]
    omega
  · simp only [pUnpacktime]
    rw [hnarrow (by omega)]
    omega
  · simp only [pUnpacktime]
    rw [hnarrow (by omega)]
    omega

/-- A date and a time of day; second 60 is a leap second. -/
structure CalendarTime where
  date : Date
  hour : Nat
  minute : Nat
  second : Nat
  hour_lt : hour < 24
  minute_lt : minute < 60
  second_le : second ≤ 60

structure Tm.Shows (lt : Tm) (t : CalendarTime) : Prop where
  year : lt.year = t.date.year - cTmYearBase
  mon : lt.mon = t.date.month - 1
  mday : lt.mday = t.date.day
  hour : lt.hour = t.hour
  min : lt.min = t.minute
  sec : lt.sec = t.second

theorem Tm.Shows.fits {lt : Tm} {t : CalendarTime} (h : lt.Shows t)
    (hyear : 1980 ≤ t.date.year ∧ t.date.year ≤ 2107) : lt.Fits := by
  obtain ⟨hy, hmo, hd, hh, hmi, hs⟩ := h
  have hbase : cTmYearBase = 1900 := rfl
  have hmonth := t.date.month_pos
  have hmonth' := t.date.month_le
  have hday := t.date.day_pos
  have hday' := t.date.day_le
  have hdays := daysInMonth_cases t.date.year t.date.month
  have hhour := t.hour_lt
  have hminute := t.minute_lt
  have hsecond := t.second_le
  exact ⟨by omega, by omega, by omega, by omega, by omega, by omega⟩

theorem tp2ccUnpack_fits (p : BitVec 32) : (tp2ccUnpackDosFiletimeToLocalTm p).1.Fits := by
  rw [unpackDosFiletime_val]
  constructor <;> simp only <;> omega

theorem tp2ccUnpack_of_dosNumber {lt : Tm} (h : lt.Fits) {p : BitVec 32}
    (hp : (p.toNat : Int) = lt.dosNumber) : (tp2ccUnpackDosFiletimeToLocalTm p).1 =
      { lt with sec := lt.sec/2*2, wday := 0, yday := 0, isdst := -1 } := by
  obtain ⟨hy, hmo, hd, hh, hmi, hs⟩ := h
  rw [Tm.dosNumber] at hp
  rw [unpackDosFiletime_val]
  ext
  · simp only
    omega
  · simp only
    omega
  · simp only
    omega
  · simp only
    omega
  · simp only
    omega
  · simp only
    omega
  · rfl
  · rfl
  · rfl

theorem Tm.Shows.accepted {lt : Tm} {t : CalendarTime} (h : lt.Shows t) :
    ({ lt with sec := lt.sec/2*2, wday := 0, yday := 0, isdst := -1 } : Tm).accepted =
      decide (t.second < 60) := by
  obtain ⟨hy, hmo, hd, hh, hmi, hs⟩ := h
  have hmonth := t.date.month_pos
  have hmonth' := t.date.month_le
  have hday := t.date.day_pos
  have hday' := t.date.day_le
  have hdays := daysInMonth_cases t.date.year t.date.month
  have hhour := t.hour_lt
  have hminute := t.minute_lt
  have hsecond := t.second_le
  rw [Bool.eq_iff_iff]
  simp only [Tm.accepted, Bool.and_eq_true, decide_eq_true_eq]
  omega

theorem tp2ccPack_unpack (p : BitVec 32) :
    tp2ccPackLocalTmAsDosFiletime (tp2ccUnpackDosFiletimeToLocalTm p).1 = some p := by
  obtain ⟨q, hq, hnumber⟩ := tp2ccPackLocalTmAsDosFiletime_eq (tp2ccUnpack_fits p)
  have hlt := p.isLt
  rw [unpackDosFiletime_val, Tm.dosNumber] at hnumber
  have hsame : q = p := by
    apply BitVec.eq_of_toNat_eq
    simp only at hnumber
    omega
  rw [hq, hsame]

/-- The fields of a DOS time give back the time that was packed, with the seconds rounded down to
even, and both pairs of functions agree. -/
theorem dosFiletime_roundTrip :
    (∀ (t : CalendarTime) (lt : Tm), 1980 ≤ t.date.year ∧ t.date.year ≤ 2107 → lt.Shows t →
      ∃ p, tp2ccPackLocalTmAsDosFiletime lt = some p ∧
        tp2ccUnpackDosFiletimeToLocalTm p =
          ({ lt with sec := lt.sec/2*2, wday := 0, yday := 0, isdst := -1 },
            decide (t.second < 60)) ∧
        ∀ r : TDateTime, r.Same lt → pPacktime r = p) ∧
    ∀ p : BitVec 32, tp2ccPackLocalTmAsDosFiletime (tp2ccUnpackDosFiletimeToLocalTm p).1 = some p ∧
      (pUnpacktime p).Same (tp2ccUnpackDosFiletimeToLocalTm p).1 ∧
      pPacktime (pUnpacktime p) = p := by
  constructor
  · intro t lt hyear h
    have hfits := h.fits hyear
    obtain ⟨p, hp, hnumber⟩ := tp2ccPackLocalTmAsDosFiletime_eq hfits
    refine ⟨p, hp, ?_, fun r hr => ?_⟩
    · exact Prod.ext (tp2ccUnpack_of_dosNumber hfits hnumber)
        ((congrArg Tm.accepted (tp2ccUnpack_of_dosNumber hfits hnumber)).trans h.accepted)
    · apply BitVec.eq_of_toNat_eq
      have hr := pPacktime_eq hfits hr
      omega
  · intro p
    refine ⟨tp2ccPack_unpack p, pUnpacktime_same p, ?_⟩
    obtain ⟨q, hq, hnumber⟩ := tp2ccPackLocalTmAsDosFiletime_eq (tp2ccUnpack_fits p)
    rw [tp2ccPack_unpack] at hq
    cases hq
    apply BitVec.eq_of_toNat_eq
    have hr := pPacktime_eq (tp2ccUnpack_fits p) (pUnpacktime_same p)
    omega

def leapTime : CalendarTime where
  date := leapDate
  hour := 12
  minute := 34
  second := 57
  hour_lt := by decide
  minute_lt := by decide
  second_le := by decide

def leapTm : Tm := ⟨57, 34, 12, 29, 1, 124, 4, 59, 0⟩

theorem dosFiletime_roundTrip_leap : ∃ p, tp2ccPackLocalTmAsDosFiletime leapTm = some p ∧
    tp2ccUnpackDosFiletimeToLocalTm p = (⟨56, 34, 12, 29, 1, 124, 0, 0, -1⟩, true) ∧
    pPacktime ⟨2024, 2, 29, 12, 34, 57⟩ = p := by
  have hshows : leapTm.Shows leapTime := ⟨rfl, rfl, rfl, rfl, rfl, rfl⟩
  obtain ⟨p, hp, hunpacked, hsame⟩ :=
    dosFiletime_roundTrip.1 leapTime leapTm ⟨by decide, by decide⟩ hshows
  exact ⟨p, hp, hunpacked, hsame _ ⟨rfl, rfl, rfl, rfl, rfl, rfl⟩⟩

end Tp2cc.Rt
