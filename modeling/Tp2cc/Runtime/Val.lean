import Tp2cc.Machine.Conversion
import Tp2cc.Runtime.ShortString

/-! `tp2cc_parse_pascal_integer` of `tp2cc_rt/prelude.h`, the parser under `Val`, against
the numerals it is to accept. -/
set_option autoImplicit false

namespace Tp2cc.Rt
open Machine

def tp2ccDigitValue (c : UInt8) : Int :=
  if '0'.toNat ≤ c.toNat ∧ c.toNat ≤ '9'.toNat then c.toNat - '0'.toNat
  else if 'a'.toNat ≤ c.toNat ∧ c.toNat ≤ 'f'.toNat then c.toNat - 'a'.toNat+10
  else if 'A'.toNat ≤ c.toNat ∧ c.toNat ≤ 'F'.toNat then c.toNat - 'A'.toNat+10
  else -1

def isBlank (c : UInt8) : Bool := c = ' '.toUInt8 ∨ c = '\t'.toUInt8

/-! The scanner's index is kept as the text from there on. -/

def readSign : List UInt8 → Bool × List UInt8
  | [] => (false, [])
  | c :: s =>
    if c = '+'.toUInt8 ∨ c = '-'.toUInt8 then (decide (c = '-'.toUInt8), s) else (false, c :: s)

/-- `while ((i + 1) < buf.size() && buf[i] == '0') ++i;` -/
def skipZeros : List UInt8 → List UInt8
  | c :: d :: s => if c = '0'.toUInt8 then skipZeros (d :: s) else c :: d :: s
  | s => s

def readBase : List UInt8 → Int × List UInt8
  | [] => (10, [])
  | c :: s =>
    if c = '$'.toUInt8 then (16, skipZeros s)
    else if c = '&'.toUInt8 then (8, s)
    else if c = '%'.toUInt8 then (2, s)
    else (10, c :: s)

def maxValue (t : IntType) (neg : Bool) (base : Int) : Int :=
  if t.signed = true ∧ base = 10 then
    let maxSigned := t.twin.reduce t.hi
    if neg then t.twin.reduce (maxSigned+1) else maxSigned
  else t.twin.hi

/-- The digit loop. It ends behind the last digit or fails at the rest of the text. -/
def readDigits (u : IntType) (base max : Int) : Int → List UInt8 → Except (List UInt8) Int
  | value, [] => .ok value
  | value, c :: rest =>
    let d := tp2ccDigitValue c
    if d < 0 ∨ base ≤ d then .error (c :: rest)
    else
      let ub := u.reduce base
      let ud := u.reduce d
      if value > max/ub then .error (c :: rest)
      else
        let next := u.reduce (value*ub)
        if next > max-ud then .error (c :: rest)
        else readDigits u base max (u.reduce (next+ud)) rest

/-- The assignments of `fail`: the code is the place of the first character of `rest`
in `buf`, counted from one. -/
def failAt (t : IntType) (buf rest : List UInt8) : Word t × Word IntType.int :=
  (.ofInt t 0, .ofInt .int ((buf.length-rest.length : Nat)+1))

def tp2ccParsePascalInteger (t : IntType) (buf : List UInt8) : Word t × Word IntType.int :=
  let s := buf.dropWhile isBlank
  let (neg, s) := readSign s
  let (base, s) := readBase s
  if s = [] then failAt t buf s
  else if t.signed = false ∧ neg = true then failAt t buf s
  else
    match readDigits t.twin base (maxValue t neg base) 0 s with
    | .error rest => failAt t buf rest
    | .ok value =>
      let value := if t.signed = true ∧ neg = true then t.twin.reduce (0-value) else value
      (.ofInt t value, .ofInt .int 0)

/-! The numerals. -/

inductive NumeralSign
  | absent | plus | minus
  deriving DecidableEq

def NumeralSign.text : NumeralSign → List UInt8
  | .absent => []
  | .plus => ['+'.toUInt8]
  | .minus => ['-'.toUInt8]

def NumeralSign.factor : NumeralSign → Int
  | .minus => -1
  | _ => 1

inductive NumeralBase
  | decimal | hexadecimal | octal | binary
  deriving DecidableEq

def NumeralBase.text : NumeralBase → List UInt8
  | .decimal => []
  | .hexadecimal => ['$'.toUInt8]
  | .octal => ['&'.toUInt8]
  | .binary => ['%'.toUInt8]

def NumeralBase.radix : NumeralBase → Int
  | .decimal => 10
  | .hexadecimal => 16
  | .octal => 8
  | .binary => 2

/-- What stands before the digits: blanks, an optional sign, an optional base prefix. -/
structure NumeralHeader where
  blanks : List UInt8
  blanks_blank : ∀ c ∈ blanks, isBlank c = true
  sign : NumeralSign
  base : NumeralBase

def NumeralHeader.text (h : NumeralHeader) : List UInt8 := h.blanks ++ (h.sign.text ++ h.base.text)

def IsDigit (radix : Int) (c : UInt8) : Prop := 0 ≤ tp2ccDigitValue c ∧ tp2ccDigitValue c < radix

instance (radix : Int) (c : UInt8) : Decidable (IsDigit radix c) :=
  inferInstanceAs (Decidable (_ ∧ _))

def magnitudeFrom (radix value : Int) (digits : List UInt8) : Int :=
  digits.foldl (fun v c => v*radix+tp2ccDigitValue c) value

def magnitude (radix : Int) (digits : List UInt8) : Int := magnitudeFrom radix 0 digits

/-- The accepted range of a type: its own for a decimal numeral, that of its width for
one with a prefix; a type without a sign takes no minus. -/
def NumeralHeader.InRange (t : IntType) (h : NumeralHeader) (m : Int) : Prop :=
  (t.signed = false → h.sign ≠ .minus) ∧
    if h.base = .decimal then t.Holds (h.sign.factor*m) else m ≤ t.twin.hi

/-- `s` is a numeral of the type, with the value it stands for there. -/
def Accepts (t : IntType) (s : List UInt8) (v : Word t) : Prop :=
  ∃ (h : NumeralHeader) (digits : List UInt8), s = h.text ++ digits ∧ digits ≠ [] ∧
    (∀ c ∈ digits, IsDigit h.base.radix c) ∧ h.InRange t (magnitude h.base.radix digits) ∧
    v = .ofInt t (h.sign.factor*magnitude h.base.radix digits)

/-- Some continuation of `p` is a numeral of the type. -/
def Completable (t : IntType) (p : List UInt8) : Prop := ∃ q v, Accepts t (p ++ q) v

/-- The text can be completed up to place `k` but not with the character there; where
there is none, it is the end that comes too early. -/
def FirstImpossible (t : IntType) (s : List UInt8) (k : Nat) : Prop :=
  k ≤ s.length ∧ Completable t (s.take k) ∧ (k < s.length → ¬ Completable t (s.take (k+1)))

/-! The digit loop. -/

def Extends (radix max value : Int) (c : UInt8) : Prop :=
  IsDigit radix c ∧ value*radix+tp2ccDigitValue c ≤ max

instance (radix max value : Int) (c : UInt8) : Decidable (Extends radix max value c) :=
  inferInstanceAs (Decidable (_ ∧ _))

def Fits (radix max value : Int) : List UInt8 → Prop
  | [] => True
  | c :: digits =>
    Extends radix max value c ∧ Fits radix max (value*radix+tp2ccDigitValue c) digits

theorem NumeralBase.radix_bounds (b : NumeralBase) : 2 ≤ b.radix ∧ b.radix ≤ 16 := by
  cases b <;> decide

section
variable {t : IntType} {b : NumeralBase} {max value : Int}

theorem twin_holds_iff (t : IntType) (v : Int) : t.twin.Holds v ↔ 0 ≤ v ∧ v ≤ t.twin.hi := by
  rw [IntType.holds_unsigned rfl]
  rfl

theorem twin_reduce {v : Int} (h₁ : 0 ≤ v) (h₂ : v ≤ t.twin.hi) : t.twin.reduce v = v :=
  IntType.reduce_of_holds ((twin_holds_iff t v).mpr ⟨h₁, h₂⟩)

theorem sixteen_le_hi (ht : 8 ≤ t.bits) : 16 ≤ t.twin.hi := by
  have := IntType.two_pow_mono ht
  simp only [IntType.hi, IntType.twin, Bool.false_eq_true, if_false]
  omega

/-- One round of the loop, with the two overflow tests read as one bound. -/
theorem readDigits_cons (ht : 8 ≤ t.bits) (hmax : max ≤ t.twin.hi) (hv : 0 ≤ value ∧ value ≤ max)
    (c : UInt8) (rest : List UInt8) :
    readDigits t.twin b.radix max value (c :: rest) =
      if Extends b.radix max value c then
        readDigits t.twin b.radix max (value*b.radix+tp2ccDigitValue c) rest
      else .error (c :: rest) := by
  have hhi := sixteen_le_hi ht
  have hbase := b.radix_bounds
  have hub : t.twin.reduce b.radix = b.radix := twin_reduce (by omega) (by omega)
  have hmul : 0 ≤ value*b.radix := Int.mul_nonneg hv.1 (by omega)
  rw [readDigits]
  dsimp only
  by_cases hd : IsDigit b.radix c
  · obtain ⟨hd₁, hd₂⟩ := hd
    have hud : t.twin.reduce (tp2ccDigitValue c) = tp2ccDigitValue c :=
      twin_reduce hd₁ (by omega)
    have hdiv : value > max/b.radix ↔ max < value*b.radix := Int.ediv_lt_iff_lt_mul (by omega)
    rw [if_neg (by omega), hub, hud]
    by_cases hlarge : max < value*b.radix
    · rw [if_pos (hdiv.mpr hlarge), if_neg]
      intro hext
      have := hext.2
      omega
    · rw [if_neg (mt hdiv.mp hlarge), twin_reduce hmul (by omega)]
      by_cases hsum : value*b.radix+tp2ccDigitValue c ≤ max
      · rw [if_neg (by omega), if_pos ⟨⟨hd₁, hd₂⟩, hsum⟩, twin_reduce (by omega) (by omega)]
      · rw [if_pos (by omega), if_neg fun hext => hsum hext.2]
  · rw [if_pos (by unfold IsDigit at hd; omega), if_neg fun hext => hd hext.1]

theorem IsDigit.le_next (hv : 0 ≤ value) {c : UInt8} (h : IsDigit b.radix c) :
    value ≤ value*b.radix+tp2ccDigitValue c := by
  have hbase := b.radix_bounds
  have hmul : value*2 ≤ value*b.radix := Int.mul_le_mul_of_nonneg_left hbase.1 hv
  have := h.1
  omega

theorem readDigits_append (ht : 8 ≤ t.bits) (hmax : max ≤ t.twin.hi) {digits : List UInt8}
    (hv : 0 ≤ value ∧ value ≤ max) (h : Fits b.radix max value digits) (rest : List UInt8) :
    readDigits t.twin b.radix max value (digits ++ rest) =
      readDigits t.twin b.radix max (magnitudeFrom b.radix value digits) rest := by
  induction digits generalizing value with
  | nil => rfl
  | cons c digits ih =>
    obtain ⟨hc, hdigits⟩ := h
    have hle := IsDigit.le_next hv.1 hc.1
    rw [List.cons_append, readDigits_cons ht hmax hv, if_pos hc, ih ⟨by omega, hc.2⟩ hdigits]
    rfl

theorem exists_fits (radix max value : Int) (s : List UInt8) : ∃ digits rest,
    s = digits ++ rest ∧ Fits radix max value digits ∧
      ∀ c q, rest = c :: q → ¬ Extends radix max (magnitudeFrom radix value digits) c := by
  induction s generalizing value with
  | nil => exact ⟨[], [], rfl, trivial, fun c q h => by cases h⟩
  | cons c s ih =>
    by_cases hc : Extends radix max value c
    · obtain ⟨digits, rest, hs, hfits, hstop⟩ := ih (value*radix+tp2ccDigitValue c)
      exact ⟨c :: digits, rest, by rw [hs, List.cons_append], ⟨hc, hfits⟩, hstop⟩
    · refine ⟨[], c :: s, rfl, trivial, fun c' q h => ?_⟩
      cases h
      exact hc

theorem le_magnitudeFrom {digits : List UInt8} (hv : 0 ≤ value)
    (h : ∀ c ∈ digits, IsDigit b.radix c) : value ≤ magnitudeFrom b.radix value digits := by
  induction digits generalizing value with
  | nil => exact le_refl value
  | cons c digits ih =>
    have hle := IsDigit.le_next hv (h c List.mem_cons_self)
    exact hle.trans (ih (by omega) fun d hd => h d (List.mem_cons_of_mem c hd))

theorem fits_iff {digits : List UInt8} (hv : 0 ≤ value ∧ value ≤ max) :
    Fits b.radix max value digits ↔
      (∀ c ∈ digits, IsDigit b.radix c) ∧ magnitudeFrom b.radix value digits ≤ max := by
  induction digits generalizing value with
  | nil => simpa [Fits, magnitudeFrom] using hv.2
  | cons c digits ih =>
    rw [List.forall_mem_cons]
    constructor
    · intro h
      have hle := IsDigit.le_next hv.1 h.1.1
      obtain ⟨hall, hm⟩ := (ih ⟨by omega, h.1.2⟩).mp h.2
      exact ⟨⟨h.1.1, hall⟩, hm⟩
    · rintro ⟨⟨hc, hall⟩, hm⟩
      have hle := IsDigit.le_next hv.1 hc
      have hmore : value*b.radix+tp2ccDigitValue c ≤
          magnitudeFrom b.radix (value*b.radix+tp2ccDigitValue c) digits :=
        le_magnitudeFrom (by omega) hall
      have hlast : value*b.radix+tp2ccDigitValue c ≤ max := hmore.trans hm
      exact ⟨⟨hc, hlast⟩, (ih ⟨by omega, hlast⟩).mpr ⟨hall, hm⟩⟩

end

/-! The header. -/

def NumeralHeader.Stops (h : NumeralHeader) (c : UInt8) : Prop :=
  (h.base = .decimal → c ≠ '$'.toUInt8 ∧ c ≠ '&'.toUInt8 ∧ c ≠ '%'.toUInt8) ∧
    (h.base = .decimal → h.sign = .absent →
      c ≠ '+'.toUInt8 ∧ c ≠ '-'.toUInt8 ∧ isBlank c = false)

def readHeader (buf : List UInt8) : Bool × Int × List UInt8 :=
  let (neg, s) := readSign (buf.dropWhile isBlank)
  let (base, s) := readBase s
  (neg, base, s)

def NumeralHeader.negative (h : NumeralHeader) : Bool := decide (h.sign = .minus)

/-- Behind a hexadecimal prefix the leading zeros are passed over. -/
def NumeralHeader.skipped (h : NumeralHeader) (rest : List UInt8) : List UInt8 :=
  if h.base = .hexadecimal then skipZeros rest else rest

theorem readHeader_of_stops (h : NumeralHeader) {c : UInt8} (hc : h.Stops c) (q : List UInt8) :
    readHeader (h.text ++ c :: q) = (h.negative, h.base.radix, h.skipped (c :: q)) := by
  obtain ⟨blanks, hblanks, sign, base⟩ := h
  obtain ⟨hbase, hsign⟩ := hc
  have hdrop : (blanks ++ (sign.text ++ base.text) ++ c :: q).dropWhile isBlank =
      (sign.text ++ base.text ++ c :: q).dropWhile isBlank := by
    rw [List.append_assoc, List.dropWhile_append_of_pos hblanks]
  rw [readHeader, NumeralHeader.text, hdrop]
  cases sign with
  | absent =>
    cases base with
    | decimal =>
      have hb := hbase rfl
      have hs := hsign rfl rfl
      simp [NumeralSign.text, NumeralBase.text, hs, readSign, readBase, hb,
        NumeralHeader.negative, NumeralBase.radix, NumeralHeader.skipped]
    | hexadecimal => rfl
    | octal => rfl
    | binary => rfl
  | plus =>
    cases base with
    | decimal =>
      have hb := hbase rfl
      simp +decide [NumeralSign.text, NumeralBase.text, readSign, readBase, hb,
        NumeralHeader.negative, NumeralBase.radix, NumeralHeader.skipped]
    | hexadecimal => rfl
    | octal => rfl
    | binary => rfl
  | minus =>
    cases base with
    | decimal =>
      have hb := hbase rfl
      simp +decide [NumeralSign.text, NumeralBase.text, readSign, readBase, hb,
        NumeralHeader.negative, NumeralBase.radix, NumeralHeader.skipped]
    | hexadecimal => rfl
    | octal => rfl
    | binary => rfl

theorem readHeader_text (h : NumeralHeader) :
    readHeader h.text = (h.negative, h.base.radix, h.skipped []) := by
  obtain ⟨blanks, hblanks, sign, base⟩ := h
  have hdrop : (blanks ++ (sign.text ++ base.text)).dropWhile isBlank =
      (sign.text ++ base.text).dropWhile isBlank := by
    rw [List.dropWhile_append_of_pos hblanks]
  rw [readHeader, NumeralHeader.text, hdrop]
  cases sign with
  | absent => cases base <;> rfl
  | plus => cases base <;> rfl
  | minus => cases base <;> rfl

theorem readHeader_eq (h : NumeralHeader) {rest : List UInt8} (hstop : ∀ c ∈ rest.head?, h.Stops c) :
    readHeader (h.text ++ rest) = (h.negative, h.base.radix, h.skipped rest) := by
  cases rest with
  | nil =>
    rw [List.append_nil]
    exact readHeader_text h
  | cons c q => exact readHeader_of_stops h (hstop c rfl) q

theorem readSign_spec (s : List UInt8) : ∃ (sign : NumeralSign) (rest : List UInt8),
    s = sign.text ++ rest ∧ readSign s = (decide (sign = .minus), rest) ∧
      ∀ c q, rest = c :: q → sign = .absent → c ≠ '+'.toUInt8 ∧ c ≠ '-'.toUInt8 := by
  cases s with
  | nil => exact ⟨.absent, [], rfl, rfl, fun c q h => by cases h⟩
  | cons c s =>
    by_cases hplus : c = '+'.toUInt8
    · exact ⟨.plus, s, by rw [hplus]; rfl, by rw [hplus]; rfl, fun _ _ _ h => by cases h⟩
    · by_cases hminus : c = '-'.toUInt8
      · exact ⟨.minus, s, by rw [hminus]; rfl, by rw [hminus]; rfl, fun _ _ _ h => by cases h⟩
      · refine ⟨.absent, c :: s, rfl, by simp [readSign, hplus, hminus], fun c' q h _ => ?_⟩
        cases h
        exact ⟨hplus, hminus⟩

theorem readBase_spec (s : List UInt8) : ∃ (base : NumeralBase) (rest : List UInt8),
    s = base.text ++ rest ∧
      readBase s = (base.radix, if base = .hexadecimal then skipZeros rest else rest) ∧
      ∀ c q, rest = c :: q → base = .decimal →
        c ≠ '$'.toUInt8 ∧ c ≠ '&'.toUInt8 ∧ c ≠ '%'.toUInt8 := by
  cases s with
  | nil => exact ⟨.decimal, [], rfl, rfl, fun c q h => by cases h⟩
  | cons c s =>
    by_cases hhex : c = '$'.toUInt8
    · exact ⟨.hexadecimal, s, by rw [hhex]; rfl, by rw [hhex]; rfl, fun _ _ _ h => by cases h⟩
    · by_cases hoct : c = '&'.toUInt8
      · exact ⟨.octal, s, by rw [hoct]; rfl, by rw [hoct]; rfl, fun _ _ _ h => by cases h⟩
      · by_cases hbin : c = '%'.toUInt8
        · exact ⟨.binary, s, by rw [hbin]; rfl, by rw [hbin]; rfl, fun _ _ _ h => by cases h⟩
        · refine ⟨.decimal, c :: s, rfl, ?_, fun c' q h _ => ?_⟩
          · simp [readBase, hhex, hoct, hbin, NumeralBase.radix]
          · cases h
            exact ⟨hhex, hoct, hbin⟩

theorem exists_header (buf : List UInt8) : ∃ (h : NumeralHeader) (rest : List UInt8),
    buf = h.text ++ rest ∧ readHeader buf = (h.negative, h.base.radix, h.skipped rest) ∧
      ∀ c q, rest = c :: q → h.Stops c := by
  obtain ⟨sign, afterSign, hsign, hread, hsignStop⟩ := readSign_spec (buf.dropWhile isBlank)
  obtain ⟨base, rest, hbase, hreadBase, hbaseStop⟩ := readBase_spec afterSign
  have hblanks : ∀ c ∈ buf.takeWhile isBlank, isBlank c = true :=
    fun c hc => List.all_eq_true.mp List.all_takeWhile c hc
  refine ⟨⟨buf.takeWhile isBlank, hblanks, sign, base⟩, rest, ?_, ?_, fun c q hc => ?_⟩
  · rw [NumeralHeader.text, List.append_assoc, List.append_assoc, ← hbase, ← hsign,
      List.takeWhile_append_dropWhile]
  · rw [readHeader, hread]
    dsimp only
    rw [hreadBase]
    rfl
  · refine ⟨hbaseStop c q hc, fun hdec habs => ?_⟩
    dsimp only at hdec habs
    subst hdec habs
    have hdrop : buf.dropWhile isBlank = c :: q := by rw [hsign, hbase, hc]; rfl
    have hblank := List.head_dropWhile_not isBlank (by rw [hdrop]; exact List.cons_ne_nil c q)
    simp only [hdrop, List.head_cons] at hblank
    obtain ⟨hplus, hminus⟩ := hsignStop c q (by rw [hbase, hc]; rfl) rfl
    exact ⟨hplus, hminus, by simpa using hblank⟩

theorem IsDigit.stops {radix : Int} {c : UInt8} (hc : IsDigit radix c) (h : NumeralHeader) :
    h.Stops c := by
  have hne : ∀ d : UInt8, tp2ccDigitValue d = -1 → c ≠ d := by
    intro d hd hcd
    have := hc.1
    rw [hcd, hd] at this
    omega
  have hblank : isBlank c = false := by
    simp only [isBlank, decide_eq_false_iff_not, not_or]
    exact ⟨hne _ (by decide), hne _ (by decide)⟩
  exact ⟨fun _ => ⟨hne _ (by decide), hne _ (by decide), hne _ (by decide)⟩,
    fun _ _ => ⟨hne _ (by decide), hne _ (by decide), hblank⟩⟩

/-! The parser. -/

section
variable {t : IntType}

theorem NumeralBase.radix_eq_ten {b : NumeralBase} : b.radix = 10 ↔ b = .decimal := by
  cases b <;> decide

theorem maxValue_signed (hs : t.signed = true) (neg : Bool) :
    maxValue t neg 10 = if neg then 2^(t.bits-1) else 2^(t.bits-1)-1 := by
  have hsplit := t.two_pow_split
  have hpos := IntType.two_pow_pos (t.bits-1)
  have hhi : t.hi = 2^(t.bits-1)-1 := by simp [IntType.hi, hs]
  have htwin : t.twin.hi = 2^t.bits-1 := by simp [IntType.hi, IntType.twin]
  have hsigned : t.twin.reduce t.hi = 2^(t.bits-1)-1 := by
    rw [hhi]
    exact twin_reduce (by omega) (by omega)
  rw [maxValue, if_pos ⟨hs, rfl⟩]
  dsimp only
  rw [hsigned]
  cases neg with
  | false => rfl
  | true =>
    rw [if_pos rfl, if_pos rfl, twin_reduce (by omega) (by omega)]
    omega

theorem maxValue_of_not {neg : Bool} {base : Int} (h : ¬ (t.signed = true ∧ base = 10)) :
    maxValue t neg base = t.twin.hi := by
  rw [maxValue, if_neg h]

theorem maxValue_bounds (t : IntType) (neg : Bool) (base : Int) :
    0 ≤ maxValue t neg base ∧ maxValue t neg base ≤ t.twin.hi := by
  have hsplit := t.two_pow_split
  have hpos := IntType.two_pow_pos (t.bits-1)
  have htwin : t.twin.hi = 2^t.bits-1 := by simp [IntType.hi, IntType.twin]
  by_cases h : t.signed = true ∧ base = 10
  · rw [h.2, maxValue_signed h.1]
    split <;> omega
  · rw [maxValue_of_not h]
    omega

theorem inRange_iff {h : NumeralHeader} (hneg : ¬ (t.signed = false ∧ h.sign = .minus)) {m : Int}
    (hm : 0 ≤ m) : h.InRange t m ↔ m ≤ maxValue t h.negative h.base.radix := by
  have hpos := IntType.two_pow_pos (t.bits-1)
  have hsign : t.signed = false → h.sign ≠ .minus := fun hs hm => hneg ⟨hs, hm⟩
  rw [NumeralHeader.InRange, and_iff_right hsign]
  by_cases hdec : h.base = .decimal
  · rw [if_pos hdec, hdec, NumeralBase.radix]
    cases hs : t.signed with
    | false =>
      have hfactor : h.sign.factor = 1 := by
        cases hsg : h.sign with
        | minus => exact absurd hsg (hsign hs)
        | absent => rfl
        | plus => rfl
      rw [hfactor, Int.one_mul, maxValue_of_not (by simp [hs]), IntType.holds_unsigned hs]
      simp only [IntType.hi, IntType.twin, Bool.false_eq_true, if_false]
      omega
    | true =>
      rw [maxValue_signed hs, IntType.holds_signed hs]
      cases hsg : h.sign with
      | absent => simp only [NumeralHeader.negative, hsg, NumeralSign.factor, reduceCtorEq, decide_false, Bool.false_eq_true, if_false]; omega
      | plus => simp only [NumeralHeader.negative, hsg, NumeralSign.factor, reduceCtorEq, decide_false, Bool.false_eq_true, if_false]; omega
      | minus => simp only [NumeralHeader.negative, hsg, NumeralSign.factor, decide_true, if_true]; omega
  · rw [if_neg hdec, maxValue_of_not fun hcon => hdec (NumeralBase.radix_eq_ten.mp hcon.2)]

theorem skipZeros_eq_nil {s : List UInt8} : skipZeros s = [] ↔ s = [] := by
  fun_induction skipZeros s with
  | case1 d s ih => simpa using ih
  | case2 c d s h => simp
  | case3 s h => rfl

theorem readDigits_skipZeros (ht : 8 ≤ t.bits) {max : Int} (hmax : 0 ≤ max ∧ max ≤ t.twin.hi)
    (s : List UInt8) :
    readDigits t.twin 16 max 0 (skipZeros s) = readDigits t.twin 16 max 0 s := by
  fun_induction skipZeros s with
  | case1 d s ih =>
    have hext : Extends NumeralBase.hexadecimal.radix max 0 '0'.toUInt8 := ⟨by decide, hmax.1⟩
    have hzero := readDigits_cons (b := .hexadecimal) ht hmax.2 ⟨le_refl 0, hmax.1⟩ '0'.toUInt8
      (d :: s)
    rw [if_pos hext] at hzero
    exact ih.trans hzero.symm
  | case2 c d s h => rfl
  | case3 s h => rfl

/-- The sign is applied in the unsigned type, which the conversion to the type undoes. -/
theorem ofInt_signed {h : NumeralHeader} (hneg : ¬ (t.signed = false ∧ h.sign = .minus)) (m : Int) :
    Word.ofInt t (if t.signed = true ∧ h.sign = .minus then t.twin.reduce (0-m) else m) =
      .ofInt t (h.sign.factor*m) := by
  ext
  rw [Word.ofInt_val, Word.ofInt_val]
  cases hs : h.sign with
  | absent => simp [NumeralSign.factor]
  | plus => simp [NumeralSign.factor]
  | minus =>
    have hsigned : t.signed = true := by
      cases hsg : t.signed with
      | true => rfl
      | false => exact absurd ⟨hsg, hs⟩ hneg
    have htwin : t.bits ≤ t.twin.bits := le_refl t.bits
    rw [if_pos ⟨hsigned, rfl⟩, IntType.reduce_through htwin, NumeralSign.factor]
    congr 1
    omega

theorem skipZeros_length_le (s : List UInt8) : (skipZeros s).length ≤ s.length := by
  fun_induction skipZeros s with
  | case1 d s ih => simpa using Nat.le_succ_of_le ih
  | case2 c d s h => exact le_refl _
  | case3 s h => exact le_refl _

theorem skipped_length_le (h : NumeralHeader) (rest : List UInt8) :
    (h.skipped rest).length ≤ rest.length := by
  unfold NumeralHeader.skipped
  split
  · exact skipZeros_length_le rest
  · exact le_refl _

theorem skipped_eq_nil {h : NumeralHeader} {rest : List UInt8} : h.skipped rest = [] ↔ rest = [] := by
  unfold NumeralHeader.skipped
  split
  · exact skipZeros_eq_nil
  · exact Iff.rfl

theorem readDigits_skipped (ht : 8 ≤ t.bits) {max : Int} (hmax : 0 ≤ max ∧ max ≤ t.twin.hi)
    (h : NumeralHeader) (rest : List UInt8) :
    readDigits t.twin h.base.radix max 0 (h.skipped rest) =
      readDigits t.twin h.base.radix max 0 rest := by
  unfold NumeralHeader.skipped
  split
  · rename_i hhex
    rw [hhex]
    exact readDigits_skipZeros ht hmax rest
  · rfl

def scanNumeral (t : IntType) (buf : List UInt8) : Except (List UInt8) Int :=
  let (neg, base, s) := readHeader buf
  readDigits t.twin base (maxValue t neg base) 0 s

theorem scanNumeral_eq (ht : 8 ≤ t.bits) {buf rest : List UInt8} {h : NumeralHeader}
    (hread : readHeader buf = (h.negative, h.base.radix, h.skipped rest)) :
    scanNumeral t buf =
      readDigits t.twin h.base.radix (maxValue t h.negative h.base.radix) 0 rest := by
  rw [scanNumeral, hread]
  exact readDigits_skipped ht (maxValue_bounds t _ _) h rest

/-- The parser behind the header. The zeros it passes over matter only to a place of failure. -/
theorem parse_eq (ht : 8 ≤ t.bits) {buf rest : List UInt8} {h : NumeralHeader}
    (hread : readHeader buf = (h.negative, h.base.radix, h.skipped rest)) :
    tp2ccParsePascalInteger t buf =
      if rest = [] then failAt t buf []
      else if t.signed = false ∧ h.sign = .minus then failAt t buf (h.skipped rest)
      else
        match scanNumeral t buf with
        | .error r => failAt t buf r
        | .ok m => (.ofInt t (h.sign.factor*m), .ofInt .int 0) := by
  have hparse : tp2ccParsePascalInteger t buf =
      let (neg, base, s) := readHeader buf
      if s = [] then failAt t buf s
      else if t.signed = false ∧ neg = true then failAt t buf s
      else
        match readDigits t.twin base (maxValue t neg base) 0 s with
        | .error rest => failAt t buf rest
        | .ok value =>
          let value := if t.signed = true ∧ neg = true then t.twin.reduce (0-value) else value
          (.ofInt t value, .ofInt .int 0) := rfl
  have hneg : h.negative = true ↔ h.sign = .minus := decide_eq_true_iff
  rw [hparse, hread, scanNumeral_eq ht hread]
  dsimp only
  rw [readDigits_skipped ht (maxValue_bounds t _ _)]
  simp only [skipped_eq_nil, hneg]
  by_cases hrest : rest = []
  · rw [if_pos hrest, if_pos hrest, skipped_eq_nil.mpr hrest]
  · rw [if_neg hrest, if_neg hrest]
    by_cases hminus : t.signed = false ∧ h.sign = .minus
    · rw [if_pos hminus, if_pos hminus]
    · rw [if_neg hminus, if_neg hminus]
      cases readDigits t.twin h.base.radix (maxValue t h.negative h.base.radix) 0 rest with
      | error r => rfl
      | ok m =>
        dsimp only
        rw [ofInt_signed hminus]

theorem scanNumeral_digits (ht : 8 ≤ t.bits) {h : NumeralHeader} {digits : List UInt8}
    (hne : digits ≠ []) (hd : ∀ c ∈ digits, IsDigit h.base.radix c)
    (hr : h.InRange t (magnitude h.base.radix digits)) :
    readHeader (h.text ++ digits) = (h.negative, h.base.radix, h.skipped digits) ∧
      scanNumeral t (h.text ++ digits) = .ok (magnitude h.base.radix digits) := by
  have hbounds := maxValue_bounds t h.negative h.base.radix
  have hsign : ¬ (t.signed = false ∧ h.sign = .minus) := fun hcon => hr.1 hcon.1 hcon.2
  have hle := (inRange_iff hsign (le_magnitudeFrom (le_refl 0) hd)).mp hr
  have hfits := (fits_iff ⟨le_refl 0, hbounds.1⟩).mpr ⟨hd, hle⟩
  have hread : readHeader (h.text ++ digits) = (h.negative, h.base.radix, h.skipped digits) := by
    cases digits with
    | nil => contradiction
    | cons c q => exact readHeader_of_stops h ((hd c List.mem_cons_self).stops h) q
  have hloop := readDigits_append ht hbounds.2 ⟨le_refl 0, hbounds.1⟩ hfits []
  rw [List.append_nil] at hloop
  exact ⟨hread, (scanNumeral_eq ht hread).trans hloop⟩

theorem parse_of_accepts (ht : 8 ≤ t.bits) {s : List UInt8} {v : Word t} (h : Accepts t s v) :
    tp2ccParsePascalInteger t s = (v, .ofInt .int 0) := by
  obtain ⟨h, digits, rfl, hne, hd, hr, rfl⟩ := h
  obtain ⟨hread, hscan⟩ := scanNumeral_digits ht hne hd hr
  rw [parse_eq ht hread, hscan, if_neg hne, if_neg fun hcon => hr.1 hcon.1 hcon.2]

theorem scanNumeral_of_accepts (ht : 8 ≤ t.bits) {s : List UInt8} {v : Word t}
    (h : Accepts t s v) : ∃ m, scanNumeral t s = .ok m := by
  obtain ⟨h, digits, rfl, hne, hd, hr, -⟩ := h
  exact ⟨_, (scanNumeral_digits ht hne hd hr).2⟩

theorem scanNumeral_stuck (ht : 8 ≤ t.bits) {h : NumeralHeader} {digits : List UInt8} {c : UInt8}
    (hfits : Fits h.base.radix (maxValue t h.negative h.base.radix) 0 digits)
    (hbad : ¬ Extends h.base.radix (maxValue t h.negative h.base.radix)
      (magnitude h.base.radix digits) c)
    (hstop : ∀ d ∈ (digits ++ [c]).head?, h.Stops d) (q : List UInt8) :
    scanNumeral t (h.text ++ (digits ++ c :: q)) = .error (c :: q) := by
  have hbounds := maxValue_bounds t h.negative h.base.radix
  have hread : readHeader (h.text ++ (digits ++ c :: q)) =
      (h.negative, h.base.radix, h.skipped (digits ++ c :: q)) := by
    cases digits with
    | nil => exact readHeader_of_stops h (hstop c rfl) q
    | cons d digits => exact readHeader_of_stops h (hstop d rfl) (digits ++ c :: q)
  obtain ⟨hd, hle⟩ := (fits_iff ⟨le_refl 0, hbounds.1⟩).mp hfits
  have hmag : 0 ≤ magnitude h.base.radix digits ∧
      magnitude h.base.radix digits ≤ maxValue t h.negative h.base.radix :=
    ⟨le_magnitudeFrom (le_refl 0) hd, hle⟩
  rw [scanNumeral_eq ht hread, readDigits_append ht hbounds.2 ⟨le_refl 0, hbounds.1⟩ hfits]
  exact (readDigits_cons ht hbounds.2 hmag c q).trans (if_neg hbad)

/-- Digits in range, or a zero where there are none, make a numeral. -/
theorem completable_of_fits {h : NumeralHeader} {digits : List UInt8}
    (hsign : ¬ (t.signed = false ∧ h.sign = .minus))
    (hfits : Fits h.base.radix (maxValue t h.negative h.base.radix) 0 digits) :
    Completable t (h.text ++ digits) := by
  have hbounds := maxValue_bounds t h.negative h.base.radix
  obtain ⟨hd, hle⟩ := (fits_iff ⟨le_refl 0, hbounds.1⟩).mp hfits
  by_cases hne : digits = []
  · have hzero : magnitude h.base.radix ['0'.toUInt8] = 0 := by simp [magnitude, magnitudeFrom]; decide
    refine ⟨['0'.toUInt8], _, h, ['0'.toUInt8], by rw [hne, List.append_nil], by simp,
      fun c hc => ?_, ?_, rfl⟩
    · rw [List.mem_singleton] at hc
      have hradix := h.base.radix_bounds
      have hvalue : tp2ccDigitValue c = 0 := by rw [hc]; decide
      exact ⟨by omega, by omega⟩
    · rw [hzero]
      exact (inRange_iff hsign (le_refl 0)).mpr hbounds.1
  · refine ⟨[], _, h, digits, List.append_nil _, hne, hd, ?_, rfl⟩
    exact (inRange_iff hsign (le_magnitudeFrom (le_refl 0) hd)).mpr hle

/-- Some text has a minus sign in front of its base prefix and digits. -/
def Negated (s : List UInt8) : Prop :=
  ∃ (h : NumeralHeader) (rest : List UInt8), s = h.text ++ rest ∧ h.sign = .minus

theorem failAt_eq (buf rest : List UInt8) :
    failAt t buf rest = (.ofInt t 0, .ofInt .int ((buf.length-rest.length : Nat)+1)) := rfl

theorem parse_stuck (ht : 8 ≤ t.bits) {s rest : List UInt8} {h : NumeralHeader}
    (hs' : s = h.text ++ rest) (hread : readHeader s = (h.negative, h.base.radix, h.skipped rest))
    (hstop : ∀ c q, rest = c :: q → h.Stops c) (hsign : ¬ (t.signed = false ∧ h.sign = .minus))
    (hs : ∀ v, ¬ Accepts t s v) : ∃ k : Nat, FirstImpossible t s k ∧
      tp2ccParsePascalInteger t s = (.ofInt t 0, .ofInt .int (k+1)) := by
  have hbounds := maxValue_bounds t h.negative h.base.radix
  obtain ⟨digits, tail, hrest, hfits, hbad⟩ :=
    exists_fits h.base.radix (maxValue t h.negative h.base.radix) 0 rest
  obtain ⟨hd, hle⟩ := (fits_iff ⟨le_refl 0, hbounds.1⟩).mp hfits
  rw [parse_eq ht hread, if_neg hsign]
  cases tail with
  | nil =>
    have hempty : rest = [] := by
      by_contra hne
      rw [List.append_nil] at hrest
      exact hs _ ⟨h, digits, by rw [hs', hrest], hrest ▸ hne, hd,
        (inRange_iff hsign (le_magnitudeFrom (le_refl 0) hd)).mpr hle, rfl⟩
    rw [if_pos hempty]
    refine ⟨s.length, ⟨le_refl _, ?_, fun hlt => absurd hlt (lt_irrefl _)⟩, rfl⟩
    rw [List.take_length, hs', hempty]
    exact completable_of_fits hsign trivial
  | cons c q =>
    have hfirst : ∀ d ∈ (digits ++ [c]).head?, h.Stops d := by
      intro d hd
      cases digits with
      | nil =>
        cases hd
        exact hstop c q hrest
      | cons e digits =>
        cases hd
        exact hstop d _ hrest
    have hstuck := scanNumeral_stuck ht hfits (hbad c q rfl) hfirst
    have htext : s = (h.text ++ digits) ++ c :: q := by
      rw [hs', hrest, List.append_assoc]
    have hne : rest ≠ [] := by simp [hrest]
    have hlen : s.length = (h.text ++ digits).length+(q.length+1) := by
      rw [htext, List.length_append, List.length_cons]
    have hscan : scanNumeral t s = .error (c :: q) := by rw [hs', hrest, hstuck q]
    rw [if_neg hne, hscan]
    dsimp only
    rw [failAt_eq]
    refine ⟨(h.text ++ digits).length, ⟨by omega, ?_, fun _ => ?_⟩, ?_⟩
    · rw [htext, List.take_left]
      exact completable_of_fits hsign hfits
    · rw [htext, List.take_length_add_append]
      rintro ⟨more, v, hv⟩
      obtain ⟨m, hm⟩ := scanNumeral_of_accepts ht hv
      have hcut : h.text ++ digits ++ [c] ++ more = h.text ++ (digits ++ c :: more) := by simp
      rw [List.take_one, List.head?_cons, Option.toList_some, hcut, hstuck more] at hm
      cases hm
    · rw [hlen, List.length_cons, Nat.add_sub_cancel]

theorem parse_of_not_accepts (ht : 8 ≤ t.bits) {s : List UInt8} (hs : ∀ v, ¬ Accepts t s v)
    (hneg : t.signed = true ∨ ¬ Negated s) : ∃ k : Nat, FirstImpossible t s k ∧
      tp2ccParsePascalInteger t s = (.ofInt t 0, .ofInt .int (k+1)) := by
  obtain ⟨h, rest, hs', hread, hstop⟩ := exists_header s
  refine parse_stuck ht hs' hread hstop (fun ⟨hu, hm⟩ => ?_) hs
  rcases hneg with hsg | hn
  · rw [hu] at hsg
    cases hsg
  · exact hn ⟨h, rest, hs', hm⟩

theorem parse_of_minus (ht : 8 ≤ t.bits) (hu : t.signed = false) {s rest : List UInt8}
    {h : NumeralHeader} (hread : readHeader s = (h.negative, h.base.radix, h.skipped rest))
    (hm : h.sign = .minus) : tp2ccParsePascalInteger t s = failAt t s (h.skipped rest) := by
  rw [parse_eq ht hread]
  by_cases hrest : rest = []
  · rw [if_pos hrest, skipped_eq_nil.mpr hrest]
  · rw [if_neg hrest, if_pos ⟨hu, hm⟩]

end

end Tp2cc.Rt
