import Mathlib.Data.List.TakeWhile
import Tp2cc.Runtime.Val

set_option autoImplicit false

namespace Tp2cc.Rt
open Machine ShortString

def CxxInteger (t : IntType) : Prop := t.bits = 8 ∨ t.bits = 16 ∨ t.bits = 32 ∨ t.bits = 64

def uint8 : IntType := ⟨false, 8, IntType.eight_pos⟩
def uint16 : IntType := ⟨false, 16, IntType.sixteen_pos⟩
def uint32 : IntType := ⟨false, 32, IntType.thirtyTwo_pos⟩
def uint64 : IntType := ⟨false, 64, IntType.sixtyFour_pos⟩

section
variable {t : IntType} {n : Capacity}

def decimalText (v : Int) : List UInt8 :=
  (if v < 0 then NumeralSign.minus else .absent).text ++
    (Nat.toDigits 10 v.natAbs).map Char.toUInt8

/-- `p_str` has an overload for each type that the value may be promoted to. -/
def pStrShort (n : Capacity) (v : Word t) : ShortString n :=
  tp2ccShortstringOfCStr n (some (decimalText (v.cast t.promote).val))

def pStrAnsi (v : Word t) : List UInt8 := cString (some (decimalText (v.cast t.promote).val))

/-- The template that takes any string, number and code. The overloads for two `int32_t`
do the same without the conversion of the code. -/
def pValGeneric (t code : IntType) (s : List UInt8) : Word t × Word code :=
  let (n, parsedCode) := tp2ccParsePascalInteger t s
  (n, parsedCode.cast code)

def parseUInt (t : IntType) : IntType := if t.bits ≤ 32 then uint32 else uint64

/-- The number is parsed as a `u` and then checked against the bound of `t`. -/
def pValThrough (u t : IntType) (s : List UInt8) : Word t × Word IntType.int :=
  let (parsed, code) := tp2ccParsePascalInteger u s
  if code.val ≠ 0 ∨ parsed.val > t.hi then
    (.ofInt t 0, if code.val = 0 then .ofInt .int 1 else code)
  else (parsed.cast t, code)

def pValUnsigned (t : IntType) (s : List UInt8) : Word t × Word IntType.int :=
  pValThrough (parseUInt t) t s

def pValShort (t code : IntType) (s : ShortString n) : Word t × Word code :=
  if t.signed = false ∧ t ≠ uint8 ∧ code = .int then
    let (out, parsedCode) := pValUnsigned t s.content
    (out, parsedCode.cast code)
  else pValGeneric t code s.content

def pValAnsi (t code : IntType) (s : List UInt8) : Word t × Word code := pValGeneric t code s

end

/-! The numeral of a value. -/

theorem tp2ccDigitValue_digitChar : ∀ d < 10, tp2ccDigitValue (Nat.digitChar d).toUInt8 = d := by
  decide

theorem magnitude_snoc (radix : Int) (digits : List UInt8) (c : UInt8) :
    magnitude radix (digits ++ [c]) = magnitude radix digits*radix+tp2ccDigitValue c := by
  rw [magnitude, magnitudeFrom, List.foldl_append]
  rfl

theorem toDigits_digits (m : Nat) :
    (∀ c ∈ (Nat.toDigits 10 m).map Char.toUInt8, IsDigit 10 c) ∧
      magnitude 10 ((Nat.toDigits 10 m).map Char.toUInt8) = m := by
  have hdigit (d : Nat) (hd : d < 10) : IsDigit 10 (Nat.digitChar d).toUInt8 := by
    rw [IsDigit, tp2ccDigitValue_digitChar d hd]
    omega
  induction m using Nat.strongRecOn with
  | ind m ih =>
    by_cases hm : m < 10
    · rw [Nat.toDigits_of_lt_base hm, List.map_singleton]
      refine ⟨fun c hc => ?_, ?_⟩
      · rw [List.mem_singleton.mp hc]
        exact hdigit m hm
      · have hone := magnitude_snoc 10 [] (Nat.digitChar m).toUInt8
        rw [tp2ccDigitValue_digitChar m hm] at hone
        simpa [magnitude, magnitudeFrom] using hone
    · obtain ⟨hall, hmag⟩ := ih (m/10) (by omega)
      have hlast : m%10 < 10 := by omega
      rw [Nat.toDigits_of_base_le (by decide) (by omega), List.map_append, List.map_singleton]
      refine ⟨fun c hc => ?_, ?_⟩
      · rcases List.mem_append.mp hc with hc | hc
        · exact hall c hc
        · rw [List.mem_singleton.mp hc]
          exact hdigit _ hlast
      · rw [magnitude_snoc, hmag, tp2ccDigitValue_digitChar _ hlast]
        omega

section
variable {t : IntType}

theorem decimalText_accepts (v : Word t) : Accepts t (decimalText v.val) v := by
  obtain ⟨hall, hmag⟩ := toDigits_digits v.val.natAbs
  have hsigned : (if v.val < 0 then NumeralSign.minus else .absent).factor*(v.val.natAbs : Int) =
      v.val := by
    split
    · simp only [NumeralSign.factor]
      omega
    · simp only [NumeralSign.factor]
      omega
  refine ⟨⟨[], by simp, if v.val < 0 then .minus else .absent, .decimal⟩,
    (Nat.toDigits 10 v.val.natAbs).map Char.toUInt8, ?_, by simp, hall, ⟨fun hu hminus => ?_, ?_⟩, ?_⟩
  · rw [decimalText, NumeralHeader.text, NumeralBase.text, List.append_nil, List.nil_append]
  · have hnonneg := ((IntType.holds_unsigned hu _).mp v.mem).1
    rw [if_neg (by omega)] at hminus
    cases hminus
  · rw [if_pos rfl, NumeralBase.radix, hmag, hsigned]
    exact v.mem
  · rw [NumeralBase.radix, hmag, hsigned, Word.ofInt_of_holds v.mem]

theorem cString_decimalText (v : Int) : cString (some (decimalText v)) = decimalText v := by
  obtain ⟨hall, -⟩ := toDigits_digits v.natAbs
  rw [cString]
  apply List.takeWhile_eq_self_iff.mpr
  intro c hc
  rw [decimalText] at hc
  rcases List.mem_append.mp hc with hc | hc
  · split at hc
    · rw [List.mem_singleton.mp hc]
      decide
    · cases hc
  · have hpos := (hall c hc).1
    simp only [decide_eq_true_eq]
    rintro rfl
    revert hpos
    decide

theorem promoted_val (v : Word t) : (v.cast t.promote).val = v.val :=
  Word.cast_val_of_holds (t.promote_within.holds v.mem)

theorem CxxInteger.bits_ge (ht : CxxInteger t) : 8 ≤ t.bits := by
  unfold CxxInteger at ht
  omega

theorem pValGeneric_of_accepts (ht : CxxInteger t) (code : IntType) {s : List UInt8} {v : Word t}
    (h : Accepts t s v) : pValGeneric t code s = (v, .ofInt code 0) := by
  rw [pValGeneric, parse_of_accepts ht.bits_ge h]
  dsimp only
  congr 1

theorem pVal_str_ansi (ht : CxxInteger t) (code : IntType) (v : Word t) :
    pValAnsi t code (pStrAnsi v) = (v, .ofInt code 0) := by
  rw [pStrAnsi, cString_decimalText, promoted_val]
  exact pValGeneric_of_accepts ht code (decimalText_accepts v)

theorem within_parseUInt (ht : CxxInteger t) (hu : t.signed = false) : t.Within (parseUInt t) := by
  have hbits : t.bits ≤ (parseUInt t).bits := by
    unfold parseUInt CxxInteger at *
    split
    · assumption
    · simp only [uint64]
      omega
  have hsigned : t.signed = (parseUInt t).signed := by
    rw [hu, parseUInt]
    split <;> rfl
  exact IntType.within_of_same hsigned hbits

theorem parseUInt_integer (t : IntType) : CxxInteger (parseUInt t) := by
  unfold parseUInt CxxInteger
  split <;> simp [uint32, uint64]

theorem pValUnsigned_of_holds (ht : CxxInteger t) (hu : t.signed = false) (v : Word t) :
    pValUnsigned t (decimalText v.val) = (v, .ofInt .int 0) := by
  have hv := (within_parseUInt ht hu).holds v.mem
  have hparse := parse_of_accepts (parseUInt_integer t).bits_ge (decimalText_accepts ⟨v.val, hv⟩)
  have hzero : (Word.ofInt IntType.int 0).val = 0 := IntType.reduce_of_holds IntType.int.holds_zero
  have hle := v.mem.2
  rw [pValUnsigned, pValThrough, hparse]
  dsimp only
  rw [if_neg (by omega)]
  congr 1
  ext
  rw [Word.cast_val]
  exact IntType.reduce_of_holds v.mem

theorem pVal_str_short (ht : CxxInteger t) (code : IntType) (v : Word t) {n : Capacity}
    (hn : (decimalText v.val).length ≤ n.val) :
    pValShort t code (pStrShort n v) = (v, .ofInt code 0) := by
  have hcontent : (pStrShort n v).content = decimalText v.val := by
    rw [pStrShort, (tp2ccShortstringOfCStr_represents n _).content, cString_decimalText,
      promoted_val, List.take_of_length_le hn]
  rw [pValShort, hcontent]
  split
  · rename_i hsel
    rw [pValUnsigned_of_holds ht hsel.1 v]
    dsimp only
    congr 1
  · exact pValGeneric_of_accepts ht code (decimalText_accepts v)

theorem int_val {k : Nat} (hk : k < 2^31) : (Word.ofInt IntType.int k).val = k := by
  have hbits : IntType.int.bits = 32 := rfl
  rw [Word.ofInt_val]
  apply IntType.reduce_of_holds
  rw [IntType.holds_signed rfl, hbits]
  omega

theorem failAt_code {s rest : List UInt8} (hs : s.length+1 < 2^31) :
    (failAt t s rest).2.val = (s.length-rest.length : Nat)+1 := by
  rw [failAt_eq]
  exact_mod_cast int_val (k := s.length-rest.length+1) (by omega)

/-- On a text whose places all fit the code, code zero means a numeral. -/
theorem parse_code_zero_iff (ht : 8 ≤ t.bits) {s : List UInt8} (hs : s.length+1 < 2^31) :
    (tp2ccParsePascalInteger t s).2.val = 0 ↔ ∃ v, Accepts t s v := by
  constructor
  · intro hcode
    by_contra hnot
    obtain ⟨h, rest, hs', hread, hstop⟩ := exists_header s
    by_cases hsign : t.signed = false ∧ h.sign = .minus
    · rw [parse_of_minus ht hsign.1 hread hsign.2, failAt_code hs] at hcode
      omega
    · obtain ⟨k, hk, hparse⟩ := parse_stuck ht hs' hread hstop hsign
        fun v hv => hnot ⟨v, hv⟩
      have hle := hk.1
      have hval := int_val (k := k+1) (by omega)
      push_cast at hval
      rw [hparse] at hcode
      dsimp only at hcode
      omega
  · rintro ⟨v, hv⟩
    rw [parse_of_accepts ht hv]
    exact int_val (k := 0) (by decide)

/-- The parser accepts exactly the numerals of the type, reports for any other text the
first character that no numeral continues with, and reads back what `Str` writes. -/
theorem parsePascalInteger_exact (t : IntType) (ht : CxxInteger t) :
    (∀ s v, Accepts t s v → tp2ccParsePascalInteger t s = (v, .ofInt .int 0)) ∧
    (∀ s, (∀ v, ¬ Accepts t s v) → (t.signed = true ∨ ¬ Negated s) →
      ∃ k : Nat, FirstImpossible t s k ∧
        tp2ccParsePascalInteger t s = (.ofInt t 0, .ofInt .int (k+1))) ∧
    (t.signed = false → ∀ (h : NumeralHeader) (rest : List UInt8), h.sign = .minus →
      (∀ c ∈ rest.head?, h.Stops c) →
        tp2ccParsePascalInteger t (h.text ++ rest) = (.ofInt t 0,
          .ofInt .int ((h.text.length+(rest.length-(h.skipped rest).length) : Nat)+1))) ∧
    (∀ s : List UInt8, s.length+1 < 2^31 →
      ((tp2ccParsePascalInteger t s).2.val = 0 ↔ ∃ v, Accepts t s v)) ∧
    (∀ (code : IntType) (v : Word t), pValAnsi t code (pStrAnsi v) = (v, .ofInt code 0) ∧
      ∀ n : Capacity, (decimalText v.val).length ≤ n.val →
        pValShort t code (pStrShort n v) = (v, .ofInt code 0)) := by
  refine ⟨fun s v hv => parse_of_accepts ht.bits_ge hv,
    fun s hs hneg => parse_of_not_accepts ht.bits_ge hs hneg, fun hu h rest hm hstop => ?_,
    fun s hs => parse_code_zero_iff ht.bits_ge hs,
    fun code v => ⟨pVal_str_ansi ht code v, fun n hn => pVal_str_short ht code v hn⟩⟩
  have hlen : h.text.length+(rest.length-(h.skipped rest).length) =
      (h.text ++ rest).length-(h.skipped rest).length := by
    have := skipped_length_le h rest
    rw [List.length_append]
    omega
  rw [parse_of_minus ht.bits_ge hu (readHeader_eq h hstop) hm, failAt_eq, hlen]

theorem parsePascalInteger_exact_int : pValAnsi .int .int (pStrAnsi (Word.ofInt .int (-5))) =
    (.ofInt .int (-5), .ofInt .int 0) :=
  ((parsePascalInteger_exact .int (.inr (.inr (.inl rfl)))).2.2.2.2 .int (.ofInt .int (-5))).1

/-- The zeros behind a hexadecimal prefix are passed over before the sign is looked at:
a `byte` reads `-$00F` up to its last character. -/
theorem parsePascalInteger_passes_zeros : ¬ ∀ (h : NumeralHeader) (rest : List UInt8),
    h.sign = .minus → (∀ c ∈ rest.head?, h.Stops c) →
      (tp2ccParsePascalInteger uint8 (h.text ++ rest)).2.val = h.text.length+1 := by
  intro hclaim
  have hplace := hclaim ⟨[], by simp, .minus, .hexadecimal⟩
    ['0'.toUInt8, '0'.toUInt8, 'F'.toUInt8] rfl
    fun c _ => ⟨nofun, nofun⟩
  revert hplace
  decide

/-! `Val` of a short string and of an `tp2cc_AnsiString`. -/

def runMagnitude (s : List UInt8) : Int :=
  let (_, base, rest) := readHeader s
  magnitude base (rest.takeWhile (decide <| IsDigit base ·))

/-- Only a `word` read with an `int32_t` code goes through a wider type than its own. A
minus sign fails in either, and up to 65535 both find the same digits. -/
def ValAgrees (t code : IntType) (s : List UInt8) : Prop :=
  t ≠ uint16 ∨ code ≠ .int ∨ (readHeader s).1 = true ∨ runMagnitude s ≤ 65535

theorem Fits.mono {radix max max' value : Int} (hmax : max ≤ max') {digits : List UInt8}
    (h : Fits radix max value digits) : Fits radix max' value digits := by
  induction digits generalizing value with
  | nil => trivial
  | cons c digits ih => exact ⟨⟨h.1.1, h.1.2.trans hmax⟩, ih h.2⟩

theorem parse_cases (ht : 8 ≤ t.bits) (s : List UInt8) :
    (∃ r, tp2ccParsePascalInteger t s = failAt t s r) ∨
      ∃ v, tp2ccParsePascalInteger t s = (v, .ofInt .int 0) := by
  obtain ⟨h, rest, hs, hread, hstop⟩ := exists_header s
  rw [parse_eq ht hread]
  split_ifs
  · exact .inl ⟨[], rfl⟩
  · exact .inl ⟨_, rfl⟩
  · cases scanNumeral t s with
    | error r => exact .inl ⟨r, rfl⟩
    | ok m => exact .inr ⟨_, rfl⟩

theorem zero_val : (Word.ofInt IntType.int 0).val = 0 :=
  IntType.reduce_of_holds IntType.int.holds_zero

theorem pValThrough_of_ok {u : IntType} {s : List UInt8} {v : Word u}
    (h : tp2ccParsePascalInteger u s = (v, .ofInt .int 0)) :
    pValThrough u t s =
      if v.val > t.hi then (.ofInt t 0, .ofInt .int 1) else (v.cast t, .ofInt .int 0) := by
  rw [pValThrough, h]
  simp only [zero_val, ne_eq, not_true_eq_false, false_or, if_true]

theorem pValThrough_of_fail {u : IntType} {s r : List UInt8} (hs : s.length+1 < 2^31)
    (h : tp2ccParsePascalInteger u s = failAt u s r) : pValThrough u t s = failAt t s r := by
  have hcode : (failAt u s r).2.val = (s.length-r.length : Nat)+1 := failAt_code hs
  rw [failAt_eq] at hcode h
  rw [pValThrough, h, failAt_eq]
  dsimp only at hcode ⊢
  rw [if_pos (.inl (by omega)), if_neg (by omega)]

theorem pValThrough_self (ht : 8 ≤ t.bits) {s : List UInt8} (hs : s.length+1 < 2^31) :
    pValThrough t t s = tp2ccParsePascalInteger t s := by
  rcases parse_cases ht s with ⟨r, hr⟩ | ⟨v, hv⟩
  · rw [hr, pValThrough_of_fail hs hr]
  · have := v.mem.2
    rw [hv, pValThrough_of_ok hv, if_neg (by omega), Word.cast_self]

theorem parse_unsigned (ht : 8 ≤ t.bits) (hu : t.signed = false) {s rest : List UInt8}
    {h : NumeralHeader} (hread : readHeader s = (h.negative, h.base.radix, h.skipped rest))
    (hne : rest ≠ []) (hm : h.sign ≠ .minus) : tp2ccParsePascalInteger t s =
      match readDigits t.twin h.base.radix t.twin.hi 0 (h.skipped rest) with
      | .error r => failAt t s r
      | .ok m => (.ofInt t m, .ofInt .int 0) := by
  have hfactor : h.sign.factor = 1 := by
    cases hsg : h.sign with
    | minus => exact absurd hsg hm
    | absent => rfl
    | plus => rfl
  rw [parse_eq ht hread, if_neg hne, if_neg fun hcon => hm hcon.2, scanNumeral, hread]
  dsimp only
  rw [maxValue_of_not (by simp [hu]), hfactor]
  cases readDigits t.twin h.base.radix t.twin.hi 0 (h.skipped rest) with
  | error r => rfl
  | ok m =>
    dsimp only
    rw [Int.one_mul]

theorem takeWhile_digits {radix : Int} {digits rest : List UInt8}
    (hd : ∀ c ∈ digits, IsDigit radix c) :
    (digits ++ rest).takeWhile (decide <| IsDigit radix ·) =
      digits ++ rest.takeWhile (decide <| IsDigit radix ·) :=
  List.takeWhile_append_of_pos fun c hc => decide_eq_true (hd c hc)

/-- Once the number is past 65535 the wider scan goes on behind the place where the
narrower one has failed, or ends in code one. -/
theorem pValThrough_past_word {s q : List UInt8} {c : UInt8} {b : NumeralBase} {m : Int}
    (hs : s.length+1 < 2^31) (hplace : q.length+1 < s.length) (hm : 65535 < m ∧ m ≤ 4294967295)
    (hparse : tp2ccParsePascalInteger uint32 s =
      match readDigits uint32.twin b.radix 4294967295 m q with
      | .error r => failAt uint32 s r
      | .ok m => (.ofInt uint32 m, .ofInt .int 0)) :
    pValThrough uint32 uint16 s ≠ failAt uint16 s (c :: q) := by
  have hcode : (failAt uint16 s (c :: q)).2.val = (s.length-(q.length+1) : Nat)+1 :=
    failAt_code hs
  have h32 : uint32.twin.hi = 4294967295 := by decide
  obtain ⟨digits, tail, rfl, hfits, hstop⟩ := exists_fits b.radix 4294967295 m q
  obtain ⟨hd, hle⟩ := (fits_iff ⟨by omega, hm.2⟩).mp hfits
  have hmore : m ≤ magnitudeFrom b.radix m digits := le_magnitudeFrom (by omega) hd
  rw [readDigits_append (t := uint32) (by decide) h32.ge ⟨by omega, hm.2⟩ hfits] at hparse
  intro heq
  cases tail with
  | nil =>
    have hval : (Word.ofInt uint32 (magnitudeFrom b.radix m digits)).val =
        magnitudeFrom b.radix m digits := twin_reduce (t := uint32) (by omega) (by omega)
    have hhi : uint16.hi = 65535 := by decide
    have hone : (Word.ofInt IntType.int 1).val = 1 := int_val (k := 1) (by decide)
    rw [pValThrough_of_ok hparse, hval, if_pos (by omega)] at heq
    rw [← heq, hone] at hcode
    omega
  | cons e q =>
    have hround := readDigits_cons (t := uint32) (b := b) (by decide) h32.ge ⟨by omega, hle⟩ e q
    rw [if_neg (hstop e q rfl)] at hround
    rw [hround] at hparse
    have hcode' : (failAt uint16 s (e :: q)).2.val = (s.length-(q.length+1) : Nat)+1 :=
      failAt_code hs
    rw [pValThrough_of_fail hs hparse] at heq
    rw [← heq, hcode'] at hcode
    rw [List.length_append, List.length_cons] at hcode hplace
    omega

theorem pVal_word_agree_iff {s : List UInt8} (hs : s.length ≤ 255) :
    pValThrough uint32 uint16 s = tp2ccParsePascalInteger uint16 s ↔
      (readHeader s).1 = true ∨ runMagnitude s ≤ 65535 := by
  have hshort : s.length+1 < 2^31 := by omega
  obtain ⟨h, rest, hs', hread, -⟩ := exists_header s
  have hneg : (readHeader s).1 = true ↔ h.sign = .minus := by
    rw [hread]
    exact decide_eq_true_iff
  have hmag : runMagnitude s =
      magnitude h.base.radix ((h.skipped rest).takeWhile (decide <| IsDigit h.base.radix ·)) := by
    rw [runMagnitude, hread]
  have hbase := h.base.radix_bounds
  have h16 : uint16.twin.hi = 65535 := by decide
  have h32 : uint32.twin.hi = 4294967295 := by decide
  rw [hneg]
  by_cases hm : h.sign = .minus
  · have hfail := parse_of_minus (t := uint32) (by decide) rfl hread hm
    rw [pValThrough_of_fail hshort hfail, parse_of_minus (by decide) rfl hread hm]
    simp [hm]
  by_cases hne : rest = []
  · have hfail : tp2ccParsePascalInteger uint32 s = failAt uint32 s [] := by
      rw [parse_eq (by decide) hread, if_pos hne]
    have hempty : runMagnitude s = 0 := by
      rw [hmag, skipped_eq_nil.mpr hne]
      rfl
    rw [pValThrough_of_fail hshort hfail, parse_eq (by decide) hread, if_pos hne]
    simp [hempty]
  have hp16 := parse_unsigned (t := uint16) (by decide) rfl hread hne hm
  have hp32 := parse_unsigned (t := uint32) (by decide) rfl hread hne hm
  have hlen : (h.skipped rest).length ≤ s.length := by
    have := skipped_length_le h rest
    rw [hs', List.length_append]
    omega
  generalize h.skipped rest = text at hmag hp16 hp32 hlen
  simp only [h16, h32] at hp16 hp32
  obtain ⟨digits, tail, rfl, hfits, hstop⟩ := exists_fits h.base.radix 65535 0 text
  obtain ⟨hd, hle⟩ := (fits_iff (by decide)).mp hfits
  have hloop16 := readDigits_append (t := uint16) (by decide) h16.ge (by decide) hfits tail
  have hloop32 := readDigits_append (t := uint32) (by decide) h32.ge (by decide)
    (Fits.mono (by decide) hfits) tail
  rw [hloop16] at hp16
  rw [hloop32] at hp32
  rw [takeWhile_digits hd] at hmag
  have hpos : 0 ≤ magnitudeFrom h.base.radix 0 digits := le_magnitudeFrom (le_refl 0) hd
  rw [← magnitude] at hle hloop16 hloop32 hpos hp16 hp32
  have hin32 : (Word.ofInt uint32 (magnitude h.base.radix digits)).val =
      magnitude h.base.radix digits := twin_reduce (t := uint32) hpos (by omega)
  cases tail with
  | nil =>
    have hle16 : uint16.hi = 65535 := h16
    rw [List.takeWhile_nil, List.append_nil] at hmag
    simp only [readDigits] at hp16 hp32
    rw [pValThrough_of_ok hp32, hp16, hin32, if_neg (by omega), Word.cast, hin32]
    simp [hmag, hle]
  | cons c q =>
    have hbad := hstop c q rfl
    rw [← magnitude] at hbad
    have hround16 := readDigits_cons (t := uint16) (b := h.base) (by decide) h16.ge ⟨hpos, hle⟩ c q
    have hround32 := readDigits_cons (t := uint32) (b := h.base) (by decide) h32.ge
      ⟨hpos, by omega⟩ c q
    rw [hround16, if_neg hbad] at hp16
    rw [hround32] at hp32
    dsimp only at hp16
    by_cases hc : IsDigit h.base.radix c
    · have hnext : 65535 < magnitude h.base.radix digits*h.base.radix+tp2ccDigitValue c := by
        by_contra hsmall
        exact hbad ⟨hc, by omega⟩
      have hmul : magnitude h.base.radix digits*h.base.radix ≤ 65535*16 :=
        Int.mul_le_mul hle hbase.2 (by omega) (by decide)
      have hfirst : digits ≠ [] := by
        rintro rfl
        have := hc.2
        simp only [magnitude, magnitudeFrom, List.foldl_nil] at hnext
        omega
      have hplace : q.length+1 < s.length := by
        have := List.length_pos_of_ne_nil hfirst
        rw [List.length_append, List.length_cons] at hlen
        omega
      have hext : Extends h.base.radix 4294967295 (magnitude h.base.radix digits) c := by
        have := hc.2
        exact ⟨hc, by omega⟩
      have hrun : 65535 < runMagnitude s := by
        have hrest : ∀ d ∈ q.takeWhile (decide <| IsDigit h.base.radix ·),
            IsDigit h.base.radix d := fun d hd =>
          of_decide_eq_true (List.all_eq_true.mp List.all_takeWhile d hd)
        have happend : runMagnitude s = magnitudeFrom h.base.radix
            (magnitude h.base.radix digits*h.base.radix+tp2ccDigitValue c)
            (q.takeWhile (decide <| IsDigit h.base.radix ·)) := by
          rw [hmag, List.takeWhile_cons_of_pos (by simpa using hc), magnitude, magnitudeFrom,
            List.foldl_append]
          rfl
        rw [happend]
        exact hnext.trans_le (le_magnitudeFrom (by omega) hrest)
      rw [if_pos hext] at hp32
      rw [hp16]
      simp only [hm, false_or]
      exact iff_of_false (pValThrough_past_word hshort hplace ⟨hnext, hext.2⟩ hp32) (by omega)
    · rw [if_neg fun hext => hc hext.1] at hp32
      rw [List.takeWhile_cons_of_neg (by simpa using hc), List.append_nil] at hmag
      rw [pValThrough_of_fail hshort hp32, hp16]
      simp [hmag, hle]

theorem parseUInt_self (ht : CxxInteger t) (hu : t.signed = false) (hbyte : t ≠ uint8)
    (hword : t ≠ uint16) : parseUInt t = t := by
  obtain ⟨sg, bits, hbits⟩ := t
  simp only at hu
  subst hu
  rcases ht with hb | hb | hb | hb
  · cases hb
    exact absurd rfl hbyte
  · cases hb
    exact absurd rfl hword
  · cases hb
    rfl
  · cases hb
    rfl

/-- A short string and an `tp2cc_AnsiString` with the same bytes give `Val` the same
results except for a `word` whose digits, read without a minus sign, exceed its type. -/
theorem pVal_agree_iff (t code : IntType) (ht : CxxInteger t) {n : Capacity} {s : ShortString n}
    {b : List UInt8} (hs : s.Represents b) :
    pValShort t code s = pValAnsi t code b ↔ ValAgrees t code b := by
  have hlen : b.length+1 < 2^31 := by
    have := hs.le
    have := n.le
    omega
  rw [pValShort, hs.content, pValAnsi]
  by_cases hsel : t.signed = false ∧ t ≠ uint8 ∧ code = .int
  · obtain ⟨hu, hbyte, rfl⟩ := hsel
    rw [if_pos ⟨hu, hbyte, rfl⟩, pValGeneric, pValUnsigned]
    dsimp only
    rw [Word.cast_self, Word.cast_self]
    by_cases hword : t = uint16
    · subst hword
      have hle := hs.le
      have hn := n.le
      have hparse : parseUInt uint16 = uint32 := rfl
      have hagree := pVal_word_agree_iff (s := b) (by omega)
      rw [hparse]
      simpa [ValAgrees] using hagree
    · rw [parseUInt_self ht hu hbyte hword, pValThrough_self ht.bits_ge hlen]
      simp [ValAgrees, hword]
  · rw [if_neg hsel]
    have hagree : ValAgrees t code b := by
      by_cases hword : t = uint16
      · refine .inr (.inl fun hcode => hsel ⟨by rw [hword]; rfl, ?_, hcode⟩)
        rw [hword]
        decide
      · exact .inl hword
    simp [hagree]

def seventyThousand : ShortString .full :=
  tp2ccShortstringOfCStr .full (some (decimalText 70000))

theorem seventyThousand_represents : seventyThousand.Represents (decimalText 70000) :=
  ⟨by decide, by decide⟩

theorem pVal_agree_iff_seventyThousand :
    pValShort uint32 .int seventyThousand = pValAnsi uint32 .int (decimalText 70000) ↔
      ValAgrees uint32 .int (decimalText 70000) :=
  pVal_agree_iff uint32 .int (.inr (.inr (.inl rfl))) seventyThousand_represents

/-- `Val('70000', w, code)` with `w` a `word`: code 1 from a short string, 5 from an
`tp2cc_AnsiString`. -/
theorem pVal_word_differs : ¬ ∀ (t code : IntType), CxxInteger t →
    ∀ (n : Capacity) (s : ShortString n) (b : List UInt8), s.Represents b →
      pValShort t code s = pValAnsi t code b := by
  intro hclaim
  have hsame := hclaim uint16 .int (.inr (.inl rfl)) .full seventyThousand _
    seventyThousand_represents
  revert hsame
  decide

end

end Tp2cc.Rt
