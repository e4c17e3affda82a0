import Tp2cc.Machine.Word

/-! The integer helpers of `tp2cc_rt/prelude.h` that generated code calls. -/
set_option autoImplicit false

namespace Tp2cc.Rt
open Machine

inductive RuntimeError where
  | intOverflow | rangeError | divByZero
  deriving DecidableEq, Repr

def cxxUInt64 : IntType := ⟨false, 64, IntType.sixtyFour_pos⟩

/-- `bool` holds 0 and 1: the unsigned type of one bit. -/
def cxxBool : IntType := ⟨false, 1, Nat.one_pos⟩

section
variable {r : IntType}

/-- The shape of `tp2cc_add_checked`, `tp2cc_sub_checked` and `tp2cc_mul_checked`:
`__builtin_*_overflow` stores the wrapped result, and only a signed carrier throws. -/
def checkedResult (r : IntType) (exact : Int) : Except RuntimeError (Word r) :=
  if ¬ r.Holds exact ∧ r.signed = true then .error .intOverflow else .ok (.ofInt r exact)

def tp2ccAddChecked (a b : Word r) : Except RuntimeError (Word r) := checkedResult r (a.val+b.val)
def tp2ccSubChecked (a b : Word r) : Except RuntimeError (Word r) := checkedResult r (a.val-b.val)
def tp2ccMulChecked (a b : Word r) : Except RuntimeError (Word r) := checkedResult r (a.val*b.val)

def tp2ccNegateChecked (x : Word r) : Except RuntimeError (Word r) :=
  if r.signed = true ∧ x.val = r.lo then .error .intOverflow else .ok (.ofInt r (-x.val))

/-- A signed operand goes through its unsigned twin. -/
def tp2ccWrapNegate (x : Word r) : Word r :=
  if r.signed then ((Word.ofInt r.twin 0).sub (x.cast r.twin)).cast r else .ofInt r (-x.val)

def tp2ccIntegerFromBits (r : IntType) (bits : Word r.twin) : Word r := bits.cast r

/-- The shape of `tp2cc_wrap_add`, `tp2cc_wrap_sub` and `tp2cc_wrap_mul`: the operands
go through the unsigned twin into `uint64_t` and back. -/
def wrapThrough64 (op : Word cxxUInt64 → Word cxxUInt64 → Word cxxUInt64) (a b : Word r) : Word r :=
  tp2ccIntegerFromBits r
    ((op ((a.cast r.twin).cast cxxUInt64) ((b.cast r.twin).cast cxxUInt64)).cast r.twin)

def tp2ccWrapAdd (a b : Word r) : Word r := wrapThrough64 Word.add a b
def tp2ccWrapSub (a b : Word r) : Word r := wrapThrough64 Word.sub a b
def tp2ccWrapMul (a b : Word r) : Word r := wrapThrough64 Word.mul a b

theorem reduce_twin (r : IntType) (v : Int) : r.reduce (r.twin.reduce v) = r.reduce v :=
  IntType.reduce_through (s := r.twin) (t := r) (le_refl _) v

theorem tp2ccWrapNegate_val (x : Word r) : (tp2ccWrapNegate x).val = r.reduce (-x.val) := by
  unfold tp2ccWrapNegate
  split
  · simp only [Word.cast_val, Word.sub_val, Word.ofInt_val, reduce_twin]
    rw [← r.reduce_sub, reduce_twin, reduce_twin, r.reduce_sub, Int.zero_sub]
  · rfl

/-- What the three wrapping helpers share: the detour through 64 bits is invisible
when the operation itself commutes with reduction. -/
theorem wrapThrough64_val {op : Word cxxUInt64 → Word cxxUInt64 → Word cxxUInt64}
    {exact : Int → Int → Int} (h64 : r.bits ≤ 64)
    (hop : ∀ v w, (op v w).val = cxxUInt64.reduce (exact v.val w.val))
    (hexact : ∀ v w, r.reduce (exact (r.reduce v) (r.reduce w)) = r.reduce (exact v w))
    (a b : Word r) : (wrapThrough64 op a b).val = r.reduce (exact a.val b.val) := by
  have h : r.bits ≤ cxxUInt64.bits := h64
  simp only [wrapThrough64, tp2ccIntegerFromBits, Word.cast_val, hop, reduce_twin,
    IntType.reduce_through h]
  rw [← hexact, IntType.reduce_through h, IntType.reduce_through h, reduce_twin, reduce_twin,
    hexact]

theorem tp2ccWrapAdd_eq (h : r.bits ≤ 64) (a b : Word r) : tp2ccWrapAdd a b = a.add b :=
  Word.ext (wrapThrough64_val h Word.add_val r.reduce_add a b)

theorem tp2ccWrapSub_eq (h : r.bits ≤ 64) (a b : Word r) : tp2ccWrapSub a b = a.sub b :=
  Word.ext (wrapThrough64_val h Word.sub_val r.reduce_sub a b)

theorem tp2ccWrapMul_eq (h : r.bits ≤ 64) (a b : Word r) : tp2ccWrapMul a b = a.mul b :=
  Word.ext (wrapThrough64_val h Word.mul_val r.reduce_mul a b)

theorem checkedResult_of_holds {exact : Int} (h : r.Holds exact) :
    checkedResult r exact = .ok ⟨exact, h⟩ := by
  simp [checkedResult, h, Word.ofInt_of_holds h]

def tp2ccIntDiv (checkOverflow : Bool) (a b : Word r) : Except RuntimeError (Word r) :=
  if b.val = 0 then .error .divByZero
  else if r.signed = true ∧ a.val = r.lo ∧ b.val = r.reduce (-1) then
    if checkOverflow then .error .intOverflow else .ok a
  else .ok (.ofInt r (a.val.tdiv b.val))

def tp2ccIntMod (a b : Word r) : Except RuntimeError (Word r) :=
  if b.val = 0 then .error .divByZero
  else if r.signed = true ∧ a.val = r.lo ∧ b.val = r.reduce (-1) then .ok (.ofInt r 0)
  else .ok (.ofInt r (a.val.tmod b.val))

theorem reduce_neg_one (h : r.signed = true) : r.reduce (-1) = -1 := by
  apply IntType.reduce_of_holds
  have := IntType.two_pow_pos (r.bits-1)
  rw [IntType.holds_signed h]; omega

theorem tdiv_natAbs_le_half {a b : Int} (hb : b ≤ -2) : (a.tdiv b).natAbs ≤ a.natAbs/2 := by
  rw [Int.natAbs_tdiv]
  exact Nat.div_le_div_left (by omega) (by decide)

theorem tdiv_holds {a b : Int} (ha : r.Holds a) (hb : r.Holds b)
    (hmin : ¬ (r.signed = true ∧ a = r.lo ∧ b = -1)) : r.Holds (a.tdiv b) := by
  have hn : (a.tdiv b).natAbs ≤ a.natAbs := by
    rw [Int.natAbs_tdiv]; exact Nat.div_le_self _ _
  cases hs : r.signed with
  | false =>
    rw [IntType.holds_unsigned hs] at ha hb ⊢
    have := Int.tdiv_nonneg ha.1 hb.1
    omega
  | true =>
    have hlo : r.lo = -(2^(r.bits-1)) := by simp [IntType.lo, hs]
    rw [IntType.holds_signed hs] at ha hb ⊢
    rcases lt_trichotomy b (-1) with h | h | h
    · have := tdiv_natAbs_le_half (a := a) (b := b) (by omega)
      omega
    · subst h
      rw [Int.tdiv_neg, Int.tdiv_one]
      have : a ≠ r.lo := fun h => hmin ⟨hs, h, rfl⟩
      omega
    · rcases Int.le_total 0 a with h0 | h0
      · have := Int.tdiv_nonneg h0 (b := b) (by omega)
        omega
      · have := Int.tdiv_nonneg (a := -a) (b := b) (by omega) (by omega)
        rw [Int.neg_tdiv] at this
        omega

theorem tmod_holds {a : Int} (ha : r.Holds a) (b : Int) : r.Holds (a.tmod b) := by
  have hn : (a.tmod b).natAbs ≤ a.natAbs := by
    rw [Int.natAbs_tmod]; exact Nat.mod_le _ _
  cases hs : r.signed with
  | false =>
    rw [IntType.holds_unsigned hs] at ha ⊢
    have := Int.tmod_nonneg b ha.1
    omega
  | true =>
    rw [IntType.holds_signed hs] at ha ⊢
    rcases Int.le_total 0 a with h0 | h0
    · have := Int.tmod_nonneg b h0
      omega
    · have := Int.tmod_nonneg b (a := -a) (by omega)
      rw [Int.neg_tmod] at this
      omega

theorem tp2ccIntDiv_val (checkOverflow : Bool) {a b : Word r} (hb : b.val ≠ 0)
    (hmin : ¬ (r.signed = true ∧ a.val = r.lo ∧ b.val = -1)) :
    ∃ w, tp2ccIntDiv checkOverflow a b = .ok w ∧ w.val = a.val.tdiv b.val := by
  have hc : ¬ (r.signed = true ∧ a.val = r.lo ∧ b.val = r.reduce (-1)) := by
    rintro ⟨hs, ha, hm⟩
    exact hmin ⟨hs, ha, by rw [hm, reduce_neg_one hs]⟩
  refine ⟨.ofInt r (a.val.tdiv b.val), by simp only [tp2ccIntDiv, hb, hc, if_false], ?_⟩
  exact IntType.reduce_of_holds (tdiv_holds a.mem b.mem hmin)

theorem tp2ccIntMod_val {a b : Word r} (hb : b.val ≠ 0) :
    ∃ w, tp2ccIntMod a b = .ok w ∧ w.val = a.val.tmod b.val := by
  by_cases hc : r.signed = true ∧ a.val = r.lo ∧ b.val = r.reduce (-1)
  · refine ⟨.ofInt r 0, by simp only [tp2ccIntMod, if_neg hb, if_pos hc], ?_⟩
    rw [hc.2.2, reduce_neg_one hc.1]
    simp [IntType.reduce_of_holds r.holds_zero]
  · refine ⟨.ofInt r (a.val.tmod b.val), by simp only [tp2ccIntMod, hb, hc, if_false], ?_⟩
    exact IntType.reduce_of_holds (tmod_holds a.mem b.val)

end

section
variable {s t : IntType}

def cxxUInt32 : IntType := ⟨false, 32, IntType.thirtyTwo_pos⟩

def shiftAmount (carrier : IntType) (shift : Word t) : Nat :=
  ((shift.cast cxxUInt64).land (.ofInt cxxUInt64 (carrier.bits-1))).val.toNat

def pShl (carrier : IntType) (value : Word s) (shift : Word t) : Word carrier :=
  let amount := shiftAmount carrier shift
  let bits := (value.cast carrier.twin).cast cxxUInt64
  if carrier.bits = 64 then ((bits.shiftLeft amount).cast carrier.twin).cast carrier
  else
    let shifted := (((bits.cast cxxUInt32).shiftLeft amount).cast cxxUInt64).land
      (.ofInt cxxUInt64 (2^carrier.bits-1))
    (shifted.cast carrier.twin).cast carrier

def pShr (carrier : IntType) (value : Word s) (shift : Word t) : Word carrier :=
  ((value.cast carrier.twin).shiftRight (shiftAmount carrier shift)).cast carrier

end

/-- `tp2cc_ordinal_from_carrier`; an enum result is its underlying integer type. -/
def tp2ccOrdinalFromCarrier (result : IntType) {carrier : IntType} (value : Word carrier) :
    Word result :=
  if result = cxxBool then .ofInt result ((value.cast carrier.twin).val % 2)
  else tp2ccIntegerFromBits result (value.cast result.twin)

theorem tp2ccOrdinalFromCarrier_val (result : IntType) {carrier : IntType} (value : Word carrier) :
    (tp2ccOrdinalFromCarrier result value).val = result.reduce value.val := by
  unfold tp2ccOrdinalFromCarrier
  split_ifs with h
  · subst h
    have hd : (2 : Int) ∣ 2^carrier.bits := dvd_pow_self 2 (by have := carrier.bits_pos; omega)
    have := Int.emod_emod_of_dvd value.val hd
    simp only [Word.ofInt_val, Word.cast_val, IntType.twin, IntType.reduce, cxxBool]
    simpa using this
  · simp [tp2ccIntegerFromBits, reduce_twin]

section
variable {result carrier : IntType}

/-- The range test and the narrowing that end `tp2cc_ordinal_add` and `tp2cc_ordinal_sub`. -/
def ordinalResult (result : IntType) (checkRange : Bool) (low high stepped : Word carrier) :
    Except RuntimeError (Word result) :=
  if checkRange = true ∧ (stepped.val < low.val ∨ high.val < stepped.val) then .error .rangeError
  else .ok (tp2ccOrdinalFromCarrier result stepped)

def tp2ccOrdinalAdd (checkOverflow checkRange : Bool) (value : Word result)
    (delta low high : Word carrier) : Except RuntimeError (Word result) := do
  let source := value.cast carrier
  let stepped ← if checkOverflow then tp2ccAddChecked source delta
    else .ok (tp2ccWrapAdd source delta)
  ordinalResult result checkRange low high stepped

def tp2ccOrdinalSub (checkOverflow checkRange : Bool) (value : Word result)
    (delta low high : Word carrier) : Except RuntimeError (Word result) := do
  let source := value.cast carrier
  let stepped ← if checkOverflow then tp2ccSubChecked source delta
    else .ok (tp2ccWrapSub source delta)
  ordinalResult result checkRange low high stepped

end
end Tp2cc.Rt
