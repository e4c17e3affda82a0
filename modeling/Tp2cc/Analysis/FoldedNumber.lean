import Tp2cc.Analysis.ConstFold
import Tp2cc.Machine.Bitwise

set_option autoImplicit false

namespace Tp2cc
open Machine Rt

def Representable (v : Int) : Prop := -(2^63) ≤ v ∧ v ≤ 2^64-1

instance (v : Int) : Decidable (Representable v) := inferInstanceAs (Decidable (_ ∧ _))

def IntegerPrimitive.widest (p : IntegerPrimitive) : IntType :=
  if p.signed then cxxInt64 else cxxUInt64

theorem IntegerPrimitive.widest_holds {p : IntegerPrimitive} {target : TargetInfo} {v : Int}
    (h : (p.intType target).Holds v) : p.widest.Holds v := by
  have hb := p.bits_le target
  unfold widest
  split_ifs with hs
  · exact (IntType.within_of_same (t := cxxInt64) hs hb).holds h
  · exact (IntType.within_of_same (t := cxxUInt64) (by simpa [cxxUInt64] using hs) hb).holds h

/-- A number with the type recorded for it, which holds it at 64 bits. -/
structure Constant where
  value : Int
  type : IntegerPrimitive
  plain : type.Plain
  held : type.widest.Holds value

namespace Constant

/-- The constant as the folder records it: the value, its full representation and its type. -/
def info (c : Constant) : ConstIntExprInfo :=
  ⟨.ofInt _ c.value, .ofInt _ c.value, some c.type.kind⟩

theorem held_signed {c : Constant} (h : c.type.intKind = .signed) :
    -(2^63) ≤ c.value ∧ c.value ≤ 2^63-1 := by
  have := c.held
  rwa [IntegerPrimitive.widest, if_pos (IntegerPrimitive.signed_iff.mpr h), holds_int64] at this

theorem held_unsigned {c : Constant} (h : c.type.intKind = .unsigned) :
    0 ≤ c.value ∧ c.value ≤ 2^64-1 := by
  have := c.held
  rwa [IntegerPrimitive.widest, IntegerPrimitive.not_signed_iff.mpr h, if_neg Bool.false_ne_true,
    holds_uint64] at this

theorem representable (c : Constant) : Representable c.value := by
  unfold Representable
  cases c.type.intKind_cases with
  | inl h => have := held_signed h; omega
  | inr h => have := held_unsigned h; omega

@[simp] theorem info_value (c : Constant) : c.info.value = .ofInt _ c.value := rfl
@[simp] theorem info_bits (c : Constant) : c.info.bits = .ofInt _ c.value := rfl

@[simp] theorem info_isUnsigned (c : Constant) :
    c.info.isUnsigned = (c.type.intKind == .unsigned) := rfl

theorem info_primitive (c : Constant) : c.info.primitive = some c.type := by
  simp [ConstIntExprInfo.primitive, info, integerPrimitiveOfKind, c.type.isInteger]

theorem info_consistent (c : Constant) : c.info.Consistent :=
  (IntType.reduce_through (s := cxxInt64) (t := cxxUInt64) (le_refl _) c.value).symm

theorem info_denote (c : Constant) : c.info.denote = c.value := by
  cases c.type.intKind_cases with
  | inl h =>
    have := held_signed h
    simp [ConstIntExprInfo.denote, h, reduce_int64_of_small this.1 this.2]
  | inr h =>
    have := held_unsigned h
    simp [ConstIntExprInfo.denote, h, reduce_uint64_of_nonneg this.1 this.2]

theorem info_isNegative (c : Constant) : c.info.isNegative = decide (c.value < 0) := by
  cases c.type.intKind_cases with
  | inl h =>
    have := held_signed h
    simp [ConstIntExprInfo.isNegative, h, reduce_int64_of_small this.1 this.2]
  | inr h =>
    have := held_unsigned h
    simp [ConstIntExprInfo.isNegative, h, this.1]

theorem info_magnitude (c : Constant) : c.info.magnitude.val = |c.value| := by
  have hr := c.representable
  unfold Representable at hr
  rw [ConstIntExprInfo.magnitude, info_isNegative]
  by_cases h : c.value < 0
  · have h₁ := reduce_uint64_of_neg (v := c.value) (by omega) h
    have h₂ := reduce_uint64_of_neg (v := 0-(c.value+2^64)) (by omega) (by omega)
    have h₃ : cxxUInt64.reduce 0 = 0 := by decide
    simp only [h, decide_true, if_true, Word.sub_val, Word.ofInt_val, info_bits, h₁, h₂, h₃]
    rw [abs_of_neg h]
    omega
  · have h₁ := reduce_uint64_of_nonneg (v := c.value) (by omega) hr.2
    simp only [h, decide_false, Bool.false_eq_true, if_false, info_bits, Word.ofInt_val, h₁]
    rw [abs_of_nonneg (by omega)]

end Constant

def numberType (v : Int) : IntegerPrimitive :=
  if v ≤ 2^63-1 then (primitiveInfoForValue v).getD ⟨.int64, PrimitiveKind.int64_integer⟩
  else ⟨.qWord, PrimitiveKind.qWord_integer⟩

theorem primitiveInfoForValue_numberType {v : Int} (h : v ≤ 2^63-1) :
    primitiveInfoForValue v = some (numberType v) := by
  obtain ⟨p, hp⟩ := primitiveInfoForValue_isSome v
  rw [numberType, if_pos h, hp, Option.getD_some]

theorem numberType_held {v : Int} (h : Representable v) : (numberType v).widest.Holds v := by
  by_cases hs : v ≤ 2^63-1
  · have hp := primitiveInfoForValue_holds ⟨h.1, hs⟩ (primitiveInfoForValue_numberType hs)
      ⟨64, .inr rfl⟩
    exact IntegerPrimitive.widest_holds hp
  · rw [numberType, if_neg hs]
    exact (holds_uint64 v).mpr ⟨by omega, h.2⟩

theorem ordinalInteger_plain {p : IntegerPrimitive} (h : p.kind.info.isOrdinalInteger = true) :
    p.Plain := by
  obtain ⟨k, hk⟩ := p
  revert hk
  cases k <;> decide

theorem ordinalIntegerPrimitive_plain {kind : PrimitiveIntKind} {bits : Nat} {p : IntegerPrimitive}
    (h : ordinalIntegerPrimitive kind bits = some p) : p.Plain :=
  ordinalInteger_plain (ordinalIntegerPrimitive_spec h ⟨64, .inr rfl⟩).2.2

theorem numberType_plain (v : Int) : (numberType v).Plain := by
  by_cases hs : v ≤ 2^63-1
  · have h := primitiveInfoForValue_numberType hs
    unfold primitiveInfoForValue at h
    split_ifs at h <;> exact ordinalIntegerPrimitive_plain h
  · rw [numberType, if_neg hs]
    decide

def Constant.ofNumber (v : Int) (h : Representable v) : Constant :=
  ⟨v, numberType v, numberType_plain v, numberType_held h⟩

/-- Folding to a number: the constant, or overflow where no constant stands for it. -/
def foldNumber (v : Int) : Folded :=
  if h : Representable v then .value (Constant.ofNumber v h).info else .failed true

theorem foldNumber_of {v : Int} (h : Representable v) :
    foldNumber v = .value (Constant.ofNumber v h).info := dif_pos h

theorem foldNumber_of_not {v : Int} (h : ¬ Representable v) : foldNumber v = .failed true :=
  dif_neg h

theorem foldSigned_eq {w : Word cxxInt64} {v : Int} (h : w.val = v) :
    Folded.value (foldSigned w) = foldNumber v := by
  subst h
  have hw := int64_bounds w
  rw [foldNumber_of ⟨hw.1, by omega⟩]
  have hv : Word.ofInt cxxInt64 w.val = w := Word.cast_self w
  simp only [foldSigned, ConstIntExprInfo.ofValue, typeForValue,
    primitiveInfoForValue_numberType hw.2, Option.map_some, Constant.info, Constant.ofNumber, hv,
    Word.cast]

theorem foldUnsigned_eq {w : Word cxxUInt64} (h : ¬ w.val ≤ 2^63-1) :
    Folded.value (foldUnsigned w) = foldNumber w.val := by
  have hw := uint64_bounds w
  rw [foldNumber_of ⟨by omega, hw.2⟩]
  have hv : Word.ofInt cxxUInt64 w.val = w := Word.cast_self w
  simp only [foldUnsigned, Constant.info, Constant.ofNumber, numberType, if_neg h, hv, Word.cast]
  rfl

theorem foldLiteral_eq (w : Word cxxUInt64) : Folded.value (foldLiteral w) = foldNumber w.val := by
  have hw := uint64_bounds w
  unfold foldLiteral
  split_ifs with h
  · exact foldUnsigned_eq (by omega)
  · exact foldSigned_eq (reduce_int64_of_small (by omega) (by omega))

theorem makeResult_eq (negative : Bool) (w : Word cxxUInt64) :
    makeResult negative w = foldNumber (if negative then -w.val else w.val) := by
  have hw := uint64_bounds w
  cases negative with
  | true =>
    simp only [makeResult, if_true]
    split_ifs with h₁ h₂
    · rw [foldNumber_of_not (by unfold Representable; omega)]
    · exact foldSigned_eq (by rw [h₂]; rfl)
    · refine foldSigned_eq ?_
      have h₃ : cxxInt64.reduce 0 = 0 := by decide
      have h₄ := reduce_int64_of_small (v := w.val) (by omega) (by omega)
      simp only [Word.sub_val, Word.ofInt_val, Word.cast_val, h₃, h₄]
      rw [reduce_int64_of_small (by omega) (by omega)]
      omega
  | false =>
    simp only [makeResult, Bool.false_eq_true, if_false]
    split_ifs with h
    · exact foldSigned_eq (reduce_int64_of_small (by omega) h)
    · exact foldUnsigned_eq h

theorem sub_uint64_val {a b : Word cxxUInt64} (h : b.val ≤ a.val) : (a.sub b).val = a.val-b.val := by
  have ha := uint64_bounds a
  have hb := uint64_bounds b
  exact reduce_uint64_of_nonneg (by omega) (by omega)

theorem addSignedMagnitudes_eq (ln rn : Bool) (l r : Word cxxUInt64) :
    addSignedMagnitudes ln l rn r =
      foldNumber ((if ln then -l.val else l.val)+(if rn then -r.val else r.val)) := by
  have hl := uint64_bounds l
  have hr := uint64_bounds r
  have hadd (h : l.val+r.val ≤ 2^64-1) : (l.add r).val = l.val+r.val :=
    reduce_uint64_of_nonneg (by omega) h
  cases ln <;> cases rn <;> simp only [addSignedMagnitudes, ne_eq, not_true_eq_false,
    not_false_eq_true, reduceCtorEq, if_true, if_false, Bool.false_eq_true] <;> split_ifs with h
  · rw [foldNumber_of_not (by unfold Representable; omega)]
  · rw [makeResult_eq, hadd (by omega), if_neg Bool.false_ne_true]
  · rw [makeResult_eq, sub_uint64_val h, if_neg Bool.false_ne_true, Int.sub_eq_add_neg]
  · rw [makeResult_eq, sub_uint64_val (by omega), if_pos rfl]
    congr 1; omega
  · rw [makeResult_eq, sub_uint64_val h, if_pos rfl]
    congr 1; omega
  · rw [makeResult_eq, sub_uint64_val (by omega), if_neg Bool.false_ne_true]
    congr 1; omega
  · rw [foldNumber_of_not (by unfold Representable; omega)]
  · rw [makeResult_eq, hadd (by omega), if_pos rfl]
    congr 1; omega

section
variable (a b : Constant)

theorem signed_magnitude (c : Constant) :
    (if c.info.isNegative then -c.info.magnitude.val else c.info.magnitude.val) = c.value := by
  rw [c.info_isNegative, c.info_magnitude]
  by_cases h : c.value < 0
  · simp [h, abs_of_neg h]
  · simp [h, abs_of_nonneg (by omega : 0 ≤ c.value)]

variable (target : TargetInfo) (op : ConstBinOp)

theorem foldBinary_add : foldBinary target op .integerAdd a.info b.info =
    foldNumber (a.value+b.value) := by
  simp only [foldBinary]
  rw [addSignedMagnitudes_eq, signed_magnitude, signed_magnitude]

theorem foldBinary_sub : foldBinary target op .integerSub a.info b.info =
    foldNumber (a.value-b.value) := by
  have h : (if (!b.info.isNegative) = true then -b.info.magnitude.val
      else b.info.magnitude.val) = -b.value := by
    rw [← signed_magnitude b]
    cases b.info.isNegative <;> simp
  simp only [foldBinary]
  rw [addSignedMagnitudes_eq, signed_magnitude, h]
  congr 1

theorem signed_of_signs {f : Int → Int → Int} (hl : ∀ v w, f (-v) w = -f v w)
    (hr : ∀ v w, f v (-w) = -f v w) :
    (if (a.info.isNegative != b.info.isNegative) = true then
      -f a.info.magnitude.val b.info.magnitude.val
     else f a.info.magnitude.val b.info.magnitude.val) = f a.value b.value := by
  rw [← signed_magnitude a, ← signed_magnitude b]
  cases a.info.isNegative <;> cases b.info.isNegative <;> simp [hl, hr]

theorem foldBinary_mul : foldBinary target op .integerMul a.info b.info =
    foldNumber (a.value*b.value) := by
  have hl := uint64_bounds a.info.magnitude
  have hr := uint64_bounds b.info.magnitude
  have hs := signed_of_signs a b (f := (·*·)) (by intros; simp) (by intros; simp)
  have hp : 0 ≤ a.info.magnitude.val*b.info.magnitude.val := Int.mul_nonneg hl.1 hr.1
  rw [← hs]
  simp only [foldBinary]
  split_ifs with h h' h'
  · have := Int.lt_mul_of_ediv_lt (by omega : 0 < b.info.magnitude.val) h.2
    rw [foldNumber_of_not (by unfold Representable; omega)]
  · have := Int.lt_mul_of_ediv_lt (by omega : 0 < b.info.magnitude.val) h.2
    rw [foldNumber_of_not (by unfold Representable; omega)]
  all_goals
    have hle : a.info.magnitude.val*b.info.magnitude.val ≤ 2^64-1 := by
      by_cases hz : b.info.magnitude.val = 0
      · simp [hz]
      · have := Int.mul_le_of_le_ediv (by omega : 0 < b.info.magnitude.val)
          (by omega : a.info.magnitude.val ≤ (2^64-1)/b.info.magnitude.val)
        exact this
    rw [makeResult_eq, Word.mul_val, reduce_uint64_of_nonneg hp hle]
    simp [h']

theorem magnitude_eq_zero : b.info.magnitude.val = 0 ↔ b.value = 0 := by
  rw [b.info_magnitude, abs_eq_zero]

theorem foldBinary_div : foldBinary target op .integerDiv a.info b.info =
    if b.value = 0 then .failed false else foldNumber (a.value.tdiv b.value) := by
  have hl := uint64_bounds a.info.magnitude
  have hr := uint64_bounds b.info.magnitude
  have hs := signed_of_signs a b (f := Int.tdiv) (fun _ _ => Int.neg_tdiv ..)
    (fun _ _ => Int.tdiv_neg ..)
  simp only [foldBinary, magnitude_eq_zero]
  split_ifs with h
  · rfl
  · have hd : a.info.magnitude.val/b.info.magnitude.val =
        a.info.magnitude.val.tdiv b.info.magnitude.val := (Int.tdiv_eq_ediv_of_nonneg hl.1).symm
    have hle := Int.ediv_le_self b.info.magnitude.val hl.1
    rw [← hs, makeResult_eq, Word.ofInt_val,
      reduce_uint64_of_nonneg (Int.ediv_nonneg hl.1 hr.1) (by omega), hd]

theorem foldBinary_mod : foldBinary target op .integerMod a.info b.info =
    if b.value = 0 then .failed false else foldNumber (a.value.tmod b.value) := by
  have hl := uint64_bounds a.info.magnitude
  have hr := uint64_bounds b.info.magnitude
  simp only [foldBinary, magnitude_eq_zero]
  split_ifs with h
  · rfl
  · have hz : b.info.magnitude.val ≠ 0 := fun hz => h ((magnitude_eq_zero b).mp hz)
    have hm : a.info.magnitude.val%b.info.magnitude.val =
        a.info.magnitude.val.tmod b.info.magnitude.val := (Int.tmod_eq_emod_of_nonneg hl.1).symm
    have hle := Int.emod_lt_of_pos a.info.magnitude.val (by omega : 0 < b.info.magnitude.val)
    rw [makeResult_eq, Word.ofInt_val,
      reduce_uint64_of_nonneg (Int.emod_nonneg _ hz) (by omega), hm, ← signed_magnitude a,
      ← signed_magnitude b]
    cases a.info.isNegative <;> cases b.info.isNegative <;> simp

end

theorem foldUnary_neg (c : Constant) : foldUnary .neg c.info =
    if cxxInt64.reduce c.value = -(2^63) then .failed true
    else foldNumber (-cxxInt64.reduce c.value) := by
  have hv := int64_bounds (.ofInt _ c.value)
  rw [Word.ofInt_val] at hv
  have h₀ : cxxInt64.reduce 0 = 0 := by decide
  simp only [foldUnary, checkedSubInt64, c.info_value, Word.ofInt_val, h₀]
  split_ifs with h h' h'
  · rfl
  · omega
  · omega
  · refine foldSigned_eq ?_
    rw [Word.sub_val, Word.ofInt_val, Word.ofInt_val, h₀,
      reduce_int64_of_small (by omega) (by omega)]
    omega

/-- What a bitwise operator makes of two numbers, in two's complement without a width. -/
def ConstBinOp.bitwise : ConstBinOp → Int → Int → Int
  | .and => Int.land
  | .or => Int.lor
  | _ => Int.xor

theorem foldBinary_bitwise (target : TargetInfo) (op : ConstBinOp) (a b : Constant) :
    foldBinary target op .integerBitwise a.info b.info =
      foldNumber (cxxInt64.reduce (op.bitwise a.value b.value)) := by
  have hc (v : Int) : (Word.ofInt cxxInt64 v).cast cxxUInt64 = .ofInt _ v :=
    Word.ext (IntType.reduce_through (s := cxxInt64) (t := cxxUInt64) (le_refl _) v)
  have hb (v : Int) : ((Word.ofInt cxxUInt64 v).cast cxxInt64).val = cxxInt64.reduce v :=
    IntType.reduce_through (s := cxxUInt64) (t := cxxInt64) (le_refl _) v
  cases op <;> exact foldSigned_eq (by
    simp only [Constant.info_value, hc, Word.ofInt_land_ofInt, Word.ofInt_lor_ofInt,
      Word.ofInt_lxor_ofInt, hb, ConstBinOp.bitwise])

section
variable (target : TargetInfo) (p : IntegerPrimitive)

/-- A value converted to a type of any width, with its bits cut off at that width. -/
def maskedInfo (v : Int) : ConstIntExprInfo :=
  ⟨.ofInt _ ((p.intType target).reduce v), .ofInt _ (lowBits v (p.bits target)), some p.kind⟩

def Constant.converted (plain : p.Plain) (v : Int) : Constant :=
  ⟨(p.intType target).reduce v, p, plain, IntegerPrimitive.widest_holds (IntType.reduce_holds _ v)⟩

def FullBits (v : Int) : Prop :=
  p.intKind = .unsigned ∨ p.bits target = 64 ∨ 0 ≤ (p.intType target).reduce v

variable {target p}

theorem reduce_signed (hp : p.intKind = .signed) (v : Int) : (p.intType target).reduce v =
    if lowBits v (p.bits target) < 2^(p.bits target-1) then lowBits v (p.bits target)
    else lowBits v (p.bits target)-2^p.bits target := by
  have h : (2 : Int)^p.bits target = 2*2^(p.bits target-1) := (p.intType target).two_pow_split
  simp only [IntType.reduce, IntegerPrimitive.intType_signed, IntegerPrimitive.signed_iff.mpr hp,
    if_true, IntegerPrimitive.intType_bits, Int.bmod_def, lowBits]
  push_cast
  congr 1
  rw [h]
  apply propext
  omega

theorem reduce_unsigned (hp : p.intKind = .unsigned) (v : Int) :
    (p.intType target).reduce v = lowBits v (p.bits target) := by
  simp [IntType.reduce, IntegerPrimitive.not_signed_iff.mpr hp, lowBits]

theorem lowBits_bounds (v : Int) (n : Nat) : 0 ≤ lowBits v n ∧ lowBits v n ≤ 2^n-1 := by
  have hp := IntType.two_pow_pos n
  have h₁ := Int.emod_nonneg v (ne_of_gt hp)
  have h₂ := Int.emod_lt_of_pos v hp
  unfold lowBits
  omega

theorem lowBits_val (v : Int) :
    (Word.ofInt cxxUInt64 (lowBits v (p.bits target))).val = lowBits v (p.bits target) := by
  have h := lowBits_bounds v (p.bits target)
  refine reduce_uint64_of_nonneg h.1 ?_
  cases p.bits_cases target <;> grind

theorem signExtend_val (hp : p.intKind = .signed) (v : Int) :
    (signExtend (.ofInt _ (lowBits v (p.bits target))) (p.bits target)).val =
      (p.intType target).reduce v := by
  have h := lowBits_bounds v (p.bits target)
  rw [reduce_signed hp, signExtend, lowBits_val]
  generalize lowBits v (p.bits target) = b at h
  have hb : b ≤ 2^64-1 := by cases p.bits_cases target <;> grind
  by_cases hlow : b < 2^(p.bits target-1)
  · have : (2 : Int)^(p.bits target-1) ≤ 2^63 :=
      IntType.two_pow_mono (by have := p.bits_le target; omega)
    rw [if_pos (.inr hlow), if_pos hlow, Word.cast_val, Word.ofInt_val,
      reduce_uint64_of_nonneg h.1 hb, reduce_int64_of_small (by omega) (by omega)]
  · rw [if_neg hlow]
    rcases p.bits_cases target with hw | hw | hw | hw <;> rw [hw] at h hlow ⊢
    case inr.inr.inr =>
      rw [if_pos (.inl (by decide)), Word.cast_val, Word.ofInt_val,
        reduce_uint64_of_nonneg h.1 hb, reduce_int64_of_large (by omega) hb]
    all_goals
      rw [if_neg (by omega), Word.cast_val, Word.ofInt_val,
        reduce_uint64_of_nonneg (by omega) (by omega), reduce_int64_of_large (by omega) (by omega)]
      omega

theorem reduce_widest (v : Int) :
    (Word.ofInt cxxInt64 ((p.intType target).reduce v)).val =
      cxxInt64.reduce ((p.intType target).reduce v) := rfl

theorem reduce_int64_of_signed (hp : p.intKind = .signed) (v : Int) :
    cxxInt64.reduce ((p.intType target).reduce v) = (p.intType target).reduce v := by
  have h := IntegerPrimitive.widest_holds ((p.intType target).reduce_holds v)
  rw [IntegerPrimitive.widest, if_pos (IntegerPrimitive.signed_iff.mpr hp)] at h
  exact IntType.reduce_of_holds h

theorem lowBits_lowBits {m n : Nat} (h : n ≤ m) (v : Int) : lowBits (lowBits v m) n = lowBits v n :=
  Int.emod_emod_of_dvd v (pow_dvd_pow 2 h)

theorem maskedInfo_denote (v : Int) :
    (maskedInfo target p v).denote = (p.intType target).reduce v := by
  cases p.intKind_cases with
  | inl hp =>
    have h : p.kind.info.intKind = .signed := hp
    simp [ConstIntExprInfo.denote, ConstIntExprInfo.isUnsigned, maskedInfo, h,
      reduce_int64_of_signed hp]
  | inr hp =>
    have h : p.kind.info.intKind = .unsigned := hp
    rw [reduce_unsigned hp, ← lowBits_val]
    simp [ConstIntExprInfo.denote, ConstIntExprInfo.isUnsigned, maskedInfo, h]

theorem lowBits_eq_reduce_iff (v : Int) :
    lowBits v (p.bits target) = cxxUInt64.reduce ((p.intType target).reduce v) ↔
      FullBits target p v := by
  have hb := lowBits_bounds v (p.bits target)
  have hw : (2 : Int)^p.bits target ≤ 2^64 := IntType.two_pow_mono (p.bits_le target)
  cases p.intKind_cases with
  | inr hp =>
    rw [reduce_unsigned hp, reduce_uint64_of_nonneg hb.1 (by omega)]
    simp [FullBits, hp]
  | inl hp =>
    have hf : FullBits target p v ↔ p.bits target = 64 ∨ 0 ≤ (p.intType target).reduce v := by
      simp [FullBits, hp]
    rw [hf, reduce_signed hp]
    split_ifs with h
    · rw [reduce_uint64_of_nonneg hb.1 (by omega)]
      simp [hb.1]
    · rw [reduce_uint64_of_neg (by omega) (by omega)]
      rcases p.bits_cases target with h' | h' | h' | h' <;> rw [h'] at hb ⊢ <;> omega

theorem maskedInfo_consistent_iff (v : Int) :
    (maskedInfo target p v).Consistent ↔ FullBits target p v := by
  have h : cxxUInt64.reduce (cxxInt64.reduce ((p.intType target).reduce v)) =
      cxxUInt64.reduce ((p.intType target).reduce v) :=
    IntType.reduce_through (s := cxxInt64) (t := cxxUInt64) (le_refl _) _
  rw [← lowBits_eq_reduce_iff, ConstIntExprInfo.Consistent, maskedInfo, lowBits_val, Word.ofInt_val,
    h]

theorem maskedInfo_eq {v : Int} (h : FullBits target p v) (plain : p.Plain) :
    maskedInfo target p v = (Constant.converted target p plain v).info := by
  have hb : Word.ofInt cxxUInt64 (lowBits v (p.bits target)) =
      .ofInt _ ((p.intType target).reduce v) := by
    refine Word.ext ?_
    rw [lowBits_val, (lowBits_eq_reduce_iff v).mpr h, Word.ofInt_val]
  rw [maskedInfo, hb]
  rfl

theorem lowBits_reduce {n : Nat} (h : n ≤ 64) (v : Int) :
    lowBits (cxxUInt64.reduce v) n = lowBits v n :=
  lowBits_lowBits (m := 64) h v

theorem convertConstIntValue_bits (c : Constant) :
    (convertConstIntValue target c.info p).bits = .ofInt _ (lowBits c.value (p.bits target)) := by
  have h : lowBits c.info.bits.val (p.bits target) = lowBits c.value (p.bits target) :=
    lowBits_reduce (p.bits_le target) c.value
  simp only [convertConstIntValue, h]
  split_ifs <;> rfl

theorem evalConstIntCast_eq (c : Constant) :
    evalConstIntCast target p c.info = maskedInfo target p c.value := by
  have hbits := @convertConstIntValue_bits target p c
  have h : lowBits c.info.bits.val (p.bits target) = lowBits c.value (p.bits target) :=
    lowBits_reduce (p.bits_le target) c.value
  have hvalue : (convertConstIntValue target c.info p).value =
      .ofInt _ ((p.intType target).reduce c.value) := by
    cases p.intKind_cases with
    | inr hp =>
      simp only [convertConstIntValue, hp, if_true, h]
      rw [reduce_unsigned hp]
      exact Word.ext (IntType.reduce_through (s := cxxUInt64) (t := cxxInt64) (le_refl _) _)
    | inl hp =>
      refine Word.ext ?_
      rw [reduce_widest, reduce_int64_of_signed hp, ← signExtend_val hp]
      simp only [convertConstIntValue, hp, reduceCtorEq, if_false, h, signExtend]
      have := p.bits_le target
      by_cases hw : p.bits target = 64
      · simp [hw]
      · rw [if_neg hw]
        by_cases hl : (Word.ofInt cxxUInt64 (lowBits c.value (p.bits target))).val <
            2^(p.bits target-1)
        · rw [if_pos hl, if_pos (.inr hl)]
        · rw [if_neg hl, if_neg (by omega)]
  have htype : (convertConstIntValue target c.info p).type = p := by
    simp only [convertConstIntValue]
    split_ifs <;> rfl
  simp only [evalConstIntCast, hvalue, hbits, htype]
  rfl

section
variable {bound : BoundOrdinalStep}

theorem StepIntrinsic.apply_emod (kind : StepIntrinsic) {n : Int} {v w : Int} (h : v % n = w % n) :
    kind.apply v 1 % n = kind.apply w 1 % n := by
  unfold StepIntrinsic.apply
  split_ifs
  · exact Int.ModEq.sub_right 1 h
  · exact Int.ModEq.add_right 1 h

theorem maskBits_ofInt {n : Nat} (h : n ≤ 64) (v : Int) :
    maskBits (.ofInt _ v) n = .ofInt _ (lowBits v n) := by
  rw [maskBits, Word.ofInt_val, lowBits_reduce h]

theorem stepOverflows_iff (v : Int) :
    StepOverflows target bound (.ofInt _ (lowBits v (bound.carrier.bits target))) ↔
      bound.checkOverflow = true ∧ bound.carrier.intKind = .signed ∧
        ¬ (bound.carrier.intType target).Holds
          (bound.kind.apply ((bound.carrier.intType target).reduce v) 1) := by
  unfold StepOverflows
  refine and_congr_right fun _ => and_congr_right fun hC => not_congr ?_
  rw [signExtend_val hC, IntegerPrimitive.holds_of_signed hC]
  rfl

theorem steppedBits_eq (v : Int) :
    steppedBits target bound (.ofInt _ (lowBits v (bound.carrier.bits target))) =
      .ofInt _ (lowBits (bound.kind.apply v 1) (bound.carrier.bits target)) := by
  have h64 := bound.carrier.bits_le target
  have key {w : Int} (h : w % 2^bound.carrier.bits target = v % 2^bound.carrier.bits target) :
      Word.ofInt cxxUInt64 (lowBits (bound.kind.apply w 1) (bound.carrier.bits target)) =
        .ofInt _ (lowBits (bound.kind.apply v 1) (bound.carrier.bits target)) := by
    rw [lowBits, bound.kind.apply_emod h, lowBits]
  have h₁ : cxxUInt64.reduce 1 = 1 := by decide
  have hl := @lowBits_val target bound.carrier v
  have hmod : lowBits v (bound.carrier.bits target) % 2^bound.carrier.bits target =
      v % 2^bound.carrier.bits target := Int.emod_emod_of_dvd v (dvd_refl _)
  rw [Word.ofInt_val] at hl
  unfold steppedBits
  split_ifs with hc hs
  · rw [maskBits_ofInt h64, signExtend_val hc.2]
    exact key (IntType.reduce_emod _ v)
  · simp only [Word.sub, maskBits_ofInt h64, Word.ofInt_val, hl, h₁]
    simpa [StepIntrinsic.apply, hs] using key hmod
  · simp only [Word.add, maskBits_ofInt h64, Word.ofInt_val, hl, h₁]
    simpa [StepIntrinsic.apply, hs] using key hmod

def steppedIn (target : TargetInfo) (bound : BoundOrdinalStep) (v : Int) : Int :=
  (bound.carrier.intType target).reduce (bound.kind.apply v 1)

/-- The checks of a step refuse it: the checked carrier overflows, or the number arrived at lies
outside the domain. -/
def StepRefused (target : TargetInfo) (bound : BoundOrdinalStep) (storage : IntegerPrimitive)
    (v : Int) : Prop :=
  let C := bound.carrier.intType target
  (bound.checkOverflow = true ∧ bound.carrier.intKind = .signed ∧
      ¬ C.Holds (bound.kind.apply (C.reduce v) 1)) ∨
    (bound.checkRange = true ∧
      ((bound.carrier.intKind = .unsigned ∧ (integerDomain target storage).1 < 0) ∨
        steppedIn target bound v < (integerDomain target storage).1 ∨
        steppedIn target bound v > (integerDomain target storage).2))

instance (storage : IntegerPrimitive) (v : Int) :
    Decidable (StepRefused target bound storage v) := inferInstanceAs (Decidable (_ ∨ _))

theorem stepOutOfRange_iff (storage : IntegerPrimitive) (v : Int) :
    StepOutOfRange target bound storage
        (.ofInt _ (lowBits (bound.kind.apply v 1) (bound.carrier.bits target))) ↔
      bound.checkRange = true ∧
        ((bound.carrier.intKind = .unsigned ∧ (integerDomain target storage).1 < 0) ∨
          steppedIn target bound v < (integerDomain target storage).1 ∨
          steppedIn target bound v > (integerDomain target storage).2) := by
  have hd : (integerDomain target storage).1 ≤ 0 := by
    have := IntType.two_pow_pos (storage.bits target-1)
    unfold integerDomain signedMinForBits
    split_ifs <;> simp only <;> omega
  unfold StepOutOfRange
  refine and_congr_right fun _ => ?_
  cases bound.carrier.intKind_cases with
  | inl hC => rw [if_pos hC, signExtend_val hC]; simp [hC, steppedIn]
  | inr hC =>
    have hb := lowBits_bounds (bound.kind.apply v 1) (bound.carrier.bits target)
    rw [if_neg (by simp [hC]), lowBits_val, ← reduce_unsigned hC] at *
    simp only [hC, steppedIn, true_and]
    omega

theorem evalBoundOrdinalStep_eq {storage : IntegerPrimitive}
    (hw : storage.bits target ≤ bound.carrier.bits target) (c : Constant) :
    evalBoundOrdinalStep target bound storage c.info =
      if StepOverflows target bound (.ofInt _ (lowBits c.value (bound.carrier.bits target))) then
        .failed true
      else if StepOutOfRange target bound storage
        (.ofInt _ (lowBits (bound.kind.apply c.value 1) (bound.carrier.bits target))) then
        .failed false
      else .value (maskedInfo target storage (bound.kind.apply c.value 1)) := by
  have h64 := bound.carrier.bits_le target
  have hbits : maskBits (convertConstIntValue target c.info bound.carrier).bits
      (bound.carrier.bits target) = .ofInt _ (lowBits c.value (bound.carrier.bits target)) := by
    rw [convertConstIntValue_bits, maskBits_ofInt h64, lowBits_lowBits (le_refl _)]
  have hresult : maskBits (.ofInt _ (lowBits (bound.kind.apply c.value 1)
        (bound.carrier.bits target))) (storage.bits target) =
      .ofInt _ (lowBits (bound.kind.apply c.value 1) (storage.bits target)) := by
    rw [maskBits_ofInt (storage.bits_le target), lowBits_lowBits hw]
  simp only [evalBoundOrdinalStep, hbits, steppedBits_eq, hresult]
  congr 3
  rw [maskedInfo]
  congr 1
  refine Word.ext ?_
  cases storage.intKind_cases with
  | inl hS =>
    rw [if_pos hS, signExtend_val hS, reduce_widest, reduce_int64_of_signed hS]
  | inr hS =>
    rw [if_neg (by simp [hS]), reduce_unsigned hS, Word.cast_val, lowBits_val, Word.ofInt_val]

theorem evalBoundOrdinalStep_of_refused {storage : IntegerPrimitive}
    (hw : storage.bits target ≤ bound.carrier.bits target) {c : Constant}
    (h : StepRefused target bound storage c.value) :
    ∃ overflow, evalBoundOrdinalStep target bound storage c.info = .failed overflow := by
  rw [evalBoundOrdinalStep_eq hw]
  split_ifs with h₁ h₂
  · exact ⟨true, rfl⟩
  · exact ⟨false, rfl⟩
  · rw [stepOverflows_iff] at h₁
    rw [stepOutOfRange_iff] at h₂
    exact absurd h (not_or.mpr ⟨h₁, h₂⟩)

theorem evalBoundOrdinalStep_of_not_refused {storage : IntegerPrimitive}
    (hw : storage.bits target ≤ bound.carrier.bits target) {c : Constant}
    (h : ¬ StepRefused target bound storage c.value) :
    evalBoundOrdinalStep target bound storage c.info =
      .value (maskedInfo target storage (bound.kind.apply c.value 1)) := by
  obtain ⟨h₁, h₂⟩ := not_or.mp h
  rw [evalBoundOrdinalStep_eq hw, if_neg (by rwa [stepOverflows_iff]),
    if_neg (by rwa [stepOutOfRange_iff])]

end

end

end Tp2cc
