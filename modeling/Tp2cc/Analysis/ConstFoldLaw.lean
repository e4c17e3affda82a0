import Tp2cc.Analysis.FoldedNumber

set_option autoImplicit false

namespace Tp2cc
open Machine Rt

def UnOp.exact : UnOp → Int → Option Int
  | .plus, v => some v
  | .neg, v => some (-v)
  | .not, _ => none

/-- The operators on integers; the shifts, which have no meaning without a width, stay out. -/
def ConstBinOp.exact : ConstBinOp → Int → Int → Option Int
  | .add, v, w => some (v+w)
  | .sub, v, w => some (v-w)
  | .mul, v, w => some (v*w)
  | .intDiv, v, w => if w = 0 then none else some (v.tdiv w)
  | .mod, v, w => if w = 0 then none else some (v.tmod w)
  | .and, v, w => some (v.land w)
  | .or, v, w => some (v.lor w)
  | .xor, v, w => some (v.xor w)
  | .shl, _, _ | .shr, _, _ => none

def ConstBinOp.boundKind : ConstBinOp → BoundBinaryKind
  | .add => .integerAdd
  | .sub => .integerSub
  | .mul => .integerMul
  | .intDiv => .integerDiv
  | .mod => .integerMod
  | .and | .or | .xor => .integerBitwise
  | .shl | .shr => .integerShift

/-- Folding to the exact result, where there is one. -/
def foldExact : Option Int → Folded
  | some v => foldNumber v
  | none => .failed false

theorem foldBinary_exact (target : TargetInfo) {op : ConstBinOp}
    (hop : op ∈ [.add, .sub, .mul, .intDiv, .mod]) (a b : Constant) :
    foldBinary target op op.boundKind a.info b.info = foldExact (op.exact a.value b.value) := by
  cases op <;> simp only [ConstBinOp.boundKind, ConstBinOp.exact]
  case add => exact foldBinary_add a b target _
  case sub => exact foldBinary_sub a b target _
  case mul => exact foldBinary_mul a b target _
  case intDiv => rw [foldBinary_div]; split_ifs <;> rfl
  case mod => rw [foldBinary_mod]; split_ifs <;> rfl
  all_goals simp at hop

namespace ConstExpr

def Everywhere {ι : Type} (P : ConstExpr ι → Prop) : ConstExpr ι → Prop
  | .lit v => P (.lit v)
  | .ident name => P (.ident name)
  | .unary op e => P (.unary op e) ∧ e.Everywhere P
  | .binary op l r q => P (.binary op l r q) ∧ l.Everywhere P ∧ r.Everywhere P
  | .step s e q r => P (.step s e q r) ∧ e.Everywhere P
  | .cast p hp e => P (.cast p hp e) ∧ e.Everywhere P

/-- Neither `not` nor a shift is applied. -/
def IsArithmetic {ι : Type} : ConstExpr ι → Prop
  | .unary op _ => op ≠ .not
  | .binary op _ _ _ => op ≠ .shl ∧ op ≠ .shr
  | _ => True

end ConstExpr

section
variable (target : TargetInfo)

def mathValue : ConstExpr Empty → Option Int
  | .lit v => some v.val
  | .ident name => name.elim
  | .unary op e => (mathValue e).bind op.exact
  | .binary op l r _ => do op.exact (← mathValue l) (← mathValue r)
  | .step s e _ _ => (mathValue e).map ((stepKind s).apply · 1)
  | .cast p _ e => (mathValue e).map (p.intType target).reduce

/-- What folding owes to an expression: the constant, where there is one, and the type. -/
structure Ideal where
  constant : Option Constant
  type : Option IntegerPrimitive

def idealNumber (v : Int) : Option Constant :=
  if h : Representable v then some (.ofNumber v h) else none

def idealStep (bound : BoundOrdinalStep) (storage : IntegerPrimitive) (plain : storage.Plain)
    (c : Constant) : Option Constant :=
  let v := bound.kind.apply c.value 1
  if StepRefused target bound storage c.value ∨ ¬ (storage.intType target).Holds v then none
  else some (.converted target storage plain v)

def ideal : ConstExpr Empty → Ideal
  | .lit v => ⟨idealNumber v.val, (idealNumber v.val).map (·.type)⟩
  | .ident name => name.elim
  | .unary op e =>
    let c := match op with
      | .plus => (ideal e).constant
      | .neg => (ideal e).constant.bind fun a => idealNumber (-a.value)
      | .not => none
    ⟨c, c.map (·.type) <|> (ideal e).type⟩
  | .binary op l r q =>
    ⟨do idealNumber (← op.exact (← (ideal l).constant).value (← (ideal r).constant).value),
      (bindConstBinary target op q (ideal l).type (ideal r).type
        ((ideal l).constant.map (·.info)) ((ideal r).constant.map (·.info))).bind
          (·.result.primitive)⟩
  | .step s e q r =>
    match bindConstStep target s q r (ideal e).type with
    | none => ⟨none, none⟩
    | some (bound, storage) =>
      ⟨if h : storage.Plain then (ideal e).constant.bind (idealStep target bound storage h)
       else none, some storage⟩
  | .cast p plain e => ⟨(ideal e).constant.map fun a => .converted target p plain a.value, some p⟩

end

section
variable {target : TargetInfo}

theorem defaultIntegerPrimitive_signed (target : TargetInfo) :
    ∃ c, defaultIntegerPrimitive target .signed = some c := by
  have hp := pointerBits_cases target
  exact ordinalIntegerPrimitive_isSome (by simp) (by omega)

theorem integerArithmeticPrimitive_plain {op : BinOp} {p r c : IntegerPrimitive}
    (h : integerArithmeticPrimitive target op p r = some c) : c.Plain := by
  simp only [integerArithmeticPrimitive, defaultIntegerPrimitive] at h
  split_ifs at h <;> exact ordinalIntegerPrimitive_plain h

theorem commonIntegerPrimitive_plain {p r c : IntegerPrimitive}
    (h : commonIntegerPrimitive target p r = some c) : c.Plain := by
  simp only [commonIntegerPrimitive] at h
  split_ifs at h <;> exact ordinalIntegerPrimitive_plain h

theorem integerDivisionPrimitive_plain {lhs rhs : OperandInfo} {c : IntegerPrimitive}
    (h : integerDivisionPrimitive target lhs rhs = some c) : c.Plain := by
  simp only [integerDivisionPrimitive, effectiveDivisionPrimitive, defaultIntegerPrimitive] at h
  split_ifs at h <;> exact ordinalIntegerPrimitive_plain h

theorem integerBitwisePrimitive_plain (op : BinOp) {p r : IntegerPrimitive} (hp : p.Plain)
    (hr : r.Plain) : ∃ c, integerBitwisePrimitive target op p r = some c ∧ c.Plain := by
  have hpb := p.bits_cases target
  have hrb := r.bits_cases target
  have hcommon : ∃ c, commonIntegerPrimitive target p r = some c ∧ c.Plain := by
    obtain ⟨c, hc⟩ := @commonIntegerPrimitive_isSome target p r
    exact ⟨c, hc, commonIntegerPrimitive_plain hc⟩
  simp only [integerBitwisePrimitive, hp.2, hr.2, or_self, if_false]
  by_cases hand : op = .and
  · rw [if_pos hand]
    by_cases hu : p.intKind ≠ r.intKind ∧
        (if p.intKind = .unsigned then p.bits target else r.bits target) ≥
          (if p.intKind = .signed then p.bits target else r.bits target) ∧
        (if p.intKind = .unsigned then p.bits target else r.bits target) ≥
          min target.pointerBits 32
    · rw [if_pos hu]
      obtain ⟨c, hc⟩ := @ordinalIntegerPrimitive_isSome .unsigned
        (if p.intKind = .unsigned then p.bits target else r.bits target) (by simp)
        (by split_ifs <;> assumption)
      exact ⟨c, hc, ordinalIntegerPrimitive_plain hc⟩
    · rw [if_neg hu]
      exact hcommon
  · rw [if_neg hand]
    split_ifs
    · exact hcommon
    · obtain ⟨c, hc⟩ := @integerArithmeticPrimitive_isSome target .add p r
      exact ⟨c, hc, integerArithmeticPrimitive_plain hc⟩

theorem shiftCarrierPrimitive_plain {p : IntegerPrimitive} (hp : p.Plain) :
    ∃ c, shiftCarrierPrimitive target p = some c ∧ c.Plain := by
  unfold shiftCarrierPrimitive
  split_ifs
  · exact ⟨p, rfl, hp⟩
  · obtain ⟨c, hc⟩ := @ordinalIntegerPrimitive_isSome _ 32 p.isInteger (by simp)
    exact ⟨c, hc, ordinalIntegerPrimitive_plain hc⟩

theorem bindConstBinary_bound (op : ConstBinOp) (q : Bool) {p r : IntegerPrimitive} (hp : p.Plain)
    (hr : r.Plain) (pc rc : Option ConstIntExprInfo) :
    ∃ bound c, bindConstBinary target op q (some p) (some r) pc rc = some bound ∧
      bound.kind = op.boundKind ∧ bound.result = .integer c ∧ c.Plain := by
  have g₁ : ¬ (p.family ≠ .integer ∨ r.family ≠ .integer) := by simp [hp.1, hr.1]
  have g₂ : ¬ (p.kind = .currency ∨ r.kind = .currency) := by simp [hp.2, hr.2]
  simp only [bindConstBinary, bindBinaryOperation, Option.bind_eq_bind, Option.bind_some,
    if_neg g₁, if_neg g₂]
  cases op with
  | add =>
    obtain ⟨c, hc⟩ := @integerArithmeticPrimitive_isSome target .add p r
    exact ⟨_, c, by simp only [ConstBinOp.binOp, hc, Option.map_some]; rfl, rfl, rfl,
      integerArithmeticPrimitive_plain hc⟩
  | sub =>
    obtain ⟨c, hc⟩ := @integerArithmeticPrimitive_isSome target .sub p r
    exact ⟨_, c, by simp only [ConstBinOp.binOp, hc, Option.map_some]; rfl, rfl, rfl,
      integerArithmeticPrimitive_plain hc⟩
  | mul =>
    obtain ⟨c, hc⟩ := @integerArithmeticPrimitive_isSome target .mul p r
    exact ⟨_, c, by simp only [ConstBinOp.binOp, hc, Option.map_some]; rfl, rfl, rfl,
      integerArithmeticPrimitive_plain hc⟩
  | intDiv =>
    obtain ⟨c, hc⟩ := @integerDivisionPrimitive_isSome target ⟨p, pc⟩ ⟨r, rc⟩
    exact ⟨_, c, by simp only [ConstBinOp.binOp, hc, Option.map_some]; rfl, rfl, rfl,
      integerDivisionPrimitive_plain hc⟩
  | mod =>
    obtain ⟨c, hc⟩ := @integerDivisionPrimitive_isSome target ⟨p, pc⟩ ⟨r, rc⟩
    exact ⟨_, c, by simp only [ConstBinOp.binOp, hc, Option.map_some]; rfl, rfl, rfl,
      integerDivisionPrimitive_plain hc⟩
  | and =>
    obtain ⟨c, hc, hplain⟩ := @integerBitwisePrimitive_plain target .and p r hp hr
    exact ⟨_, c, by simp only [ConstBinOp.binOp, hc, Option.map_some]; rfl, rfl, rfl, hplain⟩
  | or =>
    obtain ⟨c, hc, hplain⟩ := @integerBitwisePrimitive_plain target .or p r hp hr
    exact ⟨_, c, by simp only [ConstBinOp.binOp, hc, Option.map_some]; rfl, rfl, rfl, hplain⟩
  | xor =>
    obtain ⟨c, hc, hplain⟩ := @integerBitwisePrimitive_plain target .xor p r hp hr
    exact ⟨_, c, by simp only [ConstBinOp.binOp, hc, Option.map_some]; rfl, rfl, rfl, hplain⟩
  | shl =>
    obtain ⟨c, hc, hplain⟩ := @shiftCarrierPrimitive_plain target p hp
    obtain ⟨a, ha⟩ := defaultIntegerPrimitive_signed target
    exact ⟨_, c, by simp only [ConstBinOp.binOp, hc, ha]; rfl, rfl, rfl, hplain⟩
  | shr =>
    obtain ⟨c, hc, hplain⟩ := @shiftCarrierPrimitive_plain target p hp
    obtain ⟨a, ha⟩ := defaultIntegerPrimitive_signed target
    exact ⟨_, c, by simp only [ConstBinOp.binOp, hc, ha]; rfl, rfl, rfl, hplain⟩

theorem bindConstStep_bound (s q r : Bool) {p : IntegerPrimitive} (hp : p.Plain) :
    ∃ bound, bindConstStep target s q r (some p) = some (bound, p) ∧
      bound.kind = stepKind s ∧ p.bits target ≤ bound.carrier.bits target := by
  simp only [bindConstStep, Option.bind_eq_bind, Option.bind_some, dif_pos hp, bindOrdinalStep,
    OrdinalType.storagePrimitive]
  by_cases hqr : q = true ∨ r = true
  · obtain ⟨c, hc⟩ := @integerArithmeticPrimitive_isSome target (stepKind s).binOp p
      ⟨.shortInt, by decide⟩
    refine ⟨⟨stepKind s, c, q, r⟩, ?_, rfl, integerArithmeticPrimitive_bits_le hc⟩
    have h8 : (none <|> ordinalIntegerPrimitive .signed 8) = some ⟨.shortInt, by decide⟩ := rfl
    simp only [StepIntrinsic.binOp] at hc
    simp [hqr, h8, hc]
  · refine ⟨⟨stepKind s, p, q, r⟩, ?_, rfl, le_refl _⟩
    simp [hqr]

theorem idealNumber_value {v : Int} {c : Constant} (h : idealNumber v = some c) : c.value = v := by
  unfold idealNumber at h
  split_ifs at h
  cases h
  rfl

theorem idealNumber_of {v : Int} (h : Representable v) : idealNumber v = some (.ofNumber v h) :=
  dif_pos h

theorem idealStep_value {bound : BoundOrdinalStep} {storage : IntegerPrimitive}
    {plain : storage.Plain} {a c : Constant}
    (h : idealStep target bound storage plain a = some c) :
    c.value = bound.kind.apply a.value 1 := by
  simp only [idealStep] at h
  split_ifs at h with hr
  cases h
  exact IntType.reduce_of_holds (not_not.mp (not_or.mp hr).2)

theorem foldNumber_value? (v : Int) :
    (foldNumber v).value? = (idealNumber v).map Constant.info := by
  unfold foldNumber idealNumber
  split_ifs <;> rfl

theorem foldNumber_overflow (v : Int) : (foldNumber v).overflow = true ↔ ¬ Representable v := by
  unfold foldNumber
  split_ifs with h <;> simp [Folded.overflow, h]

theorem ideal_plain (e : ConstExpr Empty) : ∃ p, (ideal target e).type = some p ∧ p.Plain := by
  induction e with
  | lit v =>
    have h : Representable v.val := by have := uint64_bounds v; unfold Representable; omega
    exact ⟨_, by rw [ideal, idealNumber_of h]; rfl, numberType_plain v.val⟩
  | ident name => exact name.elim
  | unary op e ih =>
    simp only [ideal]
    generalize (match op with
      | .plus => (ideal target e).constant
      | .neg => (ideal target e).constant.bind fun a => idealNumber (-a.value)
      | .not => none) = found
    cases found with
    | none => exact ih
    | some c => exact ⟨c.type, rfl, c.plain⟩
  | binary op l r q ihl ihr =>
    obtain ⟨p, hp, hpp⟩ := ihl
    obtain ⟨p', hp', hpp'⟩ := ihr
    obtain ⟨bound, c, hb, -, hres, hc⟩ := @bindConstBinary_bound target op q _ _ hpp hpp'
      ((ideal target l).constant.map (·.info)) ((ideal target r).constant.map (·.info))
    exact ⟨c, by simp only [ideal, hp, hp', hb, Option.bind_some, hres, BoundResult.primitive], hc⟩
  | step s e q r ih =>
    obtain ⟨p, hp, hpp⟩ := ih
    obtain ⟨bound, hb, -, -⟩ := @bindConstStep_bound target s q r _ hpp
    exact ⟨p, by simp only [ideal, hp, hb], hpp⟩
  | cast p plain e ih => exact ⟨p, rfl, plain⟩

theorem ideal_math {e : ConstExpr Empty} {c : Constant} (h : (ideal target e).constant = some c) :
    mathValue target e = some c.value := by
  induction e generalizing c with
  | lit v => rw [mathValue, idealNumber_value h]
  | ident name => exact name.elim
  | unary op e ih =>
    simp only [ideal] at h
    cases op with
    | plus => rw [mathValue, ih h]; rfl
    | neg =>
      obtain ⟨a, ha, hn⟩ := Option.bind_eq_some_iff.mp h
      rw [mathValue, ih ha, idealNumber_value hn]; rfl
    | not => contradiction
  | binary op l r q ihl ihr =>
    simp only [ideal, Option.bind_eq_bind, Option.bind_eq_some_iff] at h
    obtain ⟨a, ha, b, hb, v, hv, hn⟩ := h
    simp only [mathValue, ihl ha, ihr hb, Option.bind_eq_bind, Option.bind_some, hv,
      idealNumber_value hn]
  | step s e q r ih =>
    obtain ⟨p, hp, hpp⟩ := @ideal_plain target e
    obtain ⟨bound, hb, hk, -⟩ := @bindConstStep_bound target s q r _ hpp
    simp only [ideal, hp, hb, dif_pos hpp] at h
    obtain ⟨a, ha, hs⟩ := Option.bind_eq_some_iff.mp h
    rw [mathValue, ih ha, idealStep_value hs, hk]; rfl
  | cast p plain e ih =>
    obtain ⟨a, ha, rfl⟩ := Option.map_eq_some_iff.mp h
    rw [mathValue, ih ha]; rfl

end

section
variable (target : TargetInfo)

def closedEnv : IdentEnv Empty := ⟨Empty.elim, Empty.elim⟩

def foldClosed (e : ConstExpr Empty) : Folded := evalConstIntExpr target closedEnv e

/-- The operators that have to report overflow, over operands that fold. -/
def ChecksOverflow : ConstExpr Empty → Prop
  | .unary op e => op = .neg ∧ (foldClosed target e).value?.isSome = true
  | .binary op l r _ => op ∈ [.add, .sub, .mul] ∧ (foldClosed target l).value?.isSome = true ∧
      (foldClosed target r).value?.isSome = true
  | _ => False

/-- What folding owes to an expression. -/
structure LawAt (e : ConstExpr Empty) : Prop where
  value : ∀ info, (foldClosed target e).value? = some info →
    mathValue target e = some info.denote ∧ info.Consistent
  overflow : ChecksOverflow target e →
    ((foldClosed target e).overflow = true ↔
      ∃ v, mathValue target e = some v ∧ ¬ Representable v)

/-- The operands the folder handles as it should: a negated number lies strictly between the
bounds of `int64_t`, a bitwise result within them, the bits of a narrow signed result are its
64-bit representation, and a step that no check refuses stays in its type. -/
def SafeAt : ConstExpr Empty → Prop
  | .unary op e => op = .neg → ∀ c, (ideal target e).constant = some c →
      -(2^63) < c.value ∧ c.value < 2^63
  | .binary op l r _ => op ∈ [.and, .or, .xor] → ∀ a b, (ideal target l).constant = some a →
      (ideal target r).constant = some b → cxxInt64.Holds (op.bitwise a.value b.value)
  | .step s e q r => ∀ bound storage c,
      bindConstStep target s q r (ideal target e).type = some (bound, storage) →
      (ideal target e).constant = some c → ¬ StepRefused target bound storage c.value →
      (storage.intType target).Holds (bound.kind.apply c.value 1) ∧
        FullBits target storage (bound.kind.apply c.value 1)
  | .cast p _ e => ∀ c, (ideal target e).constant = some c → FullBits target p c.value
  | _ => True

structure Agrees (e : ConstExpr Empty) : Prop where
  value : (foldClosed target e).value? = (ideal target e).constant.map Constant.info
  type : deduceType target closedEnv e = (ideal target e).type

end

section
variable {target : TargetInfo}

theorem Agrees.of_failed {e : ConstExpr Empty} (h : Agrees target e)
    (hc : (ideal target e).constant = none) : ∃ o, foldClosed target e = .failed o := by
  have hv := h.value
  rw [hc] at hv
  cases hf : foldClosed target e with
  | value info => rw [hf] at hv; contradiction
  | failed o => exact ⟨o, rfl⟩

theorem Agrees.of_constant {e : ConstExpr Empty} (h : Agrees target e) {c : Constant}
    (hc : (ideal target e).constant = some c) : foldClosed target e = .value c.info := by
  have hv := h.value
  rw [hc] at hv
  cases hf : foldClosed target e with
  | value info => rw [hf] at hv; cases hv; rfl
  | failed o => rw [hf] at hv; contradiction

theorem LawAt.of_failed {e : ConstExpr Empty} {o : Bool} (h : foldClosed target e = .failed o)
    (hc : ¬ ChecksOverflow target e) : LawAt target e :=
  ⟨fun info hi => by rw [h] at hi; contradiction, fun hc' => absurd hc' hc⟩

theorem LawAt.of_number {e : ConstExpr Empty} {v : Int} (h : foldClosed target e = foldNumber v)
    (hm : mathValue target e = some v) : LawAt target e := by
  constructor
  · intro info hi
    rw [h, foldNumber_value?] at hi
    obtain ⟨c, hc, rfl⟩ := Option.map_eq_some_iff.mp hi
    exact ⟨by rw [hm, c.info_denote, idealNumber_value hc], c.info_consistent⟩
  · intro
    rw [h, foldNumber_overflow, hm]
    simp

theorem agrees_lit (v : Word cxxUInt64) : Agrees target (.lit v) := by
  have h : foldClosed target (.lit v) = foldNumber v.val := by
    rw [foldClosed, evalConstIntExpr, foldLiteral_eq]
  have hr : Representable v.val := by have := uint64_bounds v; unfold Representable; omega
  constructor
  · rw [h, foldNumber_value?, ideal]
  · have hl := foldLiteral_eq v
    rw [foldNumber_of hr] at hl
    injection hl with hl
    rw [deduceType, hl, Constant.info_primitive, ideal, idealNumber_of hr]
    rfl

theorem lawAt_lit (v : Word cxxUInt64) : LawAt target (.lit v) :=
  .of_number (by rw [foldClosed, evalConstIntExpr, foldLiteral_eq]) rfl

section
variable {op : UnOp} {e : ConstExpr Empty}

theorem foldClosed_unary (op : UnOp) (e : ConstExpr Empty) :
    foldClosed target (.unary op e) = (foldClosed target e).bind (foldUnary op) := by
  rw [foldClosed, evalConstIntExpr, foldClosed]

theorem agrees_unary (h : Agrees target e)
    (hv : (foldClosed target (.unary op e)).value? =
      (ideal target (.unary op e)).constant.map Constant.info) : Agrees target (.unary op e) := by
  refine ⟨hv, ?_⟩
  have hp : (ideal target (.unary op e)).type =
      ((ideal target (.unary op e)).constant.map (·.type) <|> (ideal target e).type) := rfl
  rw [foldClosed_unary] at hv
  rw [hp, deduceType, h.type, ← foldClosed, hv]
  cases (ideal target (.unary op e)).constant with
  | none => rfl
  | some c => simp [c.info_primitive]

theorem unary_plus (h : Agrees target e) :
    LawAt target (.unary .plus e) ∧ Agrees target (.unary .plus e) := by
  cases hc : (ideal target e).constant with
  | none =>
    obtain ⟨o, ho⟩ := h.of_failed hc
    have hf : foldClosed target (.unary .plus e) = .failed o := by
      rw [foldClosed_unary, ho, Folded.bind]
    refine ⟨.of_failed hf (by simp [ChecksOverflow]), agrees_unary h ?_⟩
    simp [hf, ideal, hc, Folded.value?]
  | some c =>
    have hf : foldClosed target (.unary .plus e) = .value c.info := by
      rw [foldClosed_unary, h.of_constant hc, Folded.bind, foldUnary]
    refine ⟨⟨fun info hi => ?_, by simp [ChecksOverflow]⟩, agrees_unary h ?_⟩
    · rw [hf] at hi
      cases hi
      exact ⟨by rw [mathValue, ideal_math hc, c.info_denote]; rfl, c.info_consistent⟩
    · simp [hf, ideal, hc, Folded.value?]

theorem checksOverflow_neg {c : Constant} (h : foldClosed target e = .value c.info) :
    ChecksOverflow target (.unary .neg e) := ⟨rfl, by rw [h]; rfl⟩

theorem unary_neg (h : Agrees target e) :
    (LawAt target (.unary .neg e) ↔ SafeAt target (.unary .neg e)) ∧
      (SafeAt target (.unary .neg e) → Agrees target (.unary .neg e)) := by
  cases hc : (ideal target e).constant with
  | none =>
    obtain ⟨o, ho⟩ := h.of_failed hc
    have hf : foldClosed target (.unary .neg e) = .failed o := by
      rw [foldClosed_unary, ho, Folded.bind]
    have hl : LawAt target (.unary .neg e) := .of_failed hf (by simp [ChecksOverflow, ho, Folded.value?])
    have hs : SafeAt target (.unary .neg e) := by simp [SafeAt, hc]
    refine ⟨iff_of_true hl hs, fun _ => agrees_unary h ?_⟩
    simp [hf, ideal, hc, Folded.value?]
  | some c =>
    have hv := h.of_constant hc
    have hf : foldClosed target (.unary .neg e) = foldUnary .neg c.info := by
      rw [foldClosed_unary, hv, Folded.bind]
    have hm : mathValue target (.unary .neg e) = some (-c.value) := by
      rw [mathValue, ideal_math hc]; rfl
    have hs : SafeAt target (.unary .neg e) ↔ -(2^63) < c.value ∧ c.value < 2^63 := by
      simp [SafeAt, hc]
    rw [foldUnary_neg] at hf
    have hr := c.representable
    unfold Representable at hr
    rw [hs]
    refine ⟨⟨fun hl => ?_, fun hin => ?_⟩, fun hin => agrees_unary h ?_⟩
    · by_contra hout
      have ho := hl.overflow (checksOverflow_neg hv)
      rw [hf, hm] at ho
      simp only [Option.some.injEq, exists_eq_left'] at ho
      split_ifs at ho with hmin
      · have : ¬ Representable (-c.value) := ho.mp rfl
        have hred : c.value = -(2^63) ∨ c.value = 2^63 := by
          by_cases hle : c.value ≤ 2^63-1
          · rw [reduce_int64_of_small hr.1 hle] at hmin; omega
          · rw [reduce_int64_of_large (by omega) hr.2] at hmin; omega
        unfold Representable at this
        omega
      · have hlarge : 2^63 < c.value := by
          by_contra hle
          by_cases hle' : c.value ≤ 2^63-1
          · rw [reduce_int64_of_small hr.1 hle'] at hmin; omega
          · rw [reduce_int64_of_large (by omega) hr.2] at hmin; omega
        rw [foldNumber_overflow, reduce_int64_of_large (by omega) hr.2] at ho
        unfold Representable at ho
        omega
    · rw [reduce_int64_of_small hr.1 (by omega), if_neg (by omega)] at hf
      exact .of_number hf hm
    · rw [reduce_int64_of_small hr.1 (by omega), if_neg (by omega)] at hf
      rw [hf, foldNumber_value?]
      simp [ideal, hc]

end

section
variable {op : ConstBinOp} {l r : ConstExpr Empty} {q : Bool}

theorem foldClosed_binary (op : ConstBinOp) (q : Bool) (hl : Agrees target l)
    (hr : Agrees target r) : foldClosed target (.binary op l r q) =
      (foldClosed target l).bind₂ (foldClosed target r) (foldBinary target op op.boundKind) ∧
    deduceType target closedEnv (.binary op l r q) = (ideal target (.binary op l r q)).type := by
  obtain ⟨p, hp, hpp⟩ := @ideal_plain target l
  obtain ⟨p', hp', hpp'⟩ := @ideal_plain target r
  have hvl := hl.value
  have hvr := hr.value
  unfold foldClosed at hvl hvr
  obtain ⟨bound, c, hb, hk, hres, -⟩ := @bindConstBinary_bound target op q _ _ hpp hpp'
    ((ideal target l).constant.map (·.info)) ((ideal target r).constant.map (·.info))
  constructor
  · rw [foldClosed, evalConstIntExpr, hl.type, hr.type, hp, hp', hvl, hvr, hb, ← hk]
    rfl
  · rw [deduceType, hl.type, hr.type, hp, hp', hvl, hvr, hb, ideal, hp, hp', hb]
    rfl

theorem binary_failed (hl : Agrees target l) (hr : Agrees target r)
    (hc : (ideal target l).constant = none ∨ (ideal target r).constant = none) :
    LawAt target (.binary op l r q) ∧ SafeAt target (.binary op l r q) ∧
      Agrees target (.binary op l r q) := by
  obtain ⟨hf, ht⟩ := foldClosed_binary op q hl hr
  have hfail : (∃ o, foldClosed target (.binary op l r q) = .failed o) ∧
      ¬ ChecksOverflow target (.binary op l r q) := by
    rw [hf]
    cases hc with
    | inl hc =>
      obtain ⟨o, ho⟩ := hl.of_failed hc
      refine ⟨⟨_, by rw [ho, Folded.bind₂]; intros; contradiction⟩, ?_⟩
      simp [ChecksOverflow, ho, Folded.value?]
    | inr hc =>
      obtain ⟨o, ho⟩ := hr.of_failed hc
      refine ⟨⟨_, by rw [ho, Folded.bind₂]; intros; contradiction⟩, ?_⟩
      simp [ChecksOverflow, ho, Folded.value?]
  obtain ⟨⟨o, ho⟩, hno⟩ := hfail
  refine ⟨.of_failed ho hno, ?_, ⟨?_, ht⟩⟩
  · intro _ a b ha hb
    cases hc with
    | inl hc => rw [hc] at ha; contradiction
    | inr hc => rw [hc] at hb; contradiction
  · have hn : (ideal target (.binary op l r q)).constant = none := by
      simp only [ideal]
      cases hc with
      | inl hc => rw [hc]; rfl
      | inr hc => rw [hc]; cases (ideal target l).constant <;> rfl
    rw [ho, hn]
    rfl

theorem binary_number (hl : Agrees target l) (hr : Agrees target r) {a b : Constant}
    (ha : (ideal target l).constant = some a) (hb : (ideal target r).constant = some b)
    (hf : foldBinary target op op.boundKind a.info b.info =
      match op.exact a.value b.value with
      | some v => foldNumber v
      | none => .failed false)
    (hn : op.exact a.value b.value = none → op ∉ [.add, .sub, .mul]) :
    LawAt target (.binary op l r q) ∧ Agrees target (.binary op l r q) := by
  obtain ⟨hfold, ht⟩ := foldClosed_binary op q hl hr
  rw [hl.of_constant ha, hr.of_constant hb, Folded.bind₂, hf] at hfold
  have hm : mathValue target (.binary op l r q) = op.exact a.value b.value := by
    simp only [mathValue, ideal_math ha, ideal_math hb, Option.bind_eq_bind, Option.bind_some]
  have hi : (ideal target (.binary op l r q)).constant =
      (op.exact a.value b.value).bind idealNumber := by
    simp only [ideal, ha, hb, Option.bind_eq_bind, Option.bind_some]
  cases hx : op.exact a.value b.value with
  | none =>
    rw [hx] at hfold hi
    exact ⟨.of_failed hfold fun h => hn hx h.1, ⟨by rw [hfold, hi]; rfl, ht⟩⟩
  | some v =>
    rw [hx] at hfold hi hm
    exact ⟨.of_number hfold hm, ⟨by rw [hfold, hi, foldNumber_value?]; rfl, ht⟩⟩

theorem binary_arithmetic (hop : op ∈ [.add, .sub, .mul, .intDiv, .mod]) (hl : Agrees target l)
    (hr : Agrees target r) :
    LawAt target (.binary op l r q) ∧ Agrees target (.binary op l r q) := by
  cases ha : (ideal target l).constant with
  | none => exact ⟨(binary_failed hl hr (.inl ha)).1, (binary_failed hl hr (.inl ha)).2.2⟩
  | some a =>
    cases hb : (ideal target r).constant with
    | none => exact ⟨(binary_failed hl hr (.inr hb)).1, (binary_failed hl hr (.inr hb)).2.2⟩
    | some b =>
      refine binary_number hl hr ha hb (foldBinary_exact target hop a b) ?_
      cases op <;> simp [ConstBinOp.exact] at hop ⊢

theorem binary_bitwise (hop : op ∈ [.and, .or, .xor]) (hl : Agrees target l)
    (hr : Agrees target r) :
    (LawAt target (.binary op l r q) ↔ SafeAt target (.binary op l r q)) ∧
      (SafeAt target (.binary op l r q) → Agrees target (.binary op l r q)) := by
  cases ha : (ideal target l).constant with
  | none =>
    obtain ⟨h₁, h₂, h₃⟩ := @binary_failed target op l r q hl hr (.inl ha)
    exact ⟨iff_of_true h₁ h₂, fun _ => h₃⟩
  | some a =>
    cases hb : (ideal target r).constant with
    | none =>
      obtain ⟨h₁, h₂, h₃⟩ := @binary_failed target op l r q hl hr (.inr hb)
      exact ⟨iff_of_true h₁ h₂, fun _ => h₃⟩
    | some b =>
      have hk : op.boundKind = .integerBitwise ∧
          op.exact a.value b.value = some (op.bitwise a.value b.value) := by
        cases op <;> first | exact ⟨rfl, rfl⟩ | simp at hop
      have hs : SafeAt target (.binary op l r q) ↔
          cxxInt64.Holds (op.bitwise a.value b.value) := by
        simp only [SafeAt, ha, hb, Option.some.injEq]
        exact ⟨fun h => h hop a b rfl rfl, fun h _ a' b' ha' hb' => by subst ha' hb'; exact h⟩
      have hnot : op ∉ [.add, .sub, .mul] := by
        cases op <;> simp at hop ⊢
      have hf := foldBinary_bitwise target op a b
      have hsafe (h : cxxInt64.Holds (op.bitwise a.value b.value)) :=
        @binary_number target op l r q hl hr _ _ ha hb
          (by rw [hk.1, hk.2, hf, IntType.reduce_of_holds h]) (fun _ => hnot)
      rw [hs]
      refine ⟨⟨fun hlaw => ?_, fun h => (hsafe h).1⟩, fun h => (hsafe h).2⟩
      have hfold := (foldClosed_binary op q hl hr).1
      rw [hl.of_constant ha, hr.of_constant hb, Folded.bind₂, hk.1, hf] at hfold
      have hred := int64_bounds (.ofInt _ (op.bitwise a.value b.value))
      rw [Word.ofInt_val] at hred
      have hrep : Representable (cxxInt64.reduce (op.bitwise a.value b.value)) :=
        ⟨hred.1, by omega⟩
      rw [foldNumber_of hrep] at hfold
      have hv := (hlaw.value _ (by rw [hfold]; rfl)).1
      simp only [mathValue, ideal_math ha, ideal_math hb, Option.bind_eq_bind, Option.bind_some,
        hk.2, Constant.info_denote, Option.some.injEq] at hv
      exact IntType.reduce_eq_self_iff.mp hv.symm

end

theorem lawAt_masked_iff {e : ConstExpr Empty} {p : IntegerPrimitive} {v m : Int}
    (hf : foldClosed target e = .value (maskedInfo target p v)) (hm : mathValue target e = some m)
    (hc : ¬ ChecksOverflow target e) :
    LawAt target e ↔ (p.intType target).reduce v = m ∧ FullBits target p v := by
  have hd := @maskedInfo_denote target p v
  have hfull := @maskedInfo_consistent_iff target p v
  constructor
  · intro h
    obtain ⟨h₁, h₂⟩ := h.value _ (by rw [hf]; rfl)
    rw [hm, hd] at h₁
    exact ⟨(Option.some.inj h₁).symm, hfull.mp h₂⟩
  · rintro ⟨h₁, h₂⟩
    refine ⟨fun info hi => ?_, fun h => absurd h hc⟩
    rw [hf] at hi
    cases hi
    exact ⟨by rw [hm, hd, h₁], hfull.mpr h₂⟩

theorem cast_law {p : IntegerPrimitive} {plain : p.Plain} {e : ConstExpr Empty}
    (h : Agrees target e) :
    (LawAt target (.cast p plain e) ↔ SafeAt target (.cast p plain e)) ∧
      (SafeAt target (.cast p plain e) → Agrees target (.cast p plain e)) := by
  have hfold : foldClosed target (.cast p plain e) =
      (foldClosed target e).bind fun a => .value (evalConstIntCast target p a) := by
    rw [foldClosed, evalConstIntExpr, foldClosed]
  have ht : deduceType target closedEnv (.cast p plain e) =
      (ideal target (.cast p plain e)).type := by
    rw [deduceType]; rfl
  cases hc : (ideal target e).constant with
  | none =>
    obtain ⟨o, ho⟩ := h.of_failed hc
    rw [ho, Folded.bind] at hfold
    have hs : SafeAt target (.cast p plain e) := by simp [SafeAt, hc]
    refine ⟨iff_of_true (.of_failed hfold (by simp [ChecksOverflow])) hs, fun _ => ⟨?_, ht⟩⟩
    simp [hfold, ideal, hc, Folded.value?]
  | some c =>
    rw [h.of_constant hc, Folded.bind, evalConstIntCast_eq] at hfold
    have hs : SafeAt target (.cast p plain e) ↔ FullBits target p c.value := by
      simp [SafeAt, hc]
    have hm : mathValue target (.cast p plain e) = some ((p.intType target).reduce c.value) := by
      rw [mathValue, ideal_math hc]; rfl
    rw [lawAt_masked_iff hfold hm (by simp [ChecksOverflow]), hs]
    refine ⟨by simp, fun hfull => ⟨?_, ht⟩⟩
    rw [hfold, maskedInfo_eq hfull plain]
    simp [ideal, hc, Folded.value?]

theorem step_law {s q r : Bool} {e : ConstExpr Empty} (h : Agrees target e) :
    (LawAt target (.step s e q r) ↔ SafeAt target (.step s e q r)) ∧
      (SafeAt target (.step s e q r) → Agrees target (.step s e q r)) := by
  obtain ⟨p, hp, hpp⟩ := @ideal_plain target e
  obtain ⟨bound, hb, hk, hw⟩ := @bindConstStep_bound target s q r _ hpp
  have hfold : foldClosed target (.step s e q r) =
      (foldClosed target e).bind (evalBoundOrdinalStep target bound p) := by
    rw [foldClosed, evalConstIntExpr, h.type, hp, hb, foldClosed]
  have ht : deduceType target closedEnv (.step s e q r) = (ideal target (.step s e q r)).type := by
    rw [deduceType, h.type, ideal, hp, hb]; rfl
  have hi : (ideal target (.step s e q r)).constant =
      (ideal target e).constant.bind (idealStep target bound p hpp) := by
    simp only [ideal, hp, hb, dif_pos hpp]
  have hno : ¬ ChecksOverflow target (.step s e q r) := by simp [ChecksOverflow]
  cases hc : (ideal target e).constant with
  | none =>
    obtain ⟨o, ho⟩ := h.of_failed hc
    rw [ho, Folded.bind] at hfold
    have hs : SafeAt target (.step s e q r) := by simp [SafeAt, hc]
    refine ⟨iff_of_true (.of_failed hfold hno) hs, fun _ => ⟨?_, ht⟩⟩
    rw [hfold, hi, hc]; rfl
  | some c =>
    rw [h.of_constant hc, Folded.bind] at hfold
    have hs : SafeAt target (.step s e q r) ↔ (¬ StepRefused target bound p c.value →
        (p.intType target).Holds (bound.kind.apply c.value 1) ∧
          FullBits target p (bound.kind.apply c.value 1)) := by
      simp only [SafeAt, hp, hb, hc, Option.some.injEq, Prod.mk.injEq]
      exact ⟨fun h hr => h bound p c ⟨rfl, rfl⟩ rfl hr,
        fun h _ _ _ hbp hcc hr => by obtain ⟨rfl, rfl⟩ := hbp; subst hcc; exact h hr⟩
    rw [hs]
    by_cases hr : StepRefused target bound p c.value
    · obtain ⟨o, ho⟩ := evalBoundOrdinalStep_of_refused hw hr
      rw [ho] at hfold
      refine ⟨iff_of_true (.of_failed hfold hno) fun h => absurd hr h, fun _ => ⟨?_, ht⟩⟩
      rw [hfold, hi, hc, Option.bind_some, idealStep, if_pos (.inl hr)]; rfl
    · rw [evalBoundOrdinalStep_of_not_refused hw hr] at hfold
      have hm : mathValue target (.step s e q r) = some (bound.kind.apply c.value 1) := by
        rw [mathValue, ideal_math hc, hk]; rfl
      rw [lawAt_masked_iff hfold hm hno, IntType.reduce_eq_self_iff]
      refine ⟨⟨fun h _ => h, fun h => h hr⟩, fun h => ⟨?_, ht⟩⟩
      obtain ⟨hin, hfull⟩ := h hr
      rw [hfold, hi, hc, Option.bind_some, idealStep, if_neg (by simp [hr, hin]),
        maskedInfo_eq hfull hpp]
      rfl

/-- What every expression without `not` and shifts owes: at each operand alike, folding meets
its law exactly where the operands are safe, and there finds the ideal constant. -/
theorem fold_law (e : ConstExpr Empty) (ha : e.Everywhere ConstExpr.IsArithmetic) :
    (e.Everywhere (LawAt target) ↔ e.Everywhere (SafeAt target)) ∧
      (e.Everywhere (SafeAt target) → Agrees target e) := by
  induction e with
  | lit v => exact ⟨iff_of_true (lawAt_lit v) trivial, fun _ => agrees_lit v⟩
  | ident name => exact name.elim
  | unary op e ih =>
    obtain ⟨hop, ha⟩ := ha
    obtain ⟨hiff, hagree⟩ := ih ha
    have hnode (h : Agrees target e) :
        (LawAt target (.unary op e) ↔ SafeAt target (.unary op e)) ∧
          (SafeAt target (.unary op e) → Agrees target (.unary op e)) := by
      cases op with
      | plus =>
        obtain ⟨h₁, h₂⟩ := unary_plus h
        exact ⟨iff_of_true h₁ (by simp [SafeAt]), fun _ => h₂⟩
      | neg => exact unary_neg h
      | not => exact absurd rfl hop
    refine ⟨?_, fun h => (hnode (hagree h.2)).2 h.1⟩
    simp only [ConstExpr.Everywhere, hiff]
    exact and_congr_left fun h => (hnode (hagree h)).1
  | binary op l r q ihl ihr =>
    obtain ⟨hop, hal, har⟩ := ha
    obtain ⟨hiffl, hagreel⟩ := ihl hal
    obtain ⟨hiffr, hagreer⟩ := ihr har
    have hnode (hl : Agrees target l) (hr : Agrees target r) :
        (LawAt target (.binary op l r q) ↔ SafeAt target (.binary op l r q)) ∧
          (SafeAt target (.binary op l r q) → Agrees target (.binary op l r q)) := by
      by_cases hbit : op ∈ [.and, .or, .xor]
      · exact binary_bitwise hbit hl hr
      · obtain ⟨h₁, h₂⟩ := @binary_arithmetic target op l r q
          (by cases op <;> simp [ConstExpr.IsArithmetic] at hop hbit ⊢) hl hr
        exact ⟨iff_of_true h₁ fun h => absurd h hbit, fun _ => h₂⟩
    refine ⟨?_, fun h => (hnode (hagreel h.2.1) (hagreer h.2.2)).2 h.1⟩
    simp only [ConstExpr.Everywhere, hiffl, hiffr]
    exact and_congr_left fun h => (hnode (hagreel h.1) (hagreer h.2)).1
  | step s e q r ih =>
    obtain ⟨hiff, hagree⟩ := ih ha.2
    refine ⟨?_, fun h => (step_law (hagree h.2)).2 h.1⟩
    simp only [ConstExpr.Everywhere, hiff]
    exact and_congr_left fun h => (step_law (hagree h)).1
  | cast p plain e ih =>
    obtain ⟨hiff, hagree⟩ := ih ha.2
    refine ⟨?_, fun h => (cast_law (hagree h.2)).2 h.1⟩
    simp only [ConstExpr.Everywhere, hiff]
    exact and_congr_left fun h => (cast_law (hagree h)).1

/-- Folding an expression and its operands meets the law exactly where they are safe. -/
theorem foldClosed_lawful_iff (target : TargetInfo) (e : ConstExpr Empty)
    (ha : e.Everywhere ConstExpr.IsArithmetic) :
    e.Everywhere (LawAt target) ↔ e.Everywhere (SafeAt target) :=
  (fold_law e ha).1

theorem foldClosed_lawful_qWord :
    let target : TargetInfo := ⟨64, .inr rfl⟩
    let five : Word cxxUInt64 := .ofInt _ 5
    (ConstExpr.binary .add (.unary .neg (.lit five)) (.lit (.maximum _)) true).Everywhere
      (LawAt target) := by
  intro target five
  refine (foldClosed_lawful_iff target _ ?_).mpr ⟨fun h => ?_, ⟨fun _ c hc => ?_, trivial⟩, trivial⟩
  · simp [ConstExpr.Everywhere, ConstExpr.IsArithmetic]
  · simp at h
  · have hv : five.val = c.value := Option.some.inj (ideal_math hc)
    have h5 : five.val = 5 := by decide
    omega

/-- `-18446744073709551615` folds to 1, and no overflow is reported. -/
theorem foldClosed_negates_qWord :
    let target : TargetInfo := ⟨64, .inr rfl⟩
    let e : ConstExpr Empty := .unary .neg (.lit (.maximum _))
    e.Everywhere ConstExpr.IsArithmetic ∧ mathValue target e = some (-18446744073709551615) ∧
      (foldClosed target e).value?.map ConstIntExprInfo.denote = some 1 ∧
      (foldClosed target e).overflow = false ∧ ¬ e.Everywhere (LawAt target) := by
  refine ⟨by simp [ConstExpr.Everywhere, ConstExpr.IsArithmetic], by decide, by decide, by decide,
    fun h => ?_⟩
  have ho := h.1.overflow ⟨rfl, by decide⟩
  exact absurd (ho.mpr ⟨-18446744073709551615, by decide, by decide⟩) (by decide)

end
end Tp2cc
