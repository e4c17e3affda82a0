import Tp2cc.Analysis.ConstInt
import Tp2cc.Machine.Conversion
import Tp2cc.Runtime.RangeCheck

/-! `exit(v)` against the assignment of `v` to the result. -/
set_option autoImplicit false

namespace Tp2cc
open Machine Rt

inductive ResultType where
  | integer (p : IntegerPrimitive)
  | subrange (storage : IntType)

/-- A value expression with its value. A constant is one that folds and is neither a name nor an
intrinsic nor a binary expression. A real literal has the type real. -/
inductive ValueExpr (target : TargetInfo) where
  | integer (p : IntegerPrimitive) (v : Word (p.intType target))
  | constant (p : IntegerPrimitive) (v : Word (p.intType target))
  | subrange (storage : IntType) (v : Word storage)
  | real (precision : Nat) (v : RealValue)

/-- The C++ text of a value, by its type and the number it has. -/
inductive ValueText where
  | integer (s : IntType) (v : Word s)
  | real (precision : Nat) (v : RealValue)

def literalType (v : Int) : IntType :=
  if v.natAbs < 2^31 then .int else if v.natAbs < 2^63 then cxxInt64 else cxxUInt64

/-- `uint64_literal_text`, with a sign in front of it if need be. -/
def literalText (v : Int) : ValueText := .integer (literalType v) (.ofInt _ v)

/-- The text of `maybe_convert_const_int_expr` for a constant. -/
def constantText (t : IntType) (v : Int) : ValueText :=
  if t.bits = 64 then .integer t (.ofInt t v) else literalText (t.reduce v)

inductive RhsForm where
  | plain | rangeCheckAssign | realToIntTrunc
  deriving DecidableEq

section
variable (target : TargetInfo)

def ResultType.cxxType : ResultType → IntType
  | .integer p => p.intType target
  | .subrange storage => storage

def constValueToCxx : ResultType → ValueExpr target → ValueText
  | _, .integer src v => .integer (src.intType target) v
  | .integer dst, .constant _ v => constantText (dst.intType target) v.val
  | .subrange _, .constant _ v => literalText v.val
  | _, .subrange storage v => .integer storage v
  | _, .real precision v => .real precision v

/-- The part of `emit_assign_stmt` for a target with an integer type. -/
def emitAssign (rCheck : Bool) : ResultType → ValueExpr target → RhsForm
  | .subrange _, _ => .plain
  | .integer dst, .integer src _ | .integer dst, .constant src _ =>
    if rCheck ∧ (src.bits target > dst.bits target ∨ src.intKind ≠ dst.intKind) then
      .rangeCheckAssign
    else .plain
  | .integer _, .real _ _ => if rCheck then .rangeCheckAssign else .realToIntTrunc
  | .integer _, .subrange _ _ => .plain

def emitExit : RhsForm := .plain

end

section
variable {target : TargetInfo} {t : IntType}

/-- The implicit conversion of C++, which may be undefined for a real value. -/
def ValueText.convert (t : IntType) : ValueText → Option (Word t)
  | .integer _ v => some (v.cast t)
  | .real _ v => v.toWord t

/-- What the statement stores in a slot of type `t`, or raises. -/
def RhsForm.store (t : IntType) : RhsForm → ValueText →
    Option (Except RuntimeError (Word t))
  | .plain, v => (v.convert t).map .ok
  | .rangeCheckAssign, .integer _ v => some (tp2ccRangeCheckAssign t v)
  | .rangeCheckAssign, .real precision v => tp2ccRangeCheckAssignReal precision t v
  | .realToIntTrunc, .real precision v => (tp2ccRealToIntTrunc precision t v).map .ok
  | _, _ => none

/-- Both statements store the same value or raise the same error. -/
def ExitsAlike (target : TargetInfo) (rCheck : Bool) (result : ResultType)
    (v : ValueExpr target) : Prop :=
  ∃ r, (emitAssign target rCheck result v).store (result.cxxType target)
      (constValueToCxx target result v) = some r ∧
    emitExit.store (result.cxxType target) (constValueToCxx target result v) = some r

def Truncates (t : IntType) : RealValue → Prop
  | .finite q => t.Holds (truncate q)
  | _ => False

/-- No range check would raise, and no real value is out of range. A fraction below the type becomes
the least value in either way, so it counts as out of range only under range checks. A constant has
been converted before its check. -/
def ExitInRange (target : TargetInfo) (rCheck : Bool) : ResultType → ValueExpr target → Prop
  | .integer dst, .integer _ v => rCheck = true → (dst.intType target).Holds v.val
  | .integer dst, .real precision v => Truncates (dst.intType target) v ∧
    v.gt ((dst.intType target).realHi precision) = false ∧
      (rCheck = true → v.lt (dst.intType target).lo = false)
  | .subrange storage, .real _ v => Truncates storage v
  | _, .constant _ _ => True
  | .integer _, .subrange _ _ => True
  | .subrange _, _ => True

theorem toWord_iff {v : RealValue} : (∃ w, v.toWord t = some w) ↔ Truncates t v := by
  cases v with
  | nan => simp [RealValue.toWord, Truncates]
  | infinite negative => simp [RealValue.toWord, Truncates]
  | finite q => simp [RealValue.toWord, Truncates]

theorem exitsAlike_plain {rCheck : Bool} {result : ResultType} {v : ValueExpr target}
    (h : emitAssign target rCheck result v = .plain) :
    ExitsAlike target rCheck result v ↔
      ∃ w, (constValueToCxx target result v).convert (result.cxxType target) = some w := by
  rw [ExitsAlike, h, emitExit]
  constructor
  · rintro ⟨r, hr, _⟩
    obtain ⟨w, hw, -⟩ := Option.map_eq_some_iff.mp hr
    exact ⟨w, hw⟩
  · rintro ⟨w, hw⟩
    exact ⟨.ok w, by simp [RhsForm.store, hw]⟩

theorem signed_eq_iff (p q : IntegerPrimitive) : p.signed = q.signed ↔ p.intKind = q.intKind := by
  constructor
  · intro h
    cases p.intKind_cases with
    | inl hp =>
      rw [IntegerPrimitive.signed_iff.mpr hp] at h
      rw [hp, IntegerPrimitive.signed_iff.mp h.symm]
    | inr hp =>
      rw [IntegerPrimitive.not_signed_iff.mpr hp] at h
      rw [hp, IntegerPrimitive.not_signed_iff.mp h.symm]
  · intro h
    rw [IntegerPrimitive.signed, IntegerPrimitive.signed, h]

theorem exitsAlike_integer {rCheck : Bool} {dst src : IntegerPrimitive}
    {v : Word (src.intType target)} :
    ExitsAlike target rCheck (.integer dst) (.integer src v) ↔
      (rCheck = true → (dst.intType target).Holds v.val) := by
  by_cases hwrap : rCheck ∧ (src.bits target > dst.bits target ∨ src.intKind ≠ dst.intKind)
  · have hform : emitAssign target rCheck (.integer dst) (.integer src v) = .rangeCheckAssign := by
      rw [emitAssign, if_pos hwrap]
    have hcheck := tp2ccRangeCheckAssign_eq (t := dst.intType target) (s := src.intType target)
      (fun hs => by
        have hkind := (signed_eq_iff src dst).mp hs
        cases hwrap.2 with
        | inl hbits => exact hbits.le
        | inr hne => exact absurd hkind hne) v
    rw [ExitsAlike, hform]
    simp only [ResultType.cxxType, constValueToCxx, RhsForm.store, hcheck, emitExit,
      ValueText.convert, Option.map_some, Option.some.injEq, hwrap.1, true_imp_iff]
    by_cases hv : (dst.intType target).Holds v.val
    · simp [hv]
    · simp [hv]
  · have hform : emitAssign target rCheck (.integer dst) (.integer src v) = .plain := by
      rw [emitAssign, if_neg hwrap]
    rw [exitsAlike_plain hform]
    refine iff_of_true ⟨_, rfl⟩ ?_
    intro hcheck
    have hsame : src.intKind = dst.intKind := by
      by_contra hne
      exact hwrap ⟨hcheck, .inr hne⟩
    have hbits : src.bits target ≤ dst.bits target := by
      by_contra hlt
      exact hwrap ⟨hcheck, .inl (by omega)⟩
    exact (IntType.within_of_same ((signed_eq_iff src dst).mpr hsame) hbits).holds v.mem

/-- The text of a converted constant has the number that the type makes of it, in a type that the
range check can compare with. -/
theorem constantText_spec {t : IntType} (hbits : t.bits = 64 ∨ t.bits ≤ 32) (v : Int) :
    ∃ (s : IntType) (w : Word s), constantText t v = .integer s w ∧ w.val = t.reduce v ∧
      (s.signed = t.signed → t.bits ≤ s.bits) := by
  unfold constantText
  by_cases h64 : t.bits = 64
  · rw [if_pos h64]
    exact ⟨t, .ofInt t v, rfl, rfl, fun _ => le_refl _⟩
  · have h32 : t.bits ≤ 32 := hbits.resolve_left h64
    have hholds := t.reduce_holds v
    have hlo : -(2^32) ≤ t.lo := by
      have := IntType.two_pow_mono (Nat.sub_le_sub_right h32 1)
      cases hs : t.signed <;> simp only [IntType.lo, hs, if_true, Bool.false_eq_true, if_false] <;> omega
    have hhi : t.hi < 2^32 := by
      have h₁ := IntType.two_pow_mono h32
      have h₂ := IntType.two_pow_mono (Nat.sub_le t.bits 1)
      cases hs : t.signed <;> simp only [IntType.hi, hs, if_true, Bool.false_eq_true, if_false] <;> omega
    obtain ⟨h₁, h₂⟩ := hholds
    rw [if_neg h64]
    refine ⟨_, .ofInt _ (t.reduce v), rfl, ?_, fun _ => ?_⟩
    · apply IntType.reduce_of_holds
      unfold literalType
      split
      · have hint : IntType.int.lo = -(2^31) ∧ IntType.int.hi = 2^31-1 := ⟨rfl, rfl⟩
        exact ⟨by omega, by omega⟩
      · split
        · have hlong : cxxInt64.lo = -(2^63) ∧ cxxInt64.hi = 2^63-1 := ⟨rfl, rfl⟩
          exact ⟨by omega, by omega⟩
        · omega
    · unfold literalType
      split
      · exact h32
      · split
        · exact h32.trans (by decide)
        · exact h32.trans (by decide)

theorem exitsAlike_constant {rCheck : Bool} {dst src : IntegerPrimitive}
    {v : Word (src.intType target)} : ExitsAlike target rCheck (.integer dst) (.constant src v) := by
  have hbits : (dst.intType target).bits = 64 ∨ (dst.intType target).bits ≤ 32 := by
    have := dst.bits_cases target
    change dst.bits target = 64 ∨ dst.bits target ≤ 32
    omega
  obtain ⟨s, w, htext, hw, hsign⟩ := constantText_spec hbits v.val
  have hcheck := tp2ccRangeCheckAssign_eq hsign w
  rw [if_pos (hw ▸ (dst.intType target).reduce_holds v.val)] at hcheck
  have hplain : emitExit.store (dst.intType target) (.integer s w) =
      some (.ok (w.cast (dst.intType target))) := rfl
  rw [ExitsAlike, constValueToCxx, ResultType.cxxType, htext]
  refine ⟨_, ?_, hplain⟩
  rw [emitAssign]
  split
  · exact congrArg some hcheck
  · rfl

theorem rangeCheckAssignReal_plain (t : IntType) (precision : Nat) (v : RealValue) :
    (∃ r, tp2ccRangeCheckAssignReal precision t v = some r ∧ (v.toWord t).map .ok = some r) ↔
      Truncates t v ∧ v.gt (t.realHi precision) = false ∧ v.lt t.lo = false := by
  rw [tp2ccRangeCheckAssignReal]
  cases v with
  | nan => simp [RealValue.toWord, Truncates]
  | infinite negative => simp [RealValue.toWord, Truncates]
  | finite q =>
    by_cases hmem : t.Holds (truncate q)
    · cases hhi : (RealValue.finite q).gt (t.realHi precision) with
      | true => simp [RealValue.toWord, hmem]
      | false =>
        cases hlo : (RealValue.finite q).lt t.lo with
        | true => simp [RealValue.toWord, hmem]
        | false => simp [RealValue.toWord, RealValue.isNan, Truncates, hmem]
    · simp [RealValue.toWord, Truncates, hmem]

theorem realToIntTrunc_plain (t : IntType) (precision : Nat) (v : RealValue) :
    (∃ w, tp2ccRealToIntTrunc precision t v = some w ∧ v.toWord t = some w) ↔
      Truncates t v ∧ v.gt (t.realHi precision) = false := by
  rw [tp2ccRealToIntTrunc]
  cases v with
  | nan => simp [RealValue.toWord, Truncates]
  | infinite negative => simp [RealValue.toWord, Truncates]
  | finite q =>
    by_cases hmem : t.Holds (truncate q)
    · have hword : (RealValue.finite q).toWord t = some ⟨truncate q, hmem⟩ := by
        simp [RealValue.toWord, hmem]
      rw [hword]
      by_cases hhi : t.realHi precision < q
      · -- The least value is stored, and the conversion has the greatest.
        have hne : Word.minimum t ≠ ⟨truncate q, hmem⟩ := by
          intro h
          have h₁ : t.lo = truncate q := congrArg Word.val h
          have h₂ := IntType.hi_le_truncate ((t.hi_le_realHi precision).trans hhi.le)
          have h₃ := t.lo_lt_hi
          omega
        simp [RealValue.gt, hhi, hne.symm]
      · by_cases hlo : q < t.lo
        · have hmin : Word.minimum t = ⟨truncate q, hmem⟩ :=
            Word.ext (IntType.truncate_of_lt_lo hlo hmem).symm
          simp [RealValue.lt, RealValue.gt, Truncates, hlo, hhi, hmem, hmin]
        · simp [RealValue.isNan, RealValue.lt, RealValue.gt, Truncates, hlo, hhi, hmem]
    · simp [RealValue.toWord, Truncates, hmem]

theorem exitsAlike_real {rCheck : Bool} {dst : IntegerPrimitive} {precision : Nat} {v : RealValue} :
    ExitsAlike target rCheck (.integer dst) (.real precision v) ↔
      Truncates (dst.intType target) v ∧
        v.gt ((dst.intType target).realHi precision) = false ∧
          (rCheck = true → v.lt (dst.intType target).lo = false) := by
  cases rCheck with
  | true =>
    have hplain := rangeCheckAssignReal_plain (dst.intType target) precision v
    simp only [forall_const, ← hplain]
    exact Iff.rfl
  | false =>
    have hplain := realToIntTrunc_plain (dst.intType target) precision v
    simp only [Bool.false_eq_true, false_imp_iff, and_true, ← hplain]
    constructor
    · rintro ⟨r, hassign, hexit⟩
      obtain ⟨w, hw, hr⟩ := Option.map_eq_some_iff.mp hassign
      obtain ⟨w', hw', hr'⟩ := Option.map_eq_some_iff.mp hexit
      have hsame : w = w' := by
        rw [← hr'] at hr
        exact Except.ok.inj hr
      exact ⟨w, hw, hsame ▸ hw'⟩
    · rintro ⟨w, hassign, hexit⟩
      exact ⟨.ok w, Option.map_eq_some_iff.mpr ⟨w, hassign, rfl⟩,
        Option.map_eq_some_iff.mpr ⟨w, hexit, rfl⟩⟩

end

theorem byteInteger : PrimitiveKind.byte.info.intKind ≠ .none := by decide

def threeHundred : ValueExpr ⟨64, TargetInfo.sixtyFour⟩ :=
  .integer ⟨.longInt, PrimitiveKind.longInt_integer⟩ (.ofInt _ 300)

end Tp2cc
