import Tp2cc.Machine.Conversion
import Tp2cc.Runtime.Arithmetic

set_option autoImplicit false

namespace Tp2cc.Rt
open Machine

section
variable {t : IntType}

/-- The operator `/`; `none` is what C++ leaves undefined. -/
def cxxDiv (a b : Word t) : Option (Word t) :=
  if b.val = 0 ∨ ¬ t.Holds (a.val.tdiv b.val) then none else some (.ofInt t (a.val.tdiv b.val))

def cxxMod (a b : Word t) : Option (Word t) :=
  if b.val = 0 ∨ ¬ t.Holds (a.val.tdiv b.val) then none else some (.ofInt t (a.val.tmod b.val))

end

section
variable {r : IntType}

/-- `tp2cc_int_div` step by step: the operands of the division are promoted. -/
def tp2ccIntDivSteps (checkOverflow : Bool) (a b : Word r) :
    Option (Except RuntimeError (Word r)) :=
  if b.val = 0 then some (.error .divByZero)
  else if r.signed = true ∧ a.val = r.lo ∧ b.val = r.reduce (-1) then
    if checkOverflow then some (.error .intOverflow) else some (.ok a)
  else (cxxDiv (a.cast r.promote) (b.cast r.promote)).map fun q => .ok (q.cast r)

def tp2ccIntModSteps (a b : Word r) : Option (Except RuntimeError (Word r)) :=
  if b.val = 0 then some (.error .divByZero)
  else if r.signed = true ∧ a.val = r.lo ∧ b.val = r.reduce (-1) then
    some (.ok ((Word.ofInt .int 0).cast r))
  else (cxxMod (a.cast r.promote) (b.cast r.promote)).map fun m => .ok (m.cast r)

theorem Word.promote_val (a : Word r) : (a.cast r.promote).val = a.val :=
  Word.cast_val_of_holds (r.promote_within.holds a.mem)

theorem promoted_tdiv_holds {a b : Word r}
    (hmin : ¬ (r.signed = true ∧ a.val = r.lo ∧ b.val = r.reduce (-1))) :
    r.promote.Holds (a.val.tdiv b.val) := by
  apply r.promote_within.holds
  apply tdiv_holds a.mem b.mem
  rintro ⟨hs, ha, hb⟩
  exact hmin ⟨hs, ha, by rw [hb, reduce_neg_one hs]⟩

theorem tp2ccIntDivSteps_eq (checkOverflow : Bool) (a b : Word r) :
    tp2ccIntDivSteps checkOverflow a b = some (tp2ccIntDiv checkOverflow a b) := by
  rw [tp2ccIntDivSteps, tp2ccIntDiv]
  by_cases hb : b.val = 0
  · rw [if_pos hb, if_pos hb]
  · by_cases hmin : r.signed = true ∧ a.val = r.lo ∧ b.val = r.reduce (-1)
    · rw [if_neg hb, if_neg hb, if_pos hmin, if_pos hmin]
      cases checkOverflow <;> rfl
    · have hq := promoted_tdiv_holds hmin
      rw [if_neg hb, if_neg hb, if_neg hmin, if_neg hmin, cxxDiv, Word.promote_val,
        Word.promote_val, if_neg (by simp [hb, hq])]
      rw [Option.map_some]
      congr 2
      apply Word.ext
      rw [Word.cast_val, Word.ofInt_val, Word.ofInt_val, IntType.reduce_of_holds hq]

theorem tp2ccIntModSteps_eq (a b : Word r) : tp2ccIntModSteps a b = some (tp2ccIntMod a b) := by
  rw [tp2ccIntModSteps, tp2ccIntMod]
  by_cases hb : b.val = 0
  · rw [if_pos hb, if_pos hb]
  · by_cases hmin : r.signed = true ∧ a.val = r.lo ∧ b.val = r.reduce (-1)
    · rw [if_neg hb, if_neg hb, if_pos hmin, if_pos hmin]
      congr 2
    · have hq := promoted_tdiv_holds hmin
      have hm := r.promote_within.holds (tmod_holds a.mem b.val)
      rw [if_neg hb, if_neg hb, if_neg hmin, if_neg hmin, cxxMod, Word.promote_val,
        Word.promote_val, if_neg (by simp [hb, hq])]
      rw [Option.map_some]
      congr 2
      apply Word.ext
      rw [Word.cast_val, Word.ofInt_val, Word.ofInt_val, IntType.reduce_of_holds hm]

/-- The word is the number modulo `2^w`, as the type reads it. -/
def Wraps (w : Word r) (exact : Int) : Prop := w.val % 2^r.bits = exact % 2^r.bits

/-- The helper raises overflow for a number that a signed type does not hold, and wraps any
other. -/
def ChecksOverflow (result : Except RuntimeError (Word r)) (wrapped : Word r) (exact : Int) :
    Prop :=
  (result = .error .intOverflow ↔ r.signed = true ∧ ¬ r.Holds exact) ∧
    (¬ (r.signed = true ∧ ¬ r.Holds exact) → result = .ok wrapped)

structure Divides (a b q m : Int) : Prop where
  eq : a = b*q+m
  small : |m| < |b|
  nonneg : 0 ≤ a → 0 ≤ m
  nonpos : a ≤ 0 → m ≤ 0

/-- Where the quotient is not in the type it wraps, or overflow is raised. -/
structure DividesMinimum (a b : Word r) : Prop where
  wrapped : ∃ q, tp2ccIntDivSteps false a b = some (.ok q) ∧ Wraps q (a.val.tdiv b.val)
  raised : tp2ccIntDivSteps true a b = some (.error .intOverflow)
  remainder : ∃ m, tp2ccIntModSteps a b = some (.ok m) ∧ m.val = 0

/-- The helpers of one carrier on two operands. -/
structure CarrierLaw (a b : Word r) : Prop where
  add : Wraps (tp2ccWrapAdd a b) (a.val+b.val)
  sub : Wraps (tp2ccWrapSub a b) (a.val-b.val)
  mul : Wraps (tp2ccWrapMul a b) (a.val*b.val)
  addChecked : ChecksOverflow (tp2ccAddChecked a b) (tp2ccWrapAdd a b) (a.val+b.val)
  subChecked : ChecksOverflow (tp2ccSubChecked a b) (tp2ccWrapSub a b) (a.val-b.val)
  mulChecked : ChecksOverflow (tp2ccMulChecked a b) (tp2ccWrapMul a b) (a.val*b.val)
  divides : b.val ≠ 0 → ¬ (r.signed = true ∧ a.val = r.lo ∧ b.val = -1) → ∀ checkOverflow,
    ∃ q m, tp2ccIntDivSteps checkOverflow a b = some (.ok q) ∧
      tp2ccIntModSteps a b = some (.ok m) ∧ Divides a.val b.val q.val m.val
  minimum : r.signed = true ∧ a.val = r.lo ∧ b.val = -1 → DividesMinimum a b
  zero : b.val = 0 → (∀ checkOverflow, tp2ccIntDivSteps checkOverflow a b =
    some (.error .divByZero)) ∧ tp2ccIntModSteps a b = some (.error .divByZero)

theorem wraps_ofInt (exact : Int) : Wraps (Word.ofInt r exact) exact := r.reduce_emod exact

theorem checkedResult_checks {exact : Int} {wrapped : Word r} (h : wrapped = .ofInt r exact) :
    ChecksOverflow (checkedResult r exact) wrapped exact := by
  subst h
  unfold ChecksOverflow checkedResult
  by_cases hs : r.signed = true
  · by_cases hh : r.Holds exact <;> simp [hs, hh]
  · simp [hs]

theorem divides_tdiv {a b : Int} (hb : b ≠ 0) : Divides a b (a.tdiv b) (a.tmod b) where
  eq := (Int.mul_tdiv_add_tmod a b).symm
  small := by
    rw [Int.abs_eq_natAbs, Int.abs_eq_natAbs, Int.natAbs_tmod]
    exact_mod_cast Nat.mod_lt a.natAbs (Int.natAbs_pos.mpr hb)
  nonneg := Int.tmod_nonneg b
  nonpos ha := by
    have h := Int.tmod_nonneg b (a := -a) (by omega)
    rw [Int.neg_tmod] at h
    omega

theorem dividesMinimum {a b : Word r} (h : r.signed = true ∧ a.val = r.lo ∧ b.val = -1) :
    DividesMinimum a b := by
  obtain ⟨hs, ha, hb⟩ := h
  have hb' : b.val = r.reduce (-1) := by rw [hb, reduce_neg_one hs]
  have hne : ¬ b.val = 0 := by omega
  have hlo : r.lo = -(2^(r.bits-1)) := by simp [IntType.lo, hs]
  refine ⟨⟨a, ?_, ?_⟩, ?_, ⟨.ofInt r 0, ?_, ?_⟩⟩
  · rw [tp2ccIntDivSteps, if_neg hne, if_pos ⟨hs, ha, hb'⟩]
    rfl
  · have hsplit := r.two_pow_split
    rw [Wraps, hb, Int.tdiv_neg, Int.tdiv_one, ha, hlo, hsplit, Int.neg_neg]
    generalize (2 : Int)^(r.bits-1) = half
    have hhalf : -half = half+2*half*(-1) := by omega
    rw [hhalf, Int.add_mul_emod_self_left]
  · rw [tp2ccIntDivSteps, if_neg hne, if_pos ⟨hs, ha, hb'⟩]
    rfl
  · rw [tp2ccIntModSteps_eq, tp2ccIntMod, if_neg hne, if_pos ⟨hs, ha, hb'⟩]
  · exact IntType.reduce_of_holds r.holds_zero

/-- The helpers of every carrier of at most 64 bits are right for all operands, and none of them
is undefined. -/
theorem carrierLaw (h64 : r.bits ≤ 64) (a b : Word r) : CarrierLaw a b where
  add := tp2ccWrapAdd_eq h64 a b ▸ wraps_ofInt _
  sub := tp2ccWrapSub_eq h64 a b ▸ wraps_ofInt _
  mul := tp2ccWrapMul_eq h64 a b ▸ wraps_ofInt _
  addChecked := checkedResult_checks (tp2ccWrapAdd_eq h64 a b)
  subChecked := checkedResult_checks (tp2ccWrapSub_eq h64 a b)
  mulChecked := checkedResult_checks (tp2ccWrapMul_eq h64 a b)
  divides hb hmin checkOverflow := by
    obtain ⟨q, hq, hqv⟩ := tp2ccIntDiv_val checkOverflow hb hmin
    obtain ⟨m, hm, hmv⟩ := tp2ccIntMod_val (a := a) hb
    refine ⟨q, m, ?_, ?_, ?_⟩
    · rw [tp2ccIntDivSteps_eq, hq]
    · rw [tp2ccIntModSteps_eq, hm]
    · rw [hqv, hmv]
      exact divides_tdiv hb
  minimum := dividesMinimum
  zero hb := by
    refine ⟨fun checkOverflow => ?_, ?_⟩
    · rw [tp2ccIntDivSteps, if_pos hb]
    · rw [tp2ccIntModSteps, if_pos hb]

/-- The extreme values of a signed byte. -/
theorem carrierLaw_int8 : CarrierLaw (Word.minimum ⟨true, 8, IntType.eight_pos⟩)
    (.ofInt ⟨true, 8, IntType.eight_pos⟩ (-1)) :=
  carrierLaw (by decide) _ _

end
end Tp2cc.Rt
