import Tp2cc.Analysis.Ordinal

set_option autoImplicit false

namespace Tp2cc
open Machine Rt

inductive StepIntrinsic where
  | succ | pred | inc | dec
  deriving DecidableEq, Repr

namespace StepIntrinsic

def subtracts : StepIntrinsic → Bool
  | .pred | .dec => true
  | .succ | .inc => false

def apply (kind : StepIntrinsic) (value delta : Int) : Int :=
  if kind.subtracts then value-delta else value+delta

end StepIntrinsic

structure BoundOrdinalStep where
  kind : StepIntrinsic
  carrier : IntegerPrimitive
  checkOverflow : Bool
  checkRange : Bool
  deriving DecidableEq, Repr

section
variable (target : TargetInfo)

/-- The ordinal steps of `bind_intrinsic_operation`. `delta` is the primitive of the second
argument of Inc and Dec. -/
def bindOrdinalStep (kind : StepIntrinsic) (qCheck rCheck : Bool) (t : OrdinalType)
    (delta : Option IntegerPrimitive) : Option BoundOrdinalStep := do
  if delta.any (fun d => d.family ≠ .integer ∨ d.kind = .currency) then none
  let storageCarrier ← t.storagePrimitive
  let operationCarrier ←
    if qCheck ∨ rCheck then do
      let deltaCarrier ← delta <|> ordinalIntegerPrimitive .signed 8
      integerArithmeticPrimitive target (if kind.subtracts then .sub else .add) storageCarrier
        deltaCarrier
    else some storageCarrier
  return ⟨kind, operationCarrier, qCheck, rCheck⟩

/-- The amount of a step: the literal 1, or the second argument of Inc and Dec. Binding sees a
subrange as the primitive of `canonicalize_for_arithmetic`, which need not hold its values. -/
inductive StepDelta where
  | one
  | given (p : IntegerPrimitive) (isInteger : p.family = .integer)
      (notCurrency : p.kind ≠ .currency) (value : Word (p.intType target))
  | subrange (low high : Int) (int64 : cxxInt64.Holds low ∧ cxxInt64.Holds high)
      (p : IntegerPrimitive) (canonical : subrangeIntegerType low high = some p)
      (value : Int) (bounded : low ≤ value ∧ value ≤ high)

namespace StepDelta
variable {target}

def primitive : StepDelta target → Option IntegerPrimitive
  | .one => none
  | .given p _ _ _ => some p
  | .subrange _ _ _ p _ _ _ => some p

def value : StepDelta target → Int
  | .one => 1
  | .given _ _ _ value => value.val
  | .subrange _ _ _ _ _ value _ => value

def carrier : StepDelta target → IntegerPrimitive
  | .one => ⟨.shortInt, PrimitiveKind.shortInt_integer⟩
  | .given p _ _ _ => p
  | .subrange _ _ _ p _ _ _ => p

theorem value_int64 (delta : StepDelta target) (h : delta.carrier.intKind = .signed) :
    cxxInt64.Holds delta.value := by
  cases delta with
  | one =>
    rw [value, holds_int64]
    omega
  | given p hi hc value =>
    have hv := (IntegerPrimitive.holds_of_signed (p := p) h).mp value.mem
    change cxxInt64.Holds value.val
    rw [holds_int64]
    rcases p.bits_cases target with hb | hb | hb | hb <;> rw [hb] at hv <;> omega
  | subrange low high int64 p hp value hv =>
    exact ⟨int64.1.1.trans hv.1, hv.2.trans int64.2.2⟩

end StepDelta

/-- `bound_ordinal_step_to_cxx`: the value in the operand's C++ type, the amount and both
bounds cast to the carrier. -/
def boundOrdinalStepToCxx {r : IntType} (bound : BoundOrdinalStep) (value : Word r)
    (delta low high : Int) : Except RuntimeError (Word r) :=
  let C := bound.carrier.intType target
  if bound.kind.subtracts then
    tp2ccOrdinalSub bound.checkOverflow bound.checkRange value (.ofInt C delta) (.ofInt C low)
      (.ofInt C high)
  else
    tp2ccOrdinalAdd bound.checkOverflow bound.checkRange value (.ofInt C delta) (.ofInt C low)
      (.ofInt C high)

end

/-- What the step owes: under range checks the number itself or an error, under overflow
checks alone an error for a number outside the carrier, and else the number reduced to the
storage of the type, which is a byte for a Boolean. `none` stands for any error. -/
def ordinalStepSpec (storage carrier : IntType) (checkOverflow checkRange : Bool)
    (low high number : Int) : Option Int :=
  if checkRange = true then if low ≤ number ∧ number ≤ high then some number else none
  else if checkOverflow = true ∧ ¬ carrier.Holds number then none
  else some (storage.reduce number)

section
variable {r C : IntType}

theorem ordinalResult_val (checkRange : Bool) (low high stepped : Word C) :
    (ordinalResult r checkRange low high stepped).toOption.map Word.val =
      if checkRange = true ∧ (stepped.val < low.val ∨ high.val < stepped.val) then none
      else some (r.reduce stepped.val) := by
  unfold ordinalResult
  split_ifs
  · rfl
  · simp [Except.toOption, tp2ccOrdinalFromCarrier_val]

theorem stepped_val (checkOverflow : Bool) (exact : Int) {wrapped : Word C}
    (hw : wrapped = .ofInt C exact) (f : Word C → Except RuntimeError (Word r)) :
    (do let stepped ← if checkOverflow = true then checkedResult C exact else .ok wrapped
        f stepped) =
      if checkOverflow = true ∧ C.signed = true ∧ ¬ C.Holds exact then .error .intOverflow
      else f (.ofInt C exact) := by
  subst hw
  by_cases h : C.Holds exact
  · have hx := Word.ofInt_of_holds h
    cases checkOverflow <;> simp [checkedResult_of_holds h, h, hx, bind, Except.bind]
  · cases checkOverflow <;> cases hs : C.signed <;>
      simp [checkedResult, h, hs, bind, Except.bind]

end

theorem StepIntrinsic.reduce_apply (kind : StepIntrinsic) (C : IntType) (v d : Int) :
    C.reduce (kind.apply (C.reduce v) (C.reduce d)) = C.reduce (kind.apply v d) := by
  cases h : kind.subtracts <;> simp [apply, h, IntType.reduce_add, IntType.reduce_sub]

section
variable {target : TargetInfo} {r : IntType}

/-- The emitted step computes the number in the carrier, throws where a checked signed carrier
cannot hold it, and hands the rest to the range test. -/
theorem boundOrdinalStepToCxx_eq (bound : BoundOrdinalStep) (value : Word r)
    (delta low high : Int) :
    let C := bound.carrier.intType target
    boundOrdinalStepToCxx target bound value delta low high =
      if bound.checkOverflow = true ∧ C.signed = true ∧
          ¬ C.Holds (bound.kind.apply (C.reduce value.val) (C.reduce delta)) then
        .error .intOverflow
      else ordinalResult r bound.checkRange (.ofInt C low) (.ofInt C high)
        (.ofInt C (bound.kind.apply value.val delta)) := by
  intro C
  have h64 : C.bits ≤ 64 := bound.carrier.intType_bits_le target
  have hw : Word.ofInt C (bound.kind.apply (C.reduce value.val) (C.reduce delta)) =
      Word.ofInt C (bound.kind.apply value.val delta) :=
    Word.ext (bound.kind.reduce_apply C value.val delta)
  rw [← hw]
  cases hk : bound.kind.subtracts with
  | true =>
    have ha (v d : Int) : bound.kind.apply v d = v-d := by simp [StepIntrinsic.apply, hk]
    simp only [boundOrdinalStepToCxx, hk, if_true, ha]
    exact stepped_val _ _ (tp2ccWrapSub_eq h64 _ _) _
  | false =>
    have ha (v d : Int) : bound.kind.apply v d = v+d := by simp [StepIntrinsic.apply, hk]
    simp only [boundOrdinalStepToCxx, hk, ha]
    exact stepped_val _ _ (tp2ccWrapAdd_eq h64 _ _) _

theorem boundOrdinalStepToCxx_val (bound : BoundOrdinalStep) (value : Word r)
    (delta low high : Int) (hr : r.bits ≤ bound.carrier.bits target) :
    let C := bound.carrier.intType target
    let number := bound.kind.apply value.val delta
    (boundOrdinalStepToCxx target bound value delta low high).toOption.map Word.val =
      if bound.checkOverflow = true ∧ C.signed = true ∧
          ¬ C.Holds (bound.kind.apply (C.reduce value.val) (C.reduce delta)) then none
      else if bound.checkRange = true ∧
          (C.reduce number < C.reduce low ∨ C.reduce high < C.reduce number) then none
      else some (r.reduce number) := by
  intro C number
  have ht : r.reduce (C.reduce number) = r.reduce number := IntType.reduce_through hr number
  rw [boundOrdinalStepToCxx_eq, apply_ite Except.toOption, apply_ite (Option.map Word.val),
    ordinalResult_val, ← ht]
  rfl

end

def BothOutside (C : IntType) (kind : StepIntrinsic) (value delta : Int) : Prop :=
  ¬ C.Holds (kind.apply value delta) ∧ ¬ C.Holds (kind.apply (C.reduce value) (C.reduce delta))

/-- When the emitted step fails and succeeds as it owes. Under range checks it goes wrong in three
ways: the amount or the number is outside the carrier and wraps into the bounds, the bounds
themselves wrap and exclude everything, or they wrap and admit a wrapped number. -/
def StepExact (C : IntType) (kind : StepIntrinsic) (checkOverflow checkRange : Bool)
    (low high value delta : Int) : Prop :=
  let number := kind.apply value delta
  let wrapsInto (lo hi : Int) : Prop := lo ≤ C.reduce number ∧ C.reduce number ≤ hi
  if checkRange = true then
    if C.Holds low ∧ C.Holds high then
      if C.signed = true ∧ checkOverflow = true then
        C.Holds delta ∨ ¬ wrapsInto low high ∨ BothOutside C kind value delta
      else C.Holds number ∨ ¬ wrapsInto low high
    else if C.reduce high < C.reduce low then ¬ (low ≤ number ∧ number ≤ high)
    else (low ≤ number ∧ number ≤ high) ∨ ¬ wrapsInto (C.reduce low) (C.reduce high)
  else if checkOverflow = true then
    if C.signed = true then C.Holds value ∧ C.Holds delta ∨ BothOutside C kind value delta
    else C.Holds number
  else True

inductive StepCarrier (C : IntType) (low high delta : Int) : Prop
  | held (hl : C.Holds low) (hh : C.Holds high)
  | full (hs : C.signed = true) (hb : C.bits = 64) (hl : low = 0) (hh : high = 2^64-1)
      (hd : C.Holds delta)
  | negative (hs : C.signed = false) (hb : C.bits = 64) (hn : low < 0)
      (hl : cxxInt64.Holds low) (hh : cxxInt64.Holds high)

section
variable {C : IntType}

theorem eq_cxxInt64 (hs : C.signed = true) (hb : C.bits = 64) : C = cxxInt64 := by
  cases C; simp_all [cxxInt64]

theorem eq_cxxUInt64 (hs : C.signed = false) (hb : C.bits = 64) : C = cxxUInt64 := by
  cases C; simp_all [cxxUInt64]

theorem StepIntrinsic.apply_reduce_of_holds (kind : StepIntrinsic) {v d : Int} (hv : C.Holds v)
    (hd : C.Holds d) : kind.apply (C.reduce v) (C.reduce d) = kind.apply v d := by
  rw [IntType.reduce_of_holds hv, IntType.reduce_of_holds hd]

theorem StepIntrinsic.outside_or (kind : StepIntrinsic) {v d : Int} (h : C.Holds v ↔ ¬ C.Holds d) :
    ¬ C.Holds (kind.apply v d) ∨ ¬ C.Holds (kind.apply (C.reduce v) (C.reduce d)) := by
  by_contra hboth
  simp only [not_or, not_not] at hboth
  have hsame : kind.apply (C.reduce v) (C.reduce d) = kind.apply v d := by
    rw [← IntType.reduce_of_holds hboth.1, ← IntType.reduce_of_holds hboth.2, kind.reduce_apply]
  by_cases hv : C.Holds v
  · rw [IntType.reduce_of_holds hv] at hsame
    have hd : C.reduce d = d := by
      cases hk : kind.subtracts <;> simp [apply, hk] at hsame <;> omega
    exact h.mp hv (hd ▸ C.reduce_holds d)
  · have hd : C.Holds d := not_not.mp fun hd => hv (h.mpr hd)
    rw [IntType.reduce_of_holds hd] at hsame
    have hv' : C.reduce v = v := by
      cases hk : kind.subtracts <;> simp [apply, hk] at hsame <;> omega
    exact hv (hv' ▸ C.reduce_holds v)

theorem spec_eq_outcome_iff {R S : IntType} {r E₁ E₂ fails : Prop} {_ : Decidable r}
    {_ : Decidable E₁} {_ : Decidable E₂} {_ : Decidable fails} {low high number : Int}
    (hR : low ≤ number ∧ number ≤ high → R.Holds number) :
    ((if E₁ then none else if r ∧ E₂ then none else some (R.reduce number)) =
      (if r then if low ≤ number ∧ number ≤ high then some number else none
       else if fails then none else some (S.reduce number))) ↔
      (if r then (low ≤ number ∧ number ≤ high ↔ ¬ E₁ ∧ ¬ E₂) else (E₁ ↔ fails)) ∧
        (¬ r → ¬ fails → R.reduce number = S.reduce number) := by
  by_cases hr : r
  · by_cases hn : low ≤ number ∧ number ≤ high
    · have := IntType.reduce_of_holds (hR hn)
      by_cases h₁ : E₁ <;> by_cases h₂ : E₂ <;> simp [hr, hn, h₁, h₂, this]
    · by_cases h₁ : E₁ <;> by_cases h₂ : E₂ <;> simp [hr, hn, h₁, h₂]
  · by_cases h₁ : E₁ <;> by_cases h₂ : fails <;> simp [hr, h₁, h₂]

variable {kind : StepIntrinsic} {low high v d : Int}

theorem StepCarrier.one_outside (hin : low ≤ v ∧ v ≤ high) (hs : C.signed = true)
    (hc : StepCarrier C low high d) (hb : ¬ (C.Holds v ∧ C.Holds d)) : C.Holds v ↔ ¬ C.Holds d := by
  cases hc with
  | held hl hh =>
    have hv : C.Holds v := ⟨hl.1.trans hin.1, hin.2.trans hh.2⟩
    simpa [hv] using hb
  | full _ _ _ _ hd => simpa [hd] using hb
  | negative hu => rw [hs] at hu; contradiction

/-- The overflow test of a signed carrier answers for the number when the carrier holds both
operands, and else when both fail. -/
theorem overflowTest_iff (hs : C.signed = true) (hin : low ≤ v ∧ v ≤ high)
    (hc : StepCarrier C low high d) :
    (C.Holds (kind.apply (C.reduce v) (C.reduce d)) ↔ C.Holds (kind.apply v d)) ↔
      C.Holds v ∧ C.Holds d ∨ BothOutside C kind v d := by
  by_cases hb : C.Holds v ∧ C.Holds d
  · simp only [kind.apply_reduce_of_holds hb.1 hb.2, hb, and_self, true_or]
  · have hone := kind.outside_or (hc.one_outside hin hs hb)
    simp only [hb, false_or, BothOutside]
    tauto

theorem rangeTest_iff {n : Int} (hl : C.Holds low) (hh : C.Holds high) :
    (low ≤ n ∧ n ≤ high ↔ low ≤ C.reduce n ∧ C.reduce n ≤ high) ↔
      C.Holds n ∨ ¬ (low ≤ C.reduce n ∧ C.reduce n ≤ high) := by
  by_cases hn : C.Holds n
  · simp [IntType.reduce_of_holds hn, hn]
  · have hout : ¬ (low ≤ n ∧ n ≤ high) := fun h => hn ⟨hl.1.trans h.1, h.2.trans hh.2⟩
    simp [hn, hout]

theorem rangeTest_overflow_iff (hin : low ≤ v ∧ v ≤ high) (hl : C.Holds low) (hh : C.Holds high) :
    (low ≤ kind.apply v d ∧ kind.apply v d ≤ high ↔
      C.Holds (kind.apply (C.reduce v) (C.reduce d)) ∧
        low ≤ C.reduce (kind.apply v d) ∧ C.reduce (kind.apply v d) ≤ high) ↔
      C.Holds d ∨ ¬ (low ≤ C.reduce (kind.apply v d) ∧ C.reduce (kind.apply v d) ≤ high) ∨
        BothOutside C kind v d := by
  have hv : C.Holds v := ⟨hl.1.trans hin.1, hin.2.trans hh.2⟩
  have hheld : low ≤ kind.apply v d ∧ kind.apply v d ≤ high → C.Holds (kind.apply v d) :=
    fun h => ⟨hl.1.trans h.1, h.2.trans hh.2⟩
  by_cases hd : C.Holds d
  · rw [kind.apply_reduce_of_holds hv hd]
    by_cases hn : C.Holds (kind.apply v d)
    · simp [IntType.reduce_of_holds hn, hn, hd]
    · have hout : ¬ (low ≤ kind.apply v d ∧ kind.apply v d ≤ high) := fun h => hn (hheld h)
      simp [hn, hout, hd]
  · have hone := kind.outside_or (C := C) (v := v) (d := d) (by simp [hv, hd])
    rw [BothOutside]
    by_cases hn : C.Holds (kind.apply v d)
    · rw [IntType.reduce_of_holds hn]
      tauto
    · have hout : ¬ (low ≤ kind.apply v d ∧ kind.apply v d ≤ high) := fun h => hn (hheld h)
      tauto

theorem reduce_full_bounds : cxxInt64.reduce 0 = 0 ∧ cxxInt64.reduce (2^64-1) = -1 := by
  decide

theorem stepExact_iff (q r : Bool) (hin : low ≤ v ∧ v ≤ high) (hc : StepCarrier C low high d) :
    (if r = true then
      (low ≤ kind.apply v d ∧ kind.apply v d ≤ high ↔
        ¬ (q = true ∧ C.signed = true ∧ ¬ C.Holds (kind.apply (C.reduce v) (C.reduce d))) ∧
        ¬ (C.reduce (kind.apply v d) < C.reduce low ∨
          C.reduce high < C.reduce (kind.apply v d)))
      else ((q = true ∧ C.signed = true ∧ ¬ C.Holds (kind.apply (C.reduce v) (C.reduce d))) ↔
        q = true ∧ ¬ C.Holds (kind.apply v d))) ↔
      StepExact C kind q r low high v d := by
  unfold StepExact
  cases r with
  | false =>
    cases q with
    | false => simp
    | true =>
      cases hs : C.signed with
      | false => simp
      | true =>
        have := @overflowTest_iff C kind low high v d hs hin hc
        simp only [Bool.false_eq_true, if_false, if_true, true_and]
        tauto
  | true =>
    simp only [if_true, not_or, not_lt]
    cases hc with
    | held hl hh =>
      simp only [hl, hh, and_self, if_true, IntType.reduce_of_holds hl, IntType.reduce_of_holds hh]
      split_ifs with hsq
      · rw [← rangeTest_overflow_iff hin hl hh]
        simp [hsq]
      · rw [← rangeTest_iff hl hh]
        have : ¬ (q = true ∧ C.signed = true ∧
            ¬ C.Holds (kind.apply (C.reduce v) (C.reduce d))) := fun h => hsq ⟨h.2.1, h.1⟩
        simp [this]
    | full hs hb hl hh hd =>
      obtain rfl := eq_cxxInt64 hs hb
      obtain ⟨h₁, h₂⟩ := reduce_full_bounds
      subst hl hh
      have hnot : ¬ cxxInt64.Holds (2^64-1) := by decide
      simp only [hnot, and_false, if_false, h₁, h₂, show (-1 : Int) < 0 from by decide, if_true]
      have : ¬ (0 ≤ cxxInt64.reduce (kind.apply v d) ∧
          cxxInt64.reduce (kind.apply v d) ≤ -1) := by omega
      tauto
    | negative hs hb hn hl hh =>
      obtain rfl := eq_cxxUInt64 hs hb
      rw [holds_int64] at hl hh
      have hnot : ¬ cxxUInt64.Holds low := by rw [holds_uint64]; omega
      have h₁ := reduce_uint64_of_neg (v := low) (by omega) hn
      simp only [hnot, false_and, if_false, hs, Bool.false_eq_true, and_false, not_false_eq_true,
        true_and, h₁]
      by_cases h0 : 0 ≤ high
      · have h₂ := reduce_uint64_of_nonneg h0 (by omega)
        rw [h₂, if_pos (by omega)]
        have : ¬ (low+2^64 ≤ cxxUInt64.reduce (kind.apply v d) ∧
          cxxUInt64.reduce (kind.apply v d) ≤ high) := by omega
        tauto
      · have h₂ := reduce_uint64_of_neg (v := high) (by omega) (by omega)
        rw [h₂, if_neg (by omega)]
        have : low ≤ kind.apply v d ∧ kind.apply v d ≤ high →
            low+2^64 ≤ cxxUInt64.reduce (kind.apply v d) ∧
              cxxUInt64.reduce (kind.apply v d) ≤ high+2^64 := by
          intro h
          rw [reduce_uint64_of_neg (by omega) (by omega)]
          omega
        tauto

end

section
variable {target : TargetInfo}

def StepIntrinsic.binOp (kind : StepIntrinsic) : BinOp := if kind.subtracts then .sub else .add

theorem bindOrdinalStep_bound (kind : StepIntrinsic) (q r : Bool) (v : OrdinalValue target)
    (delta : StepDelta target) :
    ∃ c, bindOrdinalStep target kind q r v.type delta.primitive = some ⟨kind, c, q, r⟩ ∧
      (if q = true ∨ r = true then
        integerArithmeticPrimitive target kind.binOp v.storage delta.carrier = some c
      else c = v.storage) := by
  have hg : ¬ (delta.primitive.any fun d => d.family ≠ .integer ∨ d.kind = .currency) = true := by
    cases delta with
    | one => simp [StepDelta.primitive]
    | given p hi hc value => simp [StepDelta.primitive, hi, hc]
    | subrange low high hi p hp value hv =>
      obtain ⟨hfamily, hkind⟩ := subrangeIntegerType_family hp
      simp [StepDelta.primitive, hfamily, hkind]
  have hd : (delta.primitive <|> ordinalIntegerPrimitive .signed 8) = some delta.carrier := by
    cases delta <;> rfl
  by_cases hqr : q = true ∨ r = true
  · obtain ⟨c, hc⟩ := integerArithmeticPrimitive_isSome kind.binOp v.storage
      delta.carrier
    refine ⟨c, ?_, by rw [if_pos hqr]; exact hc⟩
    simp only [bindOrdinalStep, if_neg hg, v.stored.selected, if_pos hqr, hd]
    simp only [StepIntrinsic.binOp] at hc
    simp [hc]
  · refine ⟨v.storage, ?_, by rw [if_neg hqr]⟩
    simp only [bindOrdinalStep, if_neg hg, v.stored.selected, if_neg hqr]
    simp

theorem wide_bounds {p : IntegerPrimitive} {v : Int} (h : (p.intType target).Holds v) :
    -(2^63) ≤ v ∧ v ≤ 2^64-1 := by
  rcases p.intKind_cases with hk | hk
  · rw [IntegerPrimitive.holds_of_signed hk] at h
    rcases p.bits_cases target with hb | hb | hb | hb <;> rw [hb] at h <;> omega
  · rw [IntegerPrimitive.holds_of_unsigned hk] at h
    rcases p.bits_cases target with hb | hb | hb | hb <;> rw [hb] at h <;> omega

theorem stepCarrier_of_arithmetic {op : BinOp} {v : OrdinalValue target}
    {delta : StepDelta target} {c : IntegerPrimitive}
    (h : integerArithmeticPrimitive target op v.storage delta.carrier = some c) :
    StepCarrier (c.intType target) (v.type.low target) (v.type.high target) delta.value := by
  by_cases hx : UnsignedMeetsSigned target v.storage delta.carrier
  · obtain ⟨hb, ⟨hk, hsb, hdb⟩ | ⟨hk, hlt⟩⟩ := integerArithmeticPrimitive_of_meets h hx
    · have hs : (c.intType target).signed = true := IntegerPrimitive.signed_iff.mpr hk
      rcases hx with ⟨k₁, b₁, k₂⟩ | ⟨k₁, b₁, k₂⟩
      · have he := eq_cxxInt64 hs hb
        have hd : (c.intType target).Holds delta.value := by
          rw [he]
          exact delta.value_int64 k₂
        rcases v.type.bounds_cases with ⟨hl, hh⟩ | ⟨hl, hh⟩
        · exact .held (by rw [he]; exact hl) (by rw [he]; exact hh)
        · exact .full hs hb hl hh hd
      · have hcar := signed64_carries hk hb k₂
        exact .held (hcar.holds v.stored.low_held) (hcar.holds v.stored.high_held)
    · have hs : (c.intType target).signed = false := IntegerPrimitive.not_signed_iff.mpr hk
      by_cases hn : 0 ≤ v.type.low target
      · have hh := wide_bounds v.stored.high_held
        have ho := v.stored.ordered
        exact .held ((unsigned64_holds hk hb).mpr ⟨hn, by omega⟩)
          ((unsigned64_holds hk hb).mpr ⟨by omega, hh.2⟩)
      · rcases v.type.bounds_cases with ⟨hl, hh⟩ | ⟨hl, -⟩
        · exact .negative hs hb (by omega) hl hh
        · omega
  · obtain ⟨hl, -⟩ := integerArithmeticPrimitive_carries h hx
    exact .held (hl.holds v.stored.low_held) (hl.holds v.stored.high_held)

def StepsIn (target : TargetInfo) (kind : StepIntrinsic) (q r : Bool)
    (storage delta c : IntegerPrimitive) : Prop :=
  if q = true ∨ r = true then
    integerArithmeticPrimitive target kind.binOp storage delta = some c
  else c = storage

/-- What is stored of a number is the number in the storage, except for a Boolean, of which only
the lowest bit of the byte is stored. -/
theorem OrdinalType.Stored.reduce_iff {t : OrdinalType} {s : IntegerPrimitive}
    (h : t.Stored target s) (number : Int) :
    (t.cxxType target s).reduce number = (s.intType target).reduce number ↔
      (t.isBoolean = true → number % 2^8 ≤ 1) := by
  unfold OrdinalType.cxxType
  split_ifs with hb
  · obtain ⟨hu, h8⟩ := @boolean_storage target t s hb h.selected
    have hs : (s.intType target).signed = false := IntegerPrimitive.not_signed_iff.mpr hu
    rw [imp_iff_right hb]
    simp only [IntType.reduce, hs, cxxBool, IntegerPrimitive.intType_bits, h8, Bool.false_eq_true,
      if_false]
    omega
  · simp [hb]

def qWordMaximum : OrdinalValue ⟨64, TargetInfo.sixtyFour⟩ where
  type := .integer ⟨.qWord, PrimitiveKind.qWord_integer⟩ rfl (by decide)
  storage := ⟨.qWord, PrimitiveKind.qWord_integer⟩
  stored := ⟨rfl, by decide, by decide, by decide⟩
  word := .maximum _
  bounded := by decide

end
end Tp2cc
