import Tp2cc.Analysis.StepFold
import Tp2cc.Machine.Narrowing

set_option autoImplicit false

namespace Tp2cc
open Machine Rt

section
variable {ι : Type} (target : TargetInfo) (env : IdentEnv ι)

abbrev CastType : Type := {p : IntegerPrimitive // p.Plain}

def castChain (casts : List CastType) (e : ConstExpr ι) : ConstExpr ι :=
  casts.foldr (fun p e => .cast p.1 p.2 e) e

def castTypes (casts : List CastType) : List IntType := casts.map (·.1.intType target)

def ConstIntExprInfo.keptBits (info : ConstIntExprInfo) : Nat :=
  if info.bits.val = lowBits info.denote 64 then 64
  else (info.primitive.map (·.bits target)).getD 64

/-- The expression folds to the number in its value and its bits, and as an operand it is the
number. -/
structure FoldsTo (e : ConstExpr ι) (v : Int) : Prop where
  folded : ∃ info, evalConstIntExpr target env e = .value info ∧ info.denote = v ∧
    info.value.val = cxxInt64.reduce v ∧ info.bits.val = cxxUInt64.reduce v
  left : ∀ op ∈ [ConstBinOp.add, .sub, .mul, .intDiv, .mod], ∀ (r : ConstExpr ι)
    (q : Bool) (p : IntegerPrimitive) (c : Constant), p.Plain → deduceType target env r = some p →
    evalConstIntExpr target env r = .value c.info →
    evalConstIntExpr target env (.binary op e r q) = foldExact (op.exact v c.value)
  right : ∀ op ∈ [ConstBinOp.add, .sub, .mul, .intDiv, .mod], ∀ (l : ConstExpr ι)
    (q : Bool) (p : IntegerPrimitive) (c : Constant), p.Plain → deduceType target env l = some p →
    evalConstIntExpr target env l = .value c.info →
    evalConstIntExpr target env (.binary op l e q) = foldExact (op.exact c.value v)

end

section
variable {ι : Type} {target : TargetInfo} {env : IdentEnv ι}

theorem ConstIntExprInfo.denote_bounds (info : ConstIntExprInfo) :
    -(2^63) ≤ info.denote ∧ info.denote < 2^64 := by
  have hv := int64_bounds info.value
  have hb := uint64_bounds info.bits
  unfold denote
  split_ifs <;> omega

theorem lowBits_64 (v : Int) : lowBits v 64 = cxxUInt64.reduce v := rfl

theorem ConstIntExprInfo.bits_kept {info : ConstIntExprInfo}
    (h : info.BitsOf 64 ∨ ∃ p, info.primitive = some p ∧ info.BitsOf (p.bits target)) :
    info.bits.val = lowBits info.denote (info.keptBits target) ∧ info.keptBits target ≤ 64 := by
  have hd := info.denote_bounds
  have hb := uint64_bounds info.bits
  unfold keptBits
  split_ifs with hfull
  · exact ⟨hfull, Nat.le_refl _⟩
  have hneg : info.denote < 0 ∧ info.bits.val ≠ info.denote+2^64 := by
    by_contra hcon
    refine hfull ?_
    rw [lowBits_64]
    by_cases hn : 0 ≤ info.denote
    · rw [reduce_uint64_of_nonneg hn (by omega)]
      rcases h with h | ⟨p, -, h⟩ <;> exact h.1 hn
    · rw [reduce_uint64_of_neg (by omega) (by omega)]
      omega
  rcases h with h | ⟨p, hp, h⟩
  · rcases h.2 hneg.1 with h | h <;> exact absurd h hneg.2
  · have hcut := (h.2 hneg.1).resolve_left hneg.2
    rw [hp, Option.map_some, Option.getD_some]
    refine ⟨?_, p.bits_le target⟩
    rw [lowBits, ← Int.add_emod_right, ← hcut, Int.emod_eq_of_lt hb.1 (by omega)]

theorem evalConstIntExpr_castChain {e : ConstExpr ι} {info : ConstIntExprInfo}
    (h : evalConstIntExpr target env e = .value info)
    (hkept : info.bits.val = lowBits info.denote (info.keptBits target)) (casts : List CastType) :
    ∃ result, evalConstIntExpr target env (castChain casts e) = .value result ∧
      result.bits.val =
        lowBits info.denote (narrowest (castTypes target casts) (info.keptBits target)) := by
  induction casts with
  | nil => exact ⟨info, h, hkept⟩
  | cons p casts ih =>
    obtain ⟨inner, hinner, hbits⟩ := ih
    refine ⟨evalConstIntCast target p.1 inner, ?_, ?_⟩
    · rw [castChain, List.foldr_cons, evalConstIntExpr]
      unfold castChain at hinner
      rw [hinner]
      rfl
    · rw [evalConstIntCast_bits, hbits, maskedInfo, lowBits_val]
      exact emod_two_pow_min _ _ _

section
variable {e : ConstExpr ι} {p : IntegerPrimitive} {b : Int}

theorem foldsTo_of_converted {plain : p.Plain} (hp : deduceType target env e = some p)
    (h : evalConstIntExpr target env e = .value (Constant.converted target p plain b).info) :
    FoldsTo target env e ((p.intType target).reduce b) where
  folded := ⟨_, h, (Constant.converted target p plain b).info_denote, rfl, rfl⟩
  left op hop r q p' c hplain hr hc := by
    obtain ⟨bound, _, hbind, hkind, -, -⟩ := bindConstBinary_bound op q plain hplain
      (some (Constant.converted target p plain b).info) (some c.info)
    have hexact := foldBinary_exact target hop (Constant.converted target p plain b) c
    rw [evalConstIntExpr, hp, hr, h, hc, Folded.value?, Folded.value?, hbind]
    rw [← hkind] at hexact
    exact hexact
  right op hop l q p' c hplain hl hc := by
    obtain ⟨bound, _, hbind, hkind, -, -⟩ := bindConstBinary_bound op q hplain plain
      (some c.info) (some (Constant.converted target p plain b).info)
    have hexact := foldBinary_exact target hop c (Constant.converted target p plain b)
    rw [evalConstIntExpr, hp, hl, h, hc, Folded.value?, Folded.value?, hbind]
    rw [← hkind] at hexact
    exact hexact

end

theorem reduce_representable (p : IntegerPrimitive) (v : Int) :
    -(2^63) ≤ (p.intType target).reduce v ∧ (p.intType target).reduce v < 2^64 := by
  have hheld := IntegerPrimitive.widest_holds ((p.intType target).reduce_holds v)
  unfold IntegerPrimitive.widest at hheld
  split_ifs at hheld
  · obtain ⟨h₁, h₂⟩ := (holds_int64 _).mp hheld
    omega
  · obtain ⟨h₁, h₂⟩ := (holds_uint64 _).mp hheld
    omega

/-- A chain of casts folds to its number exactly where the number is not negative and fits in the
narrowest type of the chain, or all of them have 64 bits. -/
theorem castChain_foldsTo_iff (henv : env.Recorded target) {e : ConstExpr ι}
    {info : ConstIntExprInfo} (he : evalConstIntExpr target env e = .value info) (p : CastType)
    (casts : List CastType) :
    FoldsTo target env (castChain (p :: casts) e)
        (reduceAll (castTypes target (p :: casts)) info.denote) ↔
      narrowest (castTypes target (p :: casts)) (info.keptBits target) = 64 ∨
        0 ≤ reduceAll (castTypes target (p :: casts)) info.denote ∧
        reduceAll (castTypes target (p :: casts)) info.denote <
          2^narrowest (castTypes target (p :: casts)) (info.keptBits target) := by
  obtain ⟨hkept, hle⟩ := ConstIntExprInfo.bits_kept
    ((evalConstIntExpr_bitsOf target henv e he).imp_right fun ⟨p, _, hp⟩ => ⟨p, hp⟩)
  obtain ⟨inner, hinner, hbits⟩ := evalConstIntExpr_castChain he hkept casts
  have hfold : evalConstIntExpr target env (castChain (p :: casts) e) =
      .value (maskedInfo target p.1 inner.bits.val) := by
    unfold castChain at hinner ⊢
    rw [List.foldr_cons, evalConstIntExpr, hinner, Folded.bind, evalConstIntCast_bits]
  have hall := reduceAll_emod (castTypes target (p :: casts)) (info.keptBits target) info.denote
  have hm := (narrowest_le (castTypes target (p :: casts)) (info.keptBits target)).trans hle
  have hw : narrowest (castTypes target (p :: casts)) (info.keptBits target) ≤ p.1.bits target :=
    Nat.min_le_left _ _
  -- the bits of the last cast are those of the number in the narrowest type
  have hlow : lowBits inner.bits.val (p.1.bits target) =
      reduceAll (castTypes target (p :: casts)) info.denote %
        2^narrowest (castTypes target (p :: casts)) (info.keptBits target) := by
    rw [hall, hbits]
    exact emod_two_pow_min _ _ _
  have hbounds : -(2^63) ≤ reduceAll (castTypes target (p :: casts)) info.denote ∧
      reduceAll (castTypes target (p :: casts)) info.denote < 2^64 := reduce_representable p.1 _
  have hsame : (p.1.intType target).reduce (reduceAll (castTypes target (p :: casts)) info.denote) =
      reduceAll (castTypes target (p :: casts)) info.denote := IntType.reduce_reduce _ _
  generalize reduceAll (castTypes target (p :: casts)) info.denote = v at hlow hbounds hsame ⊢
  generalize narrowest (castTypes target (p :: casts)) (info.keptBits target) = m at hlow hm hw ⊢
  rw [← emod_two_pow_eq_iff hm hbounds.1 hbounds.2, ← hlow]
  constructor
  · rintro ⟨⟨result, hresult, -, -, hfull⟩, -, -⟩
    rw [hfold] at hresult
    cases hresult
    exact (lowBits_val inner.bits.val).symm.trans hfull
  · intro h
    have hreduce : (p.1.intType target).reduce inner.bits.val = v := by
      rw [← hsame]
      refine IntType.reduce_congr ?_
      have hcut := emod_two_pow_of_le (p.1.bits_le target) v
      rw [← h] at hcut
      exact (Int.emod_emod_of_dvd _ (dvd_refl _)).symm.trans hcut
    have hfull : FullBits target p.1 inner.bits.val := by
      rw [← lowBits_eq_reduce_iff, hreduce]
      exact h
    rw [maskedInfo_eq hfull p.2] at hfold
    rw [← hreduce]
    exact foldsTo_of_converted (by rw [castChain, List.foldr_cons, deduceType]) hfold

def byteType : CastType := ⟨⟨.byte, PrimitiveKind.byte_integer⟩, by decide⟩
def shortIntType : CastType := ⟨⟨.shortInt, PrimitiveKind.shortInt_integer⟩, by decide⟩
def smallIntType : CastType := ⟨⟨.smallInt, PrimitiveKind.smallInt_integer⟩, by decide⟩

def minusOne : ConstExpr Empty := .unary .neg (.lit (.ofInt _ 1))

theorem castChain_foldsTo_byte :
    FoldsTo ⟨64, .inr rfl⟩ closedEnv (castChain [byteType, smallIntType] minusOne) 255 := by
  have he : evalConstIntExpr ⟨64, .inr rfl⟩ closedEnv minusOne =
      .value ⟨.ofInt _ (-1), .ofInt _ (-1), some .shortInt⟩ := by decide
  exact (castChain_foldsTo_iff (fun name => name.elim) he byteType [smallIntType]).mpr
    (.inr (by decide))

/-- `smallint(shortint(-1))` is -1 and folds to 255. -/
theorem castChain_widened :
    let target : TargetInfo := ⟨64, .inr rfl⟩
    let chain := castChain [smallIntType, shortIntType] minusOne
    reduceAll (castTypes target [smallIntType, shortIntType]) (-1) = -1 ∧
      (foldClosed target minusOne).value?.map ConstIntExprInfo.denote = some (-1) ∧
      (foldClosed target chain).value?.map ConstIntExprInfo.denote = some 255 ∧
      ¬ FoldsTo target closedEnv chain (-1) := by
  intro target chain
  have hfold : (foldClosed target chain).value?.map ConstIntExprInfo.denote = some 255 := by decide
  refine ⟨by decide, by decide, hfold, fun h => ?_⟩
  obtain ⟨info, hinfo, hdenote, -, -⟩ := h.folded
  rw [foldClosed, hinfo, Folded.value?, Option.map_some, hdenote] at hfold
  simp at hfold

end
end Tp2cc
