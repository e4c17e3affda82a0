import Tp2cc.Analysis.StepFold

/-! The carrier of a step, what an ordinal type promises of its domain, and the bits of an
argument in the carrier. -/
set_option autoImplicit false

namespace Tp2cc
open Machine Rt

section
variable {target : TargetInfo} {bound : BoundOrdinalStep}

/-- How a carrier stands to the storage: signed with room for every value of it and at least
`int`, or unsigned of 64 bits as the storage is. -/
def CarriesStorage (target : TargetInfo) (storage c : IntegerPrimitive) : Prop :=
  (c.intKind = .signed ∧ 32 ≤ c.bits target ∧ storage.bits target ≤ c.bits target ∧
    (storage.intKind = .unsigned → storage.bits target < c.bits target)) ∨
  (c.intKind = .unsigned ∧ c.bits target = 64 ∧ storage.intKind = .unsigned ∧
    storage.bits target = 64)

theorem carriesStorage_of_arithmetic {op : BinOp} {storage c : IntegerPrimitive}
    (h : integerArithmeticPrimitive target op storage ⟨.shortInt, PrimitiveKind.shortInt_integer⟩ =
      some c) : CarriesStorage target storage c := by
  have hs : (⟨.shortInt, PrimitiveKind.shortInt_integer⟩ : IntegerPrimitive).intKind = .signed :=
    rfl
  have h8 : (⟨.shortInt, PrimitiveKind.shortInt_integer⟩ : IntegerPrimitive).bits target = 8 := rfl
  have hp := pointerBits_cases target
  have hb := storage.bits_cases target
  have hk := storage.intKind_cases
  simp only [integerArithmeticPrimitive, defaultIntegerPrimitive, hs, h8] at h
  split_ifs at h with h₁ h₂ h₃ h₄
  · obtain ⟨hc, hbits, -⟩ := ordinalIntegerPrimitive_spec h target
    refine .inl ⟨hc, by omega, by omega, fun hu => ?_⟩
    rw [hu] at h₁
    simp at h₁
  · obtain ⟨hc, hbits, -⟩ := ordinalIntegerPrimitive_spec h target
    refine .inr ⟨hc, hbits, ?_⟩
    simpa using h₂
  · obtain ⟨hc, hbits, -⟩ := ordinalIntegerPrimitive_spec h target
    refine .inl ⟨hc, by omega, by omega, fun hu => ?_⟩
    rw [hu] at h₂
    simp at h₂
    omega
  · obtain ⟨hc, hbits, -⟩ := ordinalIntegerPrimitive_spec h target
    refine .inl ⟨hc, by omega, ?_, fun hu => ?_⟩
    · cases hk with
      | inl hu =>
        rw [hu] at h₁
        simp at h₁
        omega
      | inr hu =>
        rw [hu] at h₂ h₃
        simp at h₂ h₃
        omega
    · rw [hu] at h₂ h₃
      simp at h₂ h₃
      omega
  · simp at h₄

structure StepBound (target : TargetInfo) (kind : StepIntrinsic) (q r : Bool)
    (storage : IntegerPrimitive) (bound : BoundOrdinalStep) : Prop where
  kind : bound.kind = kind
  checkOverflow : bound.checkOverflow = q
  checkRange : bound.checkRange = r
  carrier : if q = true ∨ r = true then CarriesStorage target storage bound.carrier
    else bound.carrier = storage

theorem bindStep_bound (kind : StepIntrinsic) (q r : Bool) (a : StepArgument target) :
    ∃ bound, bindStep target kind q r a.type = some bound ∧
      StepBound target kind q r a.storage bound := by
  have h8 : ordinalIntegerPrimitive .signed 8 = some ⟨.shortInt, PrimitiveKind.shortInt_integer⟩ :=
    rfl
  by_cases hqr : q = true ∨ r = true
  · obtain ⟨c, hc⟩ := @integerArithmeticPrimitive_isSome target kind.binOp a.storage
      ⟨.shortInt, PrimitiveKind.shortInt_integer⟩
    refine ⟨⟨kind, c, q, r⟩, ?_, rfl, rfl, rfl, ?_⟩
    · simp only [StepIntrinsic.binOp] at hc
      simp only [bindStep, a.selected, if_pos hqr, h8, Option.bind_eq_bind, Option.bind_some, hc]
      rfl
    · rw [if_pos hqr]
      exact carriesStorage_of_arithmetic hc
  · refine ⟨⟨kind, a.storage, q, r⟩, ?_, rfl, rfl, rfl, by rw [if_neg hqr]⟩
    simp only [bindStep, a.selected, if_neg hqr, Option.bind_eq_bind, Option.bind_some]
    rfl

theorem StepBound.bits_le {kind : StepIntrinsic} {q r : Bool} {storage : IntegerPrimitive}
    (h : StepBound target kind q r storage bound) :
    storage.bits target ≤ bound.carrier.bits target := by
  have hc := h.carrier
  split_ifs at hc with hqr
  · rcases hc with ⟨-, -, hb, -⟩ | ⟨-, hb, -, hs⟩ <;> omega
  · rw [hc]

/-- A resolved type: its domain starts at its low bound, and storage and C++ type hold it. The
domain ends at the high bound, except where that is a sized Boolean's or beyond `int64_t`. -/
structure Resolved (a : StepArgument target) (d : Int × Int) : Prop where
  low : d.1 = a.type.low target
  ordered : d.1 ≤ d.2
  storage : (a.storage.intType target).Holds d.1 ∧ (a.storage.intType target).Holds d.2
  cxx : (a.type.cxxType target a.storage).Holds d.1 ∧ (a.type.cxxType target a.storage).Holds d.2
  high : (∃ p h, a.type = .sizedBoolean p h) ∨ d.2 = a.type.high target ∨
    (a.storage.intKind = .unsigned ∧ a.storage.bits target = 64 ∧ d.2 = 2^63-1 ∧
      a.type.high target = 2^64-1)

theorem resolved_ordinal {a : StepArgument target} {t : OrdinalType} (ht : a.type = .ordinal t)
    {d : Int × Int} (hd : a.type.domain target = some d) : Resolved a d := by
  obtain ⟨type, storage, selected, info, word, same, bits⟩ := a
  cases ht
  obtain ⟨s, hs⟩ := @OrdinalType.exists_stored target t
  have hst : s = storage := by
    have := hs.selected
    rw [show t.storagePrimitive = some storage from selected] at this
    exact (Option.some.inj this).symm
  subst hst
  have hown (h : d = (t.low target, t.high target)) :
      Resolved ⟨.ordinal t, s, selected, info, word, same, bits⟩ d := by
    subst h
    exact ⟨rfl, hs.ordered, ⟨hs.low_held, hs.high_held⟩,
      ⟨hs.cxxType_holds ⟨le_refl _, hs.ordered⟩, hs.cxxType_holds ⟨hs.ordered, le_refl _⟩⟩,
      .inr (.inl rfl)⟩
  cases t with
  | integer p hi hc =>
    cases Option.some.inj hs.selected
    cases Option.some.inj hd
    obtain ⟨h₁, h₂, h₃⟩ := @integerDomain_holds target s
    refine ⟨integerDomain_low s, h₁, ⟨h₂, h₃⟩, ⟨h₂, h₃⟩, .inr ?_⟩
    exact integerDomain_high s
  | char => exact hown (Option.some.inj hd).symm
  | boolean => exact hown (Option.some.inj hd).symm
  | enum e => exact hown (Option.some.inj hd).symm
  | subrange base low high ho hc => exact hown (Option.some.inj hd).symm

theorem boolKind_unsigned (k : PrimitiveKind) (h : k.info.family = .bool)
    (hn : k.info.intKind ≠ .none) : k.info.intKind = .unsigned := by
  cases k <;> revert h hn <;> decide

theorem sizedBoolean_unsigned {p : IntegerPrimitive} (h : p.family = .bool) :
    p.intKind = .unsigned := boolKind_unsigned p.kind h p.isInteger

theorem wideChar_holds (v : Int) :
    (IntegerPrimitive.intType ⟨.wideChar, by decide⟩ target).Holds v ↔ 0 ≤ v ∧ v ≤ 65535 := by
  rw [IntegerPrimitive.holds_of_unsigned rfl]
  have hb : IntegerPrimitive.bits ⟨.wideChar, by decide⟩ target = 16 := rfl
  rw [hb]
  omega

theorem resolved {a : StepArgument target} {d : Int × Int}
    (hd : a.type.domain target = some d) : Resolved a d := by
  cases ht : a.type with
  | ordinal t => exact resolved_ordinal ht hd
  | wideChar =>
    obtain ⟨type, storage, selected, info, word, same, bits⟩ := a
    cases ht
    cases Option.some.inj selected
    cases Option.some.inj hd
    have h (v : Int) := @wideChar_holds target v
    exact ⟨rfl, by decide, ⟨(h 0).mpr (by decide), (h 65535).mpr (by decide)⟩,
      ⟨(h 0).mpr (by decide), (h 65535).mpr (by decide)⟩, .inr (.inl rfl)⟩
  | sizedBoolean p hp =>
    obtain ⟨type, storage, selected, info, word, same, bits⟩ := a
    cases ht
    cases Option.some.inj selected
    cases Option.some.inj hd
    obtain ⟨h₁, h₂, h₃⟩ := @integerDomain_holds target p
    refine ⟨?_, h₁, ⟨h₂, h₃⟩, ⟨h₂, h₃⟩, .inl ⟨p, hp, rfl⟩⟩
    simp [integerDomain, sizedBoolean_unsigned hp, StepType.low]
  | wideCharSubrange low high ho hc =>
    obtain ⟨type, storage, selected, info, word, same, bits⟩ := a
    cases ht
    cases Option.some.inj hd
    have h (v : Int) := @wideChar_holds target v
    have h64 : cxxInt64.Holds low ∧ cxxInt64.Holds high := by
      rw [holds_int64, holds_int64]
      omega
    exact ⟨rfl, ho, ordinalIntegerPrimitiveForDomain_holds selected ho h64.1 h64.2,
      ⟨(h low).mpr (by omega), (h high).mpr (by omega)⟩, .inr (.inl rfl)⟩
  | symbolicSubrange lowType highType low high =>
    rw [ht] at hd
    contradiction

/-! The bits of an argument against its number. -/

theorem cxxType_of_negative {a : StepArgument target} (h : a.info.denote < 0) :
    a.type.cxxType target a.storage = a.storage.intType target ∧ a.storage.intKind = .signed := by
  have hword := a.word.mem
  rw [a.same] at hword
  have hnot {t : IntType} (ht : t.signed = false) (hv : t.Holds a.info.denote) : False := by
    rw [IntType.holds_unsigned ht] at hv
    omega
  have hcxx : a.type.cxxType target a.storage = a.storage.intType target := by
    cases ht : a.type with
    | ordinal t =>
      rw [ht] at hword
      simp only [StepType.cxxType, OrdinalType.cxxType] at hword ⊢
      split_ifs at hword ⊢ with hb
      · exact (hnot rfl hword).elim
      · rfl
    | wideCharSubrange low high ho hc =>
      rw [ht] at hword
      exact (hnot rfl hword).elim
    | _ => rfl
  refine ⟨hcxx, ?_⟩
  rw [hcxx] at hword
  cases a.storage.intKind_cases with
  | inl hs => exact hs
  | inr hu => exact (hnot (IntegerPrimitive.not_signed_iff.mpr hu) hword).elim

theorem bits_cases {a : StepArgument target} {c : IntegerPrimitive}
    (hw : a.storage.bits target ≤ c.bits target) :
    a.info.bits.val % 2^c.bits target = a.info.denote % 2^c.bits target ∨
      (a.info.denote < 0 ∧ a.info.bits.val = a.info.denote+2^a.storage.bits target ∧
        a.storage.bits target < c.bits target) := by
  by_cases h0 : 0 ≤ a.info.denote
  · rw [a.bits.1 h0]
    exact .inl rfl
  · rcases a.bits.2 (by omega) with h | h
    · left
      obtain ⟨m, hm⟩ : (2 : Int)^c.bits target ∣ 2^64 := pow_dvd_pow 2 (c.bits_le target)
      rw [h, hm, Int.add_mul_emod_self_left]
    · rcases hw.lt_or_eq with hlt | heq
      · exact .inr ⟨by omega, h, hlt⟩
      · left
        rw [h, heq, Int.add_emod_right]

theorem storage_emod (a : StepArgument target) :
    a.info.bits.val % 2^a.storage.bits target = a.info.denote % 2^a.storage.bits target := by
  rcases bits_cases (le_refl (a.storage.bits target)) with h | ⟨-, -, h⟩
  · exact h
  · omega

theorem storage_result (a : StepArgument target)
    (hw : a.storage.bits target ≤ bound.carrier.bits target) :
    (a.storage.intType target).reduce (bound.kind.apply a.info.bits.val 1) =
      (a.storage.intType target).reduce (steppedIn target bound a.info.denote) := by
  rw [steppedIn, IntType.reduce_through hw]
  exact IntType.reduce_congr (bound.kind.apply_emod (storage_emod a))

theorem steppedIn_congr {v w : Int}
    (h : v % 2^bound.carrier.bits target = w % 2^bound.carrier.bits target) :
    steppedIn target bound v = steppedIn target bound w :=
  IntType.reduce_congr (bound.kind.apply_emod h)

theorem pastCarrier_congr {v w : Int}
    (h : v % 2^bound.carrier.bits target = w % 2^bound.carrier.bits target) :
    PastCarrier bound target v ↔ PastCarrier bound target w := by
  have hr : (bound.carrier.intType target).reduce v = (bound.carrier.intType target).reduce w :=
    IntType.reduce_congr h
  rw [PastCarrier, hr, PastCarrier]

theorem CarriesStorage.holds {storage c : IntegerPrimitive} (h : CarriesStorage target storage c)
    {v : Int} (hv : (storage.intType target).Holds v) : (c.intType target).Holds v := by
  rcases h with ⟨hc, -, hb, hlt⟩ | ⟨hc, hcb, hs, hsb⟩
  · cases storage.intKind_cases with
    | inl hs => exact (carries_of_same (hs.trans hc.symm) hb).holds hv
    | inr hu => exact (carries_of_unsigned hu hc (hlt hu)).holds hv
  · exact (carries_of_same (hs.trans hc.symm) (by omega)).holds hv

theorem holds_around {storage c : IntegerPrimitive} (hc : c.intKind = .signed)
    (hlt : storage.bits target < c.bits target) {v : Int}
    (hv : -(2^storage.bits target)-1 ≤ v ∧ v ≤ 2^storage.bits target+1) :
    (c.intType target).Holds v := by
  have hsb := storage.bits_cases target
  have hcb := c.bits_cases target
  have hle : (2 : Int)^(storage.bits target+1) ≤ 2^(c.bits target-1) :=
    IntType.two_pow_mono (by omega)
  rw [pow_succ] at hle
  have hp : (2 : Int)^2 ≤ 2^storage.bits target := IntType.two_pow_mono (by omega)
  rw [IntegerPrimitive.holds_of_signed hc]
  omega

theorem holds_apply {storage c : IntegerPrimitive} (hc : c.intKind = .signed)
    (hlt : storage.bits target < c.bits target) (kind : StepIntrinsic) {v : Int}
    (hv : -(2^storage.bits target) ≤ v ∧ v ≤ 2^storage.bits target) :
    (c.intType target).Holds (kind.apply v 1) := by
  refine holds_around hc hlt ?_
  unfold StepIntrinsic.apply
  split_ifs <;> omega

theorem not_pastCarrier {storage : IntegerPrimitive} (hc : bound.carrier.intKind = .signed)
    (hlt : storage.bits target < bound.carrier.bits target) {v : Int}
    (hv : -(2^storage.bits target) ≤ v ∧ v ≤ 2^storage.bits target) :
    ¬ PastCarrier bound target v := by
  rintro ⟨-, -, hn⟩
  rw [IntType.reduce_of_holds (holds_around hc hlt (by omega))] at hn
  exact hn (holds_apply hc hlt bound.kind hv)

theorem not_pastCarrier_of_unsigned (hc : bound.carrier.intKind = .unsigned) (v : Int) :
    ¬ PastCarrier bound target v := by
  rintro ⟨-, hs, -⟩
  rw [hc] at hs
  contradiction

theorem storage_bounds {p : IntegerPrimitive} {v : Int} (h : (p.intType target).Holds v) :
    -(2^p.bits target) ≤ v ∧ v ≤ 2^p.bits target := by
  have hs := (p.intType target).two_pow_split
  rw [IntegerPrimitive.intType_bits] at hs
  have hp := IntType.two_pow_pos (p.bits target-1)
  cases p.intKind_cases with
  | inl hk => rw [IntegerPrimitive.holds_of_signed hk] at h; omega
  | inr hk => rw [IntegerPrimitive.holds_of_unsigned hk] at h; omega

end
end Tp2cc
