import Tp2cc.Analysis.StepCarrier

set_option autoImplicit false

namespace Tp2cc
open Machine Rt

section
variable {target : TargetInfo} {bound : BoundOrdinalStep}

/-! Steps under range checks. -/

section
variable {a : StepArgument target} {d : Int × Int}

theorem resolved_carrier (hc : CarriesStorage target a.storage bound.carrier) (hd : Resolved a d) :
    (bound.carrier.intType target).reduce d.1 = d.1 ∧
      ((∃ p h, a.type = .sizedBoolean p h) ∨
        (bound.carrier.intType target).reduce (a.type.high target) = a.type.high target ∧
          d.2 ≤ a.type.high target) := by
  refine ⟨IntType.reduce_of_holds (hc.holds hd.storage.1), ?_⟩
  rcases hd.high with h | h | ⟨hu, h64, h₁, h₂⟩
  · exact .inl h
  · exact .inr ⟨by rw [← h]; exact IntType.reduce_of_holds (hc.holds hd.storage.2), by omega⟩
  · refine .inr ⟨IntType.reduce_of_holds (hc.holds ?_), by omega⟩
    rw [h₂, IntegerPrimitive.holds_of_unsigned hu, h64]
    decide

theorem inside_result (hd : Resolved a d) {y : Int} (h : d.1 ≤ y ∧ y ≤ d.2) :
    (a.type.cxxType target a.storage).reduce y = (a.storage.intType target).reduce y := by
  have hs : (a.storage.intType target).Holds y :=
    ⟨hd.storage.1.1.trans h.1, h.2.trans hd.storage.2.2⟩
  have hx : (a.type.cxxType target a.storage).Holds y :=
    ⟨hd.cxx.1.1.trans h.1, h.2.trans hd.cxx.2.2⟩
  rw [IntType.reduce_of_holds hs, IntType.reduce_of_holds hx]

theorem signed_of_negative (hc : CarriesStorage target a.storage bound.carrier) (hd : Resolved a d)
    (hneg : a.info.denote < 0) :
    a.storage.intKind = .signed ∧ bound.carrier.intKind = .signed ∧ d.2 = a.type.high target ∧
      (∀ p h, a.type ≠ .sizedBoolean p h) := by
  obtain ⟨-, hs⟩ := cxxType_of_negative hneg
  have hsized (p : IntegerPrimitive) (hp : p.family = .bool) : a.type ≠ .sizedBoolean p hp := by
    intro ht
    have hsel := a.selected
    rw [ht] at hsel
    cases Option.some.inj hsel
    rw [sizedBoolean_unsigned hp] at hs
    contradiction
  refine ⟨hs, ?_, ?_, hsized⟩
  · rcases hc with ⟨hC, -⟩ | ⟨-, -, hu, -⟩
    · exact hC
    · rw [hs] at hu
      contradiction
  · rcases hd.high with ⟨p, hp, ht⟩ | h | ⟨hu, -⟩
    · exact absurd ht (hsized p hp)
    · exact h
    · rw [hs] at hu
      contradiction

theorem cut_agrees (hr : bound.checkRange = true) (hdom : a.type.domain target = some d)
    (hC : bound.carrier.intKind = .signed) (hsized : ∀ p h, a.type ≠ .sizedBoolean p h)
    (hbits : a.info.bits.val = a.info.denote+2^a.storage.bits target)
    (hlt : a.storage.bits target < bound.carrier.bits target) :
    StepAgrees target a bound ↔ (bound.kind.subtracts = true →
      a.info.denote = (a.storage.intType target).lo →
        a.type.high target < (a.storage.intType target).hi) := by
  constructor
  · intro h hsub hmin
    exact h.minimum hr (by rw [hdom]; rfl) hsub hlt hmin hbits
  · intro h
    refine ⟨fun _ _ hsub _ hmin _ => h hsub hmin, fun _ hu => ?_,
      fun _ p hp ht => absurd ht (hsized p hp), fun hf => ?_, fun hf => ?_⟩
    · rw [hC] at hu
      contradiction
    · rw [hr] at hf
      contradiction
    · rw [hr] at hf
      contradiction

theorem cut_range (hr : bound.checkRange = true)
    (hc : CarriesStorage target a.storage bound.carrier) (hdom : a.type.domain target = some d)
    (hneg : a.info.denote < 0) (hbits : a.info.bits.val = a.info.denote+2^a.storage.bits target)
    (hlt : a.storage.bits target < bound.carrier.bits target) :
    FoldMeetsCall bound a ↔ StepAgrees target a bound := by
  have hd := resolved hdom
  obtain ⟨hs, hC, hhigh, hsized⟩ := signed_of_negative hc hd hneg
  have hword := a.word.mem
  rw [a.same, (cxxType_of_negative hneg).1, IntegerPrimitive.holds_of_signed hs] at hword
  have hsplit := (a.storage.intType target).two_pow_split
  rw [IntegerPrimitive.intType_bits] at hsplit
  have hlo : (a.storage.intType target).lo = -(2^(a.storage.bits target-1)) := by
    simp [IntType.lo, IntegerPrimitive.signed_iff.mpr hs]
  have hhi : (a.storage.intType target).hi = 2^(a.storage.bits target-1)-1 := by
    simp [IntType.hi, IntegerPrimitive.signed_iff.mpr hs]
  have hlow := hd.storage.1.1
  have htop := hd.storage.2.2
  have hord := hd.ordered
  -- neither the number nor its bits leave the carrier
  have hb := holds_apply hC hlt bound.kind (v := a.info.bits.val) (by omega)
  have hv := holds_apply hC hlt bound.kind (v := a.info.denote) (by omega)
  have hyb : steppedIn target bound a.info.bits.val = bound.kind.apply a.info.bits.val 1 :=
    IntType.reduce_of_holds hb
  have hyv : steppedIn target bound a.info.denote = bound.kind.apply a.info.denote 1 :=
    IntType.reduce_of_holds hv
  have hpast : ¬ PastCarrier bound target a.info.bits.val := not_pastCarrier hC hlt (by omega)
  have htaken : FoldTaken bound target (a.type.domain target) a.info.bits.val ↔
      d.1 ≤ bound.kind.apply a.info.bits.val 1 ∧ bound.kind.apply a.info.bits.val 1 ≤ d.2 := by
    simp [FoldTaken, hpast, hr, hdom, PassesDomain, hC, hyb]
  rw [FoldMeetsCall, htaken, cut_agrees hr hdom hC hsized hbits hlt, hlo, hhi, ← hhigh]
  cases hsub : bound.kind.subtracts with
  | false =>
    have happly : bound.kind.apply a.info.bits.val 1 = a.info.bits.val+1 := by
      simp [StepIntrinsic.apply, hsub]
    refine iff_of_true (fun h => ?_) (fun h => ?_)
    · omega
    · contradiction
  | true =>
    have happly : bound.kind.apply a.info.bits.val 1 = a.info.bits.val-1 := by
      simp [StepIntrinsic.apply, hsub]
    have happlyv : bound.kind.apply a.info.denote 1 = a.info.denote-1 := by
      simp [StepIntrinsic.apply, hsub]
    constructor
    · intro h _ hmin
      by_contra hge
      have hcall := (h (by omega)).1.2 hr
      have hres := (resolved_carrier hc hd).1
      rw [hd.low] at hres
      rw [hres, hyv, ← hd.low] at hcall
      omega
    · intro h hin
      have := h rfl
      omega

theorem whole_range_taken (hr : bound.checkRange = true)
    (hc : CarriesStorage target a.storage bound.carrier) (hdom : a.type.domain target = some d)
    (hwhole : a.info.bits.val % 2^bound.carrier.bits target =
      a.info.denote % 2^bound.carrier.bits target)
    (hw : a.storage.bits target ≤ bound.carrier.bits target) :
    FoldMeetsCall bound a ↔
      (¬ PastCarrier bound target a.info.denote →
        PassesDomain bound d (steppedIn target bound a.info.denote) →
        d.1 ≤ steppedIn target bound a.info.denote ∧ steppedIn target bound a.info.denote ≤
          (bound.carrier.intType target).reduce (a.type.high target)) := by
  have hd := resolved hdom
  have hlow := (resolved_carrier hc hd).1
  rw [hd.low] at hlow
  have hpasses {y : Int} (h : PassesDomain bound d y) : y ≤ d.2 := by
    unfold PassesDomain at h
    split_ifs at h <;> exact h.2
  have htaken : FoldTaken bound target (a.type.domain target) a.info.bits.val ↔
      ¬ PastCarrier bound target a.info.denote ∧
        PassesDomain bound d (steppedIn target bound a.info.denote) := by
    simp [FoldTaken, hr, hdom, pastCarrier_congr hwhole, steppedIn_congr hwhole]
  rw [FoldMeetsCall, htaken, storage_result a hw]
  constructor
  · intro h hpast hin
    have hcall := (h ⟨hpast, hin⟩).1.2 hr
    rw [hlow, ← hd.low] at hcall
    exact hcall
  · rintro h ⟨hpast, hin⟩
    obtain ⟨h₁, h₂⟩ := h hpast hin
    refine ⟨⟨hpast, fun _ => ?_⟩, inside_result hd ⟨h₁, hpasses hin⟩⟩
    rw [hlow, ← hd.low]
    exact ⟨h₁, h₂⟩

theorem apply_one (kind : StepIntrinsic) (v : Int) :
    kind.apply v 1 = v+1 ∨ kind.apply v 1 = v-1 := by
  unfold StepIntrinsic.apply
  split_ifs <;> simp

theorem not_cut {v b : Int} {m n : Nat} (h : b % 2^n = v % 2^n) (hlt : m < n) : b ≠ v+2^m := by
  intro hb
  have hd : (2 : Int)^n ∣ 2^m := by
    have := Int.ModEq.dvd h.symm
    rwa [hb, add_sub_cancel_left] at this
  have hle := Int.le_of_dvd (IntType.two_pow_pos m) hd
  have hlt' := pow_lt_pow_right₀ (by decide : (1 : Int) < 2) hlt
  omega

theorem sizedBoolean_facts {p : IntegerPrimitive} {hp : p.family = .bool}
    (ht : a.type = .sizedBoolean p hp) (hdom : a.type.domain target = some d) :
    a.storage = p ∧ d = integerDomain target p ∧ a.type.high target = 1 ∧ d.1 = 0 ∧
      0 ≤ a.info.denote ∧ a.info.denote ≤ 2^a.storage.bits target-1 := by
  obtain ⟨type, storage, selected, info, word, same, bits⟩ := a
  cases ht
  cases Option.some.inj selected
  cases Option.some.inj hdom
  have hk := sizedBoolean_unsigned hp
  have hword := (IntegerPrimitive.holds_of_unsigned hk).mp word.mem
  rw [same] at hword
  exact ⟨rfl, rfl, rfl, by simp [integerDomain, hk], hword⟩

theorem whole_range (hr : bound.checkRange = true)
    (hc : CarriesStorage target a.storage bound.carrier) (hdom : a.type.domain target = some d)
    (hwhole : a.info.bits.val % 2^bound.carrier.bits target =
      a.info.denote % 2^bound.carrier.bits target)
    (hw : a.storage.bits target ≤ bound.carrier.bits target) :
    FoldMeetsCall bound a ↔ StepAgrees target a bound := by
  have hd := resolved hdom
  have hsome : (a.type.domain target).isSome = true := by rw [hdom]; rfl
  -- only the tests of the unsigned carrier and of the sized Booleans are left
  have hagrees : StepAgrees target a bound ↔
      (bound.carrier.intKind = .unsigned → d.1 ≤ bound.kind.apply a.info.denote 1 % 2^64) ∧
      ∀ p h, a.type = .sizedBoolean p h →
        bound.kind.apply a.info.denote 1 ≤ 1 ∨ d.2 < bound.kind.apply a.info.denote 1 := by
    constructor
    · intro h
      refine ⟨fun hu => by rw [hd.low]; exact h.unsigned hr hu hsome, fun p hp ht => ?_⟩
      obtain ⟨-, hdp, -⟩ := sizedBoolean_facts ht hdom
      rw [hdp]
      exact h.sized hr p hp ht
    · rintro ⟨h₁, h₂⟩
      refine ⟨fun _ _ _ hlt _ hcut => absurd hcut (not_cut hwhole hlt),
        fun _ hu _ => by rw [← hd.low]; exact h₁ hu, fun _ p hp ht => ?_, fun hf => ?_,
        fun hf => ?_⟩
      · obtain ⟨-, hdp, -⟩ := sizedBoolean_facts ht hdom
        rw [← hdp]
        exact h₂ p hp ht
      · rw [hr] at hf
        contradiction
      · rw [hr] at hf
        contradiction
  rw [whole_range_taken hr hc hdom hwhole hw, hagrees]
  have hhigh := (resolved_carrier hc hd).2
  rcases hc with ⟨hC, h32, -, hlt⟩ | ⟨hC, h64, hS, hS64⟩
  · have hnot : bound.carrier.intKind ≠ .unsigned := by simp [hC]
    simp only [PassesDomain, if_pos hC, hnot, IsEmpty.forall_iff, true_and]
    by_cases hsized : ∃ p h, a.type = .sizedBoolean p h
    · obtain ⟨p, hp, ht⟩ := hsized
      obtain ⟨rfl, hdp, h1, h0, hv⟩ := sizedBoolean_facts ht hdom
      have hlt' := hlt (sizedBoolean_unsigned hp)
      have hy : steppedIn target bound a.info.denote = bound.kind.apply a.info.denote 1 :=
        IntType.reduce_of_holds (holds_apply hC hlt' bound.kind (by omega))
      have hpast : ¬ PastCarrier bound target a.info.denote := not_pastCarrier hC hlt' (by omega)
      have hone : (bound.carrier.intType target).reduce 1 = 1 := by
        refine IntType.reduce_of_holds (holds_around hC hlt' ?_)
        have := IntType.two_pow_pos (a.storage.bits target)
        omega
      rw [hy, h1, hone]
      constructor
      · intro h _ _ _
        have := h hpast
        omega
      · intro h _ hin
        have := h _ hp ht
        omega
    · refine iff_of_true (fun _ hin => ?_) (fun p hp ht => absurd ⟨p, hp, ht⟩ hsized)
      obtain ⟨h₁, h₂⟩ := hhigh.resolve_left hsized
      rw [h₁]
      exact ⟨hin.1, hin.2.trans h₂⟩
  · have hnot : bound.carrier.intKind ≠ .signed := by simp [hC]
    have hlow := hd.storage.1
    rw [IntegerPrimitive.holds_of_unsigned hS] at hlow
    have hpast := @not_pastCarrier_of_unsigned target bound hC a.info.denote
    have hy : steppedIn target bound a.info.denote = bound.kind.apply a.info.denote 1 % 2^64 := by
      rw [steppedIn, reduce_unsigned hC, h64]
      rfl
    simp only [PassesDomain, hC, hy, hpast, forall_const, not_false_eq_true]
    by_cases hsized : ∃ p h, a.type = .sizedBoolean p h
    · obtain ⟨p, hp, ht⟩ := hsized
      obtain ⟨rfl, hdp, h1, h0, hv⟩ := sizedBoolean_facts ht hdom
      have hd2 : d.2 = 2^63-1 := by rw [hdp]; simp [integerDomain, hS, hS64]
      have hone : (bound.carrier.intType target).reduce 1 = 1 := by
        rw [reduce_unsigned hC, h64]
        rfl
      have hn := apply_one bound.kind a.info.denote
      rw [hS64] at hv
      rw [h1, hone, h0, hd2]
      constructor
      · intro h
        refine ⟨Int.emod_nonneg _ (by decide), fun _ _ _ => ?_⟩
        by_contra hno
        have := h ⟨le_refl 0, by omega⟩
        omega
      · rintro ⟨-, h⟩ ⟨-, hin⟩
        have := h _ hp ht
        omega
    · obtain ⟨h₁, h₂⟩ := hhigh.resolve_left hsized
      have hord := hd.ordered
      rw [h₁]
      constructor
      · intro h
        refine ⟨?_, fun p hp ht => absurd ⟨p, hp, ht⟩ hsized⟩
        by_contra hno
        have := h ⟨hlow.1, by omega⟩
        omega
      · rintro ⟨h, -⟩ ⟨-, hin⟩
        exact ⟨h, by omega⟩

/-! Steps without range checks. -/

section
variable {kind : StepIntrinsic} {q : Bool}

theorem StepBound.carrier_unchecked (h : StepBound target kind q false a.storage bound) :
    if q = true then CarriesStorage target a.storage bound.carrier
    else bound.carrier = a.storage := by
  simpa using h.carrier

theorem StepBound.not_past (h : StepBound target kind q false a.storage bound)
    (hn : ¬ PastCarrier bound target a.info.bits.val) :
    ¬ PastCarrier bound target a.info.denote := by
  rcases bits_cases h.bits_le with hwhole | ⟨hneg, -, hlt⟩
  · rwa [← pastCarrier_congr hwhole]
  · have hc := h.carrier_unchecked
    obtain ⟨hcxx, hs⟩ := cxxType_of_negative hneg
    have hword := a.word.mem
    rw [a.same, hcxx] at hword
    split_ifs at hc with hq
    · rcases hc with ⟨hC, -⟩ | ⟨-, -, hu, -⟩
      · exact not_pastCarrier hC hlt (storage_bounds hword)
      · rw [hs] at hu
        contradiction
    · rw [hc] at hlt
      omega

theorem unchecked_taken (h : StepBound target kind q false a.storage bound) :
    FoldMeetsCall bound a ↔
      (¬ PastCarrier bound target a.info.bits.val →
        (a.type.cxxType target a.storage).reduce (steppedIn target bound a.info.denote) =
          (a.storage.intType target).reduce (steppedIn target bound a.info.denote)) := by
  have hr : ¬ bound.checkRange = true := by simp [h.checkRange]
  have htaken : FoldTaken bound target (a.type.domain target) a.info.bits.val ↔
      ¬ PastCarrier bound target a.info.bits.val := by simp [FoldTaken, hr]
  rw [FoldMeetsCall, htaken, storage_result a h.bits_le]
  constructor
  · intro h' hn
    exact (h' hn).2
  · intro h' hn
    exact ⟨⟨h.not_past hn, fun hrange => absurd hrange hr⟩, h' hn⟩

theorem wide_storage {low high : Int} {s : IntegerPrimitive} (h0 : 0 ≤ low) (h1 : high ≤ 65535)
    (h : ordinalIntegerPrimitiveForDomain low high = some s) :
    s.intKind = .unsigned ∧ s.bits target ≤ 16 := by
  have h16 : high ≤ unsignedMaskForBits 16 := by
    simp only [unsignedMaskForBits]
    omega
  rw [ordinalIntegerPrimitiveForDomain, if_neg (by omega), if_pos h16] at h
  obtain ⟨hk, hb, -⟩ := ordinalIntegerPrimitive_spec h target
  refine ⟨hk, ?_⟩
  split_ifs at hb <;> omega

theorem stepAgrees_unchecked (h : StepBound target kind q false a.storage bound) :
    StepAgrees target a bound ↔
      (∀ t, a.type = .ordinal t → t.isBoolean = true →
        0 ≤ bound.kind.apply a.info.denote 1 ∧ bound.kind.apply a.info.denote 1 ≤ 1) ∧
      (q = true → ∀ low high h₁ h₂, a.type = .wideCharSubrange low high h₁ h₂ →
        bound.kind.apply a.info.denote 1 % 2^16 ≤ (a.storage.intType target).hi) := by
  have hr : ¬ bound.checkRange = true := by simp [h.checkRange]
  constructor
  · intro ha
    exact ⟨ha.boolean h.checkRange, fun hq => ha.wide h.checkRange (h.checkOverflow.trans hq)⟩
  · rintro ⟨hb, hw⟩
    exact ⟨fun hrange => absurd hrange hr, fun hrange => absurd hrange hr,
      fun hrange => absurd hrange hr, fun _ => hb, fun _ hq => hw (h.checkOverflow.symm.trans hq)⟩

theorem boolean_result {t : OrdinalType} (h : StepBound target kind q false a.storage bound)
    (ht : a.type = .ordinal t) (hb : t.isBoolean = true) :
    (¬ PastCarrier bound target a.info.bits.val →
        (a.type.cxxType target a.storage).reduce (steppedIn target bound a.info.denote) =
          (a.storage.intType target).reduce (steppedIn target bound a.info.denote)) ↔
      0 ≤ bound.kind.apply a.info.denote 1 ∧ bound.kind.apply a.info.denote 1 ≤ 1 := by
  have hsel := a.selected
  have hword := a.word.mem
  have hcxx : a.type.cxxType target a.storage = cxxBool := by
    rw [ht]
    simp [StepType.cxxType, OrdinalType.cxxType, hb]
  rw [a.same, hcxx] at hword
  rw [ht] at hsel
  obtain ⟨hu, h8⟩ := @boolean_storage target t _ hb hsel
  have hv : 0 ≤ a.info.denote ∧ a.info.denote ≤ 1 := hword
  have hw := h.bits_le
  have hpast : ¬ PastCarrier bound target a.info.bits.val := by
    have hc := h.carrier_unchecked
    rw [a.bits.1 hv.1]
    split_ifs at hc with hq
    · rcases hc with ⟨hC, -, -, hlt⟩ | ⟨hC, -⟩
      · exact not_pastCarrier hC (hlt hu) (by rw [h8]; omega)
      · exact not_pastCarrier_of_unsigned hC _
    · exact not_pastCarrier_of_unsigned (by rw [hc, hu]) _
  have hbool : cxxBool.reduce (steppedIn target bound a.info.denote) =
      bound.kind.apply a.info.denote 1 % 2 := by
    have hle : cxxBool.bits ≤ (bound.carrier.intType target).bits := bound.carrier.bits_pos target
    rw [steppedIn, IntType.reduce_through hle]
    rfl
  have hbyte : (a.storage.intType target).reduce (steppedIn target bound a.info.denote) =
      bound.kind.apply a.info.denote 1 % 256 := by
    rw [steppedIn, IntType.reduce_through hw, reduce_unsigned hu, h8]
    rfl
  have hn := apply_one bound.kind a.info.denote
  rw [hcxx, hbool, hbyte]
  constructor
  · intro heq
    have := heq hpast
    omega
  · intro hin _
    omega

theorem wide_result {low high : Int} {h₁ : low ≤ high} {h₂ : 0 ≤ low ∧ high ≤ 65535}
    (h : StepBound target kind q false a.storage bound)
    (ht : a.type = .wideCharSubrange low high h₁ h₂) :
    (¬ PastCarrier bound target a.info.bits.val →
        (a.type.cxxType target a.storage).reduce (steppedIn target bound a.info.denote) =
          (a.storage.intType target).reduce (steppedIn target bound a.info.denote)) ↔
      (q = true → bound.kind.apply a.info.denote 1 % 2^16 ≤ (a.storage.intType target).hi) := by
  have hsel := a.selected
  have hword := a.word.mem
  have hcxx : a.type.cxxType target a.storage =
      IntegerPrimitive.intType ⟨.wideChar, by decide⟩ target := by rw [ht]; rfl
  rw [a.same, hcxx, wideChar_holds] at hword
  rw [ht] at hsel
  obtain ⟨hu, h16⟩ := @wide_storage target low high _ h₂.1 h₂.2 hsel
  have hw := h.bits_le
  have hc := h.carrier_unchecked
  have hhi : (a.storage.intType target).hi = 2^a.storage.bits target-1 := by
    simp [IntType.hi, IntegerPrimitive.not_signed_iff.mpr hu]
  have hle : (2 : Int)^a.storage.bits target ≤ 2^16 := IntType.two_pow_mono h16
  rw [hcxx]
  cases q with
  | false =>
    -- the carrier is the storage, which the wider character holds
    have hcs : bound.carrier = a.storage := by simpa using hc
    refine iff_of_true (fun _ => ?_) (fun hq => absurd hq Bool.false_ne_true)
    have hin := (a.storage.intType target).reduce_holds (bound.kind.apply a.info.denote 1)
    have hy : steppedIn target bound a.info.denote =
        (a.storage.intType target).reduce (bound.kind.apply a.info.denote 1) := by
      rw [steppedIn, hcs]
    rw [hy, IntType.reduce_reduce]
    refine IntType.reduce_of_holds ((wideChar_holds _).mpr ?_)
    rw [IntegerPrimitive.holds_of_unsigned hu] at hin
    omega
  | true =>
    have hcs : CarriesStorage target a.storage bound.carrier := by simpa using hc
    have hC : bound.carrier.intKind = .signed ∧ 32 ≤ bound.carrier.bits target := by
      rcases hcs with ⟨hC, h32, -⟩ | ⟨-, -, -, h64⟩
      · exact ⟨hC, h32⟩
      · omega
    have hlt : IntegerPrimitive.bits ⟨.wideChar, by decide⟩ target < bound.carrier.bits target :=
      show 16 < _ by omega
    have hpast : ¬ PastCarrier bound target a.info.bits.val := by
      rw [a.bits.1 hword.1]
      refine not_pastCarrier hC.1 hlt ?_
      have hb : IntegerPrimitive.bits ⟨.wideChar, by decide⟩ target = 16 := rfl
      rw [hb]
      omega
    have hwide : (IntegerPrimitive.intType ⟨.wideChar, by decide⟩ target).reduce
        (steppedIn target bound a.info.denote) = bound.kind.apply a.info.denote 1 % 2^16 := by
      rw [steppedIn, IntType.reduce_through hlt.le]
      rfl
    have hstored : (a.storage.intType target).reduce (steppedIn target bound a.info.denote) =
        bound.kind.apply a.info.denote 1 % 2^16 % 2^a.storage.bits target := by
      rw [steppedIn, IntType.reduce_through hw, reduce_unsigned hu, lowBits,
        Int.emod_emod_of_dvd _ (pow_dvd_pow 2 h16)]
    have hn0 : 0 ≤ bound.kind.apply a.info.denote 1 % 2^16 := Int.emod_nonneg _ (by decide)
    rw [hwide, hstored, hhi]
    constructor
    · intro heq _
      have := heq hpast
      have := Int.emod_lt_of_pos (bound.kind.apply a.info.denote 1 % 2^16)
        (IntType.two_pow_pos (a.storage.bits target))
      omega
    · intro hin _
      have := hin rfl
      rw [Int.emod_eq_of_lt hn0 (by omega)]

theorem unchecked_range (h : StepBound target kind q false a.storage bound) :
    FoldMeetsCall bound a ↔ StepAgrees target a bound := by
  have hboolean (t : OrdinalType) := @boolean_result target bound a kind q t h
  have hwide (low high : Int) (h₁ : low ≤ high) (h₂ : 0 ≤ low ∧ high ≤ 65535) :=
    @wide_result target bound a kind q low high h₁ h₂ h
  -- types emitted as they are stored
  have hplain (hcxx : a.type.cxxType target a.storage = a.storage.intType target) :
      (a.type.cxxType target a.storage).reduce (steppedIn target bound a.info.denote) =
        (a.storage.intType target).reduce (steppedIn target bound a.info.denote) := by rw [hcxx]
  rw [unchecked_taken h, stepAgrees_unchecked h]
  cases ht : a.type with
  | ordinal t =>
    rw [ht] at hboolean hplain
    cases hb : t.isBoolean with
    | false =>
      refine iff_of_true (fun _ => hplain ?_) ?_
      · simp [StepType.cxxType, OrdinalType.cxxType, hb]
      · simp [hb]
    | true => simp [hboolean t rfl hb, hb]
  | wideCharSubrange low high ho hc =>
    have hr := hwide low high ho hc ht
    rw [ht] at hr
    rw [hr]
    constructor
    · intro hin
      exact ⟨by simp, fun hq _ _ _ _ _ => hin hq⟩
    · intro hin hq
      exact hin.2 hq low high ho hc rfl
  | wideChar =>
    rw [ht] at hplain
    exact iff_of_true (fun _ => hplain rfl) (by simp)
  | sizedBoolean p hp =>
    rw [ht] at hplain
    exact iff_of_true (fun _ => hplain rfl) (by simp)
  | symbolicSubrange lowType highType low high =>
    rw [ht] at hplain
    exact iff_of_true (fun _ => hplain rfl) (by simp)

end

end

end

/-- A step is always bound, and folds to what the emitted call returns, refusing wherever the call
raises, exactly where the type and the argument agree with it. -/
theorem stepFoldsAsEmitted_iff (target : TargetInfo) (subtracts q r : Bool)
    (a : StepArgument target) :
    ∃ bound, bindStep target (stepKind subtracts) q r a.type = some bound ∧
      (StepFoldsAsEmitted target a bound ↔ StepAgrees target a bound) := by
  obtain ⟨bound, hbind, hbound⟩ := bindStep_bound (stepKind subtracts) q r a
  refine ⟨bound, hbind, ?_⟩
  rw [stepFoldsAsEmitted_iff_meets a hbound.bits_le]
  cases r with
  | false => exact unchecked_range hbound
  | true =>
    have hr := hbound.checkRange
    have hc : CarriesStorage target a.storage bound.carrier := by simpa using hbound.carrier
    cases hdom : a.type.domain target with
    | none =>
      -- a range-checked step of a type without a domain is refused
      refine iff_of_true (fun htaken => ?_) ?_
      · obtain ⟨d, hd, -⟩ := htaken.2 hr
        rw [hdom] at hd
        contradiction
      · refine ⟨fun _ hsome => ?_, fun _ _ hsome => ?_, fun _ p hp ht => ?_, fun hf => ?_,
          fun hf => ?_⟩
        · rw [hdom] at hsome
          contradiction
        · rw [hdom] at hsome
          contradiction
        · rw [ht] at hdom
          contradiction
        · rw [hr] at hf
          contradiction
        · rw [hr] at hf
          contradiction
    | some d =>
      rcases bits_cases hbound.bits_le with hwhole | ⟨hneg, hbits, hlt⟩
      · exact whole_range hr hc hdom hwhole hbound.bits_le
      · exact cut_range hr hc hdom hneg hbits hlt

def highBoolean : StepArgument ⟨64, TargetInfo.sixtyFour⟩ where
  type := .ordinal .boolean
  storage := ⟨.byte, PrimitiveKind.byte_integer⟩
  selected := rfl
  info := ⟨.ofInt _ 1, .ofInt _ 1, some .boolean⟩
  word := .maximum _
  same := by decide
  bits := by unfold ConstIntExprInfo.BitsOf; decide

/-- Without checks `Succ(High(Boolean))` folds to 2, and the emitted call returns false. -/
theorem not_stepFoldsAsEmitted_boolean :
    ∃ bound, bindStep ⟨64, .inr rfl⟩ .succ false false highBoolean.type = some bound ∧
      ¬ StepFoldsAsEmitted ⟨64, .inr rfl⟩ highBoolean bound := by
  refine ⟨⟨.succ, ⟨.byte, by decide⟩, false, false⟩, by decide, fun h => ?_⟩
  obtain ⟨w, hw, hv⟩ := h.value ⟨.ofInt _ 2, .ofInt _ 2, some .byte⟩ (by decide)
  have hcall : (highBoolean.call ⟨64, .inr rfl⟩
      ⟨.succ, ⟨.byte, by decide⟩, false, false⟩).toOption.map Word.val = some 0 := by decide
  rw [hw] at hcall
  have h0 : w.val = 0 := Option.some.inj hcall
  rw [h0] at hv
  exact absurd hv (by decide)

end Tp2cc
