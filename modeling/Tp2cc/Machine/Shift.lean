import Tp2cc.Machine.Bitwise

/-! Shifts of machine words as arithmetic on their values, and when a shift comes out alike in
two types. A shift masks its count to the width and moves in zeros from both ends. -/
set_option autoImplicit false

namespace Machine

namespace Word
variable {t : IntType}

theorem ofBits_val_of_unsigned (h : t.signed = false) (b : BitVec t.bits) :
    (ofBits t b).val = b.toNat := by
  have hb := b.isLt
  have hr : (t.twin.reduce b.toInt) = b.toNat := by
    refine IntType.eq_of_emod (t.twin.reduce_holds _) ?_ ?_
    · rw [IntType.holds_unsigned rfl]
      have : (b.toNat : Int) < 2^t.bits := by exact_mod_cast hb
      simp only [IntType.twin]
      omega
    · rw [IntType.reduce_emod, BitVec.toInt_eq_toNat_bmod]
      exact_mod_cast Int.bmod_emod (x := (b.toNat : Int)) (m := 2^t.bits)
  simpa [ofBits, IntType.reduce, IntType.twin, h] using hr

theorem toBits_toNat (w : Word t) : (w.toBits.toNat : Int) = w.val % 2^t.bits := by
  have hp := IntType.two_pow_pos t.bits
  have h := Int.emod_nonneg w.val (ne_of_gt hp)
  simp only [toBits, BitVec.toNat_ofInt]
  push_cast
  exact Int.toNat_of_nonneg h

theorem land_mask_val (h : t.signed = false) {k : Nat} (hk : k ≤ t.bits) (v : Int) :
    ((ofInt t v).land (ofInt t (2^k-1))).val = v % 2^k := by
  have hd : (2 : Int)^k ∣ 2^t.bits := pow_dvd_pow 2 hk
  have hle : (2 : Int)^k ≤ 2^t.bits := IntType.two_pow_mono hk
  have hpos := IntType.two_pow_pos k
  have hm : (ofInt t (2^k-1)).toBits.toNat = 2^k-1 := by
    have hcast : ((2^k-1 : Nat) : Int) = 2^k-1 := by
      have := Nat.two_pow_pos k
      push_cast [this]
      rfl
    apply Int.natCast_inj.mp
    rw [toBits_toNat, ofInt_val, IntType.reduce_emod, Int.emod_eq_of_lt (by omega) (by omega),
      hcast]
  rw [land, ofBits_val_of_unsigned h, BitVec.toNat_and, hm, Nat.and_two_pow_sub_one_eq_mod]
  push_cast
  rw [toBits_toNat, ofInt_val, IntType.reduce_emod, Int.emod_emod_of_dvd v hd]

theorem shiftLeft_val (w : Word t) (c : Nat) : (w.shiftLeft c).val = t.reduce (w.val*2^c) := by
  have h : w.toBits <<< c = BitVec.ofInt t.bits (w.val*2^c) := by
    apply BitVec.eq_of_toNat_eq
    zify
    rw [BitVec.toNat_shiftLeft, Nat.shiftLeft_eq]
    push_cast
    rw [toBits_toNat]
    have hr := (ofInt t (w.val*2^c)).toBits_toNat
    rw [toBits_ofInt, ofInt_val, IntType.reduce_emod] at hr
    rw [hr, Int.mul_emod, Int.emod_emod, ← Int.mul_emod]
  rw [shiftLeft, h, ofBits_ofInt, ofInt_val]

theorem shiftRight_val (w : Word t) (c : Nat) :
    (w.shiftRight c).val = t.reduce (w.val % 2^t.bits / 2^c) := by
  have h : ((w.toBits >>> c).toNat : Int) = w.val % 2^t.bits / 2^c := by
    rw [BitVec.toNat_ushiftRight, Nat.shiftRight_eq_div_pow]
    push_cast
    rw [toBits_toNat]
  rw [← h, shiftRight, ofBits, ofInt_val]
  refine IntType.reduce_congr ?_
  rw [BitVec.toInt_eq_toNat_bmod]
  exact_mod_cast Int.bmod_emod (x := ((w.toBits >>> c).toNat : Int)) (m := 2^t.bits)

end Word

namespace IntType

theorem reduce_emod_of_le {t : IntType} {n : Nat} (h : n ≤ t.bits) (v : Int) :
    t.reduce v % 2^n = v % 2^n := by
  have hd : (2 : Int)^n ∣ 2^t.bits := pow_dvd_pow 2 h
  rw [← Int.emod_emod_of_dvd (t.reduce v) hd, reduce_emod, Int.emod_emod_of_dvd v hd]

def shiftCount (t : IntType) (s : Int) : Nat := (s % t.bits).toNat

def shiftedBits (t : IntType) (left : Bool) (v s : Int) : Int :=
  if left then v*2^t.shiftCount s % 2^t.bits else v % 2^t.bits / 2^t.shiftCount s

def shift (t : IntType) (left : Bool) (v s : Int) : Int := t.reduce (t.shiftedBits left v s)

section
variable {t u : IntType} {left : Bool} {v s : Int}

theorem shiftCount_lt (t : IntType) (s : Int) : t.shiftCount s < t.bits := by
  have h := t.bits_pos
  have h₁ := Int.emod_nonneg s (by omega : (t.bits : Int) ≠ 0)
  have h₂ := Int.emod_lt_of_pos s (by omega : (0 : Int) < t.bits)
  unfold shiftCount
  omega

theorem shiftCount_congr {r : Int} (h : s % t.bits = r % t.bits) :
    t.shiftCount s = t.shiftCount r := by
  rw [shiftCount, h, shiftCount]

theorem shiftedBits_bounds (t : IntType) (left : Bool) (v s : Int) :
    0 ≤ t.shiftedBits left v s ∧ t.shiftedBits left v s < 2^t.bits := by
  have hp := two_pow_pos t.bits
  have hc := two_pow_pos (t.shiftCount s)
  have h₁ (w : Int) := Int.emod_nonneg w (ne_of_gt hp)
  have h₂ (w : Int) := Int.emod_lt_of_pos w hp
  cases left with
  | true => exact ⟨h₁ _, h₂ _⟩
  | false =>
    refine ⟨Int.ediv_nonneg (h₁ v) hc.le, lt_of_le_of_lt ?_ (h₂ v)⟩
    exact Int.ediv_le_self _ (h₁ v)

/-- Only the bits of the type and the count below its width matter. -/
theorem shiftedBits_congr {w r : Int} (hv : v % 2^t.bits = w % 2^t.bits)
    (hs : s % t.bits = r % t.bits) : t.shiftedBits left v s = t.shiftedBits left w r := by
  rw [shiftedBits, shiftedBits, shiftCount_congr hs, hv, Int.mul_emod, hv, ← Int.mul_emod]

theorem shift_congr {w r : Int} (hv : v % 2^t.bits = w % 2^t.bits)
    (hs : s % t.bits = r % t.bits) : t.shift left v s = t.shift left w r := by
  rw [shift, shiftedBits_congr hv hs, shift]

theorem shift_left : t.shift true v s = t.reduce (v*2^t.shiftCount s) :=
  reduce_congr (Int.emod_emod_of_dvd _ (dvd_refl _))

theorem reduce_of_bits {k : Int} (h : 0 ≤ k ∧ k < 2^t.bits) :
    t.reduce k = if t.signed = true ∧ 2^(t.bits-1) ≤ k then k-2^t.bits else k := by
  have h2 := t.two_pow_split
  cases hs : t.signed with
  | false =>
    have hk : t.Holds k := (holds_unsigned hs k).mpr ⟨h.1, by omega⟩
    simp [reduce_of_holds hk]
  | true =>
    by_cases hk : 2^(t.bits-1) ≤ k
    · rw [if_pos ⟨rfl, hk⟩]
      refine eq_of_emod (t.reduce_holds _) ((holds_signed hs _).mpr (by omega)) ?_
      rw [reduce_emod, ← Int.add_mul_emod_self_left k _ (-1)]
      congr 1
      omega
    · rw [if_neg (by simp [hk])]
      exact reduce_of_holds ((holds_signed hs _).mpr (by omega))

/-- What a value of `u` with the bits `k` needs to be a value of the narrower `t`. -/
def Fits (t u : IntType) (k : Int) : Prop :=
  k ≤ t.hi ∨ (t.signed = true ∧ u.signed = true ∧ 2^u.bits+t.lo ≤ k)

instance (t u : IntType) (k : Int) : Decidable (t.Fits u k) := inferInstanceAs (Decidable (_ ∨ _))

theorem fits_iff (hb : t.bits < u.bits) {k : Int} (hk : 0 ≤ k ∧ k < 2^u.bits) :
    t.Fits u k ↔ t.Holds (u.reduce k) := by
  have h2 := u.two_pow_split
  have h3 := t.two_pow_split
  have hle := two_pow_mono (m := t.bits) (n := u.bits-1) (by omega)
  have hp := two_pow_pos (t.bits-1)
  rw [reduce_of_bits hk]
  cases ht : t.signed <;> cases hu : u.signed <;>
    simp only [Fits, Holds, lo, hi, ht, hu, Bool.false_eq_true, if_true, if_false, true_and,
      false_and, and_false, or_false]
  · omega
  · split_ifs <;> omega
  · omega
  · split_ifs <;> omega

def TopClear (t : IntType) (left : Bool) (v s : Int) : Prop :=
  if left then v % 2^(t.bits-t.shiftCount s) < 2^(t.bits-1-t.shiftCount s)
  else 0 < t.shiftCount s ∨ v % 2^t.bits < 2^(t.bits-1)

instance (t : IntType) (left : Bool) (v s : Int) : Decidable (t.TopClear left v s) := by
  unfold TopClear; infer_instance

theorem shiftedBits_left : t.shiftedBits true v s =
    v % 2^(t.bits-t.shiftCount s)*2^t.shiftCount s := by
  have hc := t.shiftCount_lt s
  have hp := two_pow_pos (t.shiftCount s)
  have h : (2 : Int)^t.bits = 2^t.shiftCount s*2^(t.bits-t.shiftCount s) := by
    rw [← pow_add]
    congr 1
    omega
  rw [shiftedBits, if_pos rfl, h, mul_comm v, Int.mul_emod_mul_of_pos _ _ hp, mul_comm]

theorem topClear_iff : t.TopClear left v s ↔ t.shiftedBits left v s < 2^(t.bits-1) := by
  have hc := t.shiftCount_lt s
  have hpc := two_pow_pos (t.shiftCount s)
  cases left with
  | true =>
    have h : (2 : Int)^(t.bits-1) = 2^(t.bits-1-t.shiftCount s)*2^t.shiftCount s := by
      rw [← pow_add]
      congr 1
      omega
    rw [shiftedBits_left, h, mul_lt_mul_iff_left₀ hpc]
    rfl
  | false =>
    simp only [TopClear, shiftedBits, Bool.false_eq_true, if_false]
    cases Nat.eq_zero_or_pos (t.shiftCount s) with
    | inl h0 => simp [h0]
    | inr h0 =>
      refine iff_of_true (.inl h0) (Int.ediv_lt_of_lt_mul hpc ?_)
      have hlt := Int.emod_lt_of_pos v (two_pow_pos t.bits)
      have hle := two_pow_mono (m := 1) (n := t.shiftCount s) (by omega)
      have h2 := t.two_pow_split
      have hh := two_pow_pos (t.bits-1)
      nlinarith

/-- In two types of one width a shift comes out alike where the signedness is one or does not
show. -/
theorem shift_eq_iff_of_bits (hb : t.bits = u.bits) :
    t.shift left v s = u.shift left v s ↔ t.signed = u.signed ∨ t.TopClear left v s := by
  have hk := t.shiftedBits_bounds left v s
  have heq : u.shiftedBits left v s = t.shiftedBits left v s := by
    simp only [shiftedBits, shiftCount, hb]
  have hp := two_pow_pos t.bits
  rw [topClear_iff, shift, shift, heq, reduce_of_bits hk, reduce_of_bits (by rwa [← hb]), ← hb]
  cases t.signed <;> cases u.signed <;>
    simp only [Bool.false_eq_true, reduceCtorEq, false_and, true_and, if_false, true_or, false_or]
  · split_ifs <;> omega
  · split_ifs <;> omega

theorem shift_right_of_pos (hc : 0 < t.shiftCount s) :
    t.shift false v s = v % 2^t.bits/2^t.shiftCount s := by
  have hlt : t.shiftedBits false v s < 2^(t.bits-1) := topClear_iff.mp (.inl hc)
  rw [shift, reduce_of_bits (t.shiftedBits_bounds false v s), if_neg (by simp [hlt])]
  rfl

theorem shift_of_count_zero (hc : t.shiftCount s = 0) : t.shift false v s = t.shift true v s := by
  rw [shift, shift, shiftedBits_left]
  simp [shiftedBits, hc]

/-- Bits above the lowest `n` show in what is left after fewer than `n` places. -/
theorem low_ediv_eq_iff {m : Int} (hm : 0 ≤ m) {n c : Nat} (hc : c < n) :
    m % 2^n/2^c = m/2^c ↔ m < 2^n := by
  have hpn := two_pow_pos n
  have hpc := two_pow_pos c
  have hpd := two_pow_pos (n-c)
  constructor
  · intro h
    have hsum := Int.emod_add_mul_ediv m (2^n)
    have hsplit : (2 : Int)^n = 2^c*2^(n-c) := by
      rw [← pow_add]
      congr 1
      omega
    have hdiv : m/2^c = m % 2^n/2^c+2^(n-c)*(m/2^n) := by
      conv_lhs => rw [← hsum, hsplit, mul_assoc]
      rw [Int.add_mul_ediv_left _ _ (ne_of_gt hpc), ← hsplit]
    have hz : 2^(n-c)*(m/2^n) = 0 := by omega
    have hq := (mul_eq_zero.mp hz).resolve_left (ne_of_gt hpd)
    have hlow := Int.emod_lt_of_pos m hpn
    rw [← hsum, hq]
    omega
  · intro h
    rw [Int.emod_eq_of_lt hm h]

/-- Bits are a value of the type that shows other bits only where they are those bits. -/
theorem reduce_eq_bits_iff {k l : Int} (hk : 0 ≤ k ∧ k < 2^t.bits) (hl : 0 ≤ l ∧ l < 2^t.bits) :
    t.reduce k = l ↔ l = k ∧ k ≤ t.hi := by
  constructor
  · intro h
    have hin := t.reduce_holds k
    have hmod := t.reduce_emod k
    rw [h] at hin hmod
    rw [Int.emod_eq_of_lt hl.1 hl.2, Int.emod_eq_of_lt hk.1 hk.2] at hmod
    exact ⟨hmod, hmod ▸ hin.2⟩
  · rintro ⟨rfl, h⟩
    exact reduce_of_holds ⟨t.holds_zero.1.trans hk.1, h⟩

/-- How a shift has to fall for a type and one twice as wide to agree on it: the wider result
fits the narrower type, and none of the bits it takes from the upper half are missed. -/
def HalfAlike (t u : IntType) (left : Bool) (v s : Int) : Prop :=
  let c := u.shiftCount s
  let m := v % 2^u.bits
  if left then t.Fits u (v % 2^(u.bits-c)*2^c)
  else if c = 0 then t.Fits u m
  else if c < t.bits then m < 2^t.bits
  else m/2^t.bits/2^(c-t.bits) = m % 2^t.bits/2^(c-t.bits) ∧
    m % 2^t.bits/2^(c-t.bits) ≤ t.hi

instance (t u : IntType) (left : Bool) (v s : Int) : Decidable (t.HalfAlike u left v s) := by
  unfold HalfAlike; infer_instance

section
variable (hw : u.bits = 2*t.bits)
include hw

theorem shiftCount_half : t.shiftCount s =
    if u.shiftCount s < t.bits then u.shiftCount s else u.shiftCount s-t.bits := by
  have ht := t.bits_pos
  have hd : (t.bits : Int) ∣ u.bits := ⟨2, by rw [hw]; push_cast; exact mul_comm ..⟩
  have hn := Int.emod_nonneg s (by omega : (u.bits : Int) ≠ 0)
  have hm : s % t.bits = ((u.shiftCount s : Nat) : Int) % t.bits := by
    rw [shiftCount, Int.toNat_of_nonneg hn, Int.emod_emod_of_dvd s hd]
  have hc := u.shiftCount_lt s
  rw [shiftCount, hm]
  split_ifs with h
  · rw [Int.emod_eq_of_lt (by omega) (by omega), Int.toNat_natCast]
  · have hs : ((u.shiftCount s : Nat) : Int) = (u.shiftCount s-t.bits : Nat)+t.bits := by omega
    rw [hs, Int.add_emod_right, Int.emod_eq_of_lt (by omega) (by omega), Int.toNat_natCast]

theorem shift_left_half : t.shift true v s = u.shift true v s ↔ t.HalfAlike u true v s := by
  have ht := t.bits_pos
  have hc := u.shiftCount_lt s
  have hcount := @shiftCount_half t u s hw
  have hfits : t.HalfAlike u true v s ↔ t.Holds (u.shift true v s) := by
    rw [shift, ← fits_iff (by omega) (u.shiftedBits_bounds true v s), shiftedBits_left]
    rfl
  rw [hfits]
  constructor
  · intro h
    rw [← h]
    exact t.reduce_holds _
  · intro h
    rw [shift_left] at h ⊢
    rw [shift_left]
    by_cases hlt : u.shiftCount s < t.bits
    · rw [hcount, if_pos hlt, ← reduce_through (s := u) (by omega), reduce_of_holds h]
    · -- the narrower type holds no other multiple of its size than zero
      have hd : (2 : Int)^t.bits ∣ v*2^u.shiftCount s :=
        Dvd.dvd.mul_left (pow_dvd_pow 2 (by omega)) v
      have hz : u.reduce (v*2^u.shiftCount s) = 0 := by
        refine eq_of_emod h t.holds_zero ?_
        have hdu : (2 : Int)^t.bits ∣ 2^u.bits := pow_dvd_pow 2 (by omega)
        rw [← Int.emod_emod_of_dvd _ hdu, reduce_emod, Int.emod_emod_of_dvd _ hdu,
          Int.emod_eq_zero_of_dvd hd, Int.zero_emod]
      have hdw : (2 : Int)^t.bits*2^t.bits ∣ v*2^t.shiftCount s*2^t.bits := by
        have h0 := reduce_emod u (v*2^u.shiftCount s)
        rw [hz, Int.zero_emod] at h0
        have hsplit : v*2^t.shiftCount s*2^t.bits = v*2^u.shiftCount s := by
          rw [hcount, if_neg hlt, mul_assoc, ← pow_add, Nat.sub_add_cancel (by omega)]
        rw [hsplit, ← pow_add, ← two_mul, ← hw]
        exact Int.dvd_of_emod_eq_zero h0.symm
      have hdt := Int.dvd_of_mul_dvd_mul_right (ne_of_gt (two_pow_pos t.bits)) hdw
      rw [hz]
      refine (reduce_congr ?_).trans (reduce_of_holds t.holds_zero)
      rw [Int.emod_eq_zero_of_dvd hdt, Int.zero_emod]

theorem shift_right_half : t.shift false v s = u.shift false v s ↔ t.HalfAlike u false v s := by
  have ht := t.bits_pos
  have hcount := @shiftCount_half t u s hw
  have hpn := two_pow_pos t.bits
  have hlow : v % 2^t.bits = v % 2^u.bits % 2^t.bits :=
    (Int.emod_emod_of_dvd v (pow_dvd_pow 2 (by omega))).symm
  have hm0 : 0 ≤ v % 2^u.bits := Int.emod_nonneg v (ne_of_gt (two_pow_pos _))
  have hm1 : v % 2^u.bits < 2^u.bits := Int.emod_lt_of_pos v (two_pow_pos _)
  by_cases h0 : u.shiftCount s = 0
  · have ht0 : t.shiftCount s = 0 := by rw [hcount, if_pos (by omega), h0]
    rw [shift_of_count_zero ht0, shift_of_count_zero h0, shift_left_half hw]
    simp [HalfAlike, h0]
  · have hpos : 0 < u.shiftCount s := by omega
    rw [shift_right_of_pos hpos]
    simp only [HalfAlike, Bool.false_eq_true, if_false, if_neg h0]
    by_cases hlt : u.shiftCount s < t.bits
    · rw [if_pos hlt] at hcount ⊢
      rw [shift_right_of_pos (by omega), hcount, hlow, low_ediv_eq_iff hm0 hlt]
    · rw [if_neg hlt] at hcount ⊢
      have hsplit : (2 : Int)^u.shiftCount s = 2^t.bits*2^(u.shiftCount s-t.bits) := by
        rw [← pow_add]
        congr 1
        omega
      have hk := t.shiftedBits_bounds false v s
      rw [shift, shiftedBits, if_neg Bool.false_ne_true, hcount, hlow] at *
      rw [hsplit, ← Int.ediv_ediv_of_nonneg hpn.le]
      have hy0 := Int.ediv_nonneg hm0 hpn.le
      have hy1 : v % 2^u.bits/2^t.bits < 2^t.bits := by
        refine Int.ediv_lt_of_lt_mul hpn ?_
        rwa [← pow_add, ← two_mul, ← hw]
      have hq0 := Int.ediv_nonneg hy0 (two_pow_pos (u.shiftCount s-t.bits)).le
      have hq1 := Int.ediv_le_self (2^(u.shiftCount s-t.bits)) hy0
      exact reduce_eq_bits_iff hk ⟨hq0, by omega⟩

theorem shift_eq_iff_of_half (left : Bool) :
    t.shift left v s = u.shift left v s ↔ t.HalfAlike u left v s := by
  cases left with
  | true => exact shift_left_half hw
  | false => exact shift_right_half hw

end

/-- When a shift comes out alike in two types, of one width or one twice as wide as the other. -/
def ShiftsAlike (t u : IntType) (left : Bool) (v s : Int) : Prop :=
  if t.bits = u.bits then t.signed = u.signed ∨ t.TopClear left v s
  else if t.bits < u.bits then t.HalfAlike u left v s
  else u.HalfAlike t left v s

instance (t u : IntType) (left : Bool) (v s : Int) : Decidable (t.ShiftsAlike u left v s) := by
  unfold ShiftsAlike; infer_instance

theorem shift_eq_iff (hb : t.bits = u.bits ∨ u.bits = 2*t.bits ∨ t.bits = 2*u.bits) :
    t.shift left v s = u.shift left v s ↔ t.ShiftsAlike u left v s := by
  have ht := t.bits_pos
  have hu := u.bits_pos
  unfold ShiftsAlike
  rcases hb with hb | hb | hb
  · rw [if_pos hb, shift_eq_iff_of_bits hb]
  · rw [if_neg (by omega), if_pos (by omega), shift_eq_iff_of_half hb]
  · rw [if_neg (by omega), if_neg (by omega), eq_comm, shift_eq_iff_of_half hb]

end
end IntType
end Machine
