import Mathlib.Data.Int.ModEq
import Mathlib.Tactic.Linarith
import Mathlib.Tactic.SplitIfs

/-! Fixed-width two's complement integers of an arbitrary width and signedness.
A value is an `Int` together with the proof that its type holds it, so a value
out of range cannot be built and every conversion states what it reduces. -/
set_option autoImplicit false

namespace Machine

structure IntType where
  signed : Bool
  bits : Nat
  bits_pos : 0 < bits
  deriving DecidableEq, Repr

namespace IntType

/-! The widths of the machine types, as proofs that their definitions share. -/
theorem eight_pos : 0 < 8 := by decide
theorem sixteen_pos : 0 < 16 := by decide
theorem thirtyTwo_pos : 0 < 32 := by decide
theorem sixtyFour_pos : 0 < 64 := by decide

def lo (t : IntType) : Int := if t.signed then -(2^(t.bits-1)) else 0
def hi (t : IntType) : Int := if t.signed then 2^(t.bits-1)-1 else 2^t.bits-1

def Holds (t : IntType) (v : Int) : Prop := t.lo ≤ v ∧ v ≤ t.hi

instance (t : IntType) (v : Int) : Decidable (t.Holds v) :=
  inferInstanceAs (Decidable (_ ∧ _))

/-- The value of the type congruent to `v`: what a conversion to the type yields. -/
def reduce (t : IntType) (v : Int) : Int :=
  if t.signed then v.bmod (2^t.bits) else v % 2^t.bits

def twin (t : IntType) : IntType := ⟨false, t.bits, t.bits_pos⟩

def Within (s t : IntType) : Prop := t.lo ≤ s.lo ∧ s.hi ≤ t.hi

theorem two_pow_split (t : IntType) : (2 : Int)^t.bits = 2*2^(t.bits-1) := by
  obtain ⟨s, b, hb⟩ := t
  obtain ⟨n, rfl⟩ : ∃ n, b = n+1 := ⟨b-1, by omega⟩
  simp [pow_succ, mul_comm]

theorem two_pow_pos (n : Nat) : (0 : Int) < 2^n := by positivity

theorem holds_signed {t : IntType} (h : t.signed = true) (v : Int) :
    t.Holds v ↔ -(2^(t.bits-1)) ≤ v ∧ v ≤ 2^(t.bits-1)-1 := by
  simp [Holds, lo, hi, h]

theorem holds_unsigned {t : IntType} (h : t.signed = false) (v : Int) :
    t.Holds v ↔ 0 ≤ v ∧ v ≤ 2^t.bits-1 := by
  simp [Holds, lo, hi, h]

theorem holds_zero (t : IntType) : t.Holds 0 := by
  have := two_pow_pos t.bits
  have := two_pow_pos (t.bits-1)
  by_cases h : t.signed
  · rw [holds_signed h]; omega
  · rw [holds_unsigned (by simpa using h)]; omega

theorem hi_sub_lo (t : IntType) : t.hi-t.lo = 2^t.bits-1 := by
  have := t.two_pow_split
  by_cases h : t.signed
  · simp [lo, hi, h]; omega
  · simp [lo, hi, h]

theorem reduce_holds (t : IntType) (v : Int) : t.Holds (t.reduce v) := by
  have hp := two_pow_pos t.bits
  have hs := t.two_pow_split
  by_cases h : t.signed
  · have hn : 0 < 2^t.bits := Nat.two_pow_pos _
    have h₁ := Int.le_bmod (x := v) hn
    have h₂ := Int.bmod_lt (x := v) hn
    rw [holds_signed h]
    simp only [reduce, h, if_true]
    push_cast at h₁ h₂
    omega
  · rw [holds_unsigned (by simpa using h)]
    simp only [reduce, h]
    have h₁ := Int.emod_nonneg v (ne_of_gt hp)
    have h₂ := Int.emod_lt_of_pos v hp
    simp only [Bool.false_eq_true, if_false]
    omega

theorem reduce_emod (t : IntType) (v : Int) : t.reduce v % 2^t.bits = v % 2^t.bits := by
  by_cases h : t.signed
  · have hb := Int.bmod_emod (x := v) (m := 2^t.bits)
    simp only [reduce, h, if_true]
    exact_mod_cast hb
  · simp [reduce, h]

theorem eq_of_emod {t : IntType} {v w : Int} (hv : t.Holds v) (hw : t.Holds w)
    (h : v % 2^t.bits = w % 2^t.bits) : v = w := by
  have hd : (2 : Int)^t.bits ∣ w-v := Int.ModEq.dvd h
  have hl := t.hi_sub_lo
  have ha : |w-v| < 2^t.bits := by
    obtain ⟨h₁, h₂⟩ := hv
    obtain ⟨h₃, h₄⟩ := hw
    rw [abs_lt]; omega
  have := Int.eq_zero_of_abs_lt_dvd hd ha
  omega

theorem reduce_of_holds {t : IntType} {v : Int} (h : t.Holds v) : t.reduce v = v :=
  eq_of_emod (t.reduce_holds v) h (t.reduce_emod v)

@[simp] theorem reduce_reduce (t : IntType) (v : Int) : t.reduce (t.reduce v) = t.reduce v :=
  reduce_of_holds (t.reduce_holds v)

theorem reduce_eq_self_iff {t : IntType} {v : Int} : t.reduce v = v ↔ t.Holds v :=
  ⟨fun h => h ▸ t.reduce_holds v, reduce_of_holds⟩

theorem reduce_congr {t : IntType} {v w : Int} (h : v % 2^t.bits = w % 2^t.bits) :
    t.reduce v = t.reduce w :=
  eq_of_emod (t.reduce_holds v) (t.reduce_holds w) (by rw [reduce_emod, reduce_emod, h])

/-- Going through a type at least as wide does not change the final conversion. -/
theorem reduce_through {s t : IntType} (h : t.bits ≤ s.bits) (v : Int) :
    t.reduce (s.reduce v) = t.reduce v := by
  apply reduce_congr
  have hd : (2 : Int)^t.bits ∣ 2^s.bits := pow_dvd_pow 2 h
  rw [← Int.emod_emod_of_dvd (s.reduce v) hd, s.reduce_emod, Int.emod_emod_of_dvd v hd]

theorem reduce_add (t : IntType) (v w : Int) :
    t.reduce (t.reduce v+t.reduce w) = t.reduce (v+w) := by
  apply reduce_congr
  rw [Int.add_emod, reduce_emod, reduce_emod, ← Int.add_emod]

theorem reduce_sub (t : IntType) (v w : Int) :
    t.reduce (t.reduce v-t.reduce w) = t.reduce (v-w) := by
  apply reduce_congr
  rw [Int.sub_emod, reduce_emod, reduce_emod, ← Int.sub_emod]

theorem reduce_mul (t : IntType) (v w : Int) :
    t.reduce (t.reduce v*t.reduce w) = t.reduce (v*w) := by
  apply reduce_congr
  rw [Int.mul_emod, reduce_emod, reduce_emod, ← Int.mul_emod]

theorem Within.holds {s t : IntType} (h : s.Within t) {v : Int} (hv : s.Holds v) : t.Holds v :=
  ⟨h.1.trans hv.1, hv.2.trans h.2⟩

theorem Within.refl (t : IntType) : t.Within t := ⟨le_refl _, le_refl _⟩

theorem two_pow_mono {m n : Nat} (h : m ≤ n) : (2 : Int)^m ≤ 2^n :=
  pow_le_pow_right₀ (by decide) h

theorem within_of_same {s t : IntType} (hs : s.signed = t.signed) (hb : s.bits ≤ t.bits) :
    s.Within t := by
  have h₁ := two_pow_mono hb
  have h₂ := two_pow_mono (m := s.bits-1) (n := t.bits-1) (by omega)
  by_cases h : t.signed <;> simp [Within, lo, hi, hs, h] <;> omega

theorem within_of_unsigned {s t : IntType} (hs : s.signed = false) (ht : t.signed = true)
    (hb : s.bits < t.bits) : s.Within t := by
  have h₁ := two_pow_mono (m := s.bits) (n := t.bits-1) (by omega)
  have h₂ := two_pow_pos (t.bits-1)
  simp [Within, lo, hi, hs, ht]; omega

end IntType

structure Word (t : IntType) where
  val : Int
  mem : t.Holds val
  deriving DecidableEq

namespace Word
variable {s t : IntType}

@[ext] theorem ext {v w : Word t} (h : v.val = w.val) : v = w := by
  cases v; cases w; simp_all

def ofInt (t : IntType) (v : Int) : Word t := ⟨t.reduce v, t.reduce_holds v⟩

/-- The conversion of C between integer types: the congruent value of the target. -/
def cast (t : IntType) (w : Word s) : Word t := ofInt t w.val

def add (v w : Word t) : Word t := ofInt t (v.val+w.val)
def sub (v w : Word t) : Word t := ofInt t (v.val-w.val)
def mul (v w : Word t) : Word t := ofInt t (v.val*w.val)

def toBits (w : Word t) : BitVec t.bits := BitVec.ofInt t.bits w.val

def ofBits (t : IntType) (b : BitVec t.bits) : Word t := ofInt t b.toInt

def land (v w : Word t) : Word t := ofBits t (v.toBits &&& w.toBits)
def lor (v w : Word t) : Word t := ofBits t (v.toBits ||| w.toBits)
def lxor (v w : Word t) : Word t := ofBits t (v.toBits ^^^ w.toBits)
def shiftLeft (v : Word t) (amount : Nat) : Word t := ofBits t (v.toBits <<< amount)
def shiftRight (v : Word t) (amount : Nat) : Word t := ofBits t (v.toBits >>> amount)

def minimum (t : IntType) : Word t := ⟨t.lo, le_refl _, (t.holds_zero.1).trans t.holds_zero.2⟩
def maximum (t : IntType) : Word t := ⟨t.hi, (t.holds_zero.1).trans t.holds_zero.2, le_refl _⟩

@[simp] theorem ofInt_val (t : IntType) (v : Int) : (ofInt t v).val = t.reduce v := rfl
@[simp] theorem cast_val (t : IntType) (w : Word s) : (w.cast t).val = t.reduce w.val := rfl
@[simp] theorem add_val (v w : Word t) : (v.add w).val = t.reduce (v.val+w.val) := rfl
@[simp] theorem sub_val (v w : Word t) : (v.sub w).val = t.reduce (v.val-w.val) := rfl
@[simp] theorem mul_val (v w : Word t) : (v.mul w).val = t.reduce (v.val*w.val) := rfl
@[simp] theorem minimum_val (t : IntType) : (minimum t).val = t.lo := rfl
@[simp] theorem maximum_val (t : IntType) : (maximum t).val = t.hi := rfl

theorem ofInt_of_holds {v : Int} (h : t.Holds v) : ofInt t v = ⟨v, h⟩ :=
  ext (IntType.reduce_of_holds h)

theorem cast_val_of_holds {w : Word s} (h : t.Holds w.val) : (w.cast t).val = w.val :=
  IntType.reduce_of_holds h

theorem cast_self (w : Word t) : w.cast t = w := ext (IntType.reduce_of_holds w.mem)

end Word
end Machine
